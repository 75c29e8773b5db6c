import Xv6.File
import Xv6.Fs.Links
import Xv6.Lib.Refcount

namespace Xv6

open Wp Refcount FilesM
open Function (update update_of_ne update_self)

def Fine (e : FileStop) : Prop := e ≠ .fs (.panic .ilockNoType)

-- The stops of a call whose file-system functions stop only as E says.
def Stops (E : FsStop → Prop) : FileStop → Prop
  | .fs e => E e
  | _ => True

theorem Stops.fine {e : FileStop} (h : Stops NotNoType e) : Fine e := by
  rintro rfl
  exact h rfl

def FileKind.ip : FileKind → Option Ip
  | .inode ip _ | .device ip _ => some ip
  | .none | .pipe _ => .none

@[simp] theorem wp_ofFs {α : Type} {m : FsM α} {post : α → Files → Prop} {err : FileStop → Prop} {s : Files} :
    wp (ofFs m) post err s ↔ wp m (fun a fs => post a { s with fs := fs }) (fun e => err (.fs e)) s.fs :=
  wp_zoom

@[simp] theorem wp_ofRam {α : Type} {m : RamM α} {post : α → Files → Prop} {err : FileStop → Prop} {s : Files} :
    wp (ofRam m) post err s ↔ wp m (fun a ram => post a { s with ram := ram }) (fun e => err (.ram e)) s.ram :=
  wp_zoom

namespace Files

-- The pointers to inodes: the working directories and the open files.
def inodeOf (cwd : Slot → Option Ip) (ftable : Fd → File) : Slot ⊕ Fd → Option Ip :=
  Sum.elim cwd fun f => (ftable f).kind.ip

def fileOf (ofile : Slot → Fin NOFILE → Option Fd) (a : Slot × Fin NOFILE) : Option Fd := ofile a.1 a.2

-- Every pointer is counted; the call in progress has the references L and M as
-- well. cwd and ofile are taken as they will be when it is over. I is what is known of
-- the file system, and no file that can be written is a directory.
structure Holds (I : Fs → Prop) (cwd : Slot → Option Ip) (ofile : Slot → Fin NOFILE → Option Fd) (s : Files)
    (L : List Ip) (M : List Fd) : Prop where
  inv : I s.fs
  inodes : ∀ i, held (inodeOf cwd s.ftable) i + L.count i ≤ (s.fs.itable i).ref
  files : ∀ f, held (fileOf ofile) f + M.count f ≤ (s.ftable f).ref
  idle : ∀ f, (s.ftable f).ref = 0 → (s.ftable f).kind = .none
  writers : ∀ f i, (s.ftable f).writable = true → (s.ftable f).kind.ip = some i →
    ∃ type, s.fs.OfType i type ∧ type ≠ .dir

def AtRest (I : Fs → Prop) (s : Files) : Prop := Holds I s.cwd s.ofile s [] []

def Inv (s : Files) : Prop := AtRest (·.Linked 0) s

-- I is kept by the functions of fs.c that the calls use, and E tells how they can stop.
structure Rules (I : Fs → Prop) (E : FsStop → Prop) : Prop where
  ok : ∀ {s}, I s → s.Ok
  clean : ∀ {s}, I s → s.Clean
  outstanding : ∀ {s} n, I s → I { s with outstanding := n }
  iput : ∀ {s i x}, I s → s.At i x → wp (iput i) (fun _ t => Fs.Puts i x s t ∧ I t) E s
  idup : ∀ {s i x}, I s → s.At i x → wp (idup i) (fun j t => j = i ∧ s.Net t [i] ∧ I t) E s
  ilock : ∀ {s i x}, I s → s.At i x → wp (ilock i) (fun _ t => s.Net t [] ∧ I t ∧ t.Held i x) E s
  iunlock : ∀ {s i x}, I s → s.At i x → wp (iunlock i) (fun _ t => s.Net t [] ∧ I t) E s
  itrunc : ∀ {s i x}, I s → s.Held i x → (s.view x).type ≠ .dir → wp (itrunc i) (fun _ t => s.Net t [] ∧ I t) E s
  namei : ∀ {s c x} path, I s → s.At c x → wp (namei c path) (fun r t => s.Net t r.toList ∧ I t) E s

variable {I : Fs → Prop} {E : FsStop → Prop} {s t : Files} {fs : Fs} {cwd : Slot → Option Ip}
  {ofile : Slot → Fin NOFILE → Option Fd} {L L' : List Ip} {M M' : List Fd} {i : Ip} {f : Fd} {p : Slot}
  {fd : Fin NOFILE}

theorem inodeOf_cwd (ftable : Fd → File) (o : Option Ip) :
    inodeOf (update cwd p o) ftable = update (inodeOf cwd ftable) (.inl p) o := by
  funext a
  cases a with
  | inl q =>
      by_cases hq : q = p
      · subst hq
        simp [inodeOf]
      · simp [inodeOf, update_of_ne hq, update_of_ne (show Sum.inl q ≠ Sum.inl p by simpa using hq)]
  | inr g => simp [inodeOf]

theorem inodeOf_file (ftable : Fd → File) (file : File) :
    inodeOf cwd (update ftable f file) = update (inodeOf cwd ftable) (.inr f) file.kind.ip := by
  funext a
  cases a with
  | inl q => simp [inodeOf]
  | inr g =>
      by_cases hg : g = f
      · subst hg
        simp [inodeOf]
      · simp [inodeOf, update_of_ne hg, update_of_ne (show Sum.inr g ≠ Sum.inr f by simpa using hg)]

theorem fileOf_update (o : Option Fd) :
    fileOf (update ofile p (update (ofile p) fd o)) =
      update (fileOf ofile) (p, fd) o := by
  funext ⟨q, gd⟩
  by_cases hq : q = p
  · subst hq
    by_cases hd : gd = fd
    · subst hd
      simp [fileOf]
    · simp [fileOf, update_of_ne hd, update_of_ne (show (q, gd) ≠ (q, fd) by simpa using hd)]
  · simp [fileOf, update_of_ne hq, update_of_ne (show (q, gd) ≠ (p, fd) by simp [hq])]

namespace Holds

theorem handle (h : Holds I cwd ofile s L M) (hi : i ∈ L) : s.fs.At i (s.fs.itable i).inum := by
  have := h.inodes i
  have := List.count_pos_iff.mpr hi
  exact ⟨by omega, rfl⟩

theorem handle_cwd (h : Holds I cwd ofile s L M) (hp : cwd p = some i) : s.fs.At i (s.fs.itable i).inum := by
  have := h.inodes i
  have := held_pos (h := inodeOf cwd s.ftable) (a := .inl p) hp
  exact ⟨by omega, rfl⟩

theorem handle_file (h : Holds I cwd ofile s L M) (hf : (s.ftable f).kind.ip = some i) :
    s.fs.At i (s.fs.itable i).inum := by
  have := h.inodes i
  have := held_pos (h := inodeOf cwd s.ftable) (a := .inr f) hf
  exact ⟨by omega, rfl⟩

-- The file system has changed and the call has got the references L'.
theorem of_net (h : Holds I cwd ofile s L M) (hnet : s.fs.Net fs L') (hI : I fs) :
    Holds I cwd ofile { s with fs := fs } (L' ++ L) M where
  inv := hI
  inodes i := by
    have := h.inodes i
    change held (inodeOf cwd s.ftable) i + _ ≤ (fs.itable i).ref
    rw [List.count_append, hnet.ref]
    omega
  files := h.files
  idle := h.idle
  writers f j hw hj := by
    obtain ⟨type, hof, hdir⟩ := h.writers f j hw hj
    exact ⟨type, hof.keep (hnet.keep j (h.handle_file hj).ref), hdir⟩

theorem put {x : ℕ} (h : Holds I cwd ofile s (i :: L) M) (hp : Fs.Puts i x s.fs fs) (hI : I fs) :
    Holds I cwd ofile { s with fs := fs } L M := by
  have hinodes : ∀ j, held (inodeOf cwd s.ftable) j + L.count j ≤ (fs.itable j).ref := fun j => by
    have hj := h.inodes j
    by_cases hji : j = i
    · subst hji
      rw [List.count_cons_self] at hj
      have := hp.ref
      omega
    · rw [List.count_cons_of_ne (Ne.symm hji)] at hj
      rw [hp.entry j hji]
      exact hj
  refine ⟨hI, hinodes, h.files, h.idle, fun f j hw hj => ?_⟩
  obtain ⟨type, hof, hdir⟩ := h.writers f j hw hj
  refine ⟨type, hof.keep ?_, hdir⟩
  by_cases hji : j = i
  · subst hji
    have hpos := held_pos (h := inodeOf cwd s.ftable) (a := .inr f) hj
    exact hp.keep (by have := hinodes j; omega)
  · exact .of_eq (hp.entry j hji)

theorem outstanding (R : Rules I E) (h : Holds I cwd ofile s L M) (n : ℕ) :
    Holds I cwd ofile { s with fs := { s.fs with outstanding := n } } L M := by
  refine ⟨R.outstanding n h.inv, h.inodes, h.files, h.idle, fun f j hw hj => ?_⟩
  obtain ⟨type, hof, hdir⟩ := h.writers f j hw hj
  exact ⟨type, ⟨hof.valid, hof.type⟩, hdir⟩

theorem setCwd (h : Holds I cwd ofile s L M) (p : Slot) (o : Option Ip)
    (hin : ∀ i, L'.count i + (if o = some i then 1 else 0) ≤ L.count i + if cwd p = some i then 1 else 0) :
    Holds I (update cwd p o) ofile s L' M where
  inv := h.inv
  inodes i := by
    have := h.inodes i
    have := hin i
    have hupd := held_update (inodeOf cwd s.ftable) (.inl p) o i
    rw [← inodeOf_cwd] at hupd
    change _ + (if cwd p = some i then 1 else 0) = _ at hupd
    omega
  files := h.files
  idle := h.idle
  writers := h.writers

theorem setFd (h : Holds I cwd ofile s L M) (p : Slot) (fd : Fin NOFILE) (o : Option Fd)
    (hin : ∀ f, M'.count f + (if o = some f then 1 else 0) ≤ M.count f + if ofile p fd = some f then 1 else 0) :
    Holds I cwd (update ofile p (update (ofile p) fd o)) s L M' where
  inv := h.inv
  inodes := h.inodes
  files f := by
    have := h.files f
    have := hin f
    have hupd := held_update (fileOf ofile) (p, fd) o f
    rw [← fileOf_update] at hupd
    change _ + (if ofile p fd = some f then 1 else 0) = _ at hupd
    omega
  idle := h.idle
  writers := h.writers

theorem perm (h : Holds I cwd ofile s L M) (hM : M.Perm M') : Holds I cwd ofile s L M' :=
  ⟨h.inv, h.inodes, fun f => hM.count_eq f ▸ h.files f, h.idle, h.writers⟩

-- A descriptor takes over the reference to a file, and gives it back.
theorem takeFd (h : Holds I s.cwd s.ofile s L (f :: M)) (hnone : s.ofile p fd = none) :
    Holds I (s.setFd p fd (some f)).cwd (s.setFd p fd (some f)).ofile (s.setFd p fd (some f)) L M := by
  have hset : Holds I s.cwd (s.setFd p fd (some f)).ofile s L M := h.setFd p fd (some f) fun g => by
    rw [hnone, List.count_cons]
    simp
  exact ⟨hset.inv, hset.inodes, hset.files, hset.idle, hset.writers⟩

theorem dropFd (h : Holds I s.cwd s.ofile s L M) (hf : s.ofile p fd = some f) :
    Holds I (s.setFd p fd none).cwd (s.setFd p fd none).ofile (s.setFd p fd none) L (f :: M) := by
  have hset : Holds I s.cwd (s.setFd p fd none).ofile s L (f :: M) := h.setFd p fd none fun g => by
    rw [hf, List.count_cons]
    simp
  exact ⟨hset.inv, hset.inodes, hset.files, hset.idle, hset.writers⟩

theorem setFile (h : Holds I cwd ofile s L M) (f : Fd) (g : File → File)
    (hin : ∀ i, L'.count i + (if (g (s.ftable f)).kind.ip = some i then 1 else 0) ≤
      L.count i + if (s.ftable f).kind.ip = some i then 1 else 0)
    (hother : ∀ f', f' ≠ f → M'.count f' ≤ M.count f')
    (hself : held (fileOf ofile) f + M'.count f ≤ (g (s.ftable f)).ref)
    (hidle : (g (s.ftable f)).ref = 0 → (g (s.ftable f)).kind = .none)
    (hwriter : (g (s.ftable f)).writable = true → ∀ i, (g (s.ftable f)).kind.ip = some i →
      ∃ type, s.fs.OfType i type ∧ type ≠ .dir) :
    Holds I cwd ofile (s.setFile f g) L' M' where
  inv := h.inv
  inodes i := by
    have := h.inodes i
    have := hin i
    have hupd := held_update (inodeOf cwd s.ftable) (.inr f) (g (s.ftable f)).kind.ip i
    rw [← inodeOf_file] at hupd
    change _ + (if (s.ftable f).kind.ip = some i then 1 else 0) = _ at hupd
    change held (inodeOf cwd (update s.ftable f (g (s.ftable f)))) i + _ ≤ (s.fs.itable i).ref
    omega
  files f' := by
    change _ ≤ (update s.ftable f (g (s.ftable f)) f').ref
    by_cases hf : f' = f
    · subst hf
      rw [update_self]
      exact hself
    · rw [update_of_ne hf]
      have := h.files f'
      have := hother f' hf
      omega
  idle f' hf' := by
    change (update s.ftable f (g (s.ftable f)) f').ref = 0 at hf'
    change (update s.ftable f (g (s.ftable f)) f').kind = _
    by_cases hf : f' = f
    · subst hf
      rw [update_self] at hf' ⊢
      exact hidle hf'
    · rw [update_of_ne hf] at hf' ⊢
      exact h.idle f' hf'
  writers f' j hw hj := by
    change (update s.ftable f (g (s.ftable f)) f').writable = true at hw
    change (update s.ftable f (g (s.ftable f)) f').kind.ip = some j at hj
    by_cases hf : f' = f
    · subst hf
      rw [update_self] at hw hj
      exact hwriter hw j hj
    · rw [update_of_ne hf] at hw hj
      exact h.writers f' j hw hj

theorem give (h : Holds I cwd ofile s [i] []) (f : Fd) (g : File → File) (hkind : (g (s.ftable f)).kind.ip = some i)
    (href : (g (s.ftable f)).ref = (s.ftable f).ref) (hpos : (s.ftable f).ref ≠ 0)
    (hwriter : (g (s.ftable f)).writable = true → ∃ type, s.fs.OfType i type ∧ type ≠ .dir) :
    Holds I cwd ofile (s.setFile f g) [] [] := by
  refine h.setFile f g (fun j => ?_) (fun _ _ => le_refl _) ?_ (fun hz => ?_) fun hw j hj => ?_
  · rw [hkind, List.count_singleton]
    simp
  · rw [href]
    exact h.files f
  · rw [href] at hz
    exact absurd hz hpos
  · rw [hkind, Option.some.injEq] at hj
    exact hj ▸ hwriter hw

end Holds

-- iput(ip); end_op(); and the same after begin_op() or iunlock(ip).
theorem iputEnd_holds (R : Rules I E) (h : Holds I cwd ofile s (i :: L) M) :
    wp (do iput i; endOp) (fun _ fs => Holds I cwd ofile { s with fs := fs } L M) E s.fs := by
  unfold endOp
  simp only [wp_bind, wp_modify]
  refine wp_post (R.iput h.inv (h.handle List.mem_cons_self)) ?_
  rintro _ fs ⟨hp, hI⟩
  exact (h.put hp hI).outstanding R _

theorem iputOp_holds (R : Rules I E) (h : Holds I cwd ofile s (i :: L) M) :
    wp (do beginOp; iput i; endOp) (fun _ fs => Holds I cwd ofile { s with fs := fs } L M) E s.fs := by
  unfold beginOp
  rw [wp_bind, wp_modify]
  exact iputEnd_holds R (h.outstanding R (s.fs.outstanding + 1))

theorem iunlockputOp_holds (R : Rules I E) (h : Holds I cwd ofile s (i :: L) M) :
    wp (do iunlockput i; endOp) (fun _ fs => Holds I cwd ofile { s with fs := fs } L M) E s.fs := by
  unfold iunlockput
  rw [wp_bind, wp_bind]
  refine wp_post (R.iunlock h.inv (h.handle List.mem_cons_self)) ?_
  rintro _ fs ⟨hnet, hI⟩
  rw [← wp_bind]
  exact iputEnd_holds R (h.of_net hnet hI)

theorem pipeclose_holds (h : Holds I cwd ofile s L M) (pi : ℕ) (writable : Bool) :
    wp (pipeclose pi writable) (fun _ t => Holds I cwd ofile t L M ∧ t.cwd = s.cwd ∧ t.ofile = s.ofile)
      (Stops E) s := by
  unfold pipeclose
  simp only [wp_bind, wp_get, wp_modify]
  generalize (if writable = true then _ else _ : Pipe) = pipe
  have hsame : ∀ ram, Holds I cwd ofile { s with ram := ram, pipe := update s.pipe pi pipe } L M :=
    fun _ => ⟨h.inv, h.inodes, h.files, h.idle, h.writers⟩
  split
  · rw [wp_ofRam]
    unfold kfree
    simp only [wp_bind, wp_get, wp_ite, wp_throw, wp_modify]
    split
    · trivial
    · exact ⟨hsame _, trivial, trivial⟩
  · exact ⟨hsame _, rfl, rfl⟩

theorem fileclose_holds (R : Rules I E) (h : Holds I cwd ofile s L (f :: M)) :
    wp (fileclose f) (fun _ t => Holds I cwd ofile t L M ∧ t.cwd = s.cwd ∧ t.ofile = s.ofile) (Stops E) s := by
  have hf := h.files f
  rw [List.count_cons_self] at hf
  have hother : ∀ f', f' ≠ f → M.count f' ≤ (f :: M).count f' := fun f' hne => by
    rw [List.count_cons_of_ne (Ne.symm hne)]
  unfold fileclose
  simp only [wp_bind, wp_get, wp_ite, wp_throw, wp_modify]
  split
  · trivial
  · split
    · refine ⟨h.setFile f _ (fun _ => le_refl _) hother ?_ ?_ fun hw i hi => h.writers f i hw hi, rfl, rfl⟩
      · change _ ≤ (s.ftable f).ref - 1
        omega
      · intro hz
        change (s.ftable f).ref - 1 = 0 at hz
        omega
    · -- The last reference: the file lets go of its inode, too.
      have hdrop : ∀ {L'}, (∀ i, L'.count i ≤ L.count i + if (s.ftable f).kind.ip = some i then 1 else 0) →
          Holds I cwd ofile (s.setFile f fun file => { file with ref := 0, kind := .none }) L' M := fun hL =>
        h.setFile f _ (fun i => by simpa [FileKind.ip] using hL i) hother
          (by change _ ≤ 0; omega) (fun _ => rfl) fun _ _ hi => by cases hi
      have hinode : ∀ {ip}, (s.ftable f).kind.ip = some ip →
          Holds I cwd ofile (s.setFile f fun file => { file with ref := 0, kind := .none }) (ip :: L) M :=
        fun {ip} hip => hdrop fun i => by
          rw [hip, List.count_cons]
          simp
      split
      · rename_i hkind
        exact ⟨hdrop fun i => Nat.le_add_right _ _, rfl, rfl⟩
      · exact pipeclose_holds (hdrop fun i => Nat.le_add_right _ _) _ _
      all_goals
        rename_i hkind
        rw [wp_ofFs]
        exact wp_post (iputOp_holds R (hinode (by rw [hkind]; rfl))) fun _ _ h => ⟨h, rfl, rfl⟩

theorem filealloc_holds (h : Holds I cwd ofile s L M) :
    wp filealloc (fun r t => t.fs = s.fs ∧ t.cwd = s.cwd ∧ t.ofile = s.ofile ∧ match r with
      | none => t = s
      | some f => Holds I cwd ofile t L (f :: M) ∧ (t.ftable f).kind = .none ∧ (t.ftable f).ref = 1) (Stops E) s := by
  unfold filealloc
  simp only [wp_bind, wp_get]
  split
  · rename_i f hfind
    have hz : (s.ftable f).ref = 0 := by simpa using List.find?_some hfind
    simp only [wp_bind, wp_set, wp_pure]
    have hf := h.files f
    refine ⟨rfl, rfl, rfl, h.setFile f _ (fun _ => le_refl _) ?_ ?_ ?_ ?_, ?_, ?_⟩
    · intro f' hne
      rw [List.count_cons_of_ne (Ne.symm hne)]
    · rw [List.count_cons_self]
      change _ ≤ 1
      omega
    · intro h
      cases h
    · intro _ i hi
      change (s.ftable f).kind.ip = some i at hi
      rw [h.idle f hz] at hi
      cases hi
    · simp [Files.setFile, h.idle f hz]
    · simp [Files.setFile]
  · exact ⟨rfl, rfl, rfl, rfl⟩

theorem fdalloc_spec (p : Slot) (f : Fd) (s : Files) :
    wp (fdalloc p f) (fun r t => match r with
      | none => t = s
      | some fd => s.ofile p fd = none ∧ t = s.setFd p fd (some f)) (Stops E) s := by
  unfold fdalloc
  simp only [wp_bind, wp_get]
  split
  · rename_i fd hfind
    have hnone : s.ofile p fd = none := by simpa using List.find?_some hfind
    exact ⟨hnone, rfl⟩
  · rfl

theorem filedup_holds (h : Holds I cwd ofile s L M) (f : Fd) :
    wp (filedup f) (fun r t => r = f ∧ Holds I cwd ofile t L (f :: M) ∧ t.cwd = s.cwd ∧ t.ofile = s.ofile)
      (Stops E) s := by
  unfold filedup
  simp only [wp_bind, wp_get, wp_ite, wp_throw, wp_modify, wp_pure]
  split
  · trivial
  · refine ⟨trivial, h.setFile f _ (fun _ => le_refl _) (fun f' hne => ?_) ?_ ?_ fun hw i hi => h.writers f i hw hi,
      rfl, rfl⟩
    · rw [List.count_cons_of_ne (Ne.symm hne)]
    · have := h.files f
      rw [List.count_cons_self]
      change _ ≤ (s.ftable f).ref + 1
      omega
    · intro hz
      cases hz

theorem argfd_spec (p : Slot) (n : Int) (s : Files) :
    wp (argfd p n) (fun r t => t = s ∧ ∀ fd f, r = some (fd, f) → s.ofile p fd = some f) (Stops E) s := by
  unfold argfd
  split
  · simp only [wp_bind, wp_get, wp_pure]
    refine ⟨trivial, fun fd f hr => ?_⟩
    obtain ⟨g, hg, heq⟩ := Option.map_eq_some_iff.mp hr
    cases heq
    exact hg
  · exact ⟨rfl, fun _ _ h => by cases h⟩

theorem mycwd_spec (p : Slot) (s : Files) :
    wp (mycwd p) (fun ip t => t = s ∧ s.cwd p = some ip) (Stops E) s := by
  unfold mycwd
  simp only [wp_bind, wp_get]
  split
  · rename_i ip hip
    exact ⟨rfl, hip⟩
  · trivial

theorem AtRest.of_holds (h : Holds I cwd ofile t [] []) (hcwd : t.cwd = cwd) (hofile : t.ofile = ofile) :
    AtRest I t := by
  unfold AtRest
  rw [hcwd, hofile]
  exact h

theorem sysDup_rest (h : AtRest I s) (p : Slot) (n : Int) : wp (sysDup p n) (fun _ t => AtRest I t) (Stops E) s := by
  unfold sysDup
  simp only [wp_bind]
  refine wp_post (argfd_spec p n s) ?_
  rintro (_ | ⟨_, f⟩) s ⟨rfl, -⟩
  · exact h
  · simp only [wp_bind]
    refine wp_post (fdalloc_spec p f s) ?_
    rintro (_ | fd) t ht
    · rw [ht]
      exact h
    · obtain ⟨hnone, rfl⟩ := ht
      simp only [wp_bind, wp_pure]
      have h' : Holds I s.cwd s.ofile (s.setFd p fd (some f)) [] [] :=
        ⟨h.inv, h.inodes, h.files, h.idle, h.writers⟩
      refine wp_map.mpr (wp_post (filedup_holds h' f) ?_)
      rintro _ t ⟨-, ht, hcwd, hofile⟩
      exact .of_holds (ht.setFd p fd (some f) fun g => by simp [hnone, List.count_singleton]) hcwd hofile

theorem sysClose_rest (R : Rules I E) (h : AtRest I s) (p : Slot) (n : Int) :
    wp (sysClose p n) (fun _ t => AtRest I t) (Stops E) s := by
  unfold sysClose
  simp only [wp_bind]
  refine wp_post (argfd_spec p n s) ?_
  rintro (_ | ⟨fd, f⟩) s ⟨rfl, hf⟩
  · exact h
  · have hf := hf fd f rfl
    simp only [wp_bind, wp_modify, wp_pure]
    refine wp_post (fileclose_holds R (Holds.dropFd h hf)) ?_
    rintro _ t ⟨ht, hcwd, hofile⟩
    exact .of_holds ht hcwd hofile

def Creates (I : Fs → Prop) (E : FsStop → Prop) (s : Fs) (path : List UInt8) (type : FileType)
    (major minor : BitVec 16) : Prop :=
  ∀ c x, s.At c x → wp (create c path type major minor) (fun r t => s.Net t r.toList ∧ I t ∧
    ∀ ip ∈ r, t.OfType ip type ∨ t.OfType ip .device) E s

-- The inode has been read, and is no directory unless it is opened for reading only.
theorem openInode_spec (R : Rules I E) {c : Ip} {x : ℕ} (hI : I fs) (hc : fs.At c x) (path : List UInt8)
    (omode : BitVec 32) (hcreate : omode &&& O_CREATE ≠ 0 → Creates I E fs path .file 0 0) :
    wp (openInode c path omode) (fun r t => fs.Net t r.toList ∧ I t ∧
      ∀ ip ∈ r, ∃ type, t.OfType ip type ∧ (type = .dir → omode = O_RDONLY)) E fs := by
  have hnone : ∀ {t : Fs}, ∀ ip ∈ (none : Option Ip), ∃ type, t.OfType ip type ∧ (type = .dir → omode = O_RDONLY) :=
    fun _ hip => (Option.not_mem_none _ hip).elim
  unfold openInode
  simp only [wp_ite, wp_bind]
  split
  · rename_i hmode
    refine wp_post (hcreate hmode c x hc) fun r t h => ⟨h.1, h.2.1, fun ip hip => ?_⟩
    rcases h.2.2 ip hip with hfile | hdevice
    · exact ⟨_, hfile, fun h => by cases h⟩
    · exact ⟨_, hdevice, fun h => by cases h⟩
  · refine wp_post (R.namei path hI hc) ?_
    rintro (_ | ip) t₁ ⟨h₁, hI₁⟩
    · exact ⟨h₁, hI₁, hnone⟩
    · simp only [wp_bind, wp_get, wp_ite, wp_pure]
      refine wp_post (R.ilock hI₁ (h₁.at_of_mem List.mem_cons_self)) ?_
      rintro _ t₂ ⟨h₂, hI₂, hip⟩
      have h₂ : fs.Net t₂ [ip] := h₁.trans h₂
      split
      · unfold iunlockput
        rw [wp_bind]
        refine wp_post (R.iunlock hI₂ hip.toAt) ?_
        rintro _ t₃ ⟨h₃, hI₃⟩
        refine wp_post (R.iput hI₃ (h₃.handle hip.toAt)) ?_
        rintro _ t₄ ⟨hp, hI₄⟩
        exact ⟨(h₂.trans h₃).put hp, hI₄, hnone⟩
      · rename_i hdir
        refine ⟨h₂, hI₂, fun j hj => ?_⟩
        cases hj
        exact ⟨_, ⟨hip.valid, rfl⟩, fun h => not_not.mp fun hmode => hdir ⟨h, hmode⟩⟩

theorem openEnd_spec (R : Rules I E) {ip : Ip} {x : ℕ} (hI : I fs) (hip : fs.Held ip x) (omode : BitVec 32) :
    wp (openEnd ip omode) (fun _ t => ∃ u, fs.Net u [] ∧ I u ∧ t = { u with outstanding := u.outstanding - 1 })
      E fs := by
  have hend : ∀ {t : Fs}, fs.Net t [] → I t → wp (iunlock ip) (fun _ w =>
      ∃ u, fs.Net u [] ∧ I u ∧ { w with outstanding := w.outstanding - 1 } =
        { u with outstanding := u.outstanding - 1 }) E t := fun hnet hI => by
    refine wp_post (R.iunlock hI (hnet.handle hip.toAt)) ?_
    rintro _ u ⟨hnet', hI'⟩
    exact ⟨u, hnet.trans hnet', hI', rfl⟩
  unfold openEnd endOp
  simp only [wp_bind, wp_get, wp_ite, wp_modify]
  split
  · rename_i htrunc
    refine wp_post (R.itrunc hI hip ?_) fun _ t h => hend h.1 h.2
    rw [(R.ok hI).table.view_eq hip, htrunc.2]
    decide
  · exact hend (.refl (R.ok hI) (R.clean hI)) hI

theorem openFail_rest (R : Rules I E) (h : Holds I s.cwd s.ofile s [i] []) :
    wp (openFail i) (fun _ t => AtRest I t) (Stops E) s := by
  unfold openFail
  rw [wp_bind, wp_ofFs]
  exact iunlockputOp_holds R h

theorem openFile_rest (R : Rules I E) {type : FileType} (h : Holds I s.cwd s.ofile s [i] []) (p : Slot)
    (omode : BitVec 32) (hof : s.fs.OfType i type) (hdir : type = .dir → omode = O_RDONLY) :
    wp (openFile p i omode) (fun _ t => AtRest I t) (Stops E) s := by
  unfold openFile
  simp only [wp_bind, wp_get, wp_ite]
  split
  · exact openFail_rest R h
  · refine wp_post (filealloc_holds h) ?_
    rintro (_ | f) t₁ ⟨hfs, hcwd, hofile, h₁⟩
    · rw [h₁]
      exact openFail_rest R h
    · obtain ⟨h₁, hkind, href⟩ := h₁
      rw [← hcwd, ← hofile] at h₁
      rw [← hfs] at hof
      simp only [wp_bind]
      refine wp_post (fdalloc_spec p f t₁) ?_
      rintro (_ | fd) t₂ h₂
      · subst h₂
        simp only [wp_bind]
        refine wp_post (fileclose_holds R h₁) ?_
        rintro _ t₃ ⟨h₃, hcwd₃, hofile₃⟩
        rw [← hcwd₃, ← hofile₃] at h₃
        exact openFail_rest R h₃
      · obtain ⟨hnone, rfl⟩ := h₂
        simp only [wp_bind, wp_modify, wp_pure, wp_ofFs]
        -- The descriptor takes the reference to the file, and the file that to the inode.
        have h₃ := (h₁.takeFd hnone).give f (fun file => { file with
            kind := if (s.fs.itable i).copy.type = .device then .device i (s.fs.itable i).copy.major else .inode i 0
            readable := omode &&& O_WRONLY = 0
            writable := omode &&& O_WRONLY ≠ 0 ∨ omode &&& O_RDWR ≠ 0 }) (by split <;> rfl) rfl
          (by change (t₁.ftable f).ref ≠ 0; omega) fun hw => ⟨type, hof, by
            rintro rfl
            rw [hdir rfl] at hw
            simp [O_RDONLY] at hw⟩
        have hat := h₁.handle (List.mem_singleton_self i)
        refine wp_post (openEnd_spec R h₁.inv ⟨hat, hof.valid⟩ omode) ?_
        rintro _ _ ⟨u, hnet, hI, rfl⟩
        exact Holds.outstanding R (Holds.of_net h₃ hnet hI) _

end Files

end Xv6
