import Xv6.File.Write
import Xv6.Lib.Except
import Xv6.Lib.Transition

namespace Xv6

open Wp Transition FilesM
open Function (update update_of_ne update_self)

structure WriteCall where
  src : Source
  n : ℕ
  i : ℕ

namespace WriteCall

def size (c : WriteCall) : ℕ := if c.n - c.i > WRITE_MAX then WRITE_MAX else c.n - c.i

def bytes (c : WriteCall) : List UInt8 := (List.range c.size).map (c.src.drop c.i).bytes

-- The call after a transaction with the result r; none if it breaks off.
def next (c : WriteCall) (r : Int) : Option WriteCall := if r ≠ c.size then none else some { c with i := c.i + c.size }

end WriteCall

-- Processes P that share a file, and the chunks in the order in which they were written.
structure Sharing (P : Type) where
  files : Files
  call : P → Option WriteCall
  chunks : List (List UInt8)

variable {P : Type} [DecidableEq P] {f : Fd} {ip : Ip} {x off : ℕ}

-- A process calls filewrite on file f, does one transaction or returns. Or something
-- else happens that leaves the bytes of inode x and the offset alone.
inductive SharedStep (f : Fd) (ip : Ip) (x : ℕ) (s : Sharing P) : Sharing P → Prop
  | call (p : P) (src : Source) (n : ℕ) (idle : s.call p = none) (readable : src.Readable n) :
      SharedStep f ip x s { s with call := update s.call p (some ⟨src, n, 0⟩) }
  | chunk (p : P) (c : WriteCall) (r : Int) (files : Files) (busy : s.call p = some c) (more : c.i < c.n)
      (run : writeChunk f ip (c.src.drop c.i) c.size s.files = .ok (r, files)) :
      SharedStep f ip x s ⟨files, update s.call p (c.next r), s.chunks ++ [c.bytes]⟩
  | ret (p : P) (c : WriteCall) (busy : s.call p = some c) (done : ¬c.i < c.n) :
      SharedStep f ip x s { s with call := update s.call p none }
  | other (files : Files) (file : ∀ off, OpenInode s.files f ip x off → OpenInode files f ip x off)
      (contents : files.fs.contents x = s.files.fs.contents x) : SharedStep f ip x s { s with files := files }

-- Alone, a process that is in filewrite's loop takes such steps until it returns.
theorem filewriteLoop_steps {s : Sharing P} {p : P} {c : WriteCall} {fuel : ℕ} {r : Int} {files : Files}
    (hbusy : s.call p = some c) (hfuel : c.n - c.i ≤ fuel)
    (hrun : filewriteLoop f ip c.src c.n fuel c.i s.files = .ok (r, files)) :
    ∃ chunks, Reaches (SharedStep f ip x) s ⟨files, update s.call p none, chunks⟩ := by
  induction fuel generalizing s c with
  | zero =>
      cases hrun
      exact ⟨s.chunks, .single (.ret p c hbusy (by omega))⟩
  | succ fuel ih =>
      rw [filewriteLoop] at hrun
      split at hrun
      · rename_i hmore
        obtain ⟨⟨r₁, files₁⟩, hchunk, hrest⟩ := Except.bind_eq_ok.mp hrun
        have hchunk' : writeChunk f ip (c.src.drop c.i) c.size s.files = .ok (r₁, files₁) := hchunk
        have hstep := SharedStep.chunk (x := x) p c r₁ files₁ hbusy hmore hchunk'
        change (if r₁ ≠ (c.size : Int) then _ else _ : FilesM Int) files₁ = _ at hrest
        split at hrest
        · rename_i hbreak
          cases hrest
          rw [WriteCall.next, if_pos hbreak] at hstep
          exact ⟨_, .single hstep⟩
        · rename_i hfull
          rw [WriteCall.next, if_neg hfull] at hstep
          have hpos : 0 < c.size := by
            have hmax : WRITE_MAX = 3072 := by decide
            unfold WriteCall.size
            split <;> omega
          obtain ⟨chunks, hrun'⟩ := ih (s := ⟨files₁, update s.call p (some { c with i := c.i + c.size }),
            s.chunks ++ [c.bytes]⟩) (update_self ..) (show c.n - (c.i + c.size) ≤ fuel by omega) hrest
          rw [Function.update_idem] at hrun'
          exact ⟨chunks, .head hstep hrun'⟩
      · rename_i hdone
        cases hrun
        exact ⟨s.chunks, .single (.ret p c hbusy hdone)⟩

theorem filewrite_steps {s : Sharing P} {p : P} {src : Source} {n : ℕ} {r : Int} {files : Files}
    {other : FileKind → FilesM Int} (hidle : s.call p = none) (hkind : (s.files.ftable f).kind = .inode ip off)
    (hsrc : src.Readable n) (hrun : filewrite other f src n s.files = .ok (r, files)) :
    ∃ chunks, Reaches (SharedStep f ip x) s ⟨files, s.call, chunks⟩ := by
  change (if (s.files.ftable f).writable = false then _ else _ : FilesM Int) s.files = _ at hrun
  split at hrun
  · cases hrun
    exact ⟨s.chunks, .refl⟩
  · rw [hkind] at hrun
    obtain ⟨chunks, hloop⟩ := filewriteLoop_steps (x := x)
      (s := { s with call := update s.call p (some ⟨src, n, 0⟩) }) (update_self ..) le_rfl hrun
    rw [Function.update_idem, ← hidle, Function.update_eq_self] at hloop
    exact ⟨chunks, .head (.call p src n hidle hsrc) hloop⟩

-- The file is the one of the start with the chunks in it, if these are not too many.
structure Appended (f : Fd) (ip : Ip) (x off : ℕ) (old : List UInt8) (s : Sharing P) : Prop where
  readable : ∀ p c, s.call p = some c → c.src.Readable c.n
  file : off + s.chunks.flatten.length ≤ MAXFILE * BSIZE → OpenInode s.files f ip x (off + s.chunks.flatten.length) ∧
    s.files.fs.contents x = Fs.overwrite old off s.chunks.flatten

theorem WriteCall.length_bytes (c : WriteCall) : c.bytes.length = c.size := by
  rw [bytes, List.length_map, List.length_range]

theorem readable_update {call : P → Option WriteCall} (h : ∀ p c, call p = some c → c.src.Readable c.n) (p : P)
    {v : Option WriteCall} (hv : ∀ c, v = some c → c.src.Readable c.n) (q : P) (c : WriteCall)
    (hc : update call p v q = some c) : c.src.Readable c.n := by
  by_cases hq : q = p
  · subst hq
    rw [update_self] at hc
    exact hv c hc
  · rw [update_of_ne hq] at hc
    exact h q c hc

theorem Appended.step {old : List UInt8} {s t : Sharing P} (h : Appended f ip x off old s) (hoff : off ≤ old.length)
    (hstep : SharedStep f ip x s t) (hroom : ¬t.files.fs.Full) : Appended f ip x off old t := by
  cases hstep with
  | call p src n idle readable =>
      refine ⟨readable_update h.readable p fun c hc => ?_, h.file⟩
      cases hc
      exact readable
  | chunk p c r files busy more run =>
      have hsrc := h.readable p c busy
      refine ⟨readable_update h.readable p fun c' hc => ?_, fun hmax => ?_⟩
      · rw [WriteCall.next] at hc
        split at hc
        · cases hc
        · cases hc
          exact hsrc
      · have hlen : (s.chunks ++ [c.bytes]).flatten = s.chunks.flatten ++ c.bytes := by
          rw [List.flatten_append, List.flatten_singleton]
        change off + (s.chunks ++ [c.bytes]).flatten.length ≤ _ at hmax
        change OpenInode files f ip x (off + (s.chunks ++ [c.bytes]).flatten.length) ∧
          files.fs.contents x = Fs.overwrite old off (s.chunks ++ [c.bytes]).flatten
        rw [hlen, List.length_append, c.length_bytes] at hmax ⊢
        have hwritemax : WRITE_MAX = 3072 := by decide
        have hmaxfile : MAXFILE * BSIZE < 2 ^ 31 := by decide
        have hsize : c.size = min (c.n - c.i) WRITE_MAX := by
          unfold WriteCall.size
          split <;> omega
        obtain ⟨hfile, hcontents⟩ := h.file (by omega)
        have hchunk := writeChunk_spec hfile (show c.size < 2 ^ 32 by omega)
          (hsrc.drop (show c.i + c.size ≤ c.n by omega))
        rw [wp_of_ok run] at hchunk
        have hlength : (Fs.overwrite old off s.chunks.flatten).length = _ := Fs.length_overwrite hoff
        have hnot : ¬Fs.Refused (s.files.fs.contents x).length (off + s.chunks.flatten.length) c.size := by
          rw [hcontents, hlength]
          unfold Fs.Refused
          omega
        obtain ⟨tot, hle, -, hopen, hwrote, hshort⟩ := hchunk.wrote hnot
        obtain rfl : tot = c.size := by
          by_contra hne
          exact hroom (hshort (by omega))
        rw [Nat.add_assoc] at hopen
        refine ⟨hopen, ?_⟩
        rw [hwrote, hcontents]
        exact Fs.overwrite_overwrite hoff
  | ret p c busy done =>
      refine ⟨readable_update h.readable p fun c' hc => ?_, h.file⟩
      cases hc
  | other files file contents =>
      refine ⟨h.readable, fun hmax => ?_⟩
      obtain ⟨hfile, hcontents⟩ := h.file hmax
      exact ⟨file _ hfile, contents.trans hcontents⟩

-- Any run of filewrite calls on one file, from an offset that is not beyond its end.
theorem shared_writes {s t : Sharing P} (hfile : OpenInode s.files f ip x off) (hidle : ∀ p, s.call p = none)
    (hempty : s.chunks = []) (hoff : off ≤ (s.files.fs.contents x).length)
    (hrun : Reaches (fun a b => SharedStep f ip x a b ∧ ¬b.files.fs.Full) s t)
    (hmax : off + t.chunks.flatten.length ≤ MAXFILE * BSIZE) :
    (t.files.ftable f).kind = .inode ip (off + t.chunks.flatten.length) ∧
      t.files.fs.contents x = Fs.overwrite (s.files.fs.contents x) off t.chunks.flatten := by
  have hstart : Appended f ip x off (s.files.fs.contents x) s := by
    refine ⟨fun p c hc => ?_, fun _ => ?_⟩
    · rw [hidle p] at hc
      cases hc
    · rw [hempty, List.flatten_nil, Fs.overwrite_nil]
      exact ⟨hfile, rfl⟩
  have hall := hrun.invariant (Appended f ip x off (s.files.fs.contents x)) hstart
    fun a b ha hab => ha.step hoff hab.1 hab.2
  obtain ⟨hopen, hcontents⟩ := hall.file hmax
  exact ⟨hopen.kind, hcontents⟩

-- open with O_TRUNC on the file of another process: its offset stays where it is.
theorem truncate_spec {s : Files} (h : OpenInode s f ip x off) :
    wp (do
      ofFs (ilock ip)
      ofFs (itrunc ip)
      ofFs (iunlock ip)
      ofFs endOp
      return (0 : Int)) (fun _ t => OpenInode t f ip x off) (fun _ => False) s := by
  rw [wp_bind, wp_ofFs]
  refine wp_mono (Fs.ilock_free h.ok.table h.inode h.unlocked h.typed) (fun _ fs₁ hlock => ?_) fun _ he => he
  obtain ⟨hquiet, hheld, hlocked⟩ := hlock
  rw [wp_bind, wp_ofFs]
  refine wp_mono (Fs.itrunc_spec (hquiet.ok h.ok) hheld) (fun _ fs₂ hempty => ?_) fun _ he => he
  have hheld' := hempty.edit.held.mpr hheld
  refine wp_post (chunkEnd_spec 0 hempty.ok hheld'.toAt ?_ h.kind ?_) fun _ _ ht => ht.2.2.1
  · change (fs₂.itable ip).lock = true
    rw [hempty.edit.self]
    exact hlocked
  · change (fs₂.view x).type ≠ .free
    rw [hempty.type, hquiet.view]
    exact h.typed

section Sample

open Files

def oneByte (b : UInt8) : Source := ⟨fun _ => b, none⟩

theorem oneByte_readable (b : UInt8) : (oneByte b).Readable 1 := fun _ h => (Option.not_mem_none _ h).elim

-- Two processes write one byte each.
theorem shared_writes_two : ∃ s t : Sharing Bool, s.files.fs.contents 2 = [] ∧ t.chunks = [[5], [7]] ∧
    Reaches (fun a b => SharedStep fd0 ip1 2 a b ∧ ¬b.files.fs.Full) s t ∧ t.files.fs.contents 2 = [5, 7] ∧
    (t.files.ftable fd0).kind = .inode ip1 2 := by
  obtain ⟨u, hopen, -, hempty, hsize, hfree, hwrites⟩ := openInode_of_run (O_CREATE ||| O_RDWR) true
    (fun t => 99 < t.fs.sb.size ∧ t.fs.bitmap 99 = false ∧
      wp (writeChunk fd0 ip1 ((oneByte 5).drop 0) 1) (fun _ t => 99 < t.fs.sb.size ∧ t.fs.bitmap 99 = false ∧
        wp (writeChunk fd0 ip1 ((oneByte 7).drop 0) 1) (fun _ t => 99 < t.fs.sb.size ∧ t.fs.bitmap 99 = false)
          (fun _ => False) t) (fun _ => False) t) (by decide +kernel)
  obtain ⟨r, v, hfirst, hsize', hfree', hnext⟩ := exists_of_wp hwrites
  obtain ⟨r', w, hsecond, hsize'', hfree''⟩ := exists_of_wp hnext
  let idle : Bool → Option WriteCall := fun _ => none
  have hrun : Reaches (fun a b => SharedStep fd0 ip1 2 a b ∧ ¬b.files.fs.Full) ⟨u, idle, []⟩ ⟨w, _, [[5], [7]]⟩ :=
    .head ⟨.call true (oneByte 5) 1 rfl (oneByte_readable 5), Fs.not_full hsize hfree⟩
    (.head ⟨.call false (oneByte 7) 1 rfl (oneByte_readable 7), Fs.not_full hsize hfree⟩
    (.head ⟨.chunk true ⟨oneByte 5, 1, 0⟩ r v rfl Nat.one_pos hfirst, Fs.not_full hsize' hfree'⟩
    (.single ⟨.chunk false ⟨oneByte 7, 1, 0⟩ r' w rfl Nat.one_pos hsecond, Fs.not_full hsize'' hfree''⟩)))
  have hmax : 0 + 2 ≤ MAXFILE * BSIZE := by decide
  obtain ⟨hkind, hcontents⟩ := shared_writes hopen (fun _ => rfl) rfl (Nat.zero_le _) hrun hmax
  refine ⟨_, _, hempty, rfl, hrun, ?_, hkind⟩
  rw [hcontents]
  change Fs.overwrite (u.fs.contents 2) 0 [5, 7] = _
  rw [hempty]
  rfl

set_option synthInstance.maxSize 1000 in
set_option synthInstance.maxHeartbeats 200000 in
-- A file that was truncated after a write: the chunk that comes next is lost.
theorem shared_writes_truncated : ∃ s t : Sharing Unit, OpenInode s.files fd0 ip1 2 1 ∧ (∀ p, s.call p = none) ∧
    s.chunks = [] ∧ Reaches (fun a b => SharedStep fd0 ip1 2 a b ∧ ¬b.files.fs.Full) s t ∧ t.chunks = [[7]] ∧
    t.files.fs.contents 2 = [] ∧ (t.files.ftable fd0).kind = .inode ip1 1 := by
  obtain ⟨u, hopen, -, hempty, hwrites⟩ := openInode_of_run (O_CREATE ||| O_RDWR) true
    (fun t => wp (writeChunk fd0 ip1 (oneByte 5) 1) (fun r t => r = 1 ∧
      wp (do
        ofFs (ilock ip1)
        ofFs (itrunc ip1)
        ofFs (iunlock ip1)
        ofFs endOp
        return (0 : Int)) (fun _ t => 99 < t.fs.sb.size ∧ t.fs.bitmap 99 = false ∧
        wp (writeChunk fd0 ip1 ((oneByte 7).drop 0) 1) (fun _ t => 99 < t.fs.sb.size ∧ t.fs.bitmap 99 = false ∧
          t.fs.contents 2 = [] ∧ (t.ftable fd0).kind = .inode ip1 1) (fun _ => False) t)
        (fun _ => False) t) (fun _ => False) t) (by decide +kernel)
  obtain ⟨r, v, hfirst, rfl, htrunc⟩ := exists_of_wp hwrites
  obtain ⟨r', w, hsecond, hsize, hfree, hnext⟩ := exists_of_wp htrunc
  obtain ⟨r'', w', hthird, hsize', hfree', hcontents, hkind⟩ := exists_of_wp hnext
  have hchunk := writeChunk_spec hopen (Nat.one_lt_two_pow (by decide)) (oneByte_readable 5)
  rw [wp_of_ok hfirst] at hchunk
  have hopen' : OpenInode v fd0 ip1 2 1 := by
    obtain ⟨tot, -, htot, hfile, -⟩ := hchunk.wrote (by rw [hempty, Fs.Refused]; decide)
    obtain rfl : tot = 1 := by omega
    exact hfile
  have hopen'' := truncate_spec hopen'
  rw [wp_of_ok hsecond] at hopen''
  have hrun : Reaches (fun a b => SharedStep fd0 ip1 2 a b ∧ ¬b.files.fs.Full)
      ⟨w, fun _ : Unit => none, []⟩ ⟨w', _, [[7]]⟩ :=
    .head ⟨.call () (oneByte 7) 1 rfl (oneByte_readable 7), Fs.not_full hsize hfree⟩
    (.single ⟨.chunk () ⟨oneByte 7, 1, 0⟩ r'' w' rfl Nat.one_pos hthird, Fs.not_full hsize' hfree'⟩)
  exact ⟨_, _, hopen'', fun _ => rfl, rfl, hrun, rfl, hcontents, hkind⟩

end Sample

end Xv6
