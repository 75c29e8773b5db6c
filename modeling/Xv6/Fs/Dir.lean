import Xv6.Fs.Ref

namespace Xv6

open Wp

def Vol.dirent (v : Vol) (x k : ℕ) : Dirent := .load fun j => v.byte x (DIRENTSIZE * k + j)

namespace Fs

variable {s t u : Fs} {i j : Ip} {x : ℕ}

theorem Dirent.load_congr {f g : ℕ → UInt8} (h : ∀ k < DIRENTSIZE, f k = g k) :
    Dirent.load f = Dirent.load g := by
  unfold Dirent.load
  congr 1
  · exact Bytes.load_congr _ _ _ _ fun k _ hk => h k (by simp only [DIRENTSIZE]; omega)
  · refine List.map_congr_left fun k hk => h _ ?_
    rw [List.mem_range] at hk
    simp only [DIRSIZ, DIRENTSIZE] at hk ⊢
    omega

theorem readDirent_spec (hs : s.Ok) (hi : s.Held i x) {k : ℕ} (hk : DIRENTSIZE * k ≤ (s.itable i).copy.size) :
    wp (readDirent i (DIRENTSIZE * k)) (fun r t => t = s ∧ ∀ de, r = some de → de = s.vol.dirent x k)
      (fun _ => False) s := by
  obtain ⟨hmax, -⟩ := filledTo_size hs hi
  have hword : MAXFILE * BSIZE < 2 ^ 31 := by decide
  unfold readDirent
  simp only [wp_bind, wp_pure]
  refine wp_post (readi_spec hs hi _ _ _ (by decide)) ?_
  rintro ⟨r, buf⟩ t ⟨rfl, hbuf⟩
  obtain ⟨hr, hbytes⟩ := hbuf (fun _ _ => rfl) hk (by simp only [DIRENTSIZE] at *; omega)
  refine ⟨rfl, fun de hde => ?_⟩
  split at hde
  · rename_i hlen
    simp only [Option.some.injEq] at hde
    rw [← hde]
    refine Dirent.load_congr fun m hm => ?_
    rw [hr] at hlen
    exact (hbytes m).trans (if_pos (by simp only [DIRENTSIZE] at *; omega))
  · cases hde

def NoName (v : Vol) (x : ℕ) (name : Name) (k k' : ℕ) : Prop :=
  ∀ m, k ≤ m → m < k' → (v.dirent x m).inum = 0 ∨ namecmp name (v.dirent x m).name ≠ 0

-- A lookup has found name in entry k of directory x and taken a reference to its inode.
structure Found (x : ℕ) (name : Name) (k : ℕ) (s : Fs) (j : Ip) (t : Fs) : Prop where
  used : (s.vol.dirent x k).inum ≠ 0
  name : namecmp name (s.vol.dirent x k).name = 0
  quiet : Quiet s t j
  ref : (t.itable j).ref = (s.itable j).ref + 1
  handle : t.At j (s.vol.dirent x k).inum

theorem direntCount_le {k size : ℕ} (h : k < direntCount size) : DIRENTSIZE * k ≤ size := by
  unfold direntCount at h
  simp only [DIRENTSIZE] at *
  omega

-- A loop over the entries of x from k on that ends at the first one with p.
theorem wp_scan {α : Type} {loop : ℕ → ℕ → FsM α} {p : Dirent → Prop} [DecidablePred p] {f : Dirent → ℕ → FsM α}
    {e : FsStop} (hloop : ∀ count off, loop (count + 1) off = do
      match ← readDirent i off with
      | none => throw e
      | some de => if p de then f de off else loop count (off + DIRENTSIZE))
    (hs : s.Ok) (hi : s.Held i x) {count k : ℕ} (hcount : k + count = direntCount (s.itable i).copy.size ∨ count = 0)
    {post : α → Fs → Prop} {err : FsStop → Prop} (herr : err e)
    (hend : (∀ m, k ≤ m → m < k + count → ¬p (s.vol.dirent x m)) →
      wp (loop 0 (DIRENTSIZE * (k + count))) post err s)
    (hfound : ∀ m, k ≤ m → m < k + count → (∀ m', k ≤ m' → m' < m → ¬p (s.vol.dirent x m')) →
      p (s.vol.dirent x m) → wp (f (s.vol.dirent x m) (DIRENTSIZE * m)) post err s) :
    wp (loop count (DIRENTSIZE * k)) post err s := by
  induction count generalizing k with
  | zero => exact hend fun m hm hm' => by omega
  | succ count ih =>
      have hk : DIRENTSIZE * k ≤ (s.itable i).copy.size := direntCount_le (by omega)
      rw [hloop, wp_bind]
      refine wp_mono (readDirent_spec hs hi hk) ?_ fun _ h => h.elim
      rintro r t ⟨rfl, hr⟩
      cases r with
      | none => exact herr
      | some de =>
          obtain rfl := hr de rfl
          rw [wp_ite]
          split
          · exact hfound k le_rfl (by omega) (fun m hm hm' => by omega) ‹_›
          · rename_i hnot
            have hbefore : ∀ {m}, (∀ m', k + 1 ≤ m' → m' < m → ¬p (t.vol.dirent x m')) →
                ∀ m', k ≤ m' → m' < m → ¬p (t.vol.dirent x m') := by
              intro m h m' hm hlt
              by_cases hmk : m' = k
              · rwa [hmk]
              · exact h m' (by omega) hlt
            rw [show DIRENTSIZE * k + DIRENTSIZE = DIRENTSIZE * (k + 1) by ring]
            refine ih (by omega) (fun h => ?_) fun m hm hm' h => hfound m (by omega) (by omega) (hbefore h)
            rw [show k + 1 + count = k + (count + 1) by omega] at h ⊢
            exact hend (hbefore h)

theorem lookupLoop_spec (hs : s.Ok) (hi : s.Held i x) (name : Name) (count k : ℕ)
    (hcount : k + count = direntCount (s.itable i).copy.size ∨ count = 0) :
    wp (lookupLoop i name count (DIRENTSIZE * k)) (fun r t => match r with
      | none => t = s ∧ NoName s.vol x name k (k + count)
      | some (j, off) => ∃ m, k ≤ m ∧ m < k + count ∧ off = DIRENTSIZE * m ∧ Found x name m s j t)
      (fun e => e = .panic .dirlookupRead ∨ e = .panic .iget) s := by
  refine wp_scan (p := fun de => ¬(de.inum = 0 ∨ namecmp name de.name ≠ 0)) (f := fun de off => do
      let ip ← iget ((← get).itable i).dev de.inum
      return some (ip, off)) (e := .panic .dirlookupRead) (fun count off => ?_) hs hi hcount (.inl rfl) (fun h => ?_)
    fun m hm hm' _ hyes => ?_
  · refine bind_congr fun r => ?_
    cases r with
    | none => rfl
    | some de => exact (ite_not ..).symm
  · exact ⟨rfl, fun m hm hm' => not_not.mp (h m hm hm')⟩
  · rw [not_or, not_not] at hyes
    simp only [wp_bind, wp_get, wp_pure]
    rw [hs.table.dev i hi.ref]
    refine wp_mono (iget_spec hs.table _) ?_ fun e he => .inr he
    rintro j u ⟨hq, href, hat⟩
    exact ⟨m, hm, hm', rfl, hyes.1, hyes.2, hq, href, hat⟩

theorem dirlookup_spec (hs : s.Ok) (hi : s.Held i x) (name : Name) :
    wp (dirlookup i name) (fun r t => (s.view x).type = .dir ∧ match r with
      | none => t = s ∧ NoName s.vol x name 0 (direntCount (s.view x).size)
      | some (j, off) => ∃ m, m < direntCount (s.view x).size ∧ off = DIRENTSIZE * m ∧ Found x name m s j t)
      (fun e => e = .panic .dirlookupRead ∨ e = .panic .iget ∨
        e = .panic .dirlookupNotDir ∧ (s.view x).type ≠ .dir) s := by
  rw [hs.table.view_eq hi]
  unfold dirlookup
  simp only [wp_bind, wp_get, wp_ite, wp_throw]
  split
  · rename_i hne
    exact .inr (.inr ⟨trivial, hne⟩)
  · rename_i htype
    refine wp_mono (lookupLoop_spec hs hi name _ 0 (.inl (Nat.zero_add _))) ?_
      fun e he => he.imp_right .inl
    rintro (_ | ⟨j, off⟩) t ht
    · rw [Nat.zero_add] at ht
      exact ⟨not_not.mp htype, ht⟩
    · obtain ⟨m, -, hm, hoff, hfound⟩ := ht
      exact ⟨not_not.mp htype, m, by omega, hoff, hfound⟩

-- The search for an empty entry ends at one, or at the end of the directory.
theorem emptyLoop_spec (hs : s.Ok) (hi : s.Held i x) (count k : ℕ)
    (hcount : k + count = direntCount (s.itable i).copy.size ∨ count = 0) :
    wp (emptyLoop i count (DIRENTSIZE * k)) (fun off t => t = s ∧ ∃ m, off = DIRENTSIZE * m ∧ k ≤ m ∧
      m ≤ k + count ∧ (m < k + count → (s.vol.dirent x m).inum = 0) ∧
      ∀ m', k ≤ m' → m' < m → (s.vol.dirent x m').inum ≠ 0)
      (fun e => e = .panic .dirlinkRead) s := by
  refine wp_scan (fun _ _ => rfl) hs hi hcount rfl (fun h => ?_) fun m hm hm' h hempty => ?_
  · exact ⟨rfl, k + count, rfl, by omega, le_rfl, fun hlt => absurd hlt (lt_irrefl _), h⟩
  · exact ⟨rfl, m, rfl, hm, hm'.le, fun _ => hempty, h⟩

end Fs

end Xv6
