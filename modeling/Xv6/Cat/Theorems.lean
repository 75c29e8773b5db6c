import Xv6.Cat

namespace Xv6.Cat

def decimal (n : ℕ) : List UInt8 := (Nat.toDigits 10 n).map Char.toUInt8

-- The lines of a file with their newlines; the last one may have none.
def splitLines : List UInt8 → List (List UInt8)
  | [] => []
  | c :: rest =>
      if c = '\n'.toUInt8 then [c] :: splitLines rest
      else
        match splitLines rest with
        | [] => [[c]]
        | l :: lines => (c :: l) :: lines

def numbered : (k : ℕ) → List (List UInt8) → List UInt8
  | _, [] => []
  | k, l :: lines => decimal k ++ l ++ numbered (k + 1) lines

theorem digits_getD : ∀ d < 10, digits.getD d 0 = (Nat.digitChar d).toUInt8 := by decide

theorem digitLoop_eq_decimal {fuel x : ℕ} (hx : x < 10 ^ fuel) (hfuel : 0 < fuel) :
    digitLoop 10 fuel x = decimal x := by
  induction fuel generalizing x with
  | zero => omega
  | succ fuel ih =>
      have hdigit := digits_getD (x % 10) (Nat.mod_lt x (by decide))
      rw [digitLoop, decimal, Nat.toDigits_eq_if (by decide), hdigit]
      by_cases hsmall : x < 10
      · rw [if_pos hsmall, if_pos (Nat.div_eq_of_lt hsmall), Nat.mod_eq_of_lt hsmall]
        rfl
      · have hmore : x / 10 ≠ 0 := by omega
        rw [Nat.pow_succ] at hx
        have hdiv : x / 10 < 10 ^ fuel := by omega
        have hpos : 0 < fuel := by
          by_contra hzero
          obtain rfl : fuel = 0 := by omega
          omega
        rw [if_neg hsmall, if_neg hmore, ih hdiv hpos, List.map_append]
        rfl

theorem printint_eq_decimal {k : ℕ} (hk : k < 2 ^ 31) : printint (BitVec.ofNat 32 k) 10 = decimal k := by
  have hnat : (BitVec.ofNat 32 k).toNat = k := by
    rw [BitVec.toNat_ofNat]
    omega
  have hsign : ¬(BitVec.ofNat 32 k).slt 0 := by
    rw [BitVec.slt_eq_decide, decide_eq_true_eq, BitVec.toInt_eq_toNat_of_lt (by omega), hnat]
    simp
  rw [printint, if_neg hsign, hnat]
  exact digitLoop_eq_decimal (by omega) (by decide)

theorem splitLines_ne_nil {s : List UInt8} (hs : s ≠ []) : splitLines s ≠ [] := by
  cases s with
  | nil => exact absurd rfl hs
  | cons c rest =>
      rw [splitLines]
      split
      · exact List.cons_ne_nil _ _
      · split <;> exact List.cons_ne_nil _ _

theorem length_splitLines_pos {s : List UInt8} (hs : s ≠ []) : 0 < (splitLines s).length :=
  List.length_pos_of_ne_nil (splitLines_ne_nil hs)

-- What is to come in line k and after it, when s is what is left of the file.
def restOf (k : ℕ) (s : List UInt8) : List UInt8 :=
  match splitLines s with
  | [] => []
  | l :: lines => l ++ numbered (k + 1) lines

theorem numbered_splitLines (k : ℕ) {s : List UInt8} (hs : s ≠ []) :
    numbered k (splitLines s) = decimal k ++ restOf k s := by
  obtain ⟨l, lines, hlines⟩ := List.exists_cons_of_ne_nil (splitLines_ne_nil hs)
  rw [restOf, hlines, numbered, List.append_assoc]

theorem restOf_newline (k : ℕ) (s : List UInt8) :
    restOf k ('\n'.toUInt8 :: s) = '\n'.toUInt8 :: numbered (k + 1) (splitLines s) := by
  rw [restOf, splitLines, if_pos rfl]
  rfl

theorem restOf_cons (k : ℕ) {c : UInt8} (hc : c ≠ '\n'.toUInt8) (s : List UInt8) :
    restOf k (c :: s) = c :: restOf k s ∧ (s ≠ [] → (splitLines (c :: s)).length = (splitLines s).length) := by
  rw [restOf, restOf, splitLines, if_neg hc]
  cases hlines : splitLines s with
  | nil => exact ⟨rfl, fun hs => absurd hlines (splitLines_ne_nil hs)⟩
  | cons l lines => exact ⟨rfl, fun _ => rfl⟩

-- What numcat prints when rest is what is left of the chunk.
def outOf (cont : BitVec 32) (rest : List UInt8) (chunks : List (List UInt8)) : List UInt8 :=
  (chunkLoop cont rest).2 ++ readLoop (chunkLoop cont rest).1 chunks

theorem readLoop_cons (cont : BitVec 32) {chunk : List UInt8} (hne : chunk ≠ []) (chunks : List (List UInt8)) :
    readLoop cont (chunk :: chunks) = printint cont 10 ++ outOf cont chunk chunks := by
  rw [readLoop, if_neg hne]
  exact List.append_assoc ..

theorem outOf_newline (cont : BitVec 32) (rest : List UInt8) (chunks : List (List UInt8)) :
    outOf cont ('\n'.toUInt8 :: rest) chunks = '\n'.toUInt8 :: if rest = [] then readLoop (cont + 1) chunks
      else printint (cont + 1) 10 ++ outOf (cont + 1) rest chunks := by
  rw [outOf, chunkLoop, if_pos rfl]
  by_cases hrest : rest = []
  · rw [hrest]
    rfl
  · rw [if_neg hrest, if_neg hrest]
    exact congrArg (_ :: ·) (List.append_assoc ..)

theorem outOf_cons (cont : BitVec 32) {c : UInt8} (hc : c ≠ '\n'.toUInt8) (rest : List UInt8)
    (chunks : List (List UInt8)) : outOf cont (c :: rest) chunks = c :: outOf cont rest chunks := by
  rw [outOf, chunkLoop, if_neg hc]
  rfl

-- A number is in its line.
theorem printint_inline (xx : BitVec 32) : printint xx 10 ≠ [] ∧ ∀ c ∈ printint xx 10, c ≠ '\n'.toUInt8 := by
  have hdigit : ∀ d < 10, digits.getD d 0 ≠ '\n'.toUInt8 := by decide
  have hloop : ∀ fuel x, ∀ c ∈ digitLoop 10 fuel x, c ≠ '\n'.toUInt8 := by
    intro fuel
    induction fuel with
    | zero => exact fun _ _ h => (List.not_mem_nil h).elim
    | succ fuel ih =>
        intro x c hc
        rw [digitLoop] at hc
        rcases List.mem_append.mp hc with hc | hc
        · split at hc
          · exact (List.not_mem_nil hc).elim
          · exact ih _ c hc
        · rw [List.mem_singleton.mp hc]
          exact hdigit _ (Nat.mod_lt x (by decide))
  rw [printint]
  split
  · exact ⟨List.cons_ne_nil _ _, List.forall_mem_cons.mpr ⟨by decide, hloop 15 _⟩⟩
  · exact ⟨List.append_ne_nil_of_right_ne_nil _ (List.cons_ne_nil _ _), hloop 16 _⟩

-- The bytes up to the next newline.
def inLine (s : List UInt8) : List UInt8 := s.takeWhile (· ≠ '\n'.toUInt8)

theorem inLine_printint (xx : BitVec 32) (s : List UInt8) : inLine (printint xx 10 ++ s) = printint xx 10 ++ inLine s :=
  List.takeWhile_append_of_pos fun c hc => decide_eq_true ((printint_inline xx).2 c hc)

theorem inLine_cons {c : UInt8} (hc : c ≠ '\n'.toUInt8) (s : List UInt8) : inLine (c :: s) = c :: inLine s :=
  List.takeWhile_cons_of_pos (decide_eq_true hc)

theorem inLine_newline (s : List UInt8) : inLine ('\n'.toUInt8 :: s) = [] := rfl

theorem inLine_restOf (k : ℕ) (s : List UInt8) : inLine (restOf k s) = inLine s := by
  induction s with
  | nil => rfl
  | cons c s ih =>
      by_cases hc : c = '\n'.toUInt8
      · rw [hc, restOf_newline]
        rfl
      · rw [(restOf_cons k hc s).1, inLine_cons hc, inLine_cons hc, ih]

-- numcat leaves out no byte of the line.
theorem length_inLine_le (cont : BitVec 32) : (rest : List UInt8) → (chunks : List (List UInt8)) →
    (∀ c ∈ chunks, c ≠ []) → (inLine (rest ++ chunks.flatten)).length ≤ (inLine (outOf cont rest chunks)).length
  | [], [], _ => Nat.zero_le _
  | [], chunk :: chunks, hne => by
      rw [List.forall_mem_cons] at hne
      change _ ≤ (inLine (readLoop cont (chunk :: chunks))).length
      rw [readLoop_cons cont hne.1, inLine_printint, List.length_append]
      exact Nat.le_add_left_of_le (length_inLine_le cont chunk chunks hne.2)
  | c :: rest, chunks, hne => by
      by_cases hc : c = '\n'.toUInt8
      · rw [hc, List.cons_append, inLine_newline]
        exact Nat.zero_le _
      · rw [List.cons_append, outOf_cons cont hc, inLine_cons hc, inLine_cons hc]
        exact Nat.succ_le_succ (length_inLine_le cont rest chunks hne)
termination_by rest chunks => (chunks.length, rest.length)

-- The int after 2 ^ 31 - 1 is negative.
theorem printint_append_iff {k : ℕ} (hk : k ≤ 2 ^ 31) (a b : List UInt8) :
    printint (BitVec.ofNat 32 k) 10 ++ a = decimal k ++ b ↔ k < 2 ^ 31 ∧ a = b := by
  rcases Nat.lt_or_eq_of_le hk with hlt | rfl
  · rw [printint_eq_decimal hlt, List.append_cancel_left_eq]
    exact (and_iff_right hlt).symm
  · have hminus : printint (BitVec.ofNat 32 (2 ^ 31)) 10 = '-'.toUInt8 :: decimal (2 ^ 31) := by decide +kernel
    have htwo : decimal (2 ^ 31) = '2'.toUInt8 :: decimal 147483648 := by decide +kernel
    refine iff_of_false (fun h => ?_) fun h => absurd h.1 (lt_irrefl _)
    rw [hminus, htwo, List.cons_append, List.cons_append] at h
    exact absurd (List.cons.inj h).1 (by decide)

-- No cut is inside a line.
def AtNewlines (chunks : List (List UInt8)) : Prop := ∀ c ∈ chunks.dropLast, c.getLast? = some '\n'.toUInt8

theorem atNewlines_cons_cons {a b : List UInt8} {chunks : List (List UInt8)} :
    AtNewlines (a :: b :: chunks) ↔ a.getLast? = some '\n'.toUInt8 ∧ AtNewlines (b :: chunks) := by
  rw [AtNewlines, List.dropLast_cons_cons, List.forall_mem_cons]
  rfl

theorem atNewlines_cons {c : UInt8} {rest : List UInt8} (hrest : rest ≠ []) (chunks : List (List UInt8)) :
    AtNewlines ((c :: rest) :: chunks) ↔ AtNewlines (rest :: chunks) := by
  cases chunks with
  | nil => exact Iff.rfl
  | cons chunk chunks =>
      rw [atNewlines_cons_cons, atNewlines_cons_cons, List.getLast?_cons, List.getLast?_eq_some_getLast hrest]
      rfl

-- At the start of line k, when the rest of it is right just if P and there are few enough lines.
theorem number_eq_iff {k : ℕ} (hk : k ≤ 2 ^ 31) {s out : List UInt8} (hs : s ≠ []) {P : Prop}
    (h : k < 2 ^ 31 → (out = restOf k s ↔ P ∧ k + (splitLines s).length ≤ 2 ^ 31)) :
    printint (BitVec.ofNat 32 k) 10 ++ out = numbered k (splitLines s) ↔
      P ∧ k + (splitLines s).length ≤ 2 ^ 31 := by
  have hpos := length_splitLines_pos hs
  rw [numbered_splitLines k hs, printint_append_iff hk]
  refine ⟨fun ⟨hlt, hout⟩ => (h hlt).mp hout, fun hall => ?_⟩
  have hlt : k < 2 ^ 31 := by omega
  exact ⟨hlt, (h hlt).mpr hall⟩

-- In line k, with rest left of the chunk: a cut inside a line adds a number to it.
theorem outOf_eq_iff (k : ℕ) (hk : k < 2 ^ 31) : (rest : List UInt8) → (chunks : List (List UInt8)) → rest ≠ [] →
    (∀ c ∈ chunks, c ≠ []) → (outOf (BitVec.ofNat 32 k) rest chunks = restOf k (rest ++ chunks.flatten) ↔
      AtNewlines (rest :: chunks) ∧ k + (splitLines (rest ++ chunks.flatten)).length ≤ 2 ^ 31)
  | [], _, h, _ => absurd rfl h
  | c :: rest, chunks, _, hne => by
      have hnext : BitVec.ofNat 32 k + 1 = BitVec.ofNat 32 (k + 1) := by
        rw [BitVec.ofNat_add]
        rfl
      by_cases hc : c = '\n'.toUInt8
      · rw [hc, List.cons_append, outOf_newline, restOf_newline, List.cons_inj_right, hnext, splitLines, if_pos rfl,
          List.length_cons, ← Nat.add_assoc, Nat.add_right_comm]
        cases rest with
        | cons d rest =>
            rw [if_neg (List.cons_ne_nil d rest), atNewlines_cons (List.cons_ne_nil d rest)]
            exact number_eq_iff hk (List.cons_ne_nil _ _) fun hlt =>
              outOf_eq_iff (k + 1) hlt (d :: rest) chunks (List.cons_ne_nil d rest) hne
        | nil =>
            rw [if_pos rfl]
            cases chunks with
            | nil => exact iff_of_true rfl ⟨fun _ h => (List.not_mem_nil h).elim, hk⟩
            | cons chunk chunks =>
                rw [List.forall_mem_cons] at hne
                rw [readLoop_cons _ hne.1, atNewlines_cons_cons, List.flatten_cons, List.nil_append]
                refine (number_eq_iff hk (by simp [hne.1]) fun hlt =>
                  outOf_eq_iff (k + 1) hlt chunk chunks hne.1 hne.2).trans ?_
                exact and_congr_left fun _ => (and_iff_right rfl).symm
      · obtain ⟨hcons, hlength⟩ := restOf_cons k hc (rest ++ chunks.flatten)
        rw [List.cons_append, outOf_cons _ hc, hcons, List.cons_inj_right]
        cases rest with
        | cons d rest =>
            rw [hlength (List.cons_ne_nil _ _), atNewlines_cons (List.cons_ne_nil d rest)]
            exact outOf_eq_iff k hk (d :: rest) chunks (List.cons_ne_nil d rest) hne
        | nil =>
            cases chunks with
            | nil =>
                refine iff_of_true rfl ⟨fun _ h => (List.not_mem_nil h).elim, ?_⟩
                rw [List.flatten_nil, List.append_nil, splitLines, if_neg hc]
                exact hk
            | cons chunk chunks =>
                refine iff_of_false (fun h => ?_) fun h => hc (Option.some.inj (atNewlines_cons_cons.mp h.1).1)
                rw [List.forall_mem_cons] at hne
                have hline := congrArg (fun s => (inLine s).length) h
                change (inLine (readLoop (BitVec.ofNat 32 k) (chunk :: chunks))).length = _ at hline
                rw [readLoop_cons _ hne.1, inLine_printint, inLine_restOf, List.length_append, List.nil_append,
                  List.flatten_cons] at hline
                have hpos := List.length_pos_of_ne_nil (printint_inline (BitVec.ofNat 32 k)).1
                have hle := length_inLine_le (BitVec.ofNat 32 k) chunk chunks hne.2
                omega
termination_by rest chunks => (chunks.length, rest.length)

-- cat -n, on whatever chunks read gives: the numbers are right just if every chunk but the last ends
-- with a newline and the int cont can count the lines.
theorem numcat_lines (chunks : List (List UInt8)) (hne : ∀ c ∈ chunks, c ≠ []) :
    numcat chunks = numbered 1 (splitLines chunks.flatten) ↔
      AtNewlines chunks ∧ (splitLines chunks.flatten).length < 2 ^ 31 := by
  cases chunks with
  | nil => exact iff_of_true rfl ⟨fun _ h => (List.not_mem_nil h).elim, by decide⟩
  | cons chunk chunks =>
      rw [List.forall_mem_cons] at hne
      rw [numcat, readLoop_cons _ hne.1, ← Nat.succ_le_iff, ← Nat.one_add]
      exact number_eq_iff (k := 1) (by decide) (by simp [hne.1]) fun hlt => outOf_eq_iff 1 hlt chunk chunks hne.1 hne.2

theorem numcat_lines_two : numcat [['a'.toUInt8, '\n'.toUInt8], ['b'.toUInt8]] =
    ['1'.toUInt8, 'a'.toUInt8, '\n'.toUInt8, '2'.toUInt8, 'b'.toUInt8] :=
  (numcat_lines [['a'.toUInt8, '\n'.toUInt8], ['b'.toUInt8]] (by decide)).mpr ⟨by unfold AtNewlines; decide, by decide⟩

-- A file of one line of 513 characters, which read cuts after 512: there is a second number.
theorem numcat_long_line : ∃ chunks : List (List UInt8), (∀ c ∈ chunks, c ≠ [] ∧ c.length ≤ 512) ∧
    chunks.flatten = List.replicate 513 'a'.toUInt8 ∧
    numcat chunks = '1'.toUInt8 :: List.replicate 512 'a'.toUInt8 ++ ['1'.toUInt8, 'a'.toUInt8] ∧
    numbered 1 (splitLines chunks.flatten) = '1'.toUInt8 :: List.replicate 513 'a'.toUInt8 :=
  ⟨[List.replicate 512 'a'.toUInt8, ['a'.toUInt8]], by decide +kernel⟩

end Xv6.Cat
