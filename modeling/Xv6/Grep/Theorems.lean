import Xv6.Grep

namespace Xv6.Grep

variable {lines : List (List UInt8)} {rest : List UInt8} {fuel : ℕ} {input buf : List UInt8}

def Line (l : List UInt8) : Prop := 0 ∉ l ∧ '\n'.toUInt8 ∉ l

instance (l : List UInt8) : Decidable (Line l) := inferInstanceAs (Decidable (_ ∧ _))

def unlines (lines : List (List UInt8)) : List UInt8 := (lines.map (· ++ ['\n'.toUInt8])).flatten

theorem unlines_cons (l : List UInt8) (lines : List (List UInt8)) :
    unlines (l :: lines) = l ++ '\n'.toUInt8 :: unlines lines := by
  rw [unlines, List.map_cons, List.flatten_cons, List.append_assoc]
  rfl

theorem unlines_append (a b : List (List UInt8)) : unlines (a ++ b) = unlines a ++ unlines b := by
  rw [unlines, List.map_append, List.flatten_append]
  rfl

theorem strchr_line {l : List UInt8} (hl : Line l) (rest : List UInt8) :
    strchr '\n'.toUInt8 (l ++ '\n'.toUInt8 :: rest) = some l.length := by
  induction l with
  | nil => rfl
  | cons b l ih =>
      obtain ⟨hnul, hnl⟩ := hl
      rw [List.mem_cons, not_or] at hnul hnl
      rw [List.cons_append, strchr, if_neg (Ne.symm hnul.1), if_neg (Ne.symm hnl.1), ih ⟨hnul.2, hnl.2⟩]
      rfl

theorem strchr_eq_none {c : UInt8} {s : List UInt8} (hs : c ∉ s) : strchr c s = none := by
  induction s with
  | nil => rfl
  | cons b s ih =>
      rw [List.mem_cons, not_or] at hs
      rw [strchr, if_neg (Ne.symm hs.1), ih hs.2]
      split <;> rfl

-- The lines that are complete are handled; what comes after them is left.
theorem lineLoop_unlines (pattern : List UInt8)
    (hlines : ∀ l ∈ lines, Line l) (hrest : '\n'.toUInt8 ∉ rest) (hfuel : lines.length ≤ fuel) :
    lineLoop pattern fuel (unlines lines ++ rest) = (unlines (lines.filter (matchText pattern)), rest) := by
  induction lines generalizing fuel with
  | nil =>
      cases fuel with
      | zero => rfl
      | succ fuel =>
          rw [lineLoop, show unlines [] ++ rest = rest from rfl, strchr_eq_none hrest]
          rfl
  | cons l lines ih =>
      cases fuel with
      | zero => exact absurd hfuel (Nat.not_succ_le_zero _)
      | succ fuel =>
          rw [List.forall_mem_cons] at hlines
          rw [List.length_cons] at hfuel
          have hdrop : (l ++ '\n'.toUInt8 :: (unlines lines ++ rest)).drop (l.length + 1) = unlines lines ++ rest := by
            rw [List.drop_append, List.drop_of_length_le (by omega), Nat.add_sub_cancel_left]
            rfl
          have htake : (l ++ '\n'.toUInt8 :: (unlines lines ++ rest)).take (l.length + 1) = l ++ ['\n'.toUInt8] := by
            rw [List.take_append, List.take_of_length_le (by omega), Nat.add_sub_cancel_left]
            rfl
          rw [unlines_cons, List.append_assoc, List.cons_append, lineLoop, strchr_line hlines.1]
          simp only [hdrop, htake, List.take_left]
          rw [ih hlines.2 (by omega), List.filter_cons]
          split
          · rw [unlines_cons, List.append_assoc]
            rfl
          · rfl

-- A cut of the input leaves an unfinished line, which may be empty.
theorem unlines_cut {a b : List UInt8} (hlines : ∀ l ∈ lines, Line l)
    (hcut : a ++ b = unlines lines) : ∃ done todo rest, lines = done ++ todo ∧ a = unlines done ++ rest ∧
      rest ++ b = unlines todo ∧ '\n'.toUInt8 ∉ rest := by
  induction lines generalizing a with
  | nil =>
      obtain ⟨rfl, rfl⟩ := List.append_eq_nil_iff.mp hcut
      exact ⟨[], [], [], rfl, rfl, rfl, List.not_mem_nil⟩
  | cons l lines ih =>
      rw [List.forall_mem_cons] at hlines
      rw [unlines_cons] at hcut
      rcases List.append_eq_append_iff.mp hcut with ⟨c, rfl, hb⟩ | ⟨c, rfl, hc⟩
      · refine ⟨[], (a ++ c) :: lines, a, rfl, rfl, ?_, ?_⟩
        · rw [unlines_cons, hb, List.append_assoc]
        · intro hmem
          exact hlines.1.2 (List.mem_append_left c hmem)
      · cases c with
        | nil =>
            refine ⟨[], l :: lines, l, rfl, ?_, ?_, hlines.1.2⟩
            · rw [List.append_nil]
              rfl
            · rw [unlines_cons, hc]
              rfl
        | cons t c =>
            rw [List.cons_append, List.cons.injEq] at hc
            obtain ⟨rfl, hc⟩ := hc
            obtain ⟨done, todo, rest, rfl, rfl, htodo, hrest⟩ := ih hlines.2 hc.symm
            refine ⟨l :: done, todo, rest, rfl, ?_, htodo, hrest⟩
            rw [unlines_cons, List.append_assoc]
            rfl

theorem length_le_unlines (lines : List (List UInt8)) : lines.length ≤ (unlines lines).length := by
  induction lines with
  | nil => exact Nat.zero_le _
  | cons l lines ih =>
      rw [unlines_cons, List.length_append, List.length_cons, List.length_cons]
      omega

theorem read_spec {cut size : ℕ} {chunk : List UInt8} (h : read cut size input = (chunk, rest)) :
    chunk ++ rest = input ∧ chunk.length ≤ size ∧ (chunk = [] → size = 0 ∨ input = []) := by
  rw [read, List.splitAt_eq, Prod.mk.injEq] at h
  obtain ⟨rfl, rfl⟩ := h
  refine ⟨List.take_append_drop _ _, ?_, fun hnil => ?_⟩
  · rw [List.length_take]
    omega
  · rcases List.take_eq_nil_iff.mp hnil with hzero | hempty
    · left
      omega
    · exact .inr hempty

def Short (l : List UInt8) : Bool := l.length < BUFSIZE - 1

-- The loop ends when all lines are done, or with a full buffer, which is part of a longer line.
theorem short_eq_nil (hbuf : '\n'.toUInt8 ∉ buf) (hall : buf ++ input = unlines lines)
    (hend : BUFSIZE - buf.length - 1 = 0 ∨ input = []) : lines.takeWhile Short = [] := by
  cases lines with
  | nil => rfl
  | cons l lines =>
      rw [unlines_cons] at hall
      rcases List.append_eq_append_iff.mp hall with ⟨c, rfl, hinput⟩ | ⟨c, rfl, hc⟩
      · rcases hend with hfull | rfl
        · refine List.takeWhile_cons_of_neg ?_
          rw [Short, List.length_append, decide_eq_true_eq]
          omega
        · exact absurd (congrArg List.length hinput) (by simp)
      · cases c with
        | nil =>
            rw [List.append_nil] at hend
            rcases hend with hfull | rfl
            · refine List.takeWhile_cons_of_neg ?_
              rw [Short, decide_eq_true_eq]
              omega
            · cases hc
        | cons t c =>
            rw [List.cons_append, List.cons.injEq] at hc
            rw [← hc.1] at hbuf
            exact absurd (List.mem_append_right l List.mem_cons_self) hbuf

-- A line that is in the buffer with its newline is short.
theorem short_of_mem (hbuf : (unlines lines ++ rest).length ≤ BUFSIZE - 1) {l : List UInt8} (hl : l ∈ lines) :
    Short l := by
  obtain ⟨a, b, rfl⟩ := List.append_of_mem hl
  rw [unlines_append, unlines_cons] at hbuf
  simp only [List.length_append, List.length_cons] at hbuf
  rw [Short, decide_eq_true_eq]
  omega

-- What is in the buffer begins the first of the lines that are left.
theorem readLoop_unlines (pattern : List UInt8) (cut : ℕ → ℕ) {k : ℕ} (hlines : ∀ l ∈ lines, Line l)
    (hbuf : '\n'.toUInt8 ∉ buf) (hsize : buf.length ≤ BUFSIZE - 1) (hall : buf ++ input = unlines lines)
    (hfuel : input.length < fuel) :
    readLoop pattern cut fuel k buf input = unlines ((lines.takeWhile Short).filter (matchText pattern)) := by
  induction fuel generalizing k buf input lines with
  | zero => omega
  | succ fuel ih =>
      rw [readLoop]
      split
      rename_i chunk input' hread
      obtain ⟨rfl, hle, hnil⟩ := read_spec hread
      split
      · rename_i hempty
        rw [short_eq_nil hbuf hall (hnil hempty)]
        rfl
      · rename_i hchunk
        rw [← List.append_assoc] at hall
        have hfits : (buf ++ chunk).length ≤ BUFSIZE - 1 := by
          rw [List.length_append]
          omega
        obtain ⟨done, todo, rest, rfl, hdone, htodo, hrest⟩ := unlines_cut hlines hall
        rw [List.forall_mem_append] at hlines
        have hlength : input'.length < fuel := by
          have := List.length_pos_iff.mpr hchunk
          rw [List.length_append] at hfuel
          omega
        rw [hdone] at hfits ⊢
        have hrestsize : rest.length ≤ BUFSIZE - 1 := by
          rw [List.length_append] at hfits
          omega
        have hfewer : done.length ≤ (unlines done ++ rest).length := by
          have := length_le_unlines done
          rw [List.length_append]
          omega
        rw [lineLoop_unlines pattern hlines.1 hrest hfewer,
          List.takeWhile_append_of_pos fun l hl => short_of_mem hfits hl]
        simp only
        rw [ih hlines.2 hrest hrestsize htodo hlength, List.filter_append, unlines_append]

theorem grep_unlines (pattern : List UInt8) (cut : ℕ → ℕ) (hlines : ∀ l ∈ lines, Line l) :
    grep pattern cut (unlines lines) = unlines ((lines.takeWhile Short).filter (matchText pattern)) :=
  readLoop_unlines pattern cut hlines List.not_mem_nil (Nat.zero_le _) rfl (Nat.lt_succ_self _)

-- From the first line on that does not fit in the buffer grep prints nothing.
theorem grep_lines (pattern : List UInt8) (cut : ℕ → ℕ) (lines : List (List UInt8)) (hlines : ∀ l ∈ lines, Line l) :
    grep pattern cut (unlines lines) = unlines (lines.filter (matchText pattern)) ↔
      ∀ l ∈ lines.dropWhile Short, ¬matchText pattern l := by
  have hsplit : lines.filter (matchText pattern) = (lines.takeWhile Short).filter (matchText pattern) ++
      (lines.dropWhile Short).filter (matchText pattern) := by
    rw [← List.filter_append, List.takeWhile_append_dropWhile]
  rw [grep_unlines pattern cut hlines, hsplit, unlines_append, List.self_eq_append_right, ← List.filter_eq_nil_iff]
  refine ⟨fun hnil => ?_, fun hnil => by rw [hnil]; rfl⟩
  have hle := length_le_unlines ((lines.dropWhile Short).filter (matchText pattern))
  rw [hnil] at hle
  exact List.length_eq_zero_iff.mp (Nat.le_zero.mp hle)

-- Two lines, of which one has an 'a', read byte by byte.
theorem grep_lines_two : grep ['a'.toUInt8] (fun _ => 1) (unlines [['b'.toUInt8, 'a'.toUInt8], ['c'.toUInt8]]) =
    ['b'.toUInt8, 'a'.toUInt8, '\n'.toUInt8] :=
  (grep_lines ['a'.toUInt8] (fun _ => 1) [['b'.toUInt8, 'a'.toUInt8], ['c'.toUInt8]] (by decide)).mpr (by decide)

-- The empty pattern matches every line, but a line of 1023 characters is not printed.
theorem grep_long_line : ∃ line, Line line ∧ line.length = BUFSIZE - 1 ∧ matchText [] line = true ∧
    ∀ cut, grep [] cut (unlines [line]) = [] := by
  have hline : Line (List.replicate (BUFSIZE - 1) 'a'.toUInt8) := by
    refine ⟨fun h => ?_, fun h => ?_⟩ <;> exact absurd (List.eq_of_mem_replicate h) (by decide)
  refine ⟨_, hline, List.length_replicate, by decide, fun cut => ?_⟩
  have hlong : ¬Short (List.replicate (BUFSIZE - 1) 'a'.toUInt8) := by
    rw [Short, List.length_replicate, decide_eq_true_eq]
    exact Nat.lt_irrefl _
  rw [grep_unlines [] cut (List.forall_mem_singleton.mpr hline), List.takeWhile_cons_of_neg hlong]
  rfl

end Xv6.Grep
