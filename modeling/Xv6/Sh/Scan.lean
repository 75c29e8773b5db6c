import Xv6.Sh.Grammar
import Mathlib.Data.List.GetD
import Mathlib.Data.List.TakeDrop
import Mathlib.Data.List.TakeWhile

namespace Xv6.Sh

open Simulation

def symbol {W : Type} (c : UInt8) : Option (Token W) :=
  if c = '|'.toUInt8 then some .pipe
  else if c = '('.toUInt8 then some .lparen
  else if c = ')'.toUInt8 then some .rparen
  else if c = ';'.toUInt8 then some .semi
  else if c = '&'.toUInt8 then some .amp
  else if c = '<'.toUInt8 then some .lt
  else if c = '>'.toUInt8 then some .gt
  else none

-- The characters spell the tokens, with white space between them; words are as long as they can be.
inductive Lex : List UInt8 → List (Token (List UInt8)) → Prop
  | nil : Lex [] []
  | space {c : UInt8} {l : List UInt8} {ts : List (Token (List UInt8))} (hc : strchr whitespace c) (h : Lex l ts) :
      Lex (c :: l) ts
  | symbol {c : UInt8} {t : Token (List UInt8)} {l : List UInt8} {ts : List (Token (List UInt8))}
      (hc : symbol c = some t) (h : Lex l ts) : Lex (c :: l) (t :: ts)
  | append {l : List UInt8} {ts : List (Token (List UInt8))} (h : Lex l ts) :
      Lex ('>'.toUInt8 :: '>'.toUInt8 :: l) (.gtgt :: ts)
  | word {w l : List UInt8} {ts : List (Token (List UInt8))} (hne : w ≠ []) (hw : ∀ c ∈ w, wordChar c)
      (hmax : ∀ c ∈ l.head?, ¬wordChar c) (h : Lex l ts) : Lex (w ++ l) (.word w :: ts)

-- The same with ">>" always read as one symbol, as gettoken does.
inductive Scans : List UInt8 → List (Token (List UInt8)) → Prop
  | nil : Scans [] []
  | space {c : UInt8} {l : List UInt8} {ts : List (Token (List UInt8))} (hc : strchr whitespace c) (h : Scans l ts) :
      Scans (c :: l) ts
  | symbol {c : UInt8} {t : Token (List UInt8)} {l : List UInt8} {ts : List (Token (List UInt8))}
      (hc : Sh.symbol c = some t) (hgt : c = '>'.toUInt8 → ∀ d ∈ l.head?, d ≠ '>'.toUInt8) (h : Scans l ts) :
      Scans (c :: l) (t :: ts)
  | append {l : List UInt8} {ts : List (Token (List UInt8))} (h : Scans l ts) :
      Scans ('>'.toUInt8 :: '>'.toUInt8 :: l) (.gtgt :: ts)
  | word {w l : List UInt8} {ts : List (Token (List UInt8))} (hne : w ≠ []) (hw : ∀ c ∈ w, wordChar c)
      (hmax : ∀ c ∈ l.head?, ¬wordChar c) (h : Scans l ts) : Scans (w ++ l) (.word w :: ts)

theorem Scans.lex {l : List UInt8} {ts : List (Token (List UInt8))} (h : Scans l ts) : Lex l ts := by
  induction h with
  | nil => exact .nil
  | space hc _ ih => exact .space hc ih
  | symbol hc _ _ ih => exact .symbol hc ih
  | append _ ih => exact .append ih
  | word hne hw hmax _ ih => exact .word hne hw hmax ih

-- Each character is white space, a symbol or part of a word.
theorem exists_symbol {W : Type} {c : UInt8} (hspace : ¬strchr whitespace c) (hword : ¬wordChar c) :
    ∃ t : Token W, symbol c = some t := by
  have hsymbol : strchr symbols c := by
    unfold wordChar at hword
    simp only [Bool.and_eq_true, Bool.not_eq_true', not_and, Bool.not_eq_false] at hword
    exact hword (Bool.eq_false_iff.mpr hspace)
  unfold strchr symbols at hsymbol
  simp only [List.any_cons, List.any_nil, Bool.or_false, Bool.or_eq_true, beq_iff_eq] at hsymbol
  rcases hsymbol with rfl | rfl | rfl | rfl | rfl | rfl | rfl <;> exact ⟨_, rfl⟩

theorem head_dropWhile (p : UInt8 → Bool) (l : List UInt8) : ∀ c ∈ (l.dropWhile p).head?, ¬p c := by
  intro c hc
  have hnot := List.head?_dropWhile_not p l
  rw [hc] at hnot
  exact Bool.eq_false_iff.mp hnot

theorem exists_scans (l : List UInt8) : ∃ ts, Scans l ts := by
  induction hn : l.length using Nat.strong_induction_on generalizing l with
  | _ n ih =>
      subst hn
      cases l with
      | nil => exact ⟨[], .nil⟩
      | cons c l =>
          by_cases hspace : strchr whitespace c
          · obtain ⟨ts, hts⟩ := ih l.length (Nat.lt_succ_self _) l rfl
            exact ⟨ts, .space hspace hts⟩
          by_cases hword : wordChar c
          · have hsplit : (c :: l).takeWhile wordChar ++ (c :: l).dropWhile wordChar = c :: l :=
              List.takeWhile_append_dropWhile
            have hne : (c :: l).takeWhile wordChar ≠ [] := by simp [hword]
            have hlt : ((c :: l).dropWhile wordChar).length < (c :: l).length := by
              rw [List.dropWhile_cons_of_pos hword]
              exact Nat.lt_succ_of_le (List.length_dropWhile_le _ l)
            obtain ⟨ts, hts⟩ := ih _ hlt _ rfl
            refine ⟨.word ((c :: l).takeWhile wordChar) :: ts, ?_⟩
            have hscans := Scans.word hne (fun d hd => List.mem_takeWhile_imp hd) (head_dropWhile wordChar (c :: l)) hts
            rwa [hsplit] at hscans
          · obtain ⟨t, ht⟩ := exists_symbol (W := List UInt8) hspace hword
            by_cases hgt : c = '>'.toUInt8 ∧ ∃ l', l = '>'.toUInt8 :: l'
            · obtain ⟨rfl, l', rfl⟩ := hgt
              obtain ⟨ts, hts⟩ := ih l'.length (by simp only [List.length_cons]; omega) l' rfl
              exact ⟨.gtgt :: ts, .append hts⟩
            · obtain ⟨ts, hts⟩ := ih l.length (Nat.lt_succ_self _) l rfl
              refine ⟨t :: ts, .symbol ht (fun hc d hd heq => hgt ⟨hc, ?_⟩) hts⟩
              obtain ⟨l', rfl⟩ := List.head?_eq_some_iff.mp hd
              exact ⟨l', by rw [heq]⟩

def text (buf : List UInt8) : List UInt8 := buf.takeWhile (· ≠ 0)

section Cursor

variable {buf : List UInt8} {s : ℕ}

theorem text_append (buf : List UInt8) : text buf ++ buf.dropWhile (· ≠ 0) = buf := List.takeWhile_append_dropWhile

theorem ne_zero_of_mem_text {c : UInt8} (h : c ∈ text buf) : c ≠ 0 := by
  unfold text at h
  have hc := List.mem_takeWhile_imp h
  exact of_decide_eq_true hc

theorem drop_text (hs : s < strlen buf) : (text buf).drop s = deref buf s :: (text buf).drop (s + 1) := by
  have hlen : s < (text buf).length := hs
  have hderef : deref buf s = (text buf).getD s 0 := by
    unfold deref
    nth_rewrite 1 [← text_append buf]
    exact List.getD_append _ _ _ _ hlen
  rw [hderef, List.getD_eq_getElem _ _ hlen]
  exact List.drop_eq_getElem_cons hlen

theorem deref_ne_zero (hs : s < strlen buf) : deref buf s ≠ 0 := by
  have hmem : deref buf s ∈ (text buf).drop s := by
    rw [drop_text hs]
    exact List.mem_cons_self
  exact ne_zero_of_mem_text (List.mem_of_mem_drop hmem)

theorem deref_strlen : deref buf (strlen buf) = 0 := by
  have hrest : deref buf (strlen buf) = (buf.dropWhile (· ≠ 0)).getD 0 0 := by
    unfold deref
    nth_rewrite 1 [← text_append buf]
    have hright := List.getD_append_right (text buf) (buf.dropWhile (· ≠ 0)) 0 (text buf).length le_rfl
    rwa [Nat.sub_self] at hright
  rw [hrest]
  cases hdrop : buf.dropWhile (· ≠ 0) with
  | nil => rfl
  | cons c l =>
      have hc := head_dropWhile (· ≠ 0) buf c (by rw [hdrop]; rfl)
      simpa using hc

-- The loop goes over the longest run of such characters.
theorem scanN_eq {n : ℕ} (p : UInt8 → Bool) (hn : s + n = strlen buf) :
    scanN buf p n s = s + (((text buf).drop s).takeWhile p).length := by
  induction n generalizing s with
  | zero =>
      have hdrop : (text buf).drop s = [] := List.drop_of_length_le hn.ge
      rw [hdrop]
      rfl
  | succ n ih =>
      rw [scanN, drop_text (by omega)]
      split_ifs with hp
      · rw [ih (by omega), List.takeWhile_cons_of_pos hp, List.length_cons]
        omega
      · rw [List.takeWhile_cons_of_neg hp]
        rfl

variable (hs : s ≤ strlen buf) (p : UInt8 → Bool)

include hs

theorem scan_eq : scan buf (strlen buf) p s = s + (((text buf).drop s).takeWhile p).length :=
  scanN_eq p (by omega)

theorem drop_scan : (text buf).drop (scan buf (strlen buf) p s) = ((text buf).drop s).dropWhile p := by
  rw [scan_eq hs, ← List.drop_drop]
  nth_rewrite 2 [← List.takeWhile_append_dropWhile (p := p) (l := (text buf).drop s)]
  exact List.drop_left ..

theorem scan_le : scan buf (strlen buf) p s ≤ strlen buf := by
  have hlen := (List.takeWhile_prefix p (l := (text buf).drop s)).length_le
  rw [scan_eq hs]
  rw [List.length_drop] at hlen
  unfold strlen at *
  unfold text at *
  omega

end Cursor

def bytes (buf : List UInt8) (w : ℕ × ℕ) : List UInt8 := ((text buf).drop w.1).take (w.2 - w.1)

structure WordAt (buf : List UInt8) (w : ℕ × ℕ) : Prop where
  le : w.1 ≤ w.2
  end_le : w.2 ≤ strlen buf
  chars : ∀ c ∈ bytes buf w, wordChar c
  stop : ∀ c ∈ ((text buf).drop w.2).head?, ¬wordChar c

def Token.map {W W' : Type} (f : W → W') : Token W → Token W'
  | .pipe => .pipe
  | .lparen => .lparen
  | .rparen => .rparen
  | .semi => .semi
  | .amp => .amp
  | .lt => .lt
  | .gt => .gt
  | .gtgt => .gtgt
  | .word w => .word (f w)

structure Spells (buf : List UInt8) (t : Token (ℕ × ℕ)) (t' : Token (List UInt8)) : Prop where
  map_eq : t.map (bytes buf) = t'
  word : ∀ w, t = .word w → WordAt buf w

def At (buf : List UInt8) (s : ℕ) (ts : List (Token (List UInt8))) : Prop :=
  s ≤ strlen buf ∧ Scans ((text buf).drop s) ts

section TokenAt

variable {buf : List UInt8} {s : ℕ} {ts : List (Token (List UInt8))}

variable {c : UInt8} {l : List UInt8}

theorem symbol_of_space {W : Type} (h : strchr whitespace c) : symbol (W := W) c = none := by
  unfold strchr whitespace at h
  simp only [List.any_cons, List.any_nil, Bool.or_false, Bool.or_eq_true, beq_iff_eq] at h
  rcases h with rfl | rfl | rfl | rfl | rfl <;> rfl

theorem not_wordChar_of_space (h : strchr whitespace c) : ¬wordChar c := by
  unfold wordChar
  simp [h]

theorem scans_space (hc : strchr whitespace c) : Scans (c :: l) ts ↔ Scans l ts := by
  refine ⟨fun h => ?_, .space hc⟩
  generalize hl : c :: l = l' at h
  cases h with
  | nil => cases hl
  | space _ h =>
      cases hl
      exact h
  | symbol hsymbol =>
      cases hl
      rw [symbol_of_space hc] at hsymbol
      cases hsymbol
  | append =>
      cases hl
      cases hc
  | @word w l' _ hne hw =>
      cases w with
      | nil => exact absurd rfl hne
      | cons d w =>
          cases hl
          exact absurd (hw c List.mem_cons_self) (not_wordChar_of_space hc)

theorem scans_dropWhile : Scans (l.dropWhile (strchr whitespace)) ts ↔ Scans l ts := by
  induction l with
  | nil => exact Iff.rfl
  | cons c l ih =>
      by_cases hc : strchr whitespace c
      · rw [List.dropWhile_cons_of_pos hc, scans_space hc, ih]
      · rw [List.dropWhile_cons_of_neg hc]

theorem At.skip (h : At buf s ts) : At buf (scan buf (strlen buf) (strchr whitespace) s) ts := by
  refine ⟨scan_le h.1 _, ?_⟩
  rw [drop_scan h.1, scans_dropWhile]
  exact h.2

theorem head_of_drop (h : (text buf).drop s = c :: l) :
    s < strlen buf ∧ deref buf s = c ∧ (text buf).drop (s + 1) = l := by
  have hlt : s < strlen buf := by
    by_contra hle
    have hnil : (text buf).drop s = [] := List.drop_of_length_le (Nat.le_of_not_lt hle)
    rw [hnil] at h
    cases h
  rw [drop_text hlt, List.cons.injEq] at h
  exact ⟨hlt, h⟩

theorem tokenAt_nil (h : At buf s []) (hhead : ∀ c ∈ ((text buf).drop s).head?, ¬strchr whitespace c) :
    tokenAt buf (strlen buf) s = (none, s) ∧ s = strlen buf := by
  have hend : s = strlen buf := by
    by_contra hne
    have hdrop := drop_text (lt_of_le_of_ne h.1 hne)
    have hscans := h.2
    rw [hdrop] at hscans hhead
    generalize hl : deref buf s :: (text buf).drop (s + 1) = l at hscans
    cases hscans with
    | nil => cases hl
    | space hc =>
        cases hl
        exact hhead _ rfl hc
  refine ⟨?_, hend⟩
  unfold tokenAt
  rw [hend, deref_strlen]
  rfl

theorem tokenAt_symbol {t : Token (List UInt8)} (hc : symbol c = some t) (hderef : deref buf s = c)
    (hgt : c = '>'.toUInt8 → deref buf (s + 1) ≠ '>'.toUInt8) :
    ∃ t₀ : Token (ℕ × ℕ), tokenAt buf (strlen buf) s = (some t₀, s + 1) ∧ Spells buf t₀ t := by
  unfold symbol at hc
  split_ifs at hc with h1 h2 h3 h4 h5 h6 h7
  all_goals
    cases hc
    unfold tokenAt
    rw [hderef]
  · subst h1
    exact ⟨.pipe, rfl, rfl, fun w hw => by cases hw⟩
  · subst h2
    exact ⟨.lparen, rfl, rfl, fun w hw => by cases hw⟩
  · subst h3
    exact ⟨.rparen, rfl, rfl, fun w hw => by cases hw⟩
  · subst h4
    exact ⟨.semi, rfl, rfl, fun w hw => by cases hw⟩
  · subst h5
    exact ⟨.amp, rfl, rfl, fun w hw => by cases hw⟩
  · subst h6
    exact ⟨.lt, rfl, rfl, fun w hw => by cases hw⟩
  · subst h7
    exact ⟨.gt, if_neg (hgt rfl), rfl, fun w hw => by cases hw⟩

theorem symbol_of_wordChar {W : Type} (h : wordChar c) : symbol (W := W) c = none := by
  have hsymbol : ¬strchr symbols c := by
    unfold wordChar at h
    simp only [Bool.and_eq_true, Bool.not_eq_true'] at h
    exact Bool.eq_false_iff.mp h.2
  unfold strchr symbols at hsymbol
  simp only [List.any_cons, List.any_nil, Bool.or_false, Bool.or_eq_true, beq_iff_eq, not_or] at hsymbol
  obtain ⟨h1, h2, h3, h4, h5, h6, h7⟩ := hsymbol
  unfold symbol
  simp only [Ne.symm h1, Ne.symm h2, Ne.symm h3, Ne.symm h4, Ne.symm h5, Ne.symm h6, Ne.symm h7, if_false]

theorem tokenAt_word (hc : wordChar c) (hzero : c ≠ 0) (hderef : deref buf s = c) :
    tokenAt buf (strlen buf) s =
      (some (.word (s, scan buf (strlen buf) wordChar s)), scan buf (strlen buf) wordChar s) := by
  have hsymbol := symbol_of_wordChar (W := ℕ) hc
  unfold symbol at hsymbol
  unfold tokenAt
  rw [hderef]
  split_ifs at hsymbol with h1 h2 h3 h4 h5 h6 h7
  simp only [hzero, h1, h2, h3, h4, h5, h6, h7, if_false]

theorem takeWhile_of_max {p : UInt8 → Bool} {w : List UInt8} (hw : ∀ c ∈ w, p c) (hmax : ∀ c ∈ l.head?, ¬p c) :
    (w ++ l).takeWhile p = w := by
  rw [List.takeWhile_append_of_pos hw]
  cases l with
  | nil => rw [List.takeWhile_nil, List.append_nil]
  | cons c l => rw [List.takeWhile_cons_of_neg (hmax c rfl), List.append_nil]

theorem deref_next (hs : s < strlen buf) {d : UInt8} (hd : ∀ c ∈ ((text buf).drop (s + 1)).head?, c ≠ d)
    (hzero : d ≠ 0) : deref buf (s + 1) ≠ d := by
  by_cases hlt : s + 1 < strlen buf
  · rw [drop_text hlt] at hd
    exact hd _ rfl
  · have hend : s + 1 = strlen buf := by omega
    rw [hend, deref_strlen]
    exact hzero.symm

theorem tokenAt_cons {t : Token (List UInt8)} (h : At buf s (t :: ts))
    (hhead : ∀ c ∈ ((text buf).drop s).head?, ¬strchr whitespace c) :
    ∃ t₀ e, tokenAt buf (strlen buf) s = (some t₀, e) ∧ Spells buf t₀ t ∧ At buf e ts := by
  obtain ⟨hs, hscans⟩ := h
  generalize hl : (text buf).drop s = l at hscans hhead
  generalize hts : t :: ts = ts' at hscans
  cases hscans with
  | nil => cases hts
  | space hc => exact absurd hc (hhead _ rfl)
  | @symbol c t' l ts' hc hgt hrest =>
      cases hts
      obtain ⟨hlt, hderef, hdrop⟩ := head_of_drop hl
      rw [← hdrop] at hgt hrest
      obtain ⟨t₀, htoken, hspells⟩ := tokenAt_symbol hc hderef fun hc => deref_next hlt (hgt hc) (by decide)
      exact ⟨t₀, s + 1, htoken, hspells, hlt, hrest⟩
  | @append l ts' hrest =>
      cases hts
      obtain ⟨hlt, hderef, hdrop⟩ := head_of_drop hl
      obtain ⟨hlt', hderef', hdrop'⟩ := head_of_drop hdrop
      refine ⟨.gtgt, s + 2, ?_, ⟨rfl, fun w hw => by cases hw⟩, hlt', hdrop'.symm ▸ hrest⟩
      unfold tokenAt
      rw [hderef, hderef']
      rfl
  | @word w l ts' hne hw hmax hrest =>
      cases hts
      obtain ⟨c, w', rfl⟩ := List.exists_cons_of_ne_nil hne
      obtain ⟨hlt, hderef, -⟩ := head_of_drop hl
      have hscan : scan buf (strlen buf) wordChar s = s + (c :: w').length := by
        rw [scan_eq hs, hl, takeWhile_of_max hw hmax]
      have hdrop : (text buf).drop (s + (c :: w').length) = l := by
        rw [← List.drop_drop, hl, List.drop_left]
      have hbytes : bytes buf (s, s + (c :: w').length) = c :: w' := by
        unfold bytes
        rw [hl, Nat.add_sub_cancel_left, List.take_left]
      have hle := scan_le hs wordChar
      rw [hscan] at hle
      refine ⟨.word (s, s + (c :: w').length), s + (c :: w').length, ?_, ⟨?_, ?_⟩, hle, hdrop.symm ▸ hrest⟩
      · rw [tokenAt_word (hw c List.mem_cons_self) (hderef ▸ deref_ne_zero hlt) hderef, hscan]
      · rw [Token.map, hbytes]
      · intro w hw'
        cases hw'
        exact ⟨Nat.le_add_right _ _, hle, hbytes.symm ▸ hw, hdrop.symm ▸ hmax⟩

end TokenAt

end Xv6.Sh
