import Mathlib.Computability.Language
import Xv6.Grep

namespace Xv6.Grep

inductive Item
  | one (c : UInt8)
  | many (c : UInt8)
  deriving DecidableEq, Repr

def Accepts (c t : UInt8) : Prop := c = '.'.toUInt8 ∨ c = t

def single (c : UInt8) : Language UInt8 := {w | ∃ t, Accepts c t ∧ w = [t]}

def Item.lang : Item → Language UInt8
  | .one c => single c
  | .many c => KStar.kstar (single c)

-- A pattern: a leading '^', the items, and a final '$'.
structure Pattern where
  start : Bool
  items : List Item
  finish : Bool
  deriving DecidableEq, Repr

namespace Pattern

def push (i : Item) (p : Pattern) : Pattern := { p with items := i :: p.items }

def parseItems : List UInt8 → Pattern
  | [] => ⟨false, [], false⟩
  | [c] => if c = '$'.toUInt8 then ⟨false, [], true⟩ else ⟨false, [.one c], false⟩
  | c :: d :: re => if d = '*'.toUInt8 then (parseItems re).push (.many c) else (parseItems (d :: re)).push (.one c)

def parse (re : List UInt8) : Pattern :=
  match re with
  | [] => parseItems []
  | c :: rest => if c = '^'.toUInt8 then { parseItems rest with start := true } else parseItems (c :: rest)

def lang (p : Pattern) : Language UInt8 := (p.items.map Item.lang).prod

-- A prefix of s is in the language; the whole of s if the pattern ends with '$'.
def Begins (p : Pattern) (s : List UInt8) : Prop := ∃ w rest, w ++ rest = s ∧ w ∈ p.lang ∧ (p.finish → rest = [])

def Matches (p : Pattern) (text : List UInt8) : Prop :=
  ∃ s, s <:+ text ∧ (p.start → s = text) ∧ p.Begins s

end Pattern

theorem mem_lang_many {c : UInt8} {w : List UInt8} : w ∈ (Item.many c).lang ↔ ∀ t ∈ w, Accepts c t := by
  rw [Item.lang, Language.mem_kstar]
  constructor
  · rintro ⟨L, rfl, hL⟩ t ht
    obtain ⟨y, hy, hty⟩ := List.mem_flatten.mp ht
    obtain ⟨u, hu, rfl⟩ := hL y hy
    obtain rfl := List.mem_singleton.mp hty
    exact hu
  · intro hw
    refine ⟨w.map fun t => [t], ?_, fun y hy => ?_⟩
    · induction w with
      | nil => rfl
      | cons t w ih =>
          rw [List.map_cons, List.flatten_cons, ← ih fun u hu => hw u (List.mem_cons_of_mem t hu)]
          rfl
    · obtain ⟨t, ht, rfl⟩ := List.mem_map.mp hy
      exact ⟨t, hw t ht, rfl⟩

-- The loop tries every number of characters that c* accepts.
theorem matchstar_iff (c : UInt8) (f : List UInt8 → Bool) (text : List UInt8) :
    matchstar c f text = true ↔ ∃ w rest, w ++ rest = text ∧ w ∈ (Item.many c).lang ∧ f rest = true := by
  simp only [mem_lang_many]
  induction text with
  | nil =>
      rw [matchstar]
      constructor
      · intro h
        exact ⟨[], [], rfl, fun _ ht => absurd ht List.not_mem_nil, h⟩
      · rintro ⟨w, rest, happend, -, h⟩
        obtain ⟨rfl, rfl⟩ := List.append_eq_nil_iff.mp happend
        exact h
  | cons t text ih =>
      rw [matchstar, Bool.or_eq_true, Bool.and_eq_true, ih]
      constructor
      · rintro (h | ⟨haccepts, w, rest, rfl, hw, h⟩)
        · exact ⟨[], t :: text, rfl, fun _ ht => absurd ht List.not_mem_nil, h⟩
        · refine ⟨t :: w, rest, rfl, ?_, h⟩
          rw [List.forall_mem_cons]
          refine ⟨?_, hw⟩
          rw [Bool.or_eq_true, decide_eq_true_eq, decide_eq_true_eq] at haccepts
          exact haccepts.symm.imp_right Eq.symm
      · rintro ⟨w, rest, happend, hw, h⟩
        cases w with
        | nil =>
            rw [List.nil_append] at happend
            rw [← happend]
            exact .inl h
        | cons u w =>
            rw [List.cons_append, List.cons.injEq] at happend
            obtain ⟨rfl, rfl⟩ := happend
            rw [List.forall_mem_cons] at hw
            refine .inr ⟨?_, w, rest, rfl, hw.2, h⟩
            rw [Bool.or_eq_true, decide_eq_true_eq, decide_eq_true_eq]
            exact hw.1.symm.imp_left Eq.symm

namespace Pattern

theorem begins_push {p : Pattern} {i : Item} {s : List UInt8} :
    (p.push i).Begins s ↔ ∃ w rest, w ++ rest = s ∧ w ∈ i.lang ∧ p.Begins rest := by
  have hlang : (p.push i).lang = i.lang * p.lang := List.prod_cons
  simp only [Begins, hlang, Language.mem_mul]
  constructor
  · rintro ⟨-, rest, rfl, ⟨a, ha, b, hb, rfl⟩, hfinish⟩
    exact ⟨a, b ++ rest, (List.append_assoc ..).symm, ha, b, rest, rfl, hb, hfinish⟩
  · rintro ⟨a, -, rfl, ha, b, rest, rfl, hb, hfinish⟩
    exact ⟨a ++ b, rest, List.append_assoc .., ⟨a, ha, b, hb, rfl⟩, hfinish⟩

theorem begins_push_one {p : Pattern} {c : UInt8} {s : List UInt8} :
    (p.push (.one c)).Begins s ↔ ∃ t rest, s = t :: rest ∧ Accepts c t ∧ p.Begins rest := by
  rw [begins_push]
  constructor
  · rintro ⟨-, rest, rfl, ⟨t, ht, rfl⟩, hrest⟩
    exact ⟨t, rest, rfl, ht, hrest⟩
  · rintro ⟨t, rest, rfl, ht, hrest⟩
    exact ⟨[t], rest, rfl, ⟨t, ht, rfl⟩, hrest⟩

end Pattern

theorem charStep_iff {p : Pattern} {f : List UInt8 → Bool} (hf : ∀ text, f text = true ↔ p.Begins text) (c : UInt8)
    (text : List UInt8) : charStep c f text = true ↔ (p.push (.one c)).Begins text := by
  rw [Pattern.begins_push_one]
  cases text with
  | nil =>
      constructor
      · intro h
        cases h
      · rintro ⟨t, rest, h, -⟩
        cases h
  | cons t text =>
      rw [charStep, Bool.and_eq_true, Bool.or_eq_true, decide_eq_true_eq, decide_eq_true_eq, hf]
      constructor
      · rintro ⟨ht, hrest⟩
        exact ⟨t, text, rfl, ht, hrest⟩
      · rintro ⟨u, rest, happend, ht, hrest⟩
        cases happend
        exact ⟨ht, hrest⟩

theorem parseItems_nil_begins (text : List UInt8) : matchhere [] text = true ↔ (Pattern.parseItems []).Begins text := by
  rw [matchhere, Pattern.parseItems]
  exact iff_of_true rfl ⟨[], text, rfl, rfl, fun h => by cases h⟩

-- Induction on the pattern, two characters at a time where there is a star.
theorem matchhere_iff (re text : List UInt8) :
    matchhere re text = true ↔ (Pattern.parseItems re).Begins text := by
  induction re using Pattern.parseItems.induct generalizing text with
  | case1 => exact parseItems_nil_begins text
  | case2 =>
      rw [matchhere, Pattern.parseItems, if_pos rfl, if_pos rfl, List.isEmpty_iff]
      constructor
      · rintro rfl
        exact ⟨[], [], rfl, rfl, fun _ => rfl⟩
      · rintro ⟨w, rest, rfl, hw, hfinish⟩
        obtain rfl : w = [] := hw
        exact hfinish rfl
  | case3 c hc =>
      rw [matchhere, Pattern.parseItems, if_neg hc, if_neg hc]
      exact charStep_iff parseItems_nil_begins c text
  | case4 c re ih =>
      rw [matchhere, Pattern.parseItems, if_pos rfl, if_pos rfl, matchstar_iff, Pattern.begins_push]
      simp only [ih]
  | case5 c d re hd ih =>
      rw [matchhere, Pattern.parseItems, if_neg hd, if_neg hd]
      exact charStep_iff ih c text

theorem matchLoop_iff (re text : List UInt8) : matchLoop re text = true ↔ ∃ s, s <:+ text ∧ matchhere re s = true := by
  induction text with
  | nil =>
      rw [matchLoop]
      constructor
      · intro h
        exact ⟨[], List.suffix_rfl, h⟩
      · rintro ⟨s, hs, h⟩
        rwa [List.suffix_nil.mp hs] at h
  | cons t text ih =>
      rw [matchLoop, Bool.or_eq_true, ih]
      constructor
      · rintro (h | ⟨s, hs, h⟩)
        · exact ⟨t :: text, List.suffix_rfl, h⟩
        · exact ⟨s, hs.trans (List.suffix_cons t text), h⟩
      · rintro ⟨s, hs, h⟩
        rcases List.suffix_cons_iff.mp hs with rfl | hs
        · exact .inl h
        · exact .inr ⟨s, hs, h⟩

theorem parseItems_start (re : List UInt8) : (Pattern.parseItems re).start = false := by
  induction re using Pattern.parseItems.induct with
  | case1 => rfl
  | case2 => rfl
  | case3 c hc => rw [Pattern.parseItems, if_neg hc]
  | case4 c re ih =>
      rw [Pattern.parseItems, if_pos rfl]
      exact ih
  | case5 c d re hd ih =>
      rw [Pattern.parseItems, if_neg hd]
      exact ih

theorem matchLoop_matches (re text : List UInt8) : matchLoop re text = true ↔ (Pattern.parseItems re).Matches text := by
  rw [matchLoop_iff, Pattern.Matches]
  refine exists_congr fun s => and_congr_right fun _ => ?_
  rw [matchhere_iff, parseItems_start]
  constructor
  · intro h
    exact ⟨fun hstart => absurd hstart Bool.false_ne_true, h⟩
  · rintro ⟨-, h⟩
    exact h

-- match says yes just to the texts in which the pattern occurs.
theorem matchText_iff (re text : List UInt8) : matchText re text = true ↔ (Pattern.parse re).Matches text := by
  cases re with
  | nil => exact matchLoop_matches [] text
  | cons c rest =>
      rw [matchText, Pattern.parse]
      split
      · rw [matchhere_iff]
        constructor
        · intro h
          exact ⟨text, List.suffix_rfl, fun _ => rfl, h⟩
        · rintro ⟨s, -, hstart, h⟩
          rwa [hstart rfl] at h
      · exact matchLoop_matches (c :: rest) text

end Xv6.Grep
