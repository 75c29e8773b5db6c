import Xv6.Sh.Refine

namespace Xv6.Sh

open Simulation Wp

section Greedy

def GtWord : List (Token (List UInt8)) → Prop
  | [] => True
  | .gt :: ts => (∃ w ts', ts = .word w :: ts') ∧ GtWord ts
  | _ :: ts => GtWord ts

theorem GtWord.append {ts ts' : List (Token (List UInt8))} (h : GtWord ts) (h' : GtWord ts') : GtWord (ts ++ ts') := by
  induction ts with
  | nil => exact h'
  | cons t ts ih =>
      cases t with
      | gt =>
          obtain ⟨⟨w, rest, rfl⟩, hrest⟩ := h
          exact ⟨⟨w, rest ++ ts', rfl⟩, ih hrest⟩
      | _ => exact ih h

theorem gtWord_replicate (n : ℕ) : GtWord (List.replicate n .amp) := by
  induction n with
  | zero => trivial
  | succ n ih => exact ih

variable {ts : List (Token (List UInt8))}

theorem Redirs.gtWord {c c' : Cmd (List UInt8)} (h : Redirs ts c c') : GtWord ts := by
  induction h with
  | nil => trivial
  | @cons t _ _ w ts _ _ hop _ ih =>
      cases t with
      | gt => exact ⟨⟨w, ts, rfl⟩, ih⟩
      | _ => exact ih

theorem Args.gtWord {n : ℕ} {c c' : Cmd (List UInt8)} (h : Args n ts c c') : GtWord ts := by
  induction h with
  | nil => trivial
  | cons hredirs _ ih => exact hredirs.gtWord.append ih

theorem Derives.gtWord {phrase : Phrase} {c : Cmd (List UInt8)} (h : Derives phrase ts c) : GtWord ts := by
  induction h with
  | line n _ ih => exact ih.append (gtWord_replicate n)
  | seq n _ _ ih ih' => exact (ih.append (gtWord_replicate n)).append ih'
  | single _ ih => exact ih
  | pipe _ _ ih ih' => exact ih.append ih'
  | block _ hredirs ih => exact GtWord.append ih hredirs.gtWord
  | exec hredirs hargs => exact hredirs.gtWord.append hargs.gtWord

-- What begins with '>' does not spell a word first.
theorem not_lex_word {l w : List UInt8} (h : Lex ('>'.toUInt8 :: l) (.word w :: ts)) : False := by
  generalize hl : '>'.toUInt8 :: l = l' at h
  generalize hts : .word w :: ts = ts' at h
  cases h with
  | nil => cases hl
  | space hc =>
      cases hl
      cases hc
  | symbol hc =>
      cases hl
      cases hts
      cases hc
  | append => cases hts
  | word hne hw =>
      obtain ⟨c, w, rfl⟩ := List.exists_cons_of_ne_nil hne
      cases hl
      exact absurd (hw _ List.mem_cons_self) (by decide)

theorem Lex.scans {l : List UInt8} (h : Lex l ts) (hgt : GtWord ts) : Scans l ts := by
  induction h with
  | nil => exact .nil
  | space hc _ ih => exact .space hc (ih hgt)
  | @symbol c t l ts hc h ih =>
      by_cases hchar : c = '>'.toUInt8
      · subst hchar
        cases hc
        obtain ⟨⟨w, ts', rfl⟩, hrest⟩ := hgt
        refine .symbol rfl (fun _ d hd heq => ?_) (ih hrest)
        obtain ⟨l', rfl⟩ := List.head?_eq_some_iff.mp hd
        subst heq
        exact not_lex_word h
      · refine .symbol hc (fun heq => absurd heq hchar) (ih ?_)
        cases t with
        | gt => exact hgt.2
        | _ => exact hgt
  | append _ ih => exact .append (ih hgt)
  | word hne hw hmax _ ih => exact .word hne hw hmax (ih hgt)

end Greedy

def cstring (buf : List UInt8) (q : ℕ) : List UInt8 := (buf.drop q).takeWhile (· ≠ 0)

section Strings

variable {buf : List UInt8}

variable {w : ℕ × ℕ}

theorem deref_set (buf : List UInt8) (e x : ℕ) : deref (buf.set e 0) x = if e = x then 0 else deref buf x := by
  unfold deref
  rw [List.getD_eq_getElem?_getD, List.getD_eq_getElem?_getD, List.getElem?_set]
  split_ifs with heq hlt
  · rfl
  · rfl
  · rfl

theorem deref_foldl_set (ws : List (ℕ × ℕ)) (buf : List UInt8) (x : ℕ) :
    deref (ws.foldl (fun buf w => buf.set w.2 0) buf) x = if x ∈ ws.map Prod.snd then 0 else deref buf x := by
  induction ws generalizing buf with
  | nil => rfl
  | cons w ws ih =>
      rw [List.foldl_cons, ih, deref_set]
      by_cases hx : w.2 = x
      · simp [hx]
      · rw [if_neg hx]
        exact if_congr (List.mem_cons.trans (or_iff_right (Ne.symm hx))).symm rfl rfl

-- nulterminate writes at the ends of the words and nowhere else.
theorem deref_nulterminate (c : Cmd (ℕ × ℕ)) (buf : List UInt8) (x : ℕ) :
    deref (nulterminate buf c) x = if x ∈ c.words.map Prod.snd then 0 else deref buf x := by
  have hboth : ∀ (l l' : List ℕ) (a : UInt8),
      (if x ∈ l' then 0 else if x ∈ l then 0 else a) = if x ∈ l ++ l' then 0 else a := by
    intro l l' a
    by_cases hl : x ∈ l <;> by_cases hl' : x ∈ l' <;> simp [hl, hl']
  induction c generalizing buf with
  | exec argv => exact deref_foldl_set argv buf x
  | redir cmd file mode fd ih =>
      rw [nulterminate, deref_set, ih, Cmd.words, List.map_append, ← hboth]
      simp only [List.map_cons, List.map_nil, List.mem_singleton, eq_comm]
  | pipe left right ihl ihr => rw [nulterminate, ihr, ihl, Cmd.words, List.map_append, hboth]
  | list left right ihl ihr => rw [nulterminate, ihr, ihl, Cmd.words, List.map_append, hboth]
  | back cmd ih => exact ih buf

theorem drop_of_lt {q : ℕ} (hq : q < buf.length) : buf.drop q = deref buf q :: buf.drop (q + 1) := by
  unfold deref
  rw [List.getD_eq_getElem _ _ hq]
  exact List.drop_eq_getElem_cons hq

theorem cstring_eq {q : ℕ} {w : List UInt8} (hw : ∀ i (hi : i < w.length), deref buf (q + i) = w[i])
    (hne : ∀ c ∈ w, c ≠ 0) (hend : deref buf (q + w.length) = 0) : cstring buf q = w := by
  unfold cstring
  induction w generalizing q with
  | nil =>
      by_cases hq : q < buf.length
      · rw [drop_of_lt hq]
        exact List.takeWhile_cons_of_neg (by simpa using hend)
      · rw [List.drop_of_length_le (Nat.le_of_not_lt hq)]
        rfl
  | cons c w ih =>
      have hc : deref buf q = c := hw 0 (Nat.succ_pos _)
      have hzero := hne c List.mem_cons_self
      have hq : q < buf.length := by
        by_contra hle
        exact hzero (hc.symm.trans (List.getD_eq_default _ _ (Nat.le_of_not_lt hle)))
      have hrest : ∀ i (hi : i < w.length), deref buf (q + 1 + i) = w[i] := by
        intro i hi
        rw [Nat.add_assoc, Nat.add_comm 1 i]
        exact hw (i + 1) (Nat.succ_lt_succ hi)
      rw [List.length_cons, Nat.add_comm w.length, ← Nat.add_assoc] at hend
      rw [drop_of_lt hq, hc, List.takeWhile_cons_of_pos (by simpa using hzero),
        ih hrest (fun d hd => hne d (List.mem_cons_of_mem c hd)) hend]

theorem bytes_length (h : WordAt buf w) : (bytes buf w).length = w.2 - w.1 := by
  have hle := h.end_le
  unfold bytes
  rw [List.length_take, List.length_drop]
  change min (w.2 - w.1) (strlen buf - w.1) = w.2 - w.1
  omega

theorem bytes_getElem (h : WordAt buf w) {i : ℕ} (hi : i < (bytes buf w).length) :
    (bytes buf w)[i] = deref buf (w.1 + i) := by
  have hlen := bytes_length h
  have hlt : w.1 + i < strlen buf := by
    have hle := h.end_le
    omega
  have hdrop := drop_text hlt
  have hget : ((text buf).drop (w.1 + i)).head? = some (deref buf (w.1 + i)) := by rw [hdrop]; rfl
  rw [List.head?_drop] at hget
  have hsome : (bytes buf w)[i]? = some (deref buf (w.1 + i)) := by
    unfold bytes
    rw [List.getElem?_take_of_lt (by omega), List.getElem?_drop]
    exact hget
  exact (List.getElem_eq_iff hi).mpr hsome

-- After all NULs are written, each word is still there, and ends where it did.
theorem cstring_nulterminate {c : Cmd (ℕ × ℕ)} (h : ∀ w ∈ c.words, WordAt buf w) (hw : w ∈ c.words) :
    cstring (nulterminate buf c) w.1 = bytes buf w := by
  have hword := h w hw
  have hlen := bytes_length hword
  have hle := hword.le
  apply cstring_eq
  · intro i hi
    have hlt : w.1 + i < strlen buf := by
      have hend := hword.end_le
      omega
    have hchar : wordChar (deref buf (w.1 + i)) := by
      rw [← bytes_getElem hword hi]
      exact hword.chars _ (List.getElem_mem hi)
    have hinside : w.1 + i ∉ c.words.map Prod.snd := by
      intro hmem
      obtain ⟨v, hv, heq⟩ := List.mem_map.mp hmem
      have hstop := (h v hv).stop
      rw [heq, drop_text hlt] at hstop
      exact hstop _ rfl hchar
    rw [deref_nulterminate, if_neg hinside, bytes_getElem hword]
  · intro d hd
    exact ne_zero_of_mem_text (List.mem_of_mem_drop (List.mem_of_mem_take hd))
  · rw [hlen, Nat.add_sub_cancel' hle, deref_nulterminate, if_pos (List.mem_map_of_mem hw)]

theorem Cmd.map_congr {W W' : Type} {f g : W → W'} {c : Cmd W} (h : ∀ w ∈ c.words, f w = g w) : c.map f = c.map g := by
  induction c with
  | exec argv => exact congrArg Cmd.exec (List.map_congr_left h)
  | redir cmd file mode fd ih =>
      rw [Cmd.map, Cmd.map, ih fun w hw => h w (List.mem_append_left _ hw), h file (by simp [Cmd.words])]
  | pipe left right ihl ihr =>
      rw [Cmd.map, Cmd.map, ihl fun w hw => h w (List.mem_append_left _ hw),
        ihr fun w hw => h w (List.mem_append_right _ hw)]
  | list left right ihl ihr =>
      rw [Cmd.map, Cmd.map, ihl fun w hw => h w (List.mem_append_left _ hw),
        ihr fun w hw => h w (List.mem_append_right _ hw)]
  | back cmd ih => rw [Cmd.map, Cmd.map, ih h]

theorem Denotes.strings {c : Cmd (ℕ × ℕ)} {c' : Cmd (List UInt8)} (h : Denotes buf c c') :
    c.map (fun w => cstring (nulterminate buf c) w.1) = c' := by
  rw [← h.map_eq]
  exact Cmd.map_congr fun w hw => cstring_nulterminate h.words hw

end Strings

def IsLine (l : List UInt8) (c : Cmd (List UInt8)) : Prop := ∃ ts, Lex l ts ∧ Derives .line ts c

section Runs

variable {buf : List UInt8} {fuel : ℕ} {ts : List (Token (List UInt8))}

theorem at_start (h : Scans (text buf) ts) : At buf 0 ts := ⟨Nat.zero_le _, h⟩

theorem scans_nil (h : Scans [] ts) : ts = [] := by
  generalize hl : [] = l at h
  cases h with
  | nil => rfl
  | word hne =>
      obtain ⟨c, w, rfl⟩ := List.exists_cons_of_ne_nil hne
      cases hl
  | _ => cases hl

-- The run on the tokens stops, and so does the run on the buffer.
theorem parsecmd_error (hat : At buf 0 ts) {e : Stop} (h : parseline tokens fuel ts = .error e) :
    parsecmd fuel buf = .error e := by
  have hsim := (parse_simulates fuel).1 0 ts hat
  unfold parsecmd
  dsimp only
  cases hrun : parseline (scanner buf (strlen buf)) fuel 0 with
  | error e' =>
      rw [hrun, h] at hsim
      rw [hsim]
  | ok r =>
      rw [hrun, h] at hsim
      exact hsim.elim

-- The run on the tokens reads rest only up to this point.
theorem parsecmd_ok (hat : At buf 0 ts) {c' : Cmd (List UInt8)} {rest : List (Token (List UInt8))}
    (h : parseline tokens fuel ts = .ok (c', rest)) :
    (rest ≠ [] → parsecmd fuel buf = .error (.panic "syntax")) ∧
    (rest = [] → ∃ c, parsecmd fuel buf = .ok (c, nulterminate buf c) ∧ Denotes buf c c') := by
  have hsim := (parse_simulates fuel).1 0 ts hat
  unfold parsecmd
  dsimp only
  cases hrun : parseline (scanner buf (strlen buf)) fuel 0 with
  | error e' =>
      rw [hrun, h] at hsim
      exact hsim.elim
  | ok r =>
      rw [hrun, h] at hsim
      obtain ⟨hdenotes, hend⟩ := hsim
      unfold peek
      dsimp only
      constructor
      · intro hne
        rw [if_pos]
        intro heq
        have hscans := hend.skip.2
        rw [heq, List.drop_of_length_le (by rfl : (text buf).length ≤ strlen buf)] at hscans
        exact hne (scans_nil hscans)
      · intro hnil
        subst hnil
        rw [if_neg (not_not.mpr (tokenAt_nil hend.skip hend.head_skip).2)]
        exact ⟨r.1, rfl, hdenotes⟩

theorem Yields.eq_ok {W : Type} {m : Parse (List (Token W)) (Cmd W)} {ts rest : List (Token W)} {c : Cmd W}
    (h : Yields m ts c rest) : m ts = .ok (c, rest) := by
  unfold Yields Wp.wp at h
  split at h
  · next a t hrun => rw [hrun, h.1, h.2]
  · exact h.elim

theorem IsLine.parsecmd {tree : Cmd (List UInt8)} (h : IsLine (text buf) tree) :
    ∃ N, ∀ fuel ≥ N, ∃ c, parsecmd fuel buf = .ok (c, nulterminate buf c) ∧
      c.map (fun w => cstring (nulterminate buf c) w.1) = tree := by
  obtain ⟨ts, hlex, hderives⟩ := h
  have hfollow : ∀ t ∈ ([] : List (Token (List UInt8))).head?, Follow .line t := by simp
  obtain ⟨N, hN⟩ := parse_complete hderives hfollow
  refine ⟨N, fun fuel hfuel => ?_⟩
  have hrun := (hN fuel hfuel).eq_ok
  rw [List.append_nil] at hrun
  obtain ⟨c, hparse, hdenotes⟩ := (parsecmd_ok (at_start (hlex.scans hderives.gtWord)) hrun).2 rfl
  exact ⟨c, hparse, hdenotes.strings⟩

end Runs

-- The parser returns a command for the lines of the grammar and panics on everything else; the
-- command is the tree of the line, with its words as strings of the buffer.
theorem parsecmd_correct (buf : List UInt8) :
    ∃ N, ∀ fuel ≥ N,
      (∀ tree, IsLine (text buf) tree ↔
        ∃ c buf', parsecmd fuel buf = .ok (c, buf') ∧ c.map (fun w => cstring buf' w.1) = tree) ∧
      ((¬∃ tree, IsLine (text buf) tree) → ∃ msg, parsecmd fuel buf = .error (.panic msg)) := by
  by_cases hline : ∃ tree, IsLine (text buf) tree
  · obtain ⟨tree, htree⟩ := hline
    obtain ⟨N, hN⟩ := htree.parsecmd
    refine ⟨N, fun fuel hfuel => ⟨fun tree' => ⟨fun htree' => ?_, ?_⟩, fun hnone => absurd ⟨tree, htree⟩ hnone⟩⟩
    · -- both trees come out of a run with enough fuel
      obtain ⟨N', hN'⟩ := htree'.parsecmd
      obtain ⟨c, hrun, hc⟩ := hN (max fuel N') (by omega)
      obtain ⟨c', hrun', hc'⟩ := hN' (max fuel N') (by omega)
      rw [hrun, Except.ok.injEq, Prod.mk.injEq] at hrun'
      rw [← hrun'.1, hc] at hc'
      obtain ⟨c, hrun, hc⟩ := hN fuel hfuel
      exact ⟨c, _, hrun, hc.trans hc'⟩
    · rintro ⟨c, buf', hrun, hc⟩
      obtain ⟨c', hrun', hc'⟩ := hN fuel hfuel
      rw [hrun', Except.ok.injEq, Prod.mk.injEq] at hrun
      rw [← hc, ← hrun.1, ← hrun.2, hc']
      exact htree
  · obtain ⟨ts, hscans⟩ := exists_scans (text buf)
    refine ⟨4 * ts.length + 4, fun fuel hfuel => ?_⟩
    have hpanic : ∃ msg, parsecmd fuel buf = .error (.panic msg) := by
      have hsound := (parse_sound fuel).1 ts
      unfold wp at hsound
      cases hrun : parseline tokens fuel ts with
      | error e =>
          rw [hrun] at hsound
          cases e with
          | fuel => exact absurd rfl (hsound hfuel)
          | panic msg => exact ⟨msg, parsecmd_error (at_start hscans) hrun⟩
      | ok r =>
          rw [hrun] at hsound
          obtain ⟨pre, hts, hderives⟩ := hsound
          refine ⟨"syntax", (parsecmd_ok (at_start hscans) hrun).1 fun hnil => hline ⟨r.1, ts, hscans.lex, ?_⟩⟩
          rw [hts, hnil, List.append_nil]
          exact hderives
    obtain ⟨msg, hmsg⟩ := hpanic
    refine ⟨fun tree => ⟨fun htree => absurd ⟨tree, htree⟩ hline, ?_⟩, fun _ => ⟨msg, hmsg⟩⟩
    rintro ⟨c, buf', hrun, -⟩
    rw [hmsg] at hrun
    cases hrun

-- a|b >c
example : (parsecmd 16 (['a', '|', 'b', ' ', '>', 'c'].map Char.toUInt8)).toOption.map Prod.fst =
    some (.pipe (.exec [(0, 1)]) (.redir (.exec [(2, 3)]) (5, 6) 0x601 1)) := by decide +kernel

end Xv6.Sh
