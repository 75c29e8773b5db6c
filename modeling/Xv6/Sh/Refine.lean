import Xv6.Sh.Scan

namespace Xv6.Sh

open Simulation

variable {buf : List UInt8}

section Calls

variable {s : ℕ} {ts : List (Token (List UInt8))}

variable {toks : List Char}

theorem strchr_symbol (htoks : ∀ x ∈ toks, x ∈ symbols) {d : Char} (hd : d ∈ symbols) :
    strchr toks d.toUInt8 = toks.contains d := by
  have hsame : (symbols.all fun x => symbols.all fun d => (x.toUInt8 == d.toUInt8) == (d == x)) = true := by decide
  simp only [List.all_eq_true, beq_iff_eq] at hsame
  rw [strchr, List.contains_eq_any_beq]
  induction toks with
  | nil => rfl
  | cons x toks ih =>
      rw [List.any_cons, List.any_cons, hsame x (htoks x List.mem_cons_self) d hd,
        ih fun y hy => htoks y (List.mem_cons_of_mem x hy)]

theorem strchr_word (htoks : ∀ x ∈ toks, x ∈ symbols) {c : UInt8} (hc : wordChar c) :
    strchr toks c = false := by
  unfold wordChar at hc
  simp only [Bool.and_eq_true, Bool.not_eq_true'] at hc
  have hnone := hc.2
  unfold strchr at hnone ⊢
  rw [List.any_eq_false] at hnone ⊢
  exact fun x hx => hnone x (htoks x hx)

theorem starts_symbol (htoks : ∀ x ∈ toks, x ∈ symbols) {c : UInt8} {t : Token (List UInt8)}
    (hc : symbol c = some t) : strchr toks c = t.starts toks := by
  unfold symbol at hc
  split_ifs at hc with h1 h2 h3 h4 h5 h6 h7
  · cases hc
    exact h1 ▸ strchr_symbol htoks (by decide)
  · cases hc
    exact h2 ▸ strchr_symbol htoks (by decide)
  · cases hc
    exact h3 ▸ strchr_symbol htoks (by decide)
  · cases hc
    exact h4 ▸ strchr_symbol htoks (by decide)
  · cases hc
    exact h5 ▸ strchr_symbol htoks (by decide)
  · cases hc
    exact h6 ▸ strchr_symbol htoks (by decide)
  · cases hc
    exact h7 ▸ strchr_symbol htoks (by decide)

theorem At.deref_cons {t : Token (List UInt8)} (h : At buf s (t :: ts))
    (hhead : ∀ c ∈ ((text buf).drop s).head?, ¬strchr whitespace c)
    (htoks : ∀ x ∈ toks, x ∈ symbols) : deref buf s ≠ 0 ∧ strchr toks (deref buf s) = t.starts toks := by
  obtain ⟨hs, hscans⟩ := h
  generalize hl : (text buf).drop s = l at hscans hhead
  generalize hts : t :: ts = ts' at hscans
  cases hscans with
  | nil => cases hts
  | space hc => exact absurd hc (hhead _ rfl)
  | symbol hc =>
      cases hts
      obtain ⟨hlt, hderef, -⟩ := head_of_drop hl
      refine ⟨deref_ne_zero hlt, ?_⟩
      rw [hderef]
      exact starts_symbol htoks hc
  | append =>
      cases hts
      obtain ⟨hlt, hderef, -⟩ := head_of_drop hl
      refine ⟨deref_ne_zero hlt, ?_⟩
      rw [hderef]
      exact strchr_symbol htoks (by decide)
  | word hne hw =>
      cases hts
      obtain ⟨c, w, rfl⟩ := List.exists_cons_of_ne_nil hne
      obtain ⟨hlt, hderef, -⟩ := head_of_drop hl
      refine ⟨deref_ne_zero hlt, ?_⟩
      rw [hderef]
      exact strchr_word htoks (hw c List.mem_cons_self)

theorem At.head_skip (h : At buf s ts) :
    ∀ c ∈ ((text buf).drop (scan buf (strlen buf) (strchr whitespace) s)).head?, ¬strchr whitespace c := by
  rw [drop_scan h.1]
  exact head_dropWhile _ _

theorem peek_simulates (htoks : toks.all symbols.contains = true) :
    Simulates (At buf) (· = ·) (peek buf (strlen buf) toks) (tokens.peek toks) := by
  have htoks : ∀ x ∈ toks, x ∈ symbols := fun x hx => List.contains_iff_mem.mp (List.all_eq_true.mp htoks x hx)
  intro s ts h
  refine ⟨?_, h.skip⟩
  cases ts with
  | nil =>
      have hend := (tokenAt_nil h.skip h.head_skip).2
      rw [hend, deref_strlen]
      rfl
  | cons t ts =>
      obtain ⟨hne, hstarts⟩ := h.skip.deref_cons h.head_skip htoks
      rw [hstarts, decide_eq_true hne]
      rfl

inductive Same (buf : List UInt8) : Option (Token (ℕ × ℕ)) → Option (Token (List UInt8)) → Prop
  | none : Same buf none none
  | some {t : Token (ℕ × ℕ)} {t' : Token (List UInt8)} (h : Spells buf t t') : Same buf (some t) (some t')

theorem gettoken_simulates : Simulates (At buf) (Same buf) (gettoken buf (strlen buf)) tokens.gettoken := by
  intro s ts h
  unfold gettoken
  cases ts with
  | nil =>
      dsimp only
      rw [(tokenAt_nil h.skip h.head_skip).1]
      exact ⟨.none, h.skip.skip⟩
  | cons t ts =>
      obtain ⟨t₀, e, htoken, hspells, hat⟩ := tokenAt_cons h.skip h.head_skip
      dsimp only
      rw [htoken]
      exact ⟨.some hspells, hat.skip⟩

end Calls

def Cmd.map {W W' : Type} (f : W → W') : Cmd W → Cmd W'
  | .exec argv => .exec (argv.map f)
  | .redir cmd file mode fd => .redir (cmd.map f) (f file) mode fd
  | .pipe left right => .pipe (left.map f) (right.map f)
  | .list left right => .list (left.map f) (right.map f)
  | .back cmd => .back (cmd.map f)

def Cmd.words {W : Type} : Cmd W → List W
  | .exec argv => argv
  | .redir cmd file _ _ => cmd.words ++ [file]
  | .pipe left right => left.words ++ right.words
  | .list left right => left.words ++ right.words
  | .back cmd => cmd.words

theorem Cmd.map_push {W W' : Type} (f : W → W') (c : Cmd W) (w : W) : (c.push w).map f = (c.map f).push (f w) := by
  induction c with
  | exec argv => simp [Cmd.push, Cmd.map]
  | redir cmd file mode fd ih => simp [Cmd.push, Cmd.map, ih]
  | _ => rfl

theorem Cmd.mem_words_push {W : Type} {c : Cmd W} {w v : W} (h : v ∈ (c.push w).words) : v = w ∨ v ∈ c.words := by
  induction c with
  | exec argv =>
      rw [Cmd.push, Cmd.words, List.mem_append, List.mem_singleton] at h
      exact h.symm
  | redir cmd file mode fd ih =>
      rw [Cmd.push, Cmd.words, List.mem_append] at h
      rw [Cmd.words, List.mem_append]
      rcases h with h | h
      · exact (ih h).imp_right .inl
      · exact .inr (.inr h)
  | _ => exact .inr h

structure Denotes (buf : List UInt8) (c : Cmd (ℕ × ℕ)) (c' : Cmd (List UInt8)) : Prop where
  map_eq : c.map (bytes buf) = c'
  words : ∀ w ∈ c.words, WordAt buf w

section Denotes

variable {c d : Cmd (ℕ × ℕ)} {c' d' : Cmd (List UInt8)} {w : ℕ × ℕ}

theorem denotes_exec : Denotes buf (.exec []) (.exec []) := ⟨rfl, fun w hw => by cases hw⟩

theorem Denotes.push (h : Denotes buf c c') (hw : WordAt buf w) : Denotes buf (c.push w) (c'.push (bytes buf w)) := by
  refine ⟨by rw [Cmd.map_push, h.map_eq], fun v hv => ?_⟩
  rcases Cmd.mem_words_push hv with rfl | hv
  · exact hw
  · exact h.words v hv

theorem Denotes.redir (h : Denotes buf c c') (hw : WordAt buf w) (mode fd : ℕ) :
    Denotes buf (.redir c w mode fd) (.redir c' (bytes buf w) mode fd) := by
  refine ⟨by rw [Cmd.map, h.map_eq], fun v hv => ?_⟩
  rw [Cmd.words, List.mem_append, List.mem_singleton] at hv
  rcases hv with hv | rfl
  · exact h.words v hv
  · exact hw

theorem Denotes.back (h : Denotes buf c c') : Denotes buf (.back c) (.back c') :=
  ⟨by rw [Cmd.map, h.map_eq], h.words⟩

theorem Denotes.list (h : Denotes buf c c') (h' : Denotes buf d d') : Denotes buf (.list c d) (.list c' d') := by
  refine ⟨by rw [Cmd.map, h.map_eq, h'.map_eq], fun v hv => ?_⟩
  rw [Cmd.words, List.mem_append] at hv
  exact hv.elim (h.words v) (h'.words v)

theorem Denotes.pipe (h : Denotes buf c c') (h' : Denotes buf d d') : Denotes buf (.pipe c d) (.pipe c' d') := by
  refine ⟨by rw [Cmd.map, h.map_eq, h'.map_eq], fun v hv => ?_⟩
  rw [Cmd.words, List.mem_append] at hv
  exact hv.elim (h.words v) (h'.words v)

end Denotes

section Parser

variable {c : Cmd (ℕ × ℕ)} {c' : Cmd (List UInt8)}

-- The parser on the buffer and on the tokens does the same.
theorem parseredirs_simulates (fuel : ℕ) (h : Denotes buf c c') :
    Simulates (At buf) (Denotes buf) (parseredirs (scanner buf (strlen buf)) fuel c) (parseredirs tokens fuel c') := by
  induction fuel generalizing c c' with
  | zero => exact .throw _
  | succ fuel ih =>
      refine .bind (peek_simulates (by decide)) fun more _ hmore => ?_
      subst hmore
      refine .ite ?_ (.pure h)
      refine .bind gettoken_simulates fun tok tok' htok => .bind gettoken_simulates fun file file' hfile => ?_
      cases hfile with
      | none => exact .throw _
      | @some t t' hspells =>
          obtain ⟨rfl, hword⟩ := hspells
          cases t with
          | word w =>
              have hw := hword w rfl
              cases htok with
              | none => exact ih h
              | @some t t' hspells =>
                  obtain ⟨rfl, -⟩ := hspells
                  cases t with
                  | lt => exact ih (h.redir hw _ _)
                  | gt => exact ih (h.redir hw _ _)
                  | gtgt => exact ih (h.redir hw _ _)
                  | _ => exact ih h
          | _ => exact .throw _

theorem parseback_simulates (fuel : ℕ) (h : Denotes buf c c') :
    Simulates (At buf) (Denotes buf) (parseback (scanner buf (strlen buf)) fuel c) (parseback tokens fuel c') := by
  induction fuel generalizing c c' with
  | zero => exact .throw _
  | succ fuel ih =>
      refine .bind (peek_simulates (by decide)) fun more _ hmore => ?_
      subst hmore
      exact .ite (.bind gettoken_simulates fun _ _ _ => ih h.back) (.pure h)

theorem parseargs_simulates (fuel argc : ℕ) (h : Denotes buf c c') :
    Simulates (At buf) (Denotes buf) (parseargs (scanner buf (strlen buf)) fuel argc c)
      (parseargs tokens fuel argc c') := by
  induction fuel generalizing argc c c' with
  | zero => exact .throw _
  | succ fuel ih =>
      refine .bind (peek_simulates (by decide)) fun more _ hmore => ?_
      subst hmore
      refine .ite (.pure h) (.bind gettoken_simulates fun tok tok' htok => ?_)
      cases htok with
      | none => exact .pure h
      | @some t t' hspells =>
          obtain ⟨rfl, hword⟩ := hspells
          cases t with
          | word w =>
              change Simulates _ _ (if argc + 1 ≥ MAXARGS then _ else _) (if argc + 1 ≥ MAXARGS then _ else _)
              split_ifs with hmany
              · exact .throw _
              · exact .bind (parseredirs_simulates fuel (h.push (hword w rfl))) fun _ _ hret => ih _ hret
          | _ => exact .throw _

theorem parse_simulates (fuel : ℕ) :
    Simulates (At buf) (Denotes buf) (parseline (scanner buf (strlen buf)) fuel) (parseline tokens fuel) ∧
    Simulates (At buf) (Denotes buf) (parsepipe (scanner buf (strlen buf)) fuel) (parsepipe tokens fuel) ∧
    Simulates (At buf) (Denotes buf) (parseblock (scanner buf (strlen buf)) fuel) (parseblock tokens fuel) ∧
    Simulates (At buf) (Denotes buf) (parseexec (scanner buf (strlen buf)) fuel) (parseexec tokens fuel) := by
  induction fuel with
  | zero => exact ⟨.throw _, .throw _, .throw _, .throw _⟩
  | succ fuel ih =>
      obtain ⟨hline, hpipe, hblock, hexec⟩ := ih
      refine ⟨?_, ?_, ?_, ?_⟩
      · refine .bind hpipe fun c c' hc => .bind (parseback_simulates fuel hc) fun c c' hc => ?_
        refine .bind (peek_simulates (by decide)) fun more _ hmore => ?_
        subst hmore
        refine .ite (.bind gettoken_simulates fun _ _ _ => ?_) (.pure hc)
        exact .bind hline fun _ _ hright => .pure (hc.list hright)
      · refine .bind hexec fun c c' hc => .bind (peek_simulates (by decide)) fun more _ hmore => ?_
        subst hmore
        refine .ite (.bind gettoken_simulates fun _ _ _ => ?_) (.pure hc)
        exact .bind hpipe fun _ _ hright => .pure (hc.pipe hright)
      · refine .bind (peek_simulates (by decide)) fun more _ hmore => ?_
        subst hmore
        refine .ite (.bind gettoken_simulates fun _ _ _ => .bind hline fun c c' hc => ?_) (.throw _)
        refine .bind (peek_simulates (by decide)) fun more _ hmore => ?_
        subst hmore
        exact .ite (.bind gettoken_simulates fun _ _ _ => parseredirs_simulates fuel hc) (.throw _)
      · refine .bind (peek_simulates (by decide)) fun more _ hmore => ?_
        subst hmore
        refine .ite hblock (.bind (parseredirs_simulates fuel denotes_exec) fun c c' hc => ?_)
        exact parseargs_simulates fuel 0 hc

end Parser

end Xv6.Sh
