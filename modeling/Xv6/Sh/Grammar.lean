import Xv6.Sh
import Xv6.Lib.Wp
import Mathlib.Logic.Function.Iterate

namespace Xv6.Sh

open Wp

variable {W : Type}

-- A redirection symbol, with the mode and the descriptor that it stands for.
def Token.redirection : Token W → Option (ℕ × ℕ)
  | .lt => some (O_RDONLY, 0)
  | .gt => some (O_WRONLY ||| O_CREATE ||| O_TRUNC, 1)
  | .gtgt => some (O_WRONLY ||| O_CREATE, 1)
  | _ => none

-- redir*, put around the command in the order in which they come.
inductive Redirs : List (Token W) → Cmd W → Cmd W → Prop
  | nil (c : Cmd W) : Redirs [] c c
  | cons {t : Token W} {mode fd : ℕ} {w : W} {ts : List (Token W)} {c c' : Cmd W}
      (hop : t.redirection = some (mode, fd)) (hrest : Redirs ts (.redir c w mode fd) c') :
      Redirs (t :: .word w :: ts) c c'

-- (word redir*)*, with the number of words.
inductive Args : ℕ → List (Token W) → Cmd W → Cmd W → Prop
  | nil (c : Cmd W) : Args 0 [] c c
  | cons {n : ℕ} {w : W} {ts ts' : List (Token W)} {c c' c'' : Cmd W} (hredirs : Redirs ts (c.push w) c')
      (hrest : Args n ts' c' c'') : Args (n + 1) (.word w :: ts ++ ts') c c''

inductive Phrase
  | line
  | pipe
  | exec

-- The grammar of the shell, with the tree of each phrase.
inductive Derives : Phrase → List (Token W) → Cmd W → Prop
  | line {ts : List (Token W)} {c : Cmd W} (n : ℕ) (hpipe : Derives .pipe ts c) :
      Derives .line (ts ++ List.replicate n .amp) (Cmd.back^[n] c)
  | seq {ts ts' : List (Token W)} {c c' : Cmd W} (n : ℕ) (hpipe : Derives .pipe ts c) (hline : Derives .line ts' c') :
      Derives .line (ts ++ List.replicate n .amp ++ .semi :: ts') (.list (Cmd.back^[n] c) c')
  | single {ts : List (Token W)} {c : Cmd W} (hexec : Derives .exec ts c) : Derives .pipe ts c
  | pipe {ts ts' : List (Token W)} {c c' : Cmd W} (hexec : Derives .exec ts c) (hpipe : Derives .pipe ts' c') :
      Derives .pipe (ts ++ .pipe :: ts') (.pipe c c')
  | block {ts ts' : List (Token W)} {c c' : Cmd W} (hline : Derives .line ts c) (hredirs : Redirs ts' c c') :
      Derives .exec (.lparen :: ts ++ .rparen :: ts') c'
  | exec {n : ℕ} {ts ts' : List (Token W)} {c c' : Cmd W} (hredirs : Redirs ts (.exec []) c) (hargs : Args n ts' c c')
      (hn : n ≤ MAXARGS - 1) : Derives .exec (ts ++ ts') c'

def Token.starts (toks : List Char) : Token W → Bool
  | .pipe => toks.contains '|'
  | .lparen => toks.contains '('
  | .rparen => toks.contains ')'
  | .semi => toks.contains ';'
  | .amp => toks.contains '&'
  | .lt => toks.contains '<'
  | .gt => toks.contains '>'
  | .gtgt => toks.contains '>'
  | .word _ => false

def tokens : Scanner (List (Token W)) W where
  peek toks := fun ts => .ok (match ts with | [] => false | t :: _ => t.starts toks, ts)
  gettoken := fun ts => .ok (match ts with | [] => (none, []) | t :: ts => (some t, ts))

section Steps

variable {fuel : ℕ} {post : Cmd W → List (Token W) → Prop} {err : Stop → Prop} {cmd : Cmd W}

theorem wp_parseredirs (ts : List (Token W)) :
    wp (parseredirs tokens (fuel + 1) cmd) post err ts ↔
      match ts with
      | [] => post cmd []
      | t :: ts =>
          match t.redirection, ts with
          | some (mode, fd), .word w :: ts => wp (parseredirs tokens fuel (.redir cmd w mode fd)) post err ts
          | some _, _ => err (.panic "missing file for redirection")
          | none, ts => post cmd (t :: ts) := by
  cases ts with
  | nil => rfl
  | cons t ts =>
      cases t with
      | lt | gt | gtgt =>
          cases ts with
          | nil => rfl
          | cons u ts => cases u <;> rfl
      | _ => rfl

theorem wp_parseback (ts : List (Token W)) :
    wp (parseback tokens (fuel + 1) cmd) post err ts ↔
      match ts with
      | .amp :: ts => wp (parseback tokens fuel (.back cmd)) post err ts
      | ts => post cmd ts := by
  cases ts with
  | nil => rfl
  | cons t ts => cases t <;> rfl

theorem wp_parseargs {argc : ℕ} (ts : List (Token W)) :
    wp (parseargs tokens (fuel + 1) argc cmd) post err ts ↔
      match ts with
      | [] => post cmd []
      | .word w :: ts =>
          if argc + 1 ≥ MAXARGS then err (.panic "too many args")
          else wp (parseredirs tokens fuel (cmd.push w))
            (fun cmd ts => wp (parseargs tokens fuel (argc + 1) cmd) post err ts) err ts
      | t :: ts => if t.starts ['|', ')', '&', ';'] then post cmd (t :: ts) else err (.panic "syntax") := by
  cases ts with
  | nil => rfl
  | cons t ts =>
      cases t with
      | word w =>
          rw [parseargs, wp_bind]
          change wp (if argc + 1 ≥ MAXARGS then _ else _) post err ts ↔ _
          rw [wp_ite, wp_bind]
          rfl
      | _ => rfl

theorem wp_parseline (ts : List (Token W)) :
    wp (parseline tokens (fuel + 1)) post err ts ↔
      wp (parsepipe tokens fuel) (fun cmd ts => wp (parseback tokens fuel cmd) (fun cmd ts =>
        match ts with
        | .semi :: ts => wp (parseline tokens fuel) (fun right ts => post (.list cmd right) ts) err ts
        | ts => post cmd ts) err ts) err ts := by
  rw [parseline, wp_bind]
  refine wp_congr fun cmd ts => ?_
  rw [wp_bind]
  refine wp_congr fun cmd ts => ?_
  cases ts with
  | nil => rfl
  | cons t ts =>
      cases t with
      | semi =>
          change wp (parseline tokens fuel >>= fun right => pure (.list cmd right)) post err ts ↔ _
          rw [wp_bind]
          rfl
      | _ => rfl

theorem wp_parsepipe (ts : List (Token W)) :
    wp (parsepipe tokens (fuel + 1)) post err ts ↔
      wp (parseexec tokens fuel) (fun cmd ts =>
        match ts with
        | .pipe :: ts => wp (parsepipe tokens fuel) (fun right ts => post (.pipe cmd right) ts) err ts
        | ts => post cmd ts) err ts := by
  rw [parsepipe, wp_bind]
  refine wp_congr fun cmd ts => ?_
  cases ts with
  | nil => rfl
  | cons t ts =>
      cases t with
      | pipe =>
          change wp (parsepipe tokens fuel >>= fun right => pure (.pipe cmd right)) post err ts ↔ _
          rw [wp_bind]
          rfl
      | _ => rfl

theorem wp_parseexec (ts : List (Token W)) :
    wp (parseexec tokens (fuel + 1)) post err ts ↔
      match ts with
      | .lparen :: ts => wp (parseblock tokens fuel) post err (.lparen :: ts)
      | ts => wp (parseredirs tokens fuel (.exec []))
          (fun cmd ts => wp (parseargs tokens fuel 0 cmd) post err ts) err ts := by
  have hplain : ∀ ts, wp (parseredirs tokens fuel (.exec []) >>= fun ret => parseargs tokens fuel 0 ret) post err ts ↔
      wp (parseredirs tokens fuel (.exec [])) (fun cmd ts => wp (parseargs tokens fuel 0 cmd) post err ts) err ts :=
    fun _ => wp_bind
  cases ts with
  | nil => exact hplain []
  | cons t ts =>
      cases t with
      | lparen => rfl
      | _ => exact hplain _

theorem wp_parseblock (ts : List (Token W)) :
    wp (parseblock tokens (fuel + 1)) post err ts ↔
      match ts with
      | .lparen :: ts => wp (parseline tokens fuel) (fun cmd ts =>
          match ts with
          | .rparen :: ts => wp (parseredirs tokens fuel cmd) post err ts
          | _ => err (.panic "syntax - missing )")) err ts
      | _ => err (.panic "parseblock") := by
  cases ts with
  | nil => rfl
  | cons t ts =>
      cases t with
      | lparen =>
          change wp (parseline tokens fuel >>= fun cmd => do
            if ← tokens.peek [')'] then
              let _ ← tokens.gettoken
              parseredirs tokens fuel cmd
            else throw (.panic "syntax - missing )")) post err ts ↔ _
          rw [wp_bind]
          refine wp_congr fun cmd ts => ?_
          cases ts with
          | nil => rfl
          | cons t ts => cases t <;> rfl
      | _ => rfl

end Steps

section Sound

variable (fuel : ℕ)

theorem parseredirs_sound (cmd : Cmd W) (ts : List (Token W)) :
    wp (parseredirs tokens fuel cmd) (fun c rest => ∃ pre, ts = pre ++ rest ∧ Redirs pre cmd c)
      (fun e => ts.length < fuel → e ≠ .fuel) ts := by
  induction fuel generalizing cmd ts with
  | zero => exact fun hlt => absurd hlt (Nat.not_lt_zero _)
  | succ fuel ih =>
      rw [wp_parseredirs]
      cases ts with
      | nil => exact ⟨[], rfl, .nil cmd⟩
      | cons t ts =>
          dsimp only
          split
          · next mode fd w ts hop =>
              refine wp_mono (ih _ ts) (fun c rest ⟨pre, hts, hredirs⟩ => ?_) fun e he hlt => he ?_
              · exact ⟨t :: .word w :: pre, by rw [hts]; rfl, .cons hop hredirs⟩
              · simp only [List.length_cons] at hlt
                omega
          · exact fun _ => by simp
          · exact ⟨[], rfl, .nil cmd⟩

theorem parseback_sound (cmd : Cmd W) (ts : List (Token W)) :
    wp (parseback tokens fuel cmd) (fun c rest => ∃ n, ts = List.replicate n .amp ++ rest ∧ c = Cmd.back^[n] cmd)
      (fun e => ts.length < fuel → e ≠ .fuel) ts := by
  induction fuel generalizing cmd ts with
  | zero => exact fun hlt => absurd hlt (Nat.not_lt_zero _)
  | succ fuel ih =>
      rw [wp_parseback]
      split
      · next ts =>
          refine wp_mono (ih _ ts) (fun c rest ⟨n, hts, hc⟩ => ?_) fun e he hlt => he ?_
          · exact ⟨n + 1, by rw [hts]; rfl, hc⟩
          · rw [List.length_cons] at hlt
            omega
      · exact ⟨0, rfl, rfl⟩

theorem parseargs_sound {argc : ℕ} (hargc : argc < MAXARGS) (cmd : Cmd W) (ts : List (Token W)) :
    wp (parseargs tokens fuel argc cmd)
      (fun c rest => ∃ n pre, ts = pre ++ rest ∧ Args n pre cmd c ∧ argc + n < MAXARGS)
      (fun e => ts.length < fuel → e ≠ .fuel) ts := by
  induction fuel generalizing argc cmd ts with
  | zero => exact fun hlt => absurd hlt (Nat.not_lt_zero _)
  | succ fuel ih =>
      rw [wp_parseargs]
      split
      · exact ⟨0, [], rfl, .nil cmd, hargc⟩
      · next w ts =>
          split_ifs with hmany
          · exact fun _ => by simp
          · refine wp_mono (parseredirs_sound fuel (cmd.push w) ts) (fun c rest ⟨pre, hts, hredirs⟩ => ?_)
              fun e he hlt => he ?_
            · refine wp_mono (ih (by omega) c rest) (fun c' rest' ⟨n, pre', hrest, hargs, hn⟩ => ?_)
                fun e he hlt => he ?_
              · refine ⟨n + 1, .word w :: pre ++ pre', ?_, .cons hredirs hargs, by omega⟩
                rw [hts, hrest, List.cons_append, List.cons_append, List.append_assoc]
              · rw [hts, List.length_cons, List.length_append] at hlt
                omega
            · rw [List.length_cons] at hlt
              omega
      · next t ts hword =>
          split_ifs with hstart
          · exact ⟨0, [], rfl, .nil cmd, hargc⟩
          · exact fun _ => by simp

def Reads (phrase : Phrase) (ts : List (Token W)) (c : Cmd W) (rest : List (Token W)) : Prop :=
  ∃ pre, ts = pre ++ rest ∧ Derives phrase pre c

-- With this much fuel the run does not stop for lack of it.
def Enough (need fuel : ℕ) (e : Stop) : Prop := need ≤ fuel → e ≠ .fuel

theorem Enough.mono {need need' fuel fuel' : ℕ} {e : Stop} (h : Enough need fuel e)
    (hle : need' ≤ fuel' → need ≤ fuel) : Enough need' fuel' e := fun hneed => h (hle hneed)

theorem enough_panic (need fuel : ℕ) (msg : String) : Enough need fuel (.panic msg) := fun _ => by simp

theorem parseexec_sound (hblock : ∀ ts : List (Token W),
      wp (parseblock tokens fuel) (Reads .exec ts) (Enough (4 * ts.length + 1) fuel) ts) (ts : List (Token W)) :
    wp (parseexec tokens (fuel + 1)) (Reads .exec ts) (Enough (4 * ts.length + 2) (fuel + 1)) ts := by
  rw [wp_parseexec]
  split
  · next ts =>
      exact wp_mono (hblock (.lparen :: ts)) (fun _ _ h => h) fun e he => he.mono (by omega)
  · refine wp_mono (parseredirs_sound fuel (.exec []) ts) ?_ fun e he hneed => he (by omega)
    intro c rest hpre
    obtain ⟨pre, hts, hredirs⟩ := hpre
    refine wp_mono (parseargs_sound fuel (by decide : 0 < MAXARGS) c rest) ?_ fun e he hneed => he ?_
    · intro c' rest' hpre'
      obtain ⟨n, pre', hrest, hargs, hn⟩ := hpre'
      refine ⟨pre ++ pre', ?_, .exec hredirs hargs (by omega)⟩
      rw [hts, hrest, List.append_assoc]
    · rw [hts, List.length_append] at hneed
      omega

theorem parseblock_sound (hline : ∀ ts : List (Token W),
      wp (parseline tokens fuel) (Reads .line ts) (Enough (4 * ts.length + 4) fuel) ts) (ts : List (Token W)) :
    wp (parseblock tokens (fuel + 1)) (Reads .exec ts) (Enough (4 * ts.length + 1) (fuel + 1)) ts := by
  rw [wp_parseblock]
  split
  · next ts =>
      refine wp_mono (hline ts) ?_ fun e he => he.mono ?_
      · intro c rest hread
        obtain ⟨pre, hts, hpre⟩ := hread
        split
        · next rest =>
            refine wp_mono (parseredirs_sound fuel c rest) ?_ fun e he hneed => he ?_
            · intro c' rest' hread'
              obtain ⟨pre', hrest, hredirs⟩ := hread'
              refine ⟨.lparen :: pre ++ .rparen :: pre', ?_, .block hpre hredirs⟩
              rw [hts, hrest, List.cons_append, List.cons_append, List.append_assoc, List.cons_append]
            · rw [hts] at hneed
              simp only [List.length_cons, List.length_append] at hneed
              omega
        · exact enough_panic _ _ _
      · rw [List.length_cons]
        omega
  · exact enough_panic _ _ _

theorem parsepipe_sound
    (hexec : ∀ ts : List (Token W), wp (parseexec tokens fuel) (Reads .exec ts) (Enough (4 * ts.length + 2) fuel) ts)
    (hpipe : ∀ ts : List (Token W), wp (parsepipe tokens fuel) (Reads .pipe ts) (Enough (4 * ts.length + 3) fuel) ts)
    (ts : List (Token W)) :
    wp (parsepipe tokens (fuel + 1)) (Reads .pipe ts) (Enough (4 * ts.length + 3) (fuel + 1)) ts := by
  rw [wp_parsepipe]
  refine wp_mono (hexec ts) ?_ fun e he => he.mono (by omega)
  intro c rest hread
  obtain ⟨pre, hts, hpre⟩ := hread
  split
  · next rest =>
      refine wp_mono (hpipe rest) ?_ fun e he => he.mono ?_
      · intro c' rest' hread'
        obtain ⟨pre', hrest, hpre'⟩ := hread'
        refine ⟨pre ++ .pipe :: pre', ?_, .pipe hpre hpre'⟩
        rw [hts, hrest, List.append_assoc, List.cons_append]
      · rw [hts, List.length_append, List.length_cons]
        omega
  · exact ⟨pre, hts, .single hpre⟩

theorem parseline_sound
    (hpipe : ∀ ts : List (Token W), wp (parsepipe tokens fuel) (Reads .pipe ts) (Enough (4 * ts.length + 3) fuel) ts)
    (hline : ∀ ts : List (Token W), wp (parseline tokens fuel) (Reads .line ts) (Enough (4 * ts.length + 4) fuel) ts)
    (ts : List (Token W)) :
    wp (parseline tokens (fuel + 1)) (Reads .line ts) (Enough (4 * ts.length + 4) (fuel + 1)) ts := by
  rw [wp_parseline]
  refine wp_mono (hpipe ts) ?_ fun e he => he.mono (by omega)
  intro c rest hread
  obtain ⟨pre, hts, hpre⟩ := hread
  refine wp_mono (parseback_sound fuel c rest) ?_ fun e he hneed => he ?_
  · intro c' rest' hback
    obtain ⟨n, hrest, hc'⟩ := hback
    have hread : ts = (pre ++ List.replicate n .amp) ++ rest' := by rw [hts, hrest, List.append_assoc]
    subst hc'
    split
    · next rest' =>
        refine wp_mono (hline rest') ?_ fun e he => he.mono ?_
        · intro c'' rest'' hread'
          obtain ⟨pre', hrest', hpre'⟩ := hread'
          refine ⟨pre ++ List.replicate n .amp ++ .semi :: pre', ?_, .seq n hpre hpre'⟩
          rw [hread, hrest', List.append_assoc _ (_ :: pre'), List.cons_append]
        · rw [hread, List.length_append, List.length_cons]
          omega
    · exact ⟨_, hread, .line n hpre⟩
  · rw [hts, List.length_append] at hneed
    omega

-- What the parser accepts is in the grammar, and with enough fuel it comes to an end.
theorem parse_sound :
    (∀ ts : List (Token W), wp (parseline tokens fuel) (Reads .line ts) (Enough (4 * ts.length + 4) fuel) ts) ∧
    (∀ ts : List (Token W), wp (parsepipe tokens fuel) (Reads .pipe ts) (Enough (4 * ts.length + 3) fuel) ts) ∧
    (∀ ts : List (Token W), wp (parseexec tokens fuel) (Reads .exec ts) (Enough (4 * ts.length + 2) fuel) ts) ∧
    ∀ ts : List (Token W), wp (parseblock tokens fuel) (Reads .exec ts) (Enough (4 * ts.length + 1) fuel) ts := by
  induction fuel with
  | zero =>
      have hzero : ∀ need, Enough (need + 1) 0 .fuel := fun need hneed => absurd hneed (Nat.not_succ_le_zero need)
      exact ⟨fun ts => hzero _, fun ts => hzero _, fun ts => hzero _, fun ts => hzero _⟩
  | succ fuel ih =>
      obtain ⟨hline, hpipe, hexec, hblock⟩ := ih
      exact ⟨parseline_sound fuel hpipe hline, parsepipe_sound fuel hexec hpipe, parseexec_sound fuel hblock,
        parseblock_sound fuel hline⟩

end Sound

section Complete

variable {ts : List (Token W)} {c : Cmd W} {rest : List (Token W)} {t : Token W} {pre : List (Token W)} {cmd : Cmd W}
    {fuel : ℕ}

def Yields (m : Parse (List (Token W)) (Cmd W)) (ts : List (Token W)) (c : Cmd W) (rest : List (Token W)) : Prop :=
  wp m (fun c' rest' => c' = c ∧ rest' = rest) (fun _ => False) ts

theorem Yields.wp {m : Parse (List (Token W)) (Cmd W)}
    (h : Yields m ts c rest) {post : Cmd W → List (Token W) → Prop} {err : Stop → Prop} (hpost : post c rest) :
    wp m post err ts := by
  refine wp_mono h (fun c' rest' heq => ?_) fun _ he => he.elim
  rw [heq.1, heq.2]
  exact hpost

def Follow : Phrase → Token W → Prop
  | .line, t => t = .rparen
  | .pipe, t => t = .rparen ∨ t = .amp ∨ t = .semi
  | .exec, t => t = .rparen ∨ t = .amp ∨ t = .semi ∨ t = .pipe

theorem Follow.exec {phrase : Phrase} (h : Follow phrase t) : Follow .exec t := by
  cases phrase with
  | line => exact .inl h
  | pipe => exact h.imp_right (Or.imp_right .inl)
  | exec => exact h

theorem Follow.stops (h : Follow .exec t) :
    t.starts ['|', ')', '&', ';'] = true ∧ t.redirection = none ∧ t ≠ .lparen ∧ ∀ w, t ≠ .word w := by
  rcases h with rfl | rfl | rfl | rfl <;> exact ⟨rfl, rfl, by simp, by simp⟩

theorem parseredirs_complete (h : Redirs pre cmd c)
    (hrest : ∀ t ∈ rest.head?, t.redirection = none) (hfuel : pre.length < fuel) :
    Yields (parseredirs tokens fuel cmd) (pre ++ rest) c rest := by
  obtain ⟨fuel, rfl⟩ := Nat.exists_eq_succ_of_ne_zero (Nat.ne_zero_of_lt hfuel)
  induction h generalizing fuel with
  | nil c =>
      refine (wp_parseredirs rest).mpr ?_
      cases rest with
      | nil => exact ⟨rfl, rfl⟩
      | cons t rest =>
          dsimp only
          rw [hrest t rfl]
          exact ⟨rfl, rfl⟩
  | cons hop hredirs ih =>
      rw [List.cons_append, List.cons_append]
      refine (wp_parseredirs _).mpr ?_
      dsimp only
      rw [hop]
      rw [List.length_cons, List.length_cons] at hfuel
      obtain ⟨fuel, rfl⟩ := Nat.exists_eq_succ_of_ne_zero (by omega : fuel ≠ 0)
      exact ih fuel (by omega)

theorem parseback_complete (n : ℕ) (hrest : ∀ t ∈ rest.head?, t ≠ .amp) (hfuel : n < fuel) :
    Yields (parseback tokens fuel cmd) (List.replicate n .amp ++ rest) (Cmd.back^[n] cmd) rest := by
  obtain ⟨fuel, rfl⟩ := Nat.exists_eq_succ_of_ne_zero (Nat.ne_zero_of_lt hfuel)
  induction n generalizing fuel cmd with
  | zero =>
      refine (wp_parseback rest).mpr ?_
      cases rest with
      | nil => exact ⟨rfl, rfl⟩
      | cons t rest =>
          split
          · next heq =>
              cases heq
              exact absurd rfl (hrest .amp rfl)
          · exact ⟨rfl, rfl⟩
  | succ n ih =>
      refine (wp_parseback _).mpr ?_
      obtain ⟨fuel, rfl⟩ := Nat.exists_eq_succ_of_ne_zero (by omega : fuel ≠ 0)
      exact ih fuel (by omega)

theorem parseargs_complete {n argc : ℕ} (h : Args n pre cmd c)
    (hargc : argc + n < MAXARGS) (hrest : ∀ t ∈ rest.head?, Follow .exec t) (hfuel : pre.length < fuel) :
    Yields (parseargs tokens fuel argc cmd) (pre ++ rest) c rest := by
  obtain ⟨fuel, rfl⟩ := Nat.exists_eq_succ_of_ne_zero (Nat.ne_zero_of_lt hfuel)
  induction h generalizing fuel argc with
  | nil c =>
      refine (wp_parseargs rest).mpr ?_
      split
      · exact ⟨rfl, rfl⟩
      · next w rest => exact absurd rfl ((hrest (.word w) rfl).stops.2.2.2 w)
      · next t rest _ =>
          rw [if_pos (hrest t rfl).stops.1]
          exact ⟨rfl, rfl⟩
  | @cons n w ts ts' c c' c'' hredirs hargs ih =>
      rw [List.cons_append, List.cons_append, List.append_assoc]
      refine (wp_parseargs _).mpr ?_
      dsimp only
      rw [if_neg (by omega)]
      simp only [List.length_append, List.length_cons] at hfuel
      have hnext : ∀ t ∈ (ts' ++ rest).head?, t.redirection = none := by
        intro t ht
        cases hargs with
        | nil => exact (hrest t ht).stops.2.1
        | cons =>
            cases ht
            rfl
      refine (parseredirs_complete hredirs hnext (by omega)).wp ?_
      obtain ⟨fuel, rfl⟩ := Nat.exists_eq_succ_of_ne_zero (by omega : fuel ≠ 0)
      exact ih (by omega) fuel (by omega)

def parse : Phrase → (fuel : ℕ) → Parse (List (Token W)) (Cmd W)
  | .line => parseline tokens
  | .pipe => parsepipe tokens
  | .exec => parseexec tokens

theorem parseexec_plain (h : ∀ t ∈ ts.head?, t ≠ .lparen)
    {post : Cmd W → List (Token W) → Prop} {err : Stop → Prop}
    (hwp : wp (parseredirs tokens fuel (.exec []))
      (fun cmd ts => wp (parseargs tokens fuel 0 cmd) post err ts) err ts) :
    wp (parseexec tokens (fuel + 1)) post err ts := by
  refine (wp_parseexec ts).mpr ?_
  split
  · exact absurd rfl (h .lparen rfl)
  · exact hwp

theorem amps_head (n : ℕ) (h : t ∈ (List.replicate n Token.amp ++ ts).head?) :
    t = .amp ∨ t ∈ ts.head? := by
  cases n with
  | zero => exact .inr h
  | succ n =>
      cases h
      exact .inl rfl

-- The parser reads every phrase of the grammar, when what comes next may follow it.
theorem parse_complete {phrase : Phrase} (h : Derives phrase pre c) (hrest : ∀ t ∈ rest.head?, Follow phrase t) :
    ∃ N, ∀ fuel ≥ N, Yields (parse phrase fuel) (pre ++ rest) c rest := by
  induction h generalizing rest with
  | @line ts c n hpipe ih =>
      have hfollow : ∀ t ∈ (List.replicate n Token.amp ++ rest).head?, Follow .pipe t := fun t ht =>
        (amps_head n ht).elim (fun hamp => .inr (.inl hamp)) fun ht => .inl (hrest t ht)
      obtain ⟨N, hN⟩ := ih hfollow
      refine ⟨N + n + 2, fun fuel hfuel => ?_⟩
      obtain ⟨fuel, rfl⟩ := Nat.exists_eq_succ_of_ne_zero (by omega : fuel ≠ 0)
      rw [List.append_assoc]
      refine (wp_parseline _).mpr ((hN fuel (by omega)).wp ?_)
      refine (parseback_complete n (fun t ht => ?_) (by omega)).wp ?_
      · rw [show t = .rparen from hrest t ht]
        simp
      · split
        · exact absurd (hrest .semi rfl) (by simp [Follow])
        · exact ⟨rfl, rfl⟩
  | @seq ts ts' c c' n hpipe hline ihpipe ihline =>
      have hfollow : ∀ t ∈ (List.replicate n Token.amp ++ Token.semi :: (ts' ++ rest)).head?, Follow .pipe t := by
        intro t ht
        cases amps_head n ht with
        | inl hamp => exact .inr (.inl hamp)
        | inr hsemi =>
            cases hsemi
            exact .inr (.inr rfl)
      obtain ⟨N, hN⟩ := ihpipe hfollow
      obtain ⟨N', hN'⟩ := ihline hrest
      refine ⟨N + N' + n + 2, fun fuel hfuel => ?_⟩
      obtain ⟨fuel, rfl⟩ := Nat.exists_eq_succ_of_ne_zero (by omega : fuel ≠ 0)
      rw [List.append_assoc, List.append_assoc, List.cons_append]
      refine (wp_parseline _).mpr ((hN fuel (by omega)).wp ?_)
      refine (parseback_complete n (fun t ht => ?_) (by omega)).wp ?_
      · cases ht
        simp
      · exact (hN' fuel (by omega)).wp ⟨rfl, rfl⟩
  | @single ts c hexec ih =>
      obtain ⟨N, hN⟩ := ih fun t ht => (hrest t ht).exec
      refine ⟨N + 1, fun fuel hfuel => ?_⟩
      obtain ⟨fuel, rfl⟩ := Nat.exists_eq_succ_of_ne_zero (by omega : fuel ≠ 0)
      refine (wp_parsepipe _).mpr ((hN fuel (by omega)).wp ?_)
      split
      · exact absurd (hrest .pipe rfl) (by simp [Follow])
      · exact ⟨rfl, rfl⟩
  | @pipe ts ts' c c' hexec hpipe ihexec ihpipe =>
      have hfollow : ∀ t ∈ (Token.pipe :: (ts' ++ rest)).head?, Follow .exec t := by
        intro t ht
        cases ht
        exact .inr (.inr (.inr rfl))
      obtain ⟨N, hN⟩ := ihexec hfollow
      obtain ⟨N', hN'⟩ := ihpipe hrest
      refine ⟨N + N' + 1, fun fuel hfuel => ?_⟩
      obtain ⟨fuel, rfl⟩ := Nat.exists_eq_succ_of_ne_zero (by omega : fuel ≠ 0)
      rw [List.append_assoc, List.cons_append]
      refine (wp_parsepipe _).mpr ((hN fuel (by omega)).wp ?_)
      exact (hN' fuel (by omega)).wp ⟨rfl, rfl⟩
  | @block ts ts' c c' hline hredirs ih =>
      have hfollow : ∀ t ∈ (Token.rparen :: (ts' ++ rest)).head?, Follow .line t := by
        intro t ht
        cases ht
        rfl
      obtain ⟨N, hN⟩ := ih hfollow
      refine ⟨N + ts'.length + 3, fun fuel hfuel => ?_⟩
      obtain ⟨fuel, rfl⟩ := Nat.exists_eq_succ_of_ne_zero (by omega : fuel ≠ 0)
      obtain ⟨fuel, rfl⟩ := Nat.exists_eq_succ_of_ne_zero (by omega : fuel ≠ 0)
      rw [List.cons_append, List.cons_append, List.append_assoc, List.cons_append]
      refine (wp_parseexec _).mpr ((wp_parseblock _).mpr ((hN fuel (by omega)).wp ?_))
      exact parseredirs_complete hredirs (fun t ht => (hrest t ht).stops.2.1) (by omega)
  | @exec n ts ts' c c' hredirs hargs hn =>
      refine ⟨ts.length + ts'.length + 2, fun fuel hfuel => ?_⟩
      obtain ⟨fuel, rfl⟩ := Nat.exists_eq_succ_of_ne_zero (by omega : fuel ≠ 0)
      have hnext : ∀ t ∈ (ts' ++ rest).head?, t.redirection = none ∧ t ≠ .lparen := by
        intro t ht
        cases hargs with
        | nil => exact ⟨(hrest t ht).stops.2.1, (hrest t ht).stops.2.2.1⟩
        | cons =>
            cases ht
            exact ⟨rfl, by simp⟩
      rw [List.append_assoc]
      refine parseexec_plain ?_ ?_
      · intro t ht
        cases hredirs with
        | nil => exact (hnext t ht).2
        | cons hop =>
            cases ht
            rintro rfl
            cases hop
      · refine (parseredirs_complete hredirs (fun t ht => (hnext t ht).1) (by omega)).wp ?_
        have hmax : 0 + n < MAXARGS := by
          unfold MAXARGS at hn ⊢
          omega
        exact parseargs_complete hargs hmax hrest (by omega)

end Complete

end Xv6.Sh
