import Xv6.Lib.Simulation
import Mathlib.Data.List.Basic

namespace Xv6.Sh

def MAXARGS : ℕ := 10

def O_RDONLY : ℕ := 0x000
def O_WRONLY : ℕ := 0x001
def O_CREATE : ℕ := 0x200
def O_TRUNC : ℕ := 0x400

-- W is what stands for a string: the pointers to its two ends, or the string itself.
inductive Cmd (W : Type)
  | exec (argv : List W)
  | redir (cmd : Cmd W) (file : W) (mode fd : ℕ)
  | pipe (left right : Cmd W)
  | list (left right : Cmd W)
  | back (cmd : Cmd W)
  deriving DecidableEq, Repr

variable {W : Type}

-- cmd->argv[argc] = q, where cmd is the exec node under the redirections.
def Cmd.push : Cmd W → W → Cmd W
  | .exec argv, w => .exec (argv ++ [w])
  | .redir cmd file mode fd, w => .redir (cmd.push w) file mode fd
  | cmd, _ => cmd

-- What gettoken returns when it is not 0: the character of a symbol, '+' for ">>", or 'a' with q and eq.
inductive Token (W : Type)
  | pipe
  | lparen
  | rparen
  | semi
  | amp
  | lt
  | gt
  | gtgt
  | word (w : W)
  deriving DecidableEq, Repr

-- A call of panic, or too little fuel for the run.
inductive Stop
  | fuel
  | panic (s : String)
  deriving DecidableEq, Repr

abbrev Parse (σ : Type) := StateT σ (Except Stop)

-- strchr is never asked for the NUL of its string: the loop ends before it.
def strchr (s : List Char) (c : UInt8) : Bool := s.any fun x => x.toUInt8 == c

def whitespace : List Char := [' ', '\t', '\r', '\n', '\x0b']
def symbols : List Char := ['<', '|', '>', '&', ';', '(', ')']

section Scanner

variable (buf : List UInt8) (es : ℕ)

-- *s, where the buffer ends with a NUL at the latest.
def deref (s : ℕ) : UInt8 := buf.getD s 0

-- while(s < es && p(*s)) s++, which makes at most es - s steps.
def scanN (p : UInt8 → Bool) : (n s : ℕ) → ℕ
  | 0, s => s
  | n + 1, s => if p (deref buf s) then scanN p n (s + 1) else s

def scan (p : UInt8 → Bool) (s : ℕ) : ℕ := scanN buf p (es - s) s

def wordChar (c : UInt8) : Bool := !strchr whitespace c && !strchr symbols c

-- The token at s, and the end of it.
def tokenAt (s : ℕ) : Option (Token (ℕ × ℕ)) × ℕ :=
  let c := deref buf s
  if c = 0 then (none, s)
  else if c = '|'.toUInt8 then (some .pipe, s + 1)
  else if c = '('.toUInt8 then (some .lparen, s + 1)
  else if c = ')'.toUInt8 then (some .rparen, s + 1)
  else if c = ';'.toUInt8 then (some .semi, s + 1)
  else if c = '&'.toUInt8 then (some .amp, s + 1)
  else if c = '<'.toUInt8 then (some .lt, s + 1)
  else if c = '>'.toUInt8 then
    if deref buf (s + 1) = '>'.toUInt8 then (some .gtgt, s + 2) else (some .gt, s + 1)
  else
    let eq := scan buf es wordChar s
    (some (.word (s, eq)), eq)

-- The cursor *ps is the state.
def gettoken : Parse ℕ (Option (Token (ℕ × ℕ))) := fun s =>
  let s := scan buf es (strchr whitespace) s
  let (ret, s) := tokenAt buf es s
  .ok (ret, scan buf es (strchr whitespace) s)

def peek (toks : List Char) : Parse ℕ Bool := fun s =>
  let s := scan buf es (strchr whitespace) s
  .ok (deref buf s ≠ 0 && strchr toks (deref buf s), s)

end Scanner

-- The parser only gets at its input by these two calls.
structure Scanner (σ W : Type) where
  peek : List Char → Parse σ Bool
  gettoken : Parse σ (Option (Token W))

def scanner (buf : List UInt8) (es : ℕ) : Scanner ℕ (ℕ × ℕ) := ⟨peek buf es, gettoken buf es⟩

section Parser

variable {σ : Type} (scan : Scanner σ W)

def parseredirs : (fuel : ℕ) → Cmd W → Parse σ (Cmd W)
  | 0, _ => throw .fuel
  | fuel + 1, cmd => do
      if ← scan.peek ['<', '>'] then
        let tok ← scan.gettoken
        match ← scan.gettoken with
        | some (.word file) =>
            match tok with
            | some .lt => parseredirs fuel (.redir cmd file O_RDONLY 0)
            | some .gt => parseredirs fuel (.redir cmd file (O_WRONLY ||| O_CREATE ||| O_TRUNC) 1)
            | some .gtgt => parseredirs fuel (.redir cmd file (O_WRONLY ||| O_CREATE) 1)
            | _ => parseredirs fuel cmd
        | _ => throw (.panic "missing file for redirection")
      else return cmd

-- The loop of parseexec.
def parseargs : (fuel argc : ℕ) → Cmd W → Parse σ (Cmd W)
  | 0, _, _ => throw .fuel
  | fuel + 1, argc, ret => do
      if ← scan.peek ['|', ')', '&', ';'] then return ret
      else
        match ← scan.gettoken with
        | none => return ret
        | some (.word w) =>
            if argc + 1 ≥ MAXARGS then throw (.panic "too many args")
            else do
              let ret ← parseredirs scan fuel (ret.push w)
              parseargs fuel (argc + 1) ret
        | _ => throw (.panic "syntax")

-- The loop of parseline.
def parseback : (fuel : ℕ) → Cmd W → Parse σ (Cmd W)
  | 0, _ => throw .fuel
  | fuel + 1, cmd => do
      if ← scan.peek ['&'] then
        let _ ← scan.gettoken
        parseback fuel (.back cmd)
      else return cmd

mutual

def parseline : (fuel : ℕ) → Parse σ (Cmd W)
  | 0 => throw .fuel
  | fuel + 1 => do
      let cmd ← parsepipe fuel
      let cmd ← parseback scan fuel cmd
      if ← scan.peek [';'] then
        let _ ← scan.gettoken
        let right ← parseline fuel
        return .list cmd right
      else return cmd

def parsepipe : (fuel : ℕ) → Parse σ (Cmd W)
  | 0 => throw .fuel
  | fuel + 1 => do
      let cmd ← parseexec fuel
      if ← scan.peek ['|'] then
        let _ ← scan.gettoken
        let right ← parsepipe fuel
        return .pipe cmd right
      else return cmd

def parseblock : (fuel : ℕ) → Parse σ (Cmd W)
  | 0 => throw .fuel
  | fuel + 1 => do
      if ← scan.peek ['('] then
        let _ ← scan.gettoken
        let cmd ← parseline fuel
        if ← scan.peek [')'] then
          let _ ← scan.gettoken
          parseredirs scan fuel cmd
        else throw (.panic "syntax - missing )")
      else throw (.panic "parseblock")

def parseexec : (fuel : ℕ) → Parse σ (Cmd W)
  | 0 => throw .fuel
  | fuel + 1 => do
      if ← scan.peek ['('] then parseblock fuel
      else
        let ret ← parseredirs scan fuel (.exec [])
        parseargs scan fuel 0 ret

end

end Parser

-- The buffer after all strings of the command have been terminated.
def nulterminate (buf : List UInt8) : Cmd (ℕ × ℕ) → List UInt8
  | .exec argv => argv.foldl (fun buf w => buf.set w.2 0) buf
  | .redir cmd file _ _ => (nulterminate buf cmd).set file.2 0
  | .pipe left right => nulterminate (nulterminate buf left) right
  | .list left right => nulterminate (nulterminate buf left) right
  | .back cmd => nulterminate buf cmd

def strlen (buf : List UInt8) : ℕ := (buf.takeWhile (· ≠ 0)).length

-- The command and what the buffer holds afterwards.
def parsecmd (fuel : ℕ) (buf : List UInt8) : Except Stop (Cmd (ℕ × ℕ) × List UInt8) :=
  let es := strlen buf
  match parseline (scanner buf es) fuel 0 with
  | .error e => .error e
  | .ok (cmd, s) =>
      match peek buf es [] s with
      | .error e => .error e
      | .ok (_, s) => if s ≠ es then .error (.panic "syntax") else .ok (cmd, nulterminate buf cmd)

end Xv6.Sh
