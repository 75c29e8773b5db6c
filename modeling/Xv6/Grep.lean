import Mathlib.Data.List.Basic

namespace Xv6.Grep

-- A string is the list of the characters before its NUL.

-- matchstar(c, re, text), over matchhere(re, ..).
def matchstar (c : UInt8) (matchhere : List UInt8 → Bool) : List UInt8 → Bool
  | [] => matchhere []
  | t :: text => matchhere (t :: text) || ((t = c || c = '.'.toUInt8) && matchstar c matchhere text)

-- if(*text!='\0' && (c=='.' || c==*text)) return matchhere(re+1, text+1); return 0;
def charStep (c : UInt8) (matchhere : List UInt8 → Bool) : List UInt8 → Bool
  | [] => false
  | t :: text => (c = '.'.toUInt8 || c = t) && matchhere text

def matchhere : List UInt8 → List UInt8 → Bool
  | [], _ => true
  | [c], text => if c = '$'.toUInt8 then text.isEmpty else charStep c (matchhere []) text
  | c :: d :: re, text =>
      if d = '*'.toUInt8 then matchstar c (matchhere re) text else charStep c (matchhere (d :: re)) text

def matchLoop (re : List UInt8) : List UInt8 → Bool
  | [] => matchhere re []
  | t :: text => matchhere re (t :: text) || matchLoop re text

-- match in the source.
def matchText (re text : List UInt8) : Bool :=
  match re with
  | [] => matchLoop [] text
  | c :: rest => if c = '^'.toUInt8 then matchhere rest text else matchLoop (c :: rest) text

-- The offset of c in s, which ends at a NUL.
def strchr (c : UInt8) : List UInt8 → Option ℕ
  | [] => none
  | b :: s => if b = 0 then none else if b = c then some 0 else (strchr c s).map (· + 1)

-- sizeof(buf)
def BUFSIZE : ℕ := 1024

-- read(fd, .., size): what it gives, of which cut has a say, and what is left of the input.
-- It gives nothing only at the end of the input or if it is asked for nothing.
def read (cut size : ℕ) (input : List UInt8) : List UInt8 × List UInt8 := input.splitAt (min size (max cut 1))

-- The loop over the lines from p to buf + m, where there is a NUL: what it writes, and the
-- bytes that are left.
def lineLoop (pattern : List UInt8) : (fuel : ℕ) → (p : List UInt8) → List UInt8 × List UInt8
  | 0, p => ([], p)
  | fuel + 1, p =>
      match strchr '\n'.toUInt8 p with
      | none => ([], p)
      | some q =>
          let (out, rest) := lineLoop pattern fuel (p.drop (q + 1))
          (if matchText pattern (p.take q) then p.take (q + 1) ++ out else out, rest)

-- The loop over the reads, with the m bytes of buf. The k-th read is cut by cut k.
def readLoop (pattern : List UInt8) (cut : ℕ → ℕ) : (fuel k : ℕ) → (buf input : List UInt8) → List UInt8
  | 0, _, _, _ => []
  | fuel + 1, k, buf, input =>
      let (chunk, input') := read (cut k) (BUFSIZE - buf.length - 1) input
      if chunk = [] then []
      else
        let (out, rest) := lineLoop pattern (buf ++ chunk).length (buf ++ chunk)
        out ++ readLoop pattern cut fuel (k + 1) rest input'

-- Every read but the last takes a byte of the input.
def grep (pattern : List UInt8) (cut : ℕ → ℕ) (input : List UInt8) : List UInt8 :=
  readLoop pattern cut (input.length + 1) 0 [] input

end Xv6.Grep
