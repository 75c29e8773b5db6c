import Mathlib.Algebra.Ring.Nat
import Mathlib.Data.List.Basic

namespace Xv6.Cat

def digits : List UInt8 := "0123456789ABCDEF".toList.map Char.toUInt8

-- The digits of x in the order in which printint writes them: the loop leaves the last one first.
def digitLoop (base : ℕ) : (fuel x : ℕ) → List UInt8
  | 0, _ => []
  | fuel + 1, x => (if x / base = 0 then [] else digitLoop base fuel (x / base)) ++ [digits.getD (x % base) 0]

-- printint(1, xx, base, 1); buf has room for 16 characters.
def printint (xx : BitVec 32) (base : ℕ) : List UInt8 :=
  if xx.slt 0 then '-'.toUInt8 :: digitLoop base 15 (-xx).toNat else digitLoop base 16 xx.toNat

-- numcat's loop over a chunk from i on: cont after it, and what is printed.
def chunkLoop : (cont : BitVec 32) → List UInt8 → BitVec 32 × List UInt8
  | cont, [] => (cont, [])
  | cont, c :: rest =>
      if c = '\n'.toUInt8 then
        let (cont', out) := chunkLoop (cont + 1) rest
        (cont', c :: ((if rest = [] then [] else printint (cont + 1) 10) ++ out))
      else
        let (cont', out) := chunkLoop cont rest
        (cont', c :: out)

-- numcat's loop over what the reads give, until one gives nothing.
def readLoop : (cont : BitVec 32) → (chunks : List (List UInt8)) → List UInt8
  | _, [] => []
  | cont, chunk :: chunks =>
      if chunk = [] then []
      else
        let (cont', out) := chunkLoop cont chunk
        printint cont 10 ++ out ++ readLoop cont' chunks

def numcat (chunks : List (List UInt8)) : List UInt8 := readLoop 1 chunks

end Xv6.Cat
