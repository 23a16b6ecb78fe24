import Mathlib.Algebra.Group.Nat.Defs
import Mathlib.Data.List.Basic
import MiddleEnd.Constant

/-!
# Reading listed text

A reader takes what it reads off the front of a text and gives the rest.  What a listing writes for
a number or a pattern is read back as it was, whatever follows it; after a decimal number no digit
may follow.
-/

namespace MiddleEnd.Reader

open List Nat

variable {rest : List Char} {text : String} {cs : List Char}

def expect (text : String) (cs : List Char) : Option (List Char) :=
  cs.dropPrefix? text.toList

def readNat (cs : List Char) : Option (Nat × List Char) :=
  let digits := cs.takeWhile Char.isDigit
  if digits.isEmpty then none else some (ofDigitChars 10 digits 0, cs.dropWhile Char.isDigit)

def readInt (cs : List Char) : Option (Int × List Char) :=
  match expect "-" cs with
  | some cs => (readNat cs).map fun (n, rest) => (-n, rest)
  | none => (readNat cs).map fun (n, rest) => (n, rest)

def hexDigit? (c : Char) : Option Nat :=
  "0123456789ABCDEF".toList.idxOf? c

end MiddleEnd.Reader
