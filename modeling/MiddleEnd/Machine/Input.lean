import MiddleEnd.Binary32.Decimal

/-!
# Program input

Input is a sequence of bytes.  A reader gives what it read, if anything, and the input that is
left; a reader that finds nothing may still skip blanks, or a word that it cannot read.
-/

namespace MiddleEnd

abbrev Input := List UInt8

namespace Input

/-- Space, tab, line feed, form feed and carriage return. -/
def isBlank (b : UInt8) : Bool :=
  [0x20, 0x09, 0x0A, 0x0C, 0x0D].contains b

def isDigit (b : UInt8) : Bool :=
  0x30 ≤ b && b ≤ 0x39

def ofText (s : String) : Input :=
  s.toUTF8.data.toList

def skipBlanks (input : Input) : Input :=
  input.dropWhile isBlank

def value (digits : List UInt8) : Nat :=
  digits.foldl (fun n b => 10 * n + (b.toNat - 0x30)) 0

/-- An optional sign and digits, up to the first other byte.  A number of 64 bits is cut to its low
32 bits, and a longer one is not read. -/
def readInt (input : Input) : Option Int32 × Input :=
  let input := input.skipBlanks
  let (negative, body) := match input with
    | 0x2D :: rest => (true, rest)
    | 0x2B :: rest => (false, rest)
    | rest => (false, rest)
  let digits := body.takeWhile isDigit
  if digits.isEmpty then (none, input)
  else
    let n : Int := if negative then -value digits else value digits
    (if -0x8000000000000000 ≤ n ∧ n < 0x8000000000000000 then some (.ofInt n) else none, body.dropWhile isDigit)

/-- The bytes as text, if they are. -/
def textOf? (bytes : List UInt8) : Option String :=
  String.fromUTF8? ⟨bytes.toArray⟩

/-- A word that is a number. -/
def readFloat (input : Input) : Option Binary32 × Input :=
  let input := input.skipBlanks
  let word := input.takeWhile fun b => !isBlank b
  ((textOf? word).bind fun s => Binary32.read? s.toList, input.dropWhile fun b => !isBlank b)

def readByte : Input → Option Int32 × Input
  | [] => (none, [])
  | b :: rest => (some (.ofNat b.toNat), rest)

end Input

end MiddleEnd
