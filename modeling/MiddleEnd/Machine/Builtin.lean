import MiddleEnd.Builtin
import MiddleEnd.Format
import MiddleEnd.Machine.State

/-!
# Built-in functions at run time

An array is written on one line, its length first, and read in the same form.  Text in memory has
one character per cell and ends at a zero.
-/

namespace MiddleEnd

/-- The character that stands for one that does not exist. -/
def replacementChar : Char :=
  .ofNat 0xFFFD

/-- The character with the given code point. -/
def charOfCode (n : Int32) : Char :=
  if 0 ≤ n.toInt ∧ n.toInt.toNat.isValidChar then .ofNat n.toInt.toNat else replacementChar

/-- The character that a byte stands for in text in memory. -/
def charOfByte (n : Int32) : Char :=
  if 0 ≤ n.toInt ∧ n.toInt < 256 then .ofNat n.toInt.toNat else replacementChar

/-- The line of an array of `count` elements. -/
def arrayLine (count : Int32) (values : List Value) : String :=
  toString count.toInt ++ ":" ++ String.join (values.map fun v => " " ++ v.text) ++ "\n"

namespace Exec

/-- The argument at a position. -/
def argument (args : List Value) (n : Nat) : Exec Value :=
  match args[n]? with
  | some v => pure v
  | none => stuck

def intArgument (b : Builtin) (args : List Value) (n : Nat) : Exec Int32 := do
  lift ((← argument args n).asInt b.name)

def ptrArgument (b : Builtin) (args : List Value) (n : Nat) : Exec Nat := do
  lift ((← argument args n).asPtr b.name)

/-- Reads `count` values into the cells from `a` on. -/
def readInto (value : Exec Value) (a : Nat) : Nat → Exec Unit
  | 0 => pure ()
  | n + 1 => do
    store a (← value)
    readInto value (a + 1) n

/-- Prints the text in the cells from `a` on, of which `cells` are the rest of memory. -/
def printCells (a : Nat) : List Value → Exec Unit
  | [] => fail (.invalidAddress a)
  | v :: cells => do
    let n ← lift (v.asInt Builtin.putstr.name)
    if n ≠ 0 then
      print (.singleton (charOfByte n))
      printCells (a + 1) cells

/-- Prints each argument followed by the text after its directive. -/
def printArguments : List Value → List String → Exec Unit
  | v :: args, piece :: pieces => do
    let n ← lift (v.asInt Builtin.printf.name)
    print (toString n.toInt)
    print piece
    printArguments args pieces
  | _, _ => pure ()

/-- Prints a format with an integer in place of each directive. -/
def printFormatted (format : String) (args : List Value) : Exec Unit := do
  if Format.directiveCount format ≠ args.length then
    fail (.argumentCount Builtin.printf.name (Format.directiveCount format) args.length)
  match Format.pieces format with
  | [] => pure ()
  | first :: rest =>
    print first
    printArguments args rest

def readInt (b : Builtin) : Exec Value :=
  .int <$> read b.name Input.readInt

def readFloat (b : Builtin) : Exec Value :=
  .float <$> read b.name Input.readFloat

/-- Reads the length of an array, then its elements. -/
def readArray (b : Builtin) (element : Exec Value) (args : List Value) : Exec Value := do
  let a ← ptrArgument b args 0
  let count ← read b.name Input.readInt
  readInto element a count.toInt.toNat
  return .int count

def printArray (b : Builtin) (args : List Value) : Exec Value := do
  let count ← intArgument b args 0
  let a ← ptrArgument b args 1
  print (arrayLine count (← loadAll a count.toInt.toNat))
  return .void

def builtin (b : Builtin) (args : List Value) : Exec Value := do
  match b with
  | .getint => readInt b
  | .getch => .int <$> read b.name Input.readByte
  | .getfloat => readFloat b
  | .getarray => readArray b (readInt b) args
  | .getfarray => readArray b (readFloat b) args
  | .putint =>
    print (toString (← intArgument b args 0).toInt)
    return .void
  | .putch =>
    print (.singleton (charOfCode (← intArgument b args 0)))
    return .void
  | .putfloat =>
    print (← lift ((← argument args 0).asFloat b.name)).text
    return .void
  | .putarray | .putfarray => printArray b args
  | .putstr =>
    let a ← ptrArgument b args 0
    printCells a ((← get).memory.cells.toList.drop a)
    return .void
  | .memset =>
    let a ← ptrArgument b args 0
    let value ← intArgument b args 1
    let bytes ← intArgument b args 2
    fill a (bytes.toInt.toNat / 4) (.int value)
    return .void
  | .starttime | .stoptime => return .void
  | .printf => fail .printWithoutFormat

end Exec

end MiddleEnd
