import MiddleEnd.Binary32.Decimal
import MiddleEnd.Constant
import MiddleEnd.Handle

/-!
# Runtime values and faults

A value is held in a register or a memory cell.  Every scalar takes one cell, whatever its type,
and an address is the index of a cell.  A fault describes why a running program stopped.
-/

namespace MiddleEnd

inductive Value
  | int (value : Int32)
  | float (value : Binary32)
  | bool (value : Bool)
  | ptr (address : Nat)
  | null
  /-- The result of a call that returns nothing. -/
  | void
deriving DecidableEq, Inhabited

inductive Fault
  | stepLimit (limit : Nat)
  | depthLimit (limit : Nat)
  | memoryLimit (inUse limit : Nat)
  | invalidAddress (address : Nat)
  | nullPointer
  | divisionByZero (func : String)
  | inputExhausted (func : String)
  /-- An operation met a value of the wrong kind. -/
  | typeMismatch (operation found : String)
  | argumentCount (func : String) (expected found : Nat)
  | noBody (func : String)
  | noTerminator (block func : String)
  | noPhiEntry (block : String)
  | uncomputed (inst : InstId)
  | noArgument (index : Nat)
  | notAPointer (ty : Ty)
  | pendingJump (block func : String)
  | printWithoutFormat
deriving DecidableEq

namespace Fault

def message : Fault → String
  | stepLimit n => "instruction limit of " ++ toString n ++ " steps exceeded"
  | depthLimit n => "call depth limit of " ++ toString n ++ " exceeded"
  | memoryLimit k n =>
    "memory limit exceeded (" ++ toString k ++ " of " ++ toString n ++ " cells in use)"
  | invalidAddress a => "access to unallocated cell " ++ toString a
  | nullPointer => "null pointer access"
  | divisionByZero f => "integer division by zero in " ++ f
  | inputExhausted f => f ++ " reached the end of the input"
  | typeMismatch o v => "type mismatch in " ++ o ++ ": found " ++ v
  | argumentCount f n k =>
    f ++ " expects " ++ toString n ++ " arguments, " ++ toString k ++ " were passed"
  | noBody f => "function " ++ f ++ " has no executable body"
  | noTerminator b f => "malformed IR: block " ++ b ++ " of " ++ f ++ " has no terminator"
  | noPhiEntry b => "malformed IR: no phi entry for the incoming edge of " ++ b
  | uncomputed i => "malformed IR: " ++ i.text ++ " used before it was computed"
  | noArgument n => "malformed IR: argument " ++ toString n ++ " out of range"
  | notAPointer t => "malformed IR: getelementptr through non-pointer type " ++ t.text
  | pendingJump b f => "malformed IR: pending jump in " ++ b ++ " of " ++ f
  | printWithoutFormat => "malformed IR: printf called without a format string"

/-- Is a configured limit the cause, rather than the program? -/
def isLimit : Fault → Bool
  | stepLimit _ | depthLimit _ | memoryLimit .. => true
  | _ => false

end Fault

namespace Value

def kind : Value → String
  | int _ => "i32"
  | float _ => "float"
  | bool _ => "i1"
  | ptr _ => "pointer"
  | null => "null"
  | void => "void"

def ofConstant : Constant → Value
  | .int v => int v
  | .float v => float v
  | .bool v => bool v
  | .null _ => null

/-- The literal of the same value; addresses have none. -/
def constant? : Value → Option Constant
  | int v => some (.int v)
  | float v => some (.float v)
  | bool v => some (.bool v)
  | _ => none

/-- The value that the operation cannot take. -/
def mismatch (v : Value) (operation : String) : Fault :=
  .typeMismatch operation v.kind

def asConstant (v : Value) (operation : String) : Except Fault Constant :=
  match v.constant? with
  | some c => .ok c
  | none => .error (v.mismatch operation)

/-- Truth values are integers zero and one. -/
def asInt (v : Value) (operation : String) : Except Fault Int32 :=
  match v with
  | int n => .ok n
  | bool b => .ok (if b then 1 else 0)
  | v => .error (v.mismatch operation)

def asFloat (v : Value) (operation : String) : Except Fault Binary32 :=
  match v with
  | float x => .ok x
  | v => .error (v.mismatch operation)

def asBool (v : Value) (operation : String) : Except Fault Bool :=
  (v.asInt operation).map (· ≠ 0)

def asPtr (v : Value) (operation : String) : Except Fault Nat :=
  match v with
  | ptr a => .ok a
  | null => .error .nullPointer
  | v => .error (v.mismatch operation)

def text : Value → String
  | int n => toString n.toInt
  | float x => x.text
  | bool b => if b then "1" else "0"
  | ptr a => "&" ++ toString a
  | null => "null"
  | void => "void"

/-- The value that a fresh cell of an object of type `t` holds. -/
def initial (t : Ty) : Value :=
  ((Constant.zero? t.scalar).map ofConstant).getD (int 0)

/-- A cell read as a scalar of type `t`.  A cell that was filled, or written through a converted
pointer, may hold the bits of the other kind of number. -/
def readAs (v : Value) (t : Ty) : Value :=
  match v, t with
  | int n, .float => float ⟨n.toUInt32⟩
  | float x, .i32 => int x.bits.toInt32
  | v, _ => v

end Value

end MiddleEnd
