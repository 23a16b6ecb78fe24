import MiddleEnd.Instr

/-!
# Constant folding

What an operation yields on literal operands, if it can be computed without running the program.
Integers wrap at 32 bits.  A division by zero is not folded, so that its fault stays observable.
-/

namespace MiddleEnd

namespace BinaryOp

def foldFloat? (op : BinaryOp) (a b : Binary32) : Option Binary32 :=
  match op with
  | fadd => some (a.add b)
  | fsub => some (a.sub b)
  | fmul => some (a.mul b)
  | fdiv => some (a.div b)
  | frem => some (a.rem b)
  | _ => none

def foldInt? (op : BinaryOp) (a b : Int32) : Option Int32 :=
  match op with
  | add => some (a + b)
  | sub => some (a - b)
  | mul => some (a * b)
  | sdiv => if b = 0 then none else some (a / b)
  | srem => if b = 0 then none else some (a % b)
  | _ => none

def fold? (op : BinaryOp) (a b : Constant) : Option Constant :=
  if op.isFloat then do
    let x ← a.asFloat?
    let y ← b.asFloat?
    return .float (← op.foldFloat? x y)
  else do
    let x ← a.asInt?
    let y ← b.asInt?
    return .int (← op.foldInt? x y)

end BinaryOp

namespace Cond

def foldInt? (c : Cond) (a b : Constant) : Option Constant := do
  let x ← a.asInt?
  let y ← b.asInt?
  return .bool (c.holds (some (compare x.toInt y.toInt)))

def foldFloat? (c : Cond) (a b : Constant) : Option Constant := do
  let x ← a.asFloat?
  let y ← b.asFloat?
  return .bool (c.holds (x.compare? y))

end Cond

/-- Conversion to the type `ty`, which matters for pointers only. -/
def CastOp.fold? (op : CastOp) (value : Constant) (ty : Ty) : Option Constant :=
  match op, value with
  | sitofp, .int v => some (.float (.ofInt v.toInt))
  | sitofp, .bool v => some (.float (.ofInt (if v then 1 else 0)))
  | fptosi, .float v => some (.int v.toInt32)
  | zext, .bool v => some (.int (if v then 1 else 0))
  | zext, .int v => some (.int v)
  | trunc, .int v => some (.bool (v &&& 1 ≠ 0))
  | bitcast, .null _ => some (.null ty)
  | _, _ => none

/-- What an instruction with the result type `ty` yields if all its operands are literals. -/
def Instr.fold? (i : Instr) (ty : Ty) : Option Constant :=
  match i with
  | binary op (.const a) (.const b) => op.fold? a b
  | icmp c (.const a) (.const b) => c.foldInt? a b
  | fcmp c (.const a) (.const b) => c.foldFloat? a b
  | cast op (.const a) => op.fold? a ty
  | _ => none

end MiddleEnd
