import MiddleEnd.Constant.Fold
import MiddleEnd.Machine.Value

/-!
# Operations on runtime values

Arithmetic, comparisons and conversions compute what folding computes on literals.  Addresses have
no literal, and a division by zero is a fault.
-/

namespace MiddleEnd

/-- Two values that the operation cannot take together. -/
def Value.pairMismatch (a b : Value) (operation : String) : Fault :=
  .typeMismatch operation (a.kind ++ " and " ++ b.kind)

/-- The folded operation on the literals of two values. -/
def Value.compute (operation : String) (fold? : Constant → Constant → Option Constant)
    (a b : Value) : Except Fault Value := do
  let x ← a.asConstant operation
  let y ← b.asConstant operation
  match fold? x y with
  | some c => .ok (.ofConstant c)
  | none => .error (a.pairMismatch b operation)

/-- The operation on the values of an instruction of the function named `func`. -/
def BinaryOp.apply (op : BinaryOp) (func : String) (a b : Value) : Except Fault Value := do
  if op = .sdiv ∨ op = .srem then
    if (← b.asInt op.name) = 0 then .error (.divisionByZero func)
  Value.compute op.name op.fold? a b

def Cond.applyInt (c : Cond) (a b : Value) : Except Fault Value :=
  Value.compute "icmp" c.foldInt? a b

def Cond.applyFloat (c : Cond) (a b : Value) : Except Fault Value :=
  Value.compute "fcmp" c.foldFloat? a b

/-- Addresses stay what they are when their type changes. -/
def CastOp.apply (op : CastOp) (v : Value) (ty : Ty) : Except Fault Value :=
  match op, v with
  | .bitcast, .ptr a => .ok (.ptr a)
  | .bitcast, .null => .ok .null
  | op, v => do
    match op.fold? (← v.asConstant op.name) ty with
    | some c => .ok (.ofConstant c)
    | none => .error (v.mismatch op.name)

/-! ## Element addresses -/

/-- The distance between consecutive objects of a type, as a signed number of 64 bits. -/
def Ty.stride (t : Ty) : Int :=
  (Int64.ofNat t.cells).toInt

/-- The distance from the start of an object of type `t` to the element at the given indices, one
per array dimension; `none` if there are more indices than dimensions. -/
def Ty.elementOffset? : Ty → List Int32 → Option Int
  | _, [] => some 0
  | .array _ t, n :: ns => (t.elementOffset? ns).map (n.toInt * t.stride + ·)
  | _, _ :: _ => none

/-- The cell that offsets select from the address `a` of type `t`: the first offset steps over whole
objects, and each further one selects an element of an array. -/
def elementAddress (a : Nat) (t : Ty) (offsets : List Int32) : Except Fault Nat :=
  match t.pointee? with
  | none => .error (.notAPointer t)
  | some object =>
    if 0x8000000000000000 ≤ a then .error (.invalidAddress a)
    else
      let offset? := match offsets with
        | [] => some 0
        | n :: ns => (object.elementOffset? ns).map (n.toInt * object.stride + ·)
      match offset? with
      | none => .error (.notAPointer t)
      | some offset =>
        if a + offset < 0 then .error (.invalidAddress 0) else .ok (a + offset).toNat

end MiddleEnd
