/-!
# Types

A closed set of types: `void`, `label`, the scalars `i1`, `i8`, `i32` and `float`, pointers, arrays
of fixed length and function signatures.  Types are compared by structure.

Memory is measured in cells: a scalar of any type takes one cell, and an array the cells of all its
elements.
-/

namespace MiddleEnd

inductive Ty
  | void
  | label
  | i1
  | i8
  | i32
  | float
  | pointer (pointee : Ty)
  | array (len : Nat) (elem : Ty)
  | function (ret : Ty) (params : List Ty)
deriving Inhabited

namespace Ty

mutual

def decEq (s t : Ty) : Decidable (s = t) :=
  if h : s.ctorIdx = t.ctorIdx then
    match s, t, h with
    | void, void, _ => isTrue rfl
    | label, label, _ => isTrue rfl
    | i1, i1, _ => isTrue rfl
    | i8, i8, _ => isTrue rfl
    | i32, i32, _ => isTrue rfl
    | float, float, _ => isTrue rfl
    | pointer s, pointer t, _ =>
      match decEq s t with
      | isTrue h => isTrue (h ▸ rfl)
      | isFalse h => isFalse fun e => h (pointer.inj e)
    | array m s, array n t, _ =>
      match Nat.decEq m n, decEq s t with
      | isTrue h, isTrue h' => isTrue (h ▸ h' ▸ rfl)
      | isFalse h, _ => isFalse fun e => h (array.inj e).1
      | _, isFalse h => isFalse fun e => h (array.inj e).2
    | function s ss, function t ts, _ =>
      match decEq s t, decEqList ss ts with
      | isTrue h, isTrue h' => isTrue (h ▸ h' ▸ rfl)
      | isFalse h, _ => isFalse fun e => h (function.inj e).1
      | _, isFalse h => isFalse fun e => h (function.inj e).2
  else isFalse fun e => h (e ▸ rfl)
termination_by structural s

def decEqList (ss ts : List Ty) : Decidable (ss = ts) :=
  match ss, ts with
  | [], [] => isTrue rfl
  | [], _ :: _ => isFalse nofun
  | _ :: _, [] => isFalse nofun
  | s :: ss, t :: ts =>
    match decEq s t, decEqList ss ts with
    | isTrue h, isTrue h' => isTrue (h ▸ h' ▸ rfl)
    | isFalse h, _ => isFalse fun e => h (List.cons.inj e).1
    | _, isFalse h => isFalse fun e => h (List.cons.inj e).2
termination_by structural ss

end

instance : DecidableEq Ty := decEq

def isInteger : Ty → Bool
  | i1 | i8 | i32 => true
  | _ => false

def isFloat : Ty → Bool
  | float => true
  | _ => false

def isPointer : Ty → Bool
  | pointer _ => true
  | _ => false

def isArray : Ty → Bool
  | array _ _ => true
  | _ => false

/-- What a pointer points to. -/
def pointee? : Ty → Option Ty
  | pointer t => some t
  | _ => none

/-- Length and element type of an array. -/
def arrayParts? : Ty → Option (Nat × Ty)
  | array n t => some (n, t)
  | _ => none

def returnType? : Ty → Option Ty
  | function r _ => some r
  | _ => none

/-- The number of memory cells that an object of the type takes. -/
def cells : Ty → Nat
  | array n t => n * t.cells
  | _ => 1

/-- The type of each cell of an object: arrays are stripped down to their innermost element. -/
def scalar : Ty → Ty
  | array _ t => t.scalar
  | t => t

/-- Types as they are written in a program listing. -/
def text : Ty → String
  | void => "void"
  | label => "label"
  | i1 => "i1"
  | i8 => "i8"
  | i32 => "i32"
  | float => "float"
  | pointer t => t.text ++ "*"
  | array n t => "[" ++ toString n ++ " x " ++ t.text ++ "]"
  | function r ps => r.text ++ " (" ++ ", ".intercalate (ps.map text) ++ ")"

end Ty

end MiddleEnd
