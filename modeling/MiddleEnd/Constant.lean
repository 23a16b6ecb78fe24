import MiddleEnd.Binary32
import MiddleEnd.Ty

/-!
# Constants

Literals of the scalar types.  An integer literal has type `i32`, and a null pointer carries its
own type.
-/

namespace MiddleEnd

inductive Constant
  | int (value : Int32)
  | float (value : Binary32)
  | bool (value : Bool)
  | null (ty : Ty)
deriving DecidableEq, Inhabited

/-- `width` hexadecimal digits of `n`, the last ones if there are more. -/
def hexText (width n : Nat) : String :=
  let digit := fun i => "0123456789ABCDEF".toList.getD (n >>> (4 * i) % 16) '0'
  String.ofList ((List.range width).reverse.map digit)

namespace Constant

def ty : Constant → Ty
  | int _ => .i32
  | float _ => .float
  | bool _ => .i1
  | null t => t

/-- The value that a fresh cell of the type holds; types that are not scalar have none. -/
def zero? : Ty → Option Constant
  | .i32 | .i8 => some (int 0)
  | .float => some (float .zero)
  | .i1 => some (bool false)
  | .pointer t => some (null (.pointer t))
  | _ => none

def isZero : Constant → Bool
  | int v => v = 0
  | float v => v.isZero
  | bool v => !v
  | null _ => true

/-- Truth values are integers zero and one. -/
def asInt? : Constant → Option Int32
  | int v => some v
  | bool v => some (if v then 1 else 0)
  | _ => none

def asFloat? : Constant → Option Binary32
  | float v => some v
  | _ => none

/-- Literals as they are written in a program listing; a float is written as the bits of the same
number in double precision. -/
def text : Constant → String
  | int v => toString v.toInt
  | float v => "0x" ++ hexText 16 v.widened
  | bool v => if v then "true" else "false"
  | null _ => "null"

end Constant

end MiddleEnd
