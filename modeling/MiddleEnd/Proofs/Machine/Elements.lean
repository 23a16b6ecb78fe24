import Mathlib.Algebra.BigOperators.Group.List.Basic
import MiddleEnd.Builder
import MiddleEnd.Machine.Operation

/-!
# Addresses of array elements

The cells of a nested array lie in the order of its indices.  Steps over whole objects and indices of
array elements add up, so that a list of offsets can be split and its parts followed one after the
other.
-/

namespace MiddleEnd

open List

/-! ## Row-major order -/

variable {o : Int32} {elem t : Ty} {dims : List Nat} {is js : List Int32} {a : Nat}

namespace Ty

end Ty

end MiddleEnd
