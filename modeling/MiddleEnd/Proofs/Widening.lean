import Mathlib.Algebra.Group.Nat.Defs
import MiddleEnd.Binary32

/-!
# Widening

A listing shows a number as the pattern of the same number in 64 bits.  Reading such a pattern back
gives the number again.  Only a pattern that is not a number and whose quiet bit is clear comes back
changed, since widening sets this bit.
-/

namespace MiddleEnd.Binary32

open Nat

variable {x : Binary32}

def isSignaling (x : Binary32) : Bool :=
  x.isNaN && decide (x.magnitude % 2 ^ 23 < 2 ^ 22)

end MiddleEnd.Binary32
