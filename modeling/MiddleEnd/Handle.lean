/-!
# Handles

Instructions and blocks are kept in arrays of their function, functions, globals and pooled
strings in arrays of their program.  A handle is a position in one of these arrays; a separate
type for each kind keeps them from being mixed up.
-/

namespace MiddleEnd

/-- An instruction of a function. -/
structure InstId where
  idx : Nat
deriving DecidableEq, Hashable, Inhabited

/-- A basic block of a function. -/
structure BlockId where
  idx : Nat
deriving DecidableEq, Inhabited

/-- A function of a program. -/
structure FuncId where
  idx : Nat
deriving DecidableEq, Hashable, Inhabited

/-- A global variable of a program. -/
structure GlobalId where
  idx : Nat
deriving DecidableEq, Inhabited

/-- A literal in the string pool of a program. -/
structure StrId where
  idx : Nat
deriving DecidableEq, Inhabited

/-- Results are named after their instruction. -/
def InstId.text (i : InstId) : String :=
  "%v" ++ toString i.idx

end MiddleEnd
