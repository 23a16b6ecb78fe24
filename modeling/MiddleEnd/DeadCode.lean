import MiddleEnd.Transform

/-!
# Dead code elimination

A sweep folds branches to deleted blocks, deletes unreachable blocks and removes instructions that
nothing uses and that have no side effects.  Each block is swept backwards, so a chain of unused
instructions mostly goes in one sweep.  Sweeps are repeated until one changes nothing.
-/

namespace MiddleEnd.DeadCode

def name : String :=
  "dead-code-elimination"

def description : String :=
  "Removes unreachable blocks and unused side-effect-free instructions"

def isUnused (f : Func) (i : InstId) : Bool :=
  (f.inst i).live && (f.inst i).users.isEmpty && !(f.instr i).hasSideEffects

/-- Removes those of the given instructions that are unused when their turn comes, and gives
them. -/
def removeUnused (f : Func) : List InstId → List InstId × Func
  | [] => ([], f)
  | i :: is =>
    if isUnused f i then
      let (removed, g) := removeUnused (f.remove i) is
      (i :: removed, g)
    else removeUnused f is

/-- The instructions in the order in which they are swept. -/
def candidates (f : Func) : List InstId :=
  f.liveBlocks.flatMap fun b => (f.instsOf b).reverse

def removal (f : Func) (i : InstId) : Event :=
  f.instEvent name .instructionRemoved i ((f.instr i).mnemonic ++ " " ++ i.text)

/-- One sweep; gives the number of changes. -/
def sweep : Transform Nat := do
  let folded ← .connect
  .recordAll (folded.map ((← .func).event name .branchSimplified))
  let dead ← .prune
  .recordAll (dead.map ((← .func).event name .blockRemoved))
  let f ← .func
  let (removed, g) := removeUnused f (candidates f)
  .setFunc g
  .recordAll (removed.map (removal f))
  return folded.length + dead.length + removed.length

def boundWarning (f : Func) (bound : Nat) : Event :=
  { kind := .warning, message :=
      "dead code elimination on " ++ f.name ++ " hit the sweep bound (" ++ toString bound ++ ")" }

/-- Sweeps until nothing changes, at most as often as the number given last; it warns with `bound`
if that is not enough. -/
def sweeps (bound : Nat) (changed : Bool) : Nat → Transform Bool
  | 0 => do
    .record (boundWarning (← .func) bound)
    return changed
  | n + 1 => do
    if (← sweep) = 0 then return changed else sweeps bound true n

/-- At least one sweep is made.  Tells whether anything changed. -/
def run (bound : Nat) : Transform Bool :=
  sweeps (max 1 bound) false (max 1 bound)

end MiddleEnd.DeadCode
