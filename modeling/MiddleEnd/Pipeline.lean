import MiddleEnd.DeadCode
import MiddleEnd.Inlining
import MiddleEnd.Promotion

/-!
# The optimization pipeline

A pipeline first recomputes the edges of every function, which refuses unfinished ones, and then
runs its passes once each, in order.  Inlining sees the whole program; the other passes run on
each function that is in use.
-/

namespace MiddleEnd

inductive Pass
  /-- With a limit on the instructions of a callee. -/
  | inlining (threshold : Option Nat)
  /-- With a limit on the number of sweeps. -/
  | deadCode (sweeps : Nat)
  | promotion
deriving DecidableEq

namespace Pass

def name : Pass → String
  | inlining _ => Inlining.name
  | deadCode _ => DeadCode.name
  | promotion => Promotion.name

def description : Pass → String
  | inlining _ => Inlining.description
  | deadCode _ => DeadCode.description
  | promotion => Promotion.description

/-- Does the pass work on the whole program? -/
def isGlobal : Pass → Bool
  | inlining _ => true
  | _ => false

/-- What the pass does to one function; a pass on the whole program does nothing. -/
def onFunc : Pass → Transform Bool
  | inlining _ => return false
  | deadCode sweeps => DeadCode.run sweeps
  | promotion => Promotion.run

/-- What the pass does to the whole program; a pass on functions does nothing. -/
def onProgram : Pass → Compile Bool
  | inlining threshold => Inlining.run threshold
  | _ => return false

end Pass

structure Config where
  optimize : Bool := true
  inline : Bool := true
  deadCode : Bool := true
  promote : Bool := true
  inlineThreshold : Option Nat := none
  maxSweeps : Nat := 100
  /-- Treat functions independently of each other. -/
  parallel : Bool := false
deriving DecidableEq, Inhabited

/-- The passes that a configuration asks for.  Promotion leaves instructions unused, so dead code is
eliminated again after it. -/
def Config.passes (c : Config) : List Pass :=
  let inlining := if c.inline then [Pass.inlining c.inlineThreshold] else []
  let deadCode := if c.deadCode then [Pass.deadCode c.maxSweeps] else []
  let promotion := if c.promote then .promotion :: deadCode else []
  if c.optimize then inlining ++ deadCode ++ promotion else []

namespace Pipeline

/-- Transforms every function that is in use.  Tells whether one of the results is yes. -/
def onEach (x : Transform Bool) : Compile Bool := do
  let p ← Compile.program
  let changed ← (p.funcIds.filter fun f => (p.func f).isDefined).mapM (Compile.transform · x)
  return changed.any id

/-- Runs one pass between two events. -/
def runPass (pass : Pass) : Compile Bool := do
  .record { kind := .passStarted, message := pass.description, pass := some pass.name }
  let changed ← if pass.isGlobal then pass.onProgram else onEach pass.onFunc
  .record { kind := .passCompleted, message := if changed then "changed" else "unchanged",
            pass := some pass.name }
  return changed

/-- Runs the given passes.  Tells whether the program changed. -/
def runPasses (c : Config) (passes : List Pass) : Compile Bool := do
  let _ ← onEach (do return !(← Transform.connect).isEmpty)
  if c.optimize then return (← passes.mapM runPass).any id else return false

def run (c : Config) : Compile Bool :=
  runPasses c c.passes

end Pipeline

end MiddleEnd
