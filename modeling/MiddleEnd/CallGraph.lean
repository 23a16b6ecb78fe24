import MiddleEnd.Graph.Component
import MiddleEnd.Program

/-!
# Call graphs

Which functions of a program call which others.  Declarations and retired functions call nothing,
and each pair of caller and callee is one edge.
-/

namespace MiddleEnd

/-- The functions called from live blocks, in order, with repetitions. -/
def Func.calls (f : Func) : List FuncId :=
  f.liveInsts.filterMap fun i => match f.instr i with
    | .call g _ _ => some g
    | _ => none

structure CallGraph where
  graph : Graph
  /-- The groups of functions that call each other, callees first. -/
  components : List (List Nat)

namespace CallGraph

def addCall (g : Graph) (caller callee : Nat) : Except Error Graph :=
  if g.hasEdge caller callee then .ok g else g.addEdge? caller callee

def ofProgram (p : Program) : Except Error CallGraph := do
  let edges := p.funcIds.flatMap fun f =>
    if (p.func f).isDefined then (p.func f).calls.map fun c => (f.idx, c.idx) else []
  let graph ← edges.foldlM (fun g (s, t) => addCall g s t) (Graph.discrete p.funcs.size)
  return { graph, components := graph.components }

def callees (c : CallGraph) (f : FuncId) : List FuncId :=
  (c.graph.successors f.idx).map .mk

/-- All functions, callees before their callers. -/
def bottomUp (c : CallGraph) : List FuncId :=
  c.components.flatten.map .mk

/-- Can a function reach itself through calls? -/
def isRecursive (c : CallGraph) (f : FuncId) : Bool :=
  c.components.any fun component =>
    component.contains f.idx && c.graph.isCyclic component f.idx

end CallGraph

end MiddleEnd
