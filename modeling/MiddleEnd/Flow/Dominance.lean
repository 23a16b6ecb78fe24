import MiddleEnd.Flow
import MiddleEnd.Graph.Dominator

/-!
# Dominance in functions

Stores on each live block which blocks dominate it, its place in the dominator tree and its
dominance frontier.  The edges have to be current and the unreachable blocks deleted.
-/

namespace MiddleEnd.Func

/-- What the analysis of a graph says about the block `n`. -/
def factsOf (d : Dominators) (frontiers : Array (List Nat)) (n : Nat) : DominanceFacts where
  idom := (d.idom? n).map .mk
  dominators := d.set n
  frontier := (frontiers.getD n []).map .mk
  children := (d.children n).map .mk

/-- Why a function has no dominator tree. -/
def dominanceError? (f : Func) (d : Dominators) : Option Defect :=
  match f.entry? with
  | none => some (.dominanceOfDeclaration f.name)
  | some entry =>
    if !(f.block entry).preds.isEmpty then
      some (.entryHasPredecessors (f.block entry).label f.name)
    else (f.liveBlocks.find? fun b => !d.isReachable b.idx).map fun b =>
      .unreachableBlock (f.block b).label f.name

/-- Computes the dominance facts of every live block and clears those of deleted ones. -/
def computeDominance (f : Func) : Except Error Func :=
  let g := f.flowGraph
  let d := g.dominators
  match f.dominanceError? d with
  | some e => .error (.internal e)
  | none =>
    let frontiers := g.frontiers d
    .ok { f with blocks := f.blocks.mapIdx fun n b =>
      { b with dominance := if b.deleted then {} else factsOf d frontiers n } }

end MiddleEnd.Func
