import MiddleEnd.Func.Edit
import MiddleEnd.Graph.Traversal

/-!
# Control flow

The edges between the blocks of a function come from the terminators of its live blocks and are
stored on the blocks.  They are always computed afresh.
-/

namespace MiddleEnd.Func

/-- The blocks as a graph, with the edges of the last analysis. -/
def flowGraph (f : Func) : Graph where
  succs := f.blocks.map fun b => b.succs.map BlockId.idx
  preds := f.blocks.map fun b => b.preds.map BlockId.idx
  entry := 0

/-! ## Edges -/

/-- The targets of the terminator of a block. -/
def targets (f : Func) (b : BlockId) : List BlockId :=
  match f.terminator? b with
  | some t => (f.instr t).targets
  | none => []

/-- The successors of a block: its targets that are not deleted, each once. -/
def liveTargets (f : Func) (b : BlockId) : List BlockId :=
  ((f.targets b).filter fun t => !(f.block t).deleted).eraseDups

/-- Why control flow cannot be followed out of a block. -/
def flowError? (f : Func) (b : BlockId) : Option Error :=
  let label := (f.block b).label
  match (f.terminator? b).map f.instr with
  | none => some (.unterminated f.name label)
  | some (.jump none) => some (.pendingJump f.name label)
  | some (.branch _ x y) =>
    if !f.hasBlock x || !f.hasBlock y then some .outOfRange
    else if (f.block x).deleted && (f.block y).deleted then
      some (.internal (.bothTargetsDeleted label))
    else none
  | some i => if i.targets.all f.hasBlock then none else some .outOfRange

/-- Does the block end in a branch to a deleted block? -/
def hasDeadBranch (f : Func) (b : BlockId) : Bool :=
  match (f.terminator? b).map f.instr with
  | some (.branch _ x y) => (f.block x).deleted || (f.block y).deleted
  | _ => false

/-- Turns a branch with one deleted target into a jump to the other. -/
def foldBranch (f : Func) (b : BlockId) : Func :=
  match f.terminator? b with
  | some t =>
    match f.instr t with
    | .branch _ x y => f.replaceInstr t (.jump (some (if (f.block x).deleted then y else x)))
    | _ => f
  | none => f

/-- Makes the edges those that leave `sources`.  Predecessors are listed in the order of
`sources`. -/
def setEdges (f : Func) (sources : List BlockId) : Func :=
  let edges := sources.map fun s => (s, f.liveTargets s)
  { f with blocks := f.blocks.mapIdx fun n d =>
      { d with
        preds := (edges.filter fun e => e.2.contains ⟨n⟩).map Prod.fst
        succs := (edges.lookup ⟨n⟩).getD [] } }

/-- Recomputes all edges.  Branches with one deleted target become jumps, and the blocks where that
happened are given back.  Control flow is followed in layout order up to the first block where it
cannot be followed. -/
def connect (f : Func) : Except Error (List BlockId) × Func :=
  let sources := f.liveBlocks.takeWhile fun b => (f.flowError? b).isNone
  let folded := sources.filter f.hasDeadBranch
  let connected := (folded.foldl foldBranch f).setEdges sources
  match f.liveBlocks.findSome? f.flowError? with
  | none => (.ok folded, connected)
  | some e => (.error e, connected)

/-! ## Unreachable blocks -/

/-- The live blocks that the entry does not reach. -/
def unreachable (f : Func) : List BlockId :=
  let reached := f.flowGraph.reachable 0
  f.liveBlocks.filter fun b => !reached.contains b.idx

/-- Drops the phi entries that name one of `dead` from the phis of a block. -/
def dropEntries (f : Func) (dead : List BlockId) (b : BlockId) : Func :=
  (f.phis b).foldl (fun f p => (f.retainEntries p fun c => !dead.contains c).2) f

/-- Deletes the unreachable blocks, which are given back in layout order.  The edges have to be
current and are recomputed. -/
def prune (f : Func) : Except Error (List BlockId) × Func :=
  let dead := f.unreachable
  if dead.isEmpty then (.ok [], f)
  else
    let survivors := f.liveBlocks.filter fun b => !dead.contains b
    let pruned := dead.foldl deleteBlock (survivors.foldl (dropEntries · dead ·) f)
    match pruned.connect with
    | (.ok _, g) => (.ok dead, g)
    | (.error e, g) => (.error e, g)

end MiddleEnd.Func
