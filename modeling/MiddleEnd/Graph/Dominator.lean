import MiddleEnd.Graph.Traversal

/-!
# Dominators

A node dominates another if every path from the entry to the second passes through the first.  The
dominator sets are the greatest solution of `dom n = {n} ∪ ⋂ dom p` over the predecessors `p` of
`n`, found by sweeping over the nodes in reverse post-order until nothing changes.  Nodes that
cannot be reached from the entry have no dominators.
-/

namespace MiddleEnd

structure Dominators where
  entry : Nat
  /-- The dominators of each node. -/
  sets : Array BitSet
  /-- The closest strict dominator of each node. -/
  idoms : Array (Option Nat)
  /-- The nodes reachable from the entry in reverse post-order. -/
  order : List Nat
  /-- The number of sweeps, the last one without a change. -/
  sweeps : Nat

namespace Graph

/-! ## Fixed point -/

/-- The common dominators of the predecessors, and the node itself. -/
def meet (g : Graph) (sets : Array BitSet) (n : Nat) : BitSet :=
  ((g.predecessors n).foldl (fun s p => s.inter (sets.getD p (.empty 0)))
    (BitSet.full g.size)).insert n

/-- Updates the sets of `nodes` one after the other. -/
def sweep (g : Graph) (nodes : List Nat) (sets : Array BitSet) : Array BitSet :=
  nodes.foldl (fun sets n => sets.setIfInBounds n (g.meet sets n)) sets

/-- Sweeps until nothing changes, and counts the sweeps. -/
def settle (g : Graph) (nodes : List Nat) : Nat → Array BitSet → Nat × Array BitSet
  | 0, sets => (0, sets)
  | fuel + 1, sets =>
    let next := g.sweep nodes sets
    if next = sets then (1, sets)
    else
      let (count, settled) := g.settle nodes fuel next
      (count + 1, settled)

/-- Every node but the entry starts from the set of all nodes. -/
def initialSets (g : Graph) : Array BitSet :=
  (Array.replicate g.size (BitSet.full g.size)).setIfInBounds g.entry
    ((BitSet.empty g.size).insert g.entry)

/-- The closest strict dominator is the one that has all the others as dominators, hence one
dominator less than the node. -/
def closest (sets : Array BitSet) (counts : Array Nat) (n : Nat) : Option Nat :=
  (sets.getD n (.empty 0)).toList.find? fun d => d ≠ n && counts.getD d 0 + 1 = counts.getD n 0

/-- Each sweep but the last removes a member from some set, so `size * size + 1` sweeps settle. -/
def dominators (g : Graph) : Dominators :=
  if g.size ≤ g.entry then
    ⟨g.entry, Array.replicate g.size (.empty g.size), Array.replicate g.size none, [], 0⟩
  else
    let order := g.reversePostorder g.entry
    let (sweeps, settled) := g.settle order.tail (g.size * g.size + 1) g.initialSets
    let sets := settled.mapIdx fun n s => if n ∈ order then s else s.clear
    let counts := sets.map BitSet.count
    let idoms := (Array.range g.size).map fun n =>
      if n ∈ order.tail then closest sets counts n else none
    ⟨g.entry, sets, idoms, order, sweeps⟩

end Graph

namespace Dominators

def size (d : Dominators) : Nat :=
  d.sets.size

def set (d : Dominators) (n : Nat) : BitSet :=
  d.sets.getD n (.empty 0)

def dominates (d : Dominators) (a b : Nat) : Bool :=
  (d.set b).contains a

def strictlyDominates (d : Dominators) (a b : Nat) : Bool :=
  a ≠ b && d.dominates a b

def isReachable (d : Dominators) (n : Nat) : Bool :=
  !(d.set n).isEmpty

def idom? (d : Dominators) (n : Nat) : Option Nat :=
  (d.idoms[n]?).join

/-- The nodes whose closest strict dominator is `n`, in reverse post-order. -/
def children (d : Dominators) (n : Nat) : List Nat :=
  d.order.filter fun c => d.idom? c = some n

/-- The nodes from `n` up to, and without, `stop` along closest strict dominators. -/
def climb (d : Dominators) (stop : Option Nat) : Nat → Nat → List Nat
  | 0, _ => []
  | fuel + 1, n =>
    if some n = stop then []
    else n :: (match d.idom? n with
      | none => []
      | some p => d.climb stop fuel p)

/-- The number of steps from `n` to the root of the dominator tree. -/
def depth (d : Dominators) (n : Nat) : Nat :=
  (d.climb none (d.size + 1) n).length - 1

end Dominators

namespace Graph

/-! ## Dominance frontiers

The frontier of `x` holds each node `y` such that `x` dominates a predecessor of `y` but does not
strictly dominate `y`. -/

/-- The nodes whose frontier holds `y`.  Only a node with two reachable predecessors is in any
frontier, and then those nodes are met on the way from its predecessors to its closest strict
dominator. -/
def frontierOwners (g : Graph) (d : Dominators) (y : Nat) : BitSet :=
  let preds := (g.predecessors y).filter d.isReachable
  if d.isReachable y && 2 ≤ preds.length then
    (preds.flatMap (d.climb (d.idom? y) g.size)).foldl BitSet.insert (.empty g.size)
  else .empty g.size

/-- The frontier of every node, in increasing order. -/
def frontiers (g : Graph) (d : Dominators) : Array (List Nat) :=
  let owners := (Array.range g.size).map (g.frontierOwners d)
  (Array.range g.size).map fun x =>
    (List.range g.size).filter fun y => (owners.getD y (.empty 0)).contains x

/-- Adds the frontiers of the waiting nodes; what is new has to wait in turn. -/
def closeFrontier (frontiers : Array (List Nat)) : Nat → List Nat → BitSet → BitSet
  | 0, _, found => found
  | _ + 1, [], found => found
  | fuel + 1, n :: waiting, found =>
    let fresh := (frontiers.getD n []).filter fun y => !found.contains y
    closeFrontier frontiers fuel (fresh ++ waiting) (fresh.foldl BitSet.insert found)

/-- The least set that holds the frontier of each of `defs` and of each of its own members. -/
def iteratedFrontier (frontiers : Array (List Nat)) (defs : List Nat) : BitSet :=
  closeFrontier frontiers (defs.length + frontiers.size) defs (.empty frontiers.size)

/-- Refuses a definition outside the graph. -/
def iteratedFrontier? (frontiers : Array (List Nat)) (defs : List Nat) : Except Error BitSet :=
  if defs.all (· < frontiers.size) then .ok (iteratedFrontier frontiers defs)
  else .error .outOfRange

end Graph

end MiddleEnd
