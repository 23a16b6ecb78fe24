import MiddleEnd.BitSet
import MiddleEnd.Graph

/-!
# Graph traversals

Depth-first orders from a start node.  Both traversals keep their own stack, so that the depth of a
graph does not matter, and a start outside the graph visits nothing.
-/

namespace MiddleEnd.Graph

/-! ## Pre-order -/

/-- Pushes a node that has not been seen. -/
def push (n : Nat) (state : List Nat × BitSet) : List Nat × BitSet :=
  if state.2.contains n then state else (n :: state.1, state.2.insert n)

/-- Takes the top of the stack and pushes its unseen successors, so that the first successor is on
top.  A node is pushed once at most, hence `size` steps empty the stack. -/
def dfsLoop (g : Graph) : Nat → List Nat → BitSet → List Nat
  | 0, _, _ => []
  | _ + 1, [], _ => []
  | fuel + 1, n :: stack, seen =>
    let (stack, seen) := (g.successors n).foldr push (stack, seen)
    n :: g.dfsLoop fuel stack seen

/-- The nodes reachable from `start`, in the order in which they leave the stack. -/
def dfs (g : Graph) (start : Nat) : List Nat :=
  if start < g.size then g.dfsLoop g.size [start] ((BitSet.empty g.size).insert start) else []

/-- The set of nodes reachable from `start`. -/
def reachable (g : Graph) (start : Nat) : BitSet :=
  (g.dfs start).foldl BitSet.insert (BitSet.empty g.size)

/-! ## Post-order -/

/-- Each frame holds a node and its successors that are still to be explored.  A step explores one
edge or finishes one node. -/
def postorderLoop (g : Graph) : Nat → List (Nat × List Nat) → BitSet → List Nat
  | 0, _, _ => []
  | _ + 1, [], _ => []
  | fuel + 1, (n, []) :: frames, seen => n :: g.postorderLoop fuel frames seen
  | fuel + 1, (n, s :: pending) :: frames, seen =>
    if seen.contains s then g.postorderLoop fuel ((n, pending) :: frames) seen
    else g.postorderLoop fuel ((s, g.successors s) :: (n, pending) :: frames) (seen.insert s)

/-- The nodes reachable from `start`, in the order in which a depth-first search finishes them. -/
def postorder (g : Graph) (start : Nat) : List Nat :=
  if start < g.size then
    g.postorderLoop (g.size + g.edgeCount) [(start, g.successors start)]
      ((BitSet.empty g.size).insert start)
  else []

/-- Every node comes before its successors, except along edges that close a cycle. -/
def reversePostorder (g : Graph) (start : Nat) : List Nat :=
  (g.postorder start).reverse

end MiddleEnd.Graph
