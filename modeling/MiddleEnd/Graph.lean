import MiddleEnd.Error

/-!
# Directed graphs

Nodes are numbered from zero.  Each node lists its successors and its predecessors in the order in
which the edges were added; parallel edges are listed once each.
-/

namespace MiddleEnd

structure Graph where
  succs : Array (List Nat)
  preds : Array (List Nat)
  entry : Nat
deriving Inhabited

namespace Graph

/-- A graph without edges whose entry is node zero. -/
def discrete (size : Nat) : Graph :=
  ⟨Array.replicate size [], Array.replicate size [], 0⟩

def size (g : Graph) : Nat :=
  g.succs.size

/-- Adds a node without edges; its number is the size so far. -/
def addNode (g : Graph) : Graph :=
  { g with succs := g.succs.push [], preds := g.preds.push [] }

def successors (g : Graph) (n : Nat) : List Nat :=
  g.succs.getD n []

def predecessors (g : Graph) (n : Nat) : List Nat :=
  g.preds.getD n []

def hasEdge (g : Graph) (s t : Nat) : Bool :=
  (g.successors s).contains t

/-- The number of edges, parallel ones counted separately. -/
def edgeCount (g : Graph) : Nat :=
  g.succs.toList.flatten.length

def addEdge (g : Graph) (s t : Nat) : Graph :=
  { g with succs := g.succs.modify s (· ++ [t]), preds := g.preds.modify t (· ++ [s]) }

/-- Refuses an edge that names a missing node. -/
def addEdge? (g : Graph) (s t : Nat) : Except Error Graph :=
  if g.size ≤ s then .error (.graph (.source s g.size))
  else if g.size ≤ t then .error (.graph (.target t g.size))
  else .ok (g.addEdge s t)

def rootAt? (g : Graph) (n : Nat) : Except Error Graph :=
  if g.size ≤ n then .error (.graph (.entry n)) else .ok { g with entry := n }

end Graph

end MiddleEnd
