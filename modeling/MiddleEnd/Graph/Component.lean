import MiddleEnd.Graph

/-!
# Strongly connected components

One depth-first search numbers the nodes and keeps, for each node, the least number of an open node
that it is known to reach.  A node that reaches none below its own closes a component: the open
nodes above it.
-/

namespace MiddleEnd.Graph

/-- The state of the search.  `components` are listed in the order in which they were closed. -/
structure Search where
  number : Array (Option Nat)
  low : Array Nat
  next : Nat
  active : List Nat
  components : List (List Nat)

namespace Search

def start (size : Nat) : Search :=
  ⟨Array.replicate size none, Array.replicate size 0, 0, [], []⟩

def numberOf? (s : Search) (n : Nat) : Option Nat :=
  (s.number[n]?).join

def lowOf (s : Search) (n : Nat) : Nat :=
  s.low.getD n 0

/-- Numbers a node and opens it. -/
def enter (s : Search) (n : Nat) : Search :=
  { s with
    number := s.number.setIfInBounds n (some s.next)
    low := s.low.setIfInBounds n s.next
    next := s.next + 1
    active := n :: s.active }

def lower (s : Search) (n bound : Nat) : Search :=
  { s with low := s.low.modify n (min · bound) }

/-- Closes the component of `n` if `n` was the first of it to be entered. -/
def leave (s : Search) (n : Nat) : Search :=
  if s.numberOf? n = some (s.lowOf n) then
    { s with
      active := (s.active.dropWhile (· ≠ n)).tail
      components := s.components ++ [s.active.takeWhile (· ≠ n) ++ [n]] }
  else s

end Search

/-- Searches from an unnumbered node.  Each nested call numbers a further node, so a depth of
`size` is enough. -/
def connect (g : Graph) : Nat → Nat → Search → Search
  | 0, _, s => s
  | depth + 1, n, s =>
    let s := (g.successors n).foldl
      (fun s t => match s.numberOf? t with
        | none =>
          let s := g.connect depth t s
          s.lower n (s.lowOf t)
        | some k => if t ∈ s.active then s.lower n k else s)
      (s.enter n)
    s.leave n

/-- The components, each before the components that have an edge into it. -/
def components (g : Graph) : List (List Nat) :=
  ((List.range g.size).foldl
    (fun s n => if s.numberOf? n = none then g.connect g.size n s else s)
    (Search.start g.size)).components

/-- Does a node of the component lie on a cycle? -/
def isCyclic (g : Graph) (component : List Nat) (n : Nat) : Bool :=
  1 < component.length || g.hasEdge n n

end MiddleEnd.Graph
