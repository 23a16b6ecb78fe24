import MiddleEnd.Proofs.Graph.Dominator

/-!
# Built graphs

A graph is built from one without nodes by adding nodes and edges and by moving the entry.  Such a
graph lists each edge with both of its ends, and its entry is a node unless it has none.  So the
sweeps over its dominator sets end, and the sets are those of the paths from the entry, whether or
not there are edges into the entry, edges from a node to itself, parallel edges or nodes that cannot
be reached.
-/

namespace MiddleEnd.Graph

open Array Nat

variable {g h : Graph}

/-- The graphs that can be built; operations that are refused build nothing. -/
inductive Built : Graph → Prop
  | empty : Built (discrete 0)
  | addNode {g : Graph} : Built g → Built g.addNode
  | addEdge {g h : Graph} {s t : Nat} : Built g → g.addEdge? s t = .ok h → Built h
  | rootAt {g h : Graph} {n : Nat} : Built g → g.rootAt? n = .ok h → Built h

lemma discrete_succ (n : Nat) : discrete (n + 1) = (discrete n).addNode := by
  simp [discrete, addNode, replicate_succ]

lemma built_discrete (n : Nat) : (discrete n).Built := by
  induction n with
  | zero => exact .empty
  | succ n ih => exact discrete_succ n ▸ ih.addNode

/-! ## Lists of edges -/

lemma getD_push_nil (xs : Array (List Nat)) (n : Nat) : (xs.push []).getD n [] = xs.getD n [] := by
  simp only [getD_eq_getD_getElem?, getElem?_push]
  split
  · next heq => simp [heq]
  · rfl

lemma mem_getD_modify (xs : Array (List Nat)) (m n x y : Nat) :
    x ∈ (xs.modify m (· ++ [y])).getD n [] ↔
      x ∈ xs.getD n [] ∨ x = y ∧ n = m ∧ m < xs.size := by
  simp only [getD_eq_getD_getElem?, getElem?_modify]
  by_cases hm : m = n
  · grind
  · simp [hm, Ne.symm hm]

lemma addEdge?_eq_ok {s t : Nat} :
    g.addEdge? s t = .ok h ↔ s < g.size ∧ t < g.size ∧ h = g.addEdge s t := by
  rw [addEdge?]
  split
  · next hs => simp [not_lt.mpr hs]
  · grind

lemma rootAt?_eq_ok {n : Nat} : g.rootAt? n = .ok h ↔ n < g.size ∧ h = { g with entry := n } := by
  rw [rootAt?]
  split
  · next hn => simp [not_lt.mpr hn]
  · next hn => simp [Nat.lt_of_not_le hn, eq_comm]

/-- Each edge is listed at both of its ends, which are nodes. -/
structure Paired (g : Graph) : Prop where
  size : g.preds.size = g.succs.size
  closed : g.Closed
  mem_predecessors : ∀ s t, s ∈ g.predecessors t ↔ t ∈ g.successors s
  entry : g.entry < g.size ∨ g.size = 0 ∧ g.entry = 0

lemma successors_addNode (g : Graph) (n : Nat) : g.addNode.successors n = g.successors n :=
  getD_push_nil g.succs n

lemma predecessors_addNode (g : Graph) (n : Nat) : g.addNode.predecessors n = g.predecessors n :=
  getD_push_nil g.preds n

lemma Paired.addNode (hg : g.Paired) : g.addNode.Paired where
  size := by simp [Graph.addNode, hg.size]
  closed s t ht := by
    have hlt := hg.closed s t (successors_addNode g s ▸ ht)
    simp only [Graph.size, Graph.addNode, size_push] at hlt ⊢
    omega
  mem_predecessors s t := by
    rw [predecessors_addNode, successors_addNode]
    exact hg.mem_predecessors s t
  entry := by
    have hent := hg.entry
    simp only [Graph.size, Graph.addNode, size_push] at hent ⊢
    omega

lemma Paired.addEdge (hg : g.Paired) {s t : Nat} (hs : s < g.size) (ht : t < g.size) :
    (g.addEdge s t).Paired where
  size := by simp [Graph.addEdge, hg.size]
  closed n m hm := by
    have hsize : (g.addEdge s t).size = g.size := by simp [Graph.size, Graph.addEdge]
    rw [hsize]
    rcases (mem_getD_modify g.succs s n m t).mp hm with hm | ⟨rfl, -, -⟩
    · exact hg.closed n m hm
    · exact ht
  mem_predecessors n m := by
    have ht' : t < g.preds.size := hg.size.symm ▸ ht
    have hold := hg.mem_predecessors n m
    rw [predecessors, successors] at hold ⊢
    rw [Graph.addEdge, mem_getD_modify, mem_getD_modify, hold, and_iff_left ht',
      and_iff_left (show s < g.succs.size from hs), and_comm (a := n = s)]
  entry := by simpa [Graph.size, Graph.addEdge] using hg.entry

lemma Built.paired (hg : g.Built) : g.Paired := by
  induction hg with
  | empty =>
    exact ⟨rfl, fun s t ht => by simp [successors, discrete] at ht,
      fun s t => by simp [successors, predecessors, discrete], .inr ⟨rfl, rfl⟩⟩
  | addNode _ ih => exact ih.addNode
  | addEdge _ hedge ih =>
    obtain ⟨hs, ht, rfl⟩ := addEdge?_eq_ok.mp hedge
    exact ih.addEdge hs ht
  | rootAt _ hroot ih =>
    obtain ⟨hn, rfl⟩ := rootAt?_eq_ok.mp hroot
    exact ⟨ih.size, ih.closed, ih.mem_predecessors, .inl hn⟩

lemma Built.coherent (hg : g.Built) (hne : 0 < g.size) : g.Coherent where
  closed := hg.paired.closed
  mem_predecessors s t _ := hg.paired.mem_predecessors s t
  entry := hg.paired.entry.resolve_right fun h => ne_of_gt hne h.1

/-! ## Dominators -/

/-- Sets that can still lose fewer members than there are sweeps left are settled by these
sweeps, so further ones are not made. -/
lemma Above.settle_add (hg : g.Coherent) {nodes : List Nat} {sets : Array BitSet}
    (hnodes : ∀ n ∈ nodes, n < g.size ∧ n ≠ g.entry) {fuel : Nat} (hfuel : g.total sets < fuel)
    (h : g.Above nodes sets) (more : Nat) :
    g.settle nodes (fuel + more) sets = g.settle nodes fuel sets := by
  induction fuel generalizing sets with
  | zero => exact absurd hfuel (not_lt_zero _)
  | succ fuel ih =>
    rw [succ_add_eq_add_succ, add_succ]
    unfold Graph.settle
    dsimp only
    split
    · rfl
    · next hne =>
      obtain ⟨habove, hbelow⟩ := h.sweep hg fun n hn => ⟨hn, hnodes n hn⟩
      have hlt := habove.sized.total_lt h.sized hbelow hne
      rw [ih (by omega) habove]

lemma Coherent.settle_add (hg : g.Coherent) (more : Nat) :
    g.settle (g.reversePostorder g.entry).tail (g.size * g.size + 1 + more) g.initialSets =
      g.settle (g.reversePostorder g.entry).tail (g.size * g.size + 1) g.initialSets := by
  have hnodes : ∀ n ∈ (g.reversePostorder g.entry).tail, n < g.size ∧ n ≠ g.entry := fun n hn =>
    ⟨hg.lt_of_visited (hg.mem_order_tail.mp hn).1, (hg.mem_order_tail.mp hn).2⟩
  have habove := above_initialSets hg hnodes
  exact habove.settle_add hg hnodes (lt_succ_of_le habove.sized.total_le) more

lemma settle_add_of_size_eq_zero (hsize : g.size = 0) (more : Nat) :
    g.settle (g.reversePostorder g.entry).tail (g.size * g.size + 1 + more) g.initialSets =
      g.settle (g.reversePostorder g.entry).tail (g.size * g.size + 1) g.initialSets := by
  have horder : g.reversePostorder g.entry = [] := by
    rw [reversePostorder, postorder, if_neg (by omega), List.reverse_nil]
  rw [horder, add_right_comm]
  unfold settle
  simp [sweep]

lemma Built.settle_add (hg : g.Built) (more : Nat) :
    g.settle (g.reversePostorder g.entry).tail (g.size * g.size + 1 + more) g.initialSets =
      g.settle (g.reversePostorder g.entry).tail (g.size * g.size + 1) g.initialSets := by
  rcases Nat.eq_zero_or_pos g.size with hsize | hsize
  · exact settle_add_of_size_eq_zero hsize more
  · exact (hg.coherent hsize).settle_add more

lemma Coherent.set_of_not_visited (hg : g.Coherent) {b : Nat} (hlt : b < g.size)
    (hb : ¬ g.Visited b) : g.dominators.set b = .empty g.size := by
  rw [Dominators.set, hg.sets_dominators]
  refine BitSet.ext (hg.sized_finalSets.capacity b hlt) fun a => ?_
  rw [BitSet.contains_empty, ← Bool.not_eq_true]
  exact fun ha => hb (hg.member_finalSets.mp ha).1

/-- The sweeps over the dominator sets of a built graph end: more of them than are allowed for would
not be made.  Afterwards the sets are those of the paths: `a` is in the set of a node `b` that can be
reached if every path from the entry to `b` passes through `a`, and the set of a node that cannot be
reached is empty. -/
theorem Built.dominators_exact (hg : g.Built) :
    (∀ more, g.settle (g.reversePostorder g.entry).tail (g.size * g.size + 1 + more) g.initialSets =
        g.settle (g.reversePostorder g.entry).tail (g.size * g.size + 1) g.initialSets) ∧
      ∀ b < g.size,
        (g.Reaches g.entry b → g.dominators.isReachable b = true ∧
          ∀ a, g.dominators.dominates a b = true ↔
            ∀ l, Trail g.Edge g.entry (b :: l) → a ∈ b :: l) ∧
        (¬ g.Reaches g.entry b → g.dominators.isReachable b = false ∧
          g.dominators.set b = .empty g.size) := by
  refine ⟨hg.settle_add, fun b hb => ?_⟩
  have hcoherent := hg.coherent (Nat.zero_lt_of_lt hb)
  rw [← visited_iff]
  refine ⟨fun hvisited => ⟨hcoherent.isReachable_iff.mpr hvisited, fun a => ?_⟩, fun hnot => ⟨?_, ?_⟩⟩
  · exact hcoherent.dominates_iff.trans (and_iff_right hvisited)
  · rw [← Bool.not_eq_true]
    exact fun h => hnot (hcoherent.isReachable_iff.mp h)
  · exact hcoherent.set_of_not_visited hb hnot

/-- The entry is node one; there are edges into it, an edge from a node to itself, parallel edges and
the node three, which cannot be reached. -/
def tangle : Graph where
  succs := #[[1, 0], [2, 2], [0], [2]]
  preds := #[[0, 2], [0], [1, 1, 3], []]
  entry := 1

lemma built_tangle : tangle.Built := by
  refine .rootAt (n := 1) (.addEdge (s := 3) (t := 2) (.addEdge (s := 2) (t := 0)
    (.addEdge (s := 1) (t := 2) (.addEdge (s := 1) (t := 2) (.addEdge (s := 0) (t := 0)
      (.addEdge (s := 0) (t := 1) (built_discrete 4) rfl) rfl) rfl) rfl) rfl) rfl) ?_
  rfl

theorem dominators_tangle : tangle.dominators.dominates 2 0 = true ∧
    (∀ l, Trail tangle.Edge 1 (0 :: l) → 2 ∈ 0 :: l) ∧ tangle.dominators.isReachable 3 = false := by
  have h := built_tangle.dominators_exact.2
  have hedge : 2 ∈ tangle.successors 1 ∧ 0 ∈ tangle.successors 2 := by decide
  have hreaches : tangle.Reaches 1 0 := .tail (.single hedge.1) hedge.2
  have hdom : tangle.dominators.dominates 2 0 = true := by decide +kernel
  exact ⟨hdom, (((h 0 (by decide)).1 hreaches).2 2).mp hdom, by decide +kernel⟩

end MiddleEnd.Graph
