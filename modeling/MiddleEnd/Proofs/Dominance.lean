import MiddleEnd.Flow.Dominance
import MiddleEnd.Proofs.Flow
import MiddleEnd.Proofs.Graph.Frontier

/-!
# Dominance between the blocks of a function

Paths and dominance are those of the edges between live blocks.  If every live block is reachable
and nothing leads back to the entry, then dominance can be computed, and what it stores on the
blocks are the children in the dominator tree and the places where dominance ends.
-/

namespace MiddleEnd

open BlockId List

variable {ns : List Nat}

def BlockId.equiv : BlockId ≃ Nat where
  toFun := idx
  invFun := .mk
  left_inv _ := rfl
  right_inv _ := rfl

lemma mem_map_mk {b : BlockId} : b ∈ ns.map mk ↔ b.idx ∈ ns := by
  rw [mem_map]
  constructor
  · grind
  · exact fun h => ⟨b.idx, h, rfl⟩

lemma nodup_map_mk (h : ns.Nodup) : (ns.map mk).Nodup :=
  h.map fun _ _ heq => congrArg idx heq

namespace Func

variable {f g : Func} {b : BlockId}

/-- The blocks that control passes through from the entry, the last one first. -/
def Path (f : Func) : List BlockId → Prop :=
  Trail f.Edge ⟨0⟩

def Dom (f : Func) : BlockId → BlockId → Prop :=
  Dominates f.Edge ⟨0⟩

/-- The block `d` is the closest strict dominator of `b`. -/
def IDom (f : Func) : BlockId → BlockId → Prop :=
  ImmediatelyDominates f.Edge ⟨0⟩

lemma exists_path_iff : (∃ l, f.Path (b :: l)) ↔ f.Reachable b :=
  Trail.exists_iff

/-- Every live block is reachable, nothing leads back to the entry, and the dominance facts on the
blocks are those of the edges. -/
structure Analyzed (f : Func) : Prop extends routed : f.Routed where
  reachable : ∀ b ∈ f.liveBlocks, f.Reachable b
  entry : ∀ b, ¬ f.Edge b ⟨0⟩
  mem_children : ∀ b ∈ f.liveBlocks, ∀ c, c ∈ (f.block b).dominance.children ↔
    c ∈ f.liveBlocks ∧ f.IDom b c
  nodup_children : ∀ b ∈ f.liveBlocks, (f.block b).dominance.children.Nodup
  mem_frontier : ∀ b ∈ f.liveBlocks, ∀ c, InFrontier f.Edge ⟨0⟩ b c →
    c ∈ (f.block b).dominance.frontier
  frontier : ∀ b, ∀ c ∈ (f.block b).dominance.frontier, c ∈ f.liveBlocks ∧ ∃ p, f.Edge p c
  nodup_frontier : ∀ b, (f.block b).dominance.frontier.Nodup

/-- The function with the dominance facts on its blocks. -/
def withDominance (f : Func) : Func :=
  { f with blocks := f.blocks.mapIdx fun n b =>
    { b with dominance := if b.deleted then {} else
        factsOf f.flowGraph.dominators (f.flowGraph.frontiers f.flowGraph.dominators) n } }

namespace Wired

lemma coherent_flowGraph (hf : f.Wired) (hent : f.hasBlock ⟨0⟩) : f.flowGraph.Coherent where
  closed := hf.closed_flowGraph
  mem_predecessors s t ht := by
    rw [size_flowGraph] at ht
    have hpreds := hf.mem_preds (b := ⟨s⟩) ((hasBlock_iff f).mpr ht)
    have hsuccs := hf.mem_successors (b := ⟨s⟩) (c := ⟨t⟩)
    rw [hsuccs, ← hpreds, predecessors_flowGraph, mem_map]
    constructor
    · rintro ⟨⟨n⟩, hn, rfl⟩
      exact hn
    · exact fun h => ⟨⟨s⟩, h, rfl⟩
  entry := by
    rw [size_flowGraph]
    exact (hasBlock_iff f).mp hent

lemma edge_flowGraph (hf : f.Wired) (b c : BlockId) :
    f.flowGraph.Edge (equiv b) (equiv c) ↔ f.Edge b c :=
  hf.mem_successors

lemma visited_flowGraph (hf : f.Wired) :
    f.flowGraph.Visited b.idx ↔ f.Reachable b := by
  rw [Graph.visited_iff]
  exact hf.reaches_iff (b := ⟨0⟩)

/-- Dominance can be computed, and its errors are for functions that are not like this. -/
lemma dominanceError?_eq_none (hf : f.Wired) (hreach : ∀ b ∈ f.liveBlocks, f.Reachable b)
    (hhas : f.hasBlock ⟨0⟩) (hpreds : (f.block ⟨0⟩).preds = []) :
    f.dominanceError? f.flowGraph.dominators = none := by
  have hcoherent := hf.coherent_flowGraph hhas
  have hentry? : f.entry? = some ⟨0⟩ := by
    have hpos := (hasBlock_iff f).mp hhas
    rw [ entry?, if_neg]
    rw [Array.isEmpty_iff]
    rintro hempty
    simp [hempty] at hpos
  have hnone : f.liveBlocks.find? (fun b => !f.flowGraph.dominators.isReachable b.idx) = none := by
    refine find?_eq_none.mpr fun b hb => ?_
    rw [hcoherent.isReachable_iff.mpr (hf.visited_flowGraph.mpr (hreach b hb))]
    simp
  simp only [dominanceError?, hentry?, hpreds, hnone]
  rfl

lemma computeDominance (hf : f.Wired) (hreach : ∀ b ∈ f.liveBlocks, f.Reachable b)
    (hhas : f.hasBlock ⟨0⟩) (hpreds : (f.block ⟨0⟩).preds = []) :
    f.computeDominance = .ok f.withDominance := by
  rw [Func.computeDominance]
  simp only [hf.dominanceError?_eq_none hreach hhas hpreds]
  rfl

end Wired

lemma block_withDominance (f : Func) (hb : f.hasBlock b) :
    f.withDominance.block b = { f.block b with
      dominance := if (f.block b).deleted then {} else
        factsOf f.flowGraph.dominators (f.flowGraph.frontiers f.flowGraph.dominators) b.idx } := by
  have hlt := (hasBlock_iff f).mp hb
  simp [block, withDominance, hlt]

lemma sameCode_withDominance (f : Func) : f.SameCode f.withDominance := by
  refine ⟨⟨⟨⟨rfl, rfl, rfl, rfl, rfl⟩, rfl, by simp [withDominance]⟩, rfl,
    fun _ => ⟨rfl, rfl, rfl, rfl⟩, fun b => ?_⟩, rfl, rfl⟩
  cases hb : f.hasBlock b with
  | true =>
    rw [block_withDominance f hb]
    rfl
  | false =>
    have hb' : f.withDominance.hasBlock b = false := by simpa [hasBlock, withDominance] using hb
    rw [block_of_not_hasBlock f hb, block_of_not_hasBlock _ hb']

lemma edges_withDominance (f : Func) (b : BlockId) :
    (f.withDominance.block b).preds = (f.block b).preds ∧
      (f.withDominance.block b).succs = (f.block b).succs := by
  cases hb : f.hasBlock b with
  | true =>
    rw [block_withDominance f hb]
    exact ⟨rfl, rfl⟩
  | false =>
    rw [block_of_not_hasBlock f hb,
      block_of_not_hasBlock _ (((sameCode_withDominance f).hasBlock b).trans hb)]
    exact ⟨rfl, rfl⟩

namespace Routed

lemma withDominance (hf : f.Routed) : f.withDominance.Routed := by
  have hsame := sameCode_withDominance f
  have hedges := edges_withDominance f
  refine Connected.routed ⟨hsame.consistent hf.consistent,
    ⟨fun b hb => ?_, fun b => ?_, fun b hb => ?_⟩, fun b hb => ?_⟩ (hf.sameCode hsame)
  · rw [hsame.flowError?]
    exact hf.flow b (hsame.liveBlocks ▸ hb)
  · rw [(hedges b).2, hsame.liveBlocks, hsame.liveTargets, hf.succs]
  · rw [(hedges b).1, hsame.liveBlocks, hf.preds b (hsame.hasBlock b ▸ hb)]
    simp only [hsame.liveTargets]
  · rw [hsame.hasDeadBranch]
    exact hf.folded b (hsame.liveBlocks ▸ hb)

lemma analyzed_withDominance (hf : f.Routed) (hreach : ∀ b ∈ f.liveBlocks, f.Reachable b)
    (hhas : f.hasBlock ⟨0⟩) (hent : ∀ b, ¬ f.Edge b ⟨0⟩) : f.withDominance.Analyzed := by
  have hsame := sameCode_withDominance f
  have hwired := hf.wired
  have hcoherent := hwired.coherent_flowGraph hhas
  have hfacts {b : BlockId} (hb : b ∈ f.liveBlocks) : (f.withDominance.block b).dominance =
      factsOf f.flowGraph.dominators (f.flowGraph.frontiers f.flowGraph.dominators) b.idx := by
    obtain ⟨hhas, hdel⟩ := hf.mem_liveBlocks.mp hb
    rw [block_withDominance f hhas, hdel]
    rfl
  have hfront (b : BlockId) : (f.withDominance.block b).dominance.frontier = [] ∨
      (f.withDominance.block b).dominance.frontier =
        ((f.flowGraph.frontiers f.flowGraph.dominators).getD b.idx []).map .mk := by
    cases hb : f.hasBlock b with
    | true =>
      rw [block_withDominance f hb]
      split
      · exact Or.inl rfl
      · exact Or.inr rfl
    | false =>
      rw [block_of_not_hasBlock _ ((hsame.hasBlock b).trans hb)]
      exact Or.inl rfl
  have hidom (b c : BlockId) : ImmediatelyDominates f.flowGraph.Edge f.flowGraph.entry b.idx c.idx ↔
      f.IDom b c :=
    immediatelyDominates_map_iff equiv hwired.edge_flowGraph
  refine ⟨hf.withDominance, fun b hb => ?_, fun b => ?_, fun b hb c => ?_, fun b hb => ?_,
    fun b hb c hc => ?_, fun b c hc => ?_, fun b => ?_⟩
  · rw [Reachable, hsame.edge]
    exact hreach b (hsame.liveBlocks ▸ hb)
  · rw [hsame.edge]
    exact hent b
  · rw [hsame.liveBlocks] at hb ⊢
    rw [hfacts hb, IDom, hsame.edge, factsOf, mem_map_mk, hcoherent.mem_children,
      hwired.visited_flowGraph, hidom]
    refine and_congr_left fun hdom => ⟨fun hc => ?_, hreach c⟩
    -- the entry has no strict dominator
    cases hc with
    | refl => exact absurd (mem_singleton.mp (hdom.1.1 [] .root)) hdom.1.2
    | tail _ hedge => exact hf.mem_liveBlocks_of_edge hedge
  · rw [hfacts (hsame.liveBlocks ▸ hb)]
    exact nodup_map_mk (hcoherent.nodup_children b.idx)
  · rw [hsame.liveBlocks] at hb
    rw [hsame.edge] at hc
    rw [hfacts hb, factsOf, mem_map_mk]
    refine (hcoherent.mem_frontiers_iff (.inl fun h => ?_)).mpr
      ((inFrontier_map_iff equiv hwired.edge_flowGraph).mpr hc)
    obtain ⟨p, hp, -⟩ := hc
    exact hent p (equiv.injective h ▸ hp)
  · rcases hfront b with hnil | hmap
    · grind
    · rw [hmap, mem_map_mk] at hc
      obtain ⟨-, p, hp⟩ := hcoherent.visited_of_mem_frontiers hc
      have hedge : f.Edge ⟨p⟩ c := (hwired.edge_flowGraph ⟨p⟩ c).mp hp
      rw [hsame.liveBlocks, hsame.edge]
      exact ⟨hf.connected.mem_liveBlocks_of_edge hedge, ⟨p⟩, hedge⟩
  · rcases hfront b with hnil | hmap
    · grind
    · rw [hmap]
      exact nodup_map_mk (Graph.nodup_getD_frontiers _ _)

lemma computeDominance (hf : f.Routed) (hreach : ∀ b ∈ f.liveBlocks, f.Reachable b)
    (hhas : f.hasBlock ⟨0⟩) (hent : ∀ b, ¬ f.Edge b ⟨0⟩) :
    f.computeDominance = .ok f.withDominance :=
  hf.connected.wired.computeDominance hreach hhas <| eq_nil_iff_forall_not_mem.mpr
    fun b hb => hent b ((hf.mem_preds hhas).mp hb)

end Routed

namespace Analyzed

lemma mem_liveBlocks_of_reachable (hf : f.Analyzed) (hne : f.liveBlocks ≠ [])
    (hb : f.Reachable b) : b ∈ f.liveBlocks := by
  cases hb with
  | refl =>
    obtain ⟨c, hc⟩ := exists_mem_of_ne_nil _ hne
    rcases Relation.ReflTransGen.cases_head (hf.reachable c hc) with rfl | ⟨d, hedge, -⟩
    · exact hc
    · exact hedge.1
  | tail _ hedge => exact hf.mem_liveBlocks_of_edge hedge

lemma of_sameFrame (hf : f.Analyzed) (hfr : f.SameFrame g) (hg : g.Formed)
    (htgts : ∀ b ∈ f.liveBlocks, g.targets b = f.targets b)
    (hflow : ∀ b ∈ f.liveBlocks, g.flowError? b = none ∧ g.hasDeadBranch b = false) :
    g.Analyzed := by
  have hedge := hfr.edge htgts
  have hlive (b : BlockId) (hb : b ∈ f.liveBlocks) : g.liveTargets b = f.liveTargets b := by
    simp only [liveTargets, htgts b hb, hfr.blockDeleted]
  have hrouted : g.Routed := by
    refine Connected.routed ⟨hg.consistent, ⟨fun b hb => (hflow b (hfr.liveBlocks ▸ hb)).1,
      fun b => ?_, fun b hb => ?_⟩, fun b hb => (hflow b (hfr.liveBlocks ▸ hb)).2⟩ hg
    · rw [hfr.succs, hfr.liveBlocks, hf.succs]
      split
      · next hb => exact (hlive b hb).symm
      · rfl
    · rw [hfr.preds, hfr.liveBlocks, hf.preds b (hfr.hasBlock b ▸ hb)]
      exact filter_congr fun c hc => by rw [hlive c hc]
  refine ⟨hrouted, ?_, ?_, ?_, ?_, ?_, ?_, ?_⟩
  · simpa only [hfr.liveBlocks, Reachable, hedge] using hf.reachable
  · simpa only [hedge] using hf.entry
  · simpa only [hfr.liveBlocks, hfr.dominance, IDom, hedge] using hf.mem_children
  · simpa only [hfr.liveBlocks, hfr.dominance] using hf.nodup_children
  · simpa only [hfr.liveBlocks, hfr.dominance, hedge] using hf.mem_frontier
  · simpa only [hfr.liveBlocks, hfr.dominance, hedge] using hf.frontier
  · simpa only [hfr.dominance] using hf.nodup_frontier

end Analyzed

end Func

end MiddleEnd
