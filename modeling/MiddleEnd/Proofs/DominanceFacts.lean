import MiddleEnd.Proofs.Rewiring

/-!
# The dominance facts of any function

Once a function has been connected and pruned, dominance can be computed unless there is no entry or
something leads back to it.  The facts on the blocks are then exactly those of the paths from the
entry, whatever edits have made of the function.
-/

namespace MiddleEnd.Func

open BlockId List

variable {f g : Func}

/-! ## Exact dominance facts -/

/-- The function with other dominance facts on its blocks. -/
def withFacts (f : Func) (facts : BlockId → DominanceFacts) : Func :=
  { f with blocks := f.blocks.mapIdx fun n b => { b with dominance := facts ⟨n⟩ } }

/-- The dominance facts on the live blocks are those of the paths from the entry. -/
structure DominanceExact (f : Func) : Prop where
  succs : ∀ a b, b ∈ (f.block a).succs ↔ f.Edge a b
  isDominatedBy : ∀ a ∈ f.liveBlocks, ∀ b ∈ f.liveBlocks,
    (f.block b).isDominatedBy a ↔ ∀ l, f.Path (b :: l) → a ∈ b :: l
  /-- The strict dominator that all strict dominators dominate. -/
  idom : ∀ b ∈ f.liveBlocks, ∀ d, (f.block b).dominance.idom = some d ↔
    (f.Dom d b ∧ d ≠ b) ∧ ∀ a, f.Dom a b ∧ a ≠ b → f.Dom a d
  idom_none : ∀ b ∈ f.liveBlocks, (f.block b).dominance.idom = none ↔ f.entry? = some b
  children : ∀ a ∈ f.liveBlocks, (f.block a).dominance.children.Nodup ∧
    ∀ c, c ∈ (f.block a).dominance.children ↔
      c ∈ f.liveBlocks ∧ (f.block c).dominance.idom = some a
  frontier : ∀ a ∈ f.liveBlocks, ∀ y, y ∈ (f.block a).dominance.frontier ↔
    (∃ p ∈ (f.block y).preds, f.Dom a p) ∧ ¬ (f.Dom a y ∧ a ≠ y)

lemma eq_zero_of_entry {e : BlockId} (h : f.entry? = some e) : e = ⟨0⟩ := by
  rw [entry_eq] at h
  split at h <;> cases h
  rfl

namespace Wired

variable {b : BlockId}

lemma dominance_withDominance (hf : f.Wired) (hb : b ∈ f.liveBlocks) :
    (f.withDominance.block b).dominance =
      factsOf f.flowGraph.dominators (f.flowGraph.frontiers f.flowGraph.dominators) b.idx := by
  have hdel : (f.block b).deleted = false := by simpa using (mem_filter.mp hb).2
  rw [block_withDominance f (hasBlock_of_flow (hf.flow b hb)), hdel]
  rfl

lemma inFrontier_iff (hf : f.Wired) (hreach : ∀ b ∈ f.liveBlocks, f.Reachable b) {a y : BlockId} :
    InFrontier f.Edge ⟨0⟩ a y ↔
      (∃ p ∈ (f.block y).preds, f.Dom a p) ∧ ¬ (f.Dom a y ∧ a ≠ y) := by
  constructor
  · rintro ⟨p, hedge, -, hdom, hnot⟩
    have hhas := hf.hasBlock_of_mem_targets hedge.1 (mem_liveTargets.mp hedge.2).1
    exact ⟨⟨p, (hf.mem_preds hhas).mpr hedge, hdom⟩, hnot⟩
  · rintro ⟨⟨p, hp, hdom⟩, hnot⟩
    have hhas : f.hasBlock y := by
      cases hy : f.hasBlock y with
      | true => rfl
      | false =>
        rw [block_of_not_hasBlock f hy] at hp
        cases hp
    have hedge := (hf.mem_preds hhas).mp hp
    exact ⟨p, hedge, exists_path_iff.mpr (hreach p hedge.1), hdom, hnot⟩

section Facts

variable (hf : f.Wired) (hreach : ∀ b ∈ f.liveBlocks, f.Reachable b) (hhas : f.hasBlock ⟨0⟩)

include hf hreach hhas

lemma isDominatedBy_withDominance {a : BlockId} (hb : b ∈ f.liveBlocks) :
    (f.withDominance.block b).isDominatedBy a ↔ f.Dom a b := by
  have hcoherent := hf.coherent_flowGraph hhas
  have hvisited := hf.visited_flowGraph.mpr (hreach b hb)
  have hdom : Dominates f.flowGraph.Edge f.flowGraph.entry a.idx b.idx ↔ f.Dom a b :=
    dominates_map_iff equiv hf.edge_flowGraph
  rw [Block.isDominatedBy, hf.dominance_withDominance hb, ← hdom]
  exact hcoherent.dominates_iff.trans (and_iff_right hvisited)

lemma idom_withDominance {d : BlockId} (hb : b ∈ f.liveBlocks) :
    (f.withDominance.block b).dominance.idom = some d ↔ f.IDom d b := by
  have hcoherent := hf.coherent_flowGraph hhas
  have hvisited := hf.visited_flowGraph.mpr (hreach b hb)
  have hidom : ImmediatelyDominates f.flowGraph.Edge f.flowGraph.entry d.idx b.idx ↔ f.IDom d b :=
    immediatelyDominates_map_iff equiv hf.edge_flowGraph
  rw [hf.dominance_withDominance hb, factsOf, ← hidom, Option.map_eq_some_iff]
  constructor
  · rintro ⟨n, hn, rfl⟩
    exact (hcoherent.idom?_eq_some.mp hn).2
  · exact fun h => ⟨d.idx, hcoherent.idom?_eq_some.mpr ⟨hvisited, h⟩, rfl⟩

lemma idom_withDominance_eq_none (hb : b ∈ f.liveBlocks) :
    (f.withDominance.block b).dominance.idom = none ↔ b = ⟨0⟩ := by
  rw [Option.eq_none_iff_forall_ne_some]
  constructor
  · intro hnone
    by_contra hne
    obtain ⟨l, hl⟩ := exists_path_iff.mpr (hreach b hb)
    obtain ⟨d, hd⟩ := ImmediatelyDominates.exists_of_trail hl hne
    exact hnone d ((hf.idom_withDominance hreach hhas hb).mpr hd)
  · rintro rfl d hd
    obtain ⟨hdom, hne⟩ := ((hf.idom_withDominance hreach hhas hb).mp hd).1
    exact hne (mem_singleton.mp (hdom [] .root))

omit hreach in
lemma mem_children_withDominance {a c : BlockId} (ha : a ∈ f.liveBlocks) :
    c ∈ (f.withDominance.block a).dominance.children ↔ f.Reachable c ∧ f.IDom a c := by
  have hcoherent := hf.coherent_flowGraph hhas
  have hidom : ImmediatelyDominates f.flowGraph.Edge f.flowGraph.entry a.idx c.idx ↔ f.IDom a c :=
    immediatelyDominates_map_iff equiv hf.edge_flowGraph
  rw [hf.dominance_withDominance ha, factsOf, mem_map_mk, hcoherent.mem_children,
    hf.visited_flowGraph, hidom]

omit hreach in
lemma mem_frontier_withDominance (hent : ∀ b, ¬ f.Edge b ⟨0⟩) {a y : BlockId}
    (ha : a ∈ f.liveBlocks) :
    y ∈ (f.withDominance.block a).dominance.frontier ↔ InFrontier f.Edge ⟨0⟩ a y := by
  have hcoherent := hf.coherent_flowGraph hhas
  have hends : InFrontier f.flowGraph.Edge f.flowGraph.entry a.idx y.idx ↔
      InFrontier f.Edge ⟨0⟩ a y :=
    inFrontier_map_iff equiv hf.edge_flowGraph
  rw [hf.dominance_withDominance ha, factsOf, mem_map_mk, ← hends]
  refine ⟨hcoherent.inFrontier_of_mem_frontiers, fun h =>
    (hcoherent.mem_frontiers_iff (.inl fun hy => ?_)).mpr h⟩
  obtain ⟨p, hp, -⟩ := hends.mp h
  exact hent p (equiv.injective hy ▸ hp)

end Facts

lemma mem_liveBlocks_of_edge (hf : f.Wired) (hlay : ∀ b, f.hasBlock b → b ∈ f.layout)
    {c : BlockId} (h : f.Edge b c) : c ∈ f.liveBlocks := by
  obtain ⟨htgt, hdel⟩ := mem_liveTargets.mp h.2
  refine mem_filter.mpr ⟨hlay c (hf.hasBlock_of_mem_targets h.1 htgt), ?_⟩
  rw [hdel]
  rfl

lemma dominanceExact (hf : f.Wired) (hlay : ∀ b, f.hasBlock b → b ∈ f.layout)
    (hreach : ∀ b ∈ f.liveBlocks, f.Reachable b) (hfirst : f.entry? = some ⟨0⟩)
    (hpreds : (f.block ⟨0⟩).preds = []) : f.withDominance.DominanceExact := by
  have hhas := hasBlock_entry hfirst
  have hsame := sameCode_withDominance f
  have hedge (b : BlockId) (h : f.Edge b ⟨0⟩) : False := by
    have hmem := (hf.mem_preds hhas).mpr h
    rw [hpreds] at hmem
    exact not_mem_nil hmem
  have hdom : f.withDominance.Dom = f.Dom := by rw [Dom, hsame.edge, ← Dom]
  have hent : f.withDominance.entry? = f.entry? := by rw [entry_eq, entry_eq, hsame.hasBlock]
  refine ⟨fun a b => ?_, fun a _ b hb => ?_, fun b hb d => ?_, fun b hb => ?_,
    fun a ha => ⟨?_, fun c => ?_⟩, fun a ha y => ?_⟩
  · rw [(f.edges_withDominance a).2, hf.mem_succs, hsame.edge]
  · rw [hsame.liveBlocks] at hb
    rw [hf.isDominatedBy_withDominance hreach hhas hb, ← hdom]
    rfl
  · rw [hsame.liveBlocks] at hb
    rw [hf.idom_withDominance hreach hhas hb, hdom]
    rfl
  · rw [hsame.liveBlocks] at hb
    rw [hf.idom_withDominance_eq_none hreach hhas hb, hent, hfirst, Option.some.injEq, eq_comm]
  · rw [hsame.liveBlocks] at ha
    rw [hf.dominance_withDominance ha]
    exact nodup_map_mk ((hf.coherent_flowGraph hhas).nodup_children a.idx)
  · rw [hsame.liveBlocks] at ha ⊢
    rw [hf.mem_children_withDominance hhas ha]
    constructor
    · rintro ⟨hc, hidom⟩
      have hlive : c ∈ f.liveBlocks := by
        rcases Relation.ReflTransGen.cases_tail hc with rfl | ⟨p, -, hpc⟩
        · exact absurd (mem_singleton.mp (hidom.1.1 [] .root)) hidom.1.2
        · exact hf.mem_liveBlocks_of_edge hlay hpc
      exact ⟨hlive, (hf.idom_withDominance hreach hhas hlive).mpr hidom⟩
    · rintro ⟨hc, hidom⟩
      exact ⟨hreach c hc, (hf.idom_withDominance hreach hhas hc).mp hidom⟩
  · rw [hsame.liveBlocks] at ha
    rw [hf.mem_frontier_withDominance hhas hedge ha, hf.inFrontier_iff hreach, hdom,
      (f.edges_withDominance y).1]

/-- Dominance can be computed if and only if there is an entry and nothing leads to it. -/
lemma exists_computeDominance_iff (hf : f.Wired) (hreach : ∀ b ∈ f.liveBlocks, f.Reachable b) :
    (∃ g, f.computeDominance = .ok g) ↔ ∃ e, f.entry? = some e ∧ (f.block e).preds = [] := by
  constructor
  · rintro ⟨g, hg⟩
    rw [Func.computeDominance] at hg
    split at hg
    · cases hg
    · next hnone =>
      rw [dominanceError?] at hnone
      split at hnone
      · cases hnone
      · next e hent =>
        refine ⟨e, hent, ?_⟩
        by_contra hne
        rw [if_pos (by simpa using hne)] at hnone
        cases hnone
  · rintro ⟨e, hent, hpreds⟩
    have hhas := hasBlock_entry hent
    obtain rfl := eq_zero_of_entry hent
    exact ⟨f.withDominance, hf.computeDominance hreach hhas hpreds⟩

end Wired

section

variable (f : Func) (facts : BlockId → DominanceFacts)

lemma block_withFacts (b : BlockId) :
    (f.withFacts facts).block b =
      if f.hasBlock b then { f.block b with dominance := facts b } else f.block b := by
  by_cases hb : f.hasBlock b
  · have hlt := (hasBlock_iff f).mp hb
    simp [block, withFacts, hlt, hb]
  · have hle : ¬ b.idx < f.blocks.size := fun hlt => hb ((hasBlock_iff f).mpr hlt)
    simp [block, withFacts, hle, hb]

lemma sameCode_withFacts : f.SameCode (f.withFacts facts) := by
  refine ⟨⟨⟨⟨rfl, rfl, rfl, rfl, rfl⟩, rfl, by simp [withFacts]⟩, rfl,
    fun _ => ⟨rfl, rfl, rfl, rfl⟩, fun b => ?_⟩, rfl, rfl⟩
  rw [block_withFacts]
  split <;> rfl

lemma flowGraph_withFacts : (f.withFacts facts).flowGraph = f.flowGraph := by
  have hmap {α : Type} (read : Block → α)
      (hread : ∀ (b : Block) d, read { b with dominance := d } = read b) :
      (f.withFacts facts).blocks.map read = f.blocks.map read :=
    Array.ext (by simp [withFacts]) fun n _ _ => by simp [withFacts, hread]
  rw [flowGraph, flowGraph, hmap _ fun _ _ => rfl, hmap _ fun _ _ => rfl]

lemma computeDominance_withFacts : (f.withFacts facts).computeDominance = f.computeDominance := by
  have hsame := sameCode_withFacts f facts
  have hent : Func.entry? (f.withFacts facts) = f.entry? := by rw [entry_eq, entry_eq, hsame.hasBlock]
  have hpreds (b : BlockId) : ((f.withFacts facts).block b).preds = (f.block b).preds := by
    rw [block_withFacts]
    split <;> rfl
  have herror (d : Dominators) : (f.withFacts facts).dominanceError? d = f.dominanceError? d := by
    simp only [dominanceError?, hent, hpreds, hsame.label, hsame.liveBlocks, hsame.name]
  have hblks : (f.withFacts facts).blocks =
      f.blocks.mapIdx fun n b => { b with dominance := facts ⟨n⟩ } := rfl
  simp only [Func.computeDominance, flowGraph_withFacts, herror, hblks, Array.mapIdx_mapIdx,
    Function.comp_def]
  rfl

end

lemma blocks_withDominance (f : Func) :
    f.withDominance.blocks = (f.withFacts fun b => (f.withDominance.block b).dominance).blocks := by
  refine Array.ext (by simp [withDominance, withFacts]) fun n hn _ => ?_
  have hn' : n < f.blocks.size := by simpa [withDominance] using hn
  simp [withDominance, withFacts, block, hn']

lemma withDominance_eq_withFacts (f : Func) :
    f.withDominance = f.withFacts fun b => (f.withDominance.block b).dominance := by
  calc f.withDominance
      = { f with blocks := f.withDominance.blocks } := rfl
    _ = f.withFacts fun b => (f.withDominance.block b).dominance := by
      rw [blocks_withDominance]
      rfl

/-! ## Histories with analyses -/

/-- The functions that edits, in any order and of any kind, and analyses with any outcome make out
of one without blocks. -/
inductive Made : Func → Prop
  | empty {f : Func} (hinsts : f.insts = #[]) (hblks : f.blocks = #[]) (hlay : f.layout = []) :
    Made f
  | edit {f : Func} {e : Edit} (hf : Made f) (hrange : e.inRange f) : Made (e.apply f).2
  | placeAfter {f : Func} {b : BlockId} (hf : Made f) (hb : f.hasBlock b) (after : BlockId) :
    Made (f.placeAfter b after)
  | setType {f : Func} (hf : Made f) (i : InstId) (t : Ty) : Made (f.setType i t)
  | retire {f : Func} (hf : Made f) : Made { f with deleted := true }
  | connect {f : Func} (hf : Made f) : Made f.connect.2
  | prune {f : Func} (hf : Made f) : Made f.prune.2
  | withFacts {f : Func} (hf : Made f) (facts : BlockId → DominanceFacts) : Made (f.withFacts facts)

namespace Made

lemma interlinked (hf : f.Made) : f.Interlinked := by
  induction hf with
  | empty hinsts hblks hlay => exact .empty hinsts hblks hlay
  | edit _ hrange ih => exact ih.apply hrange
  | placeAfter _ hb after ih => exact ih.placeAfter hb after
  | setType _ i t ih => exact ih.sameChains (samePlaces_setType _ i t).chains
  | retire _ ih => exact ⟨ih.next_iff, ih.home, ih.first, ih.last, ih.hasBlock, ih.mem_layout⟩
  | connect _ ih => exact ih.connect
  | prune _ ih => exact ih.prune
  | withFacts _ facts ih => exact ih.sameChains (sameCode_withFacts _ facts).chains

/-- Once a function has been connected and pruned, dominance can be computed if and only if there is
an entry that nothing leads to.  The result has exact facts and differs from the function in its
facts only, and the facts that were there before play no part. -/
theorem computeDominance_exact {m : Func} {folded dead : List BlockId} (hf : f.Made)
    (hconnect : f.connect = (.ok folded, m)) (hprune : m.prune = (.ok dead, g)) :
    ((∃ k, g.computeDominance = .ok k) ↔ ∃ e, g.entry? = some e ∧ (g.block e).preds = []) ∧
      (∀ k, g.computeDominance = .ok k →
        k.DominanceExact ∧ k = g.withFacts fun b => (k.block b).dominance) ∧
      ∀ facts, (g.withFacts facts).computeDominance = g.computeDominance := by
  have hm : m.Made := by simpa only [hconnect] using hf.connect
  have hg : g.Made := by simpa only [hprune] using hm.prune
  obtain ⟨hwired, hreach⟩ := (wired_of_connect hconnect).1.prune hm.interlinked hprune
  have hiff := hwired.exists_computeDominance_iff hreach
  refine ⟨hiff, fun k hk => ?_, g.computeDominance_withFacts⟩
  obtain ⟨e, hentry, hpreds⟩ := hiff.mp ⟨k, hk⟩
  obtain rfl := eq_zero_of_entry hentry
  have hok := hwired.computeDominance hreach (hasBlock_entry hentry) hpreds
  obtain rfl : k = g.withDominance := Except.ok.inj (hk.symm.trans hok)
  exact ⟨hwired.dominanceExact (fun b => (hg.interlinked.mem_layout b).mpr) hreach hentry hpreds,
    withDominance_eq_withFacts g⟩

/-- A loop, a block that nothing leads to, and a removed instruction that has been put back into the
list of the last block. -/
def loopHistory : List Edit :=
  [.addBlock "entry", .addBlock "head", .addBlock "body", .addBlock "exit", .addBlock "gone",
    .append ⟨3⟩ (.binary .add (.arg 0) (.arg 0)) .i32, .remove ⟨0⟩, .moveToFront ⟨0⟩ ⟨3⟩,
    .append ⟨3⟩ (.ret none) .void, .append ⟨0⟩ (.jump (some ⟨1⟩)) .void,
    .append ⟨1⟩ (.branch (.arg 1) ⟨2⟩ ⟨3⟩) .void, .append ⟨2⟩ (.jump (some ⟨1⟩)) .void,
    .append ⟨4⟩ (.jump (some ⟨3⟩)) .void]

lemma edits {es : List Edit} (hf : f.Made) (hes : Edit.allAllowed (fun _ _ => true) f es) :
    (Edit.applyAll f es).Made := by
  induction es generalizing f with
  | nil => exact hf
  | cons e es ih =>
    simp only [Edit.allAllowed, Bool.and_eq_true] at hes
    exact ih (hf.edit hes.1.2) hes.2

theorem computeDominance_exact_loopHistory :
    ∃ f m g k : Func, f.Made ∧ ¬ f.Consistent ∧ f.connect = (.ok [], m) ∧
      m.prune = (.ok [⟨4⟩], g) ∧ g.computeDominance = .ok k ∧ k.DominanceExact := by
  have hmade : (Edit.applyAll (new "f" .i32 [.i32, .i1]) loopHistory).Made :=
    .edits (.empty rfl rfl rfl) (by decide)
  generalize hf : Edit.applyAll (new "f" .i32 [.i32, .i1]) loopHistory = f at hmade
  have hconnect : f.connect = (.ok [], f.connect.2) := Prod.ext (by rw [← hf]; decide +kernel) rfl
  have hprune : f.connect.2.prune = (.ok [⟨4⟩], f.connect.2.prune.2) :=
    Prod.ext (by rw [← hf]; decide +kernel) rfl
  obtain ⟨hok, hexact, -⟩ := hmade.computeDominance_exact hconnect hprune
  obtain ⟨k, hk⟩ := hok.mpr ⟨⟨0⟩, by rw [← hf]; decide +kernel, by rw [← hf]; decide +kernel⟩
  exact ⟨f, _, _, k, hmade, by rw [← hf]; decide +kernel, hconnect, hprune, hk, (hexact k hk).1⟩

end Made

end MiddleEnd.Func
