import MiddleEnd.Proofs.Graph.Built
import MiddleEnd.Proofs.Graph.Frontier

/-!
# Dominator trees of built graphs

The way up the dominator tree of a node lists its dominators, each once, so it ends and its length is
the depth of the node.  Frontiers are met on such ways.  They are the places where dominance ends,
except that the entry is left out if a single edge leads back to it.

That exception does not matter for iterated frontiers.  A walk from the closest strict dominator of a
node to the node does not come back to the entry, so if a definition is on the walk, the places where
dominance ends on it are joins, and the node is the last of them.
-/

namespace MiddleEnd

open List Dominators

variable {n x y : Nat}

lemma Dominators.climb_of_idom?_eq_none {d : Dominators} (h : d.idom? n = none)
    (stop : Option Nat) (fuel : Nat) :
    d.climb stop (fuel + 1) n = if some n = stop then [] else [n] := by
  rw [climb, h]

lemma Dominators.exists_climb_none (d : Dominators) (fuel n : Nat) :
    ∃ rest, d.climb none (fuel + 1) n = n :: rest := by
  exact ⟨_, rfl⟩

namespace Graph

variable {g : Graph}

namespace Coherent

variable (hg : g.Coherent)

include hg

/-! ## The way up -/

lemma climb_add {stop : Option Nat} {fuel : Nat} (hn : g.Visited n → g.domCount n ≤ fuel)
    (hfuel : 0 < fuel) (more : Nat) :
    g.dominators.climb stop (fuel + more) n = g.dominators.climb stop fuel n := by
  induction fuel generalizing n with
  | zero => cases hfuel
  | succ fuel ih =>
    rw [Nat.succ_add]
    cases hidom : g.dominators.idom? n with
    | none =>
      rw [climb_of_idom?_eq_none hidom, climb_of_idom?_eq_none hidom]
    | some p =>
      obtain ⟨hvisited, hp⟩ := hg.idom?_eq_some.mp hidom
      have hcnt := hg.domCount_eq hvisited hp
      have hpos := hg.domCount_pos (hp.1.1.exists_trail hvisited)
      have hle := hn hvisited
      simp only [climb, hidom]
      rw [ih (fun _ => by omega) (by omega)]

lemma mem_climb_none (hn : g.Visited n) :
    x ∈ g.dominators.climb none (g.size + 1) n ↔ Dominates g.Edge g.entry x n := by
  refine ⟨fun hx => (hg.dominates_of_mem_climb hn (by simp) hx).1, fun hx => ?_⟩
  exact hg.mem_climb hn (Nat.le_succ_of_le (hg.domCount_le hn)) hx (by simp)

lemma nodup_climb_none (fuel : Nat) (hn : g.Visited n) :
    (g.dominators.climb none fuel n).Nodup := by
  induction fuel generalizing n with
  | zero => exact nodup_nil
  | succ fuel ih =>
    cases hidom : g.dominators.idom? n with
    | none => simp [climb_of_idom?_eq_none hidom]
    | some p =>
      obtain ⟨-, hp⟩ := hg.idom?_eq_some.mp hidom
      have hvisited := hp.1.1.exists_trail hn
      simp only [climb, hidom, reduceCtorEq, if_false, nodup_cons]
      refine ⟨fun hmem => ?_, ih hvisited⟩
      -- a node that is met again further up would dominate its closest strict dominator
      obtain ⟨hnp, -⟩ := hg.dominates_of_mem_climb hvisited (by simp) hmem
      obtain ⟨l, hl⟩ := hn
      exact hp.1.2 (hp.1.1.antisymm hnp hl)

lemma size_dominators : g.dominators.size = g.size := by
  rw [Dominators.size, hg.sets_dominators, hg.sized_finalSets.size]

lemma exists_strictDominators (hn : g.Visited n) : ∃ as : List Nat, as.Nodup ∧
    (∀ a, a ∈ as ↔ StrictlyDominates g.Edge g.entry a n) ∧ g.dominators.depth n = as.length := by
  have hmem (a : Nat) := hg.mem_climb_none (x := a) hn
  have hnd := hg.nodup_climb_none (g.size + 1) hn
  rw [depth, hg.size_dominators]
  obtain ⟨as, has⟩ := g.dominators.exists_climb_none g.size n
  rw [has] at hmem hnd ⊢
  obtain ⟨hnot, hnd⟩ := nodup_cons.mp hnd
  refine ⟨as, hnd, fun a => ?_, rfl⟩
  rw [StrictlyDominates, ← hmem, mem_cons]
  constructor
  · intro ha
    refine ⟨.inr ha, ?_⟩
    rintro rfl
    exact hnot ha
  · rintro ⟨rfl | ha, hne⟩
    · exact absurd rfl hne
    · exact ha

lemma idom?_eq_none_iff (hn : g.Visited n) : g.dominators.idom? n = none ↔ n = g.entry := by
  obtain ⟨l, hl⟩ := hn
  constructor
  · intro hnone
    by_contra hent
    obtain ⟨d, hd⟩ := ImmediatelyDominates.exists_of_trail hl hent
    rw [hg.idom?_eq_some.mpr ⟨⟨l, hl⟩, hd⟩] at hnone
    cases hnone
  · rintro rfl
    refine Option.eq_none_iff_forall_ne_some.mpr fun d hd => ?_
    obtain ⟨-, ⟨hdom, hne⟩, -⟩ := hg.idom?_eq_some.mp hd
    exact hne (mem_singleton.mp (hdom [] .root))

end Coherent

lemma dominators_of_size_eq_zero (hsize : g.size = 0) :
    g.dominators.order = [] ∧ ∀ n, g.dominators.idom? n = none := by
  rw [dominators]
  simp [idom?, hsize]

/-- The dominator tree of a built graph is that of its paths.  Every node but the entry that can be
reached hangs below its closest strict dominator and nothing else hangs anywhere; children are listed
once, in reverse post-order; and every way up ends, at a depth that is the number of strict
dominators. -/
theorem Built.dominatorTree_exact (hg : g.Built) :
    (∀ n < g.size, g.Reaches g.entry n → n ≠ g.entry → ∃ d, g.dominators.idom? n = some d ∧
        StrictlyDominates g.Edge g.entry d n ∧
        ∀ a, StrictlyDominates g.Edge g.entry a n → Dominates g.Edge g.entry a d) ∧
      (∀ n, n = g.entry ∨ ¬ g.Reaches g.entry n → g.dominators.idom? n = none) ∧
      (g.dominators.order.Nodup ∧ ∀ p, (g.dominators.children p).Sublist g.dominators.order ∧
        ∀ c, (g.dominators.children p).count c = if g.dominators.idom? c = some p then 1 else 0) ∧
      (∀ n more, g.dominators.climb none (g.dominators.size + 1 + more) n =
        g.dominators.climb none (g.dominators.size + 1) n) ∧
      ∀ n < g.size, g.Reaches g.entry n → ∃ as : List Nat, as.Nodup ∧
        (∀ a, a ∈ as ↔ StrictlyDominates g.Edge g.entry a n) ∧
        g.dominators.depth n = as.length := by
  rcases Nat.eq_zero_or_pos g.size with hsize | hsize
  · obtain ⟨horder, hidom⟩ := dominators_of_size_eq_zero hsize
    refine ⟨fun n hn => by omega, fun n _ => hidom n, ⟨horder ▸ nodup_nil, fun p => ?_⟩,
      fun n more => ?_, fun n hn => by omega⟩
    · simp [Dominators.children, horder, hidom]
    · rw [Nat.add_right_comm, Dominators.climb_of_idom?_eq_none (hidom n),
        Dominators.climb_of_idom?_eq_none (hidom n)]
  have hc := hg.coherent hsize
  simp only [← visited_iff]
  refine ⟨fun n _ hn hentry => ?_, fun n hn => ?_, ⟨?_, fun p => ⟨filter_sublist, fun c => ?_⟩⟩,
    fun n more => ?_, fun n _ hn => hc.exists_strictDominators hn⟩
  · obtain ⟨l, hl⟩ := hn
    obtain ⟨d, hd⟩ := ImmediatelyDominates.exists_of_trail hl hentry
    exact ⟨d, hc.idom?_eq_some.mpr ⟨⟨l, hl⟩, hd⟩, hd⟩
  · by_cases hvisited : g.Visited n
    · exact (hc.idom?_eq_none_iff hvisited).mpr (hn.resolve_right fun h => h hvisited)
    · refine Option.eq_none_iff_forall_ne_some.mpr fun d hd => ?_
      exact hvisited (hc.idom?_eq_some.mp hd).1
  · rw [hc.order_dominators]
    exact nodup_reverse.mpr (hc.closed.nodup_postorder hc.entry)
  · rw [(hc.nodup_children p).count]
    exact if_congr (hc.mem_children.trans hc.idom?_eq_some.symm) rfl rfl
  · rw [hc.size_dominators]
    exact hc.climb_add (fun hn => Nat.le_succ_of_le (hc.domCount_le hn)) (Nat.succ_pos _) more

theorem dominatorTree_exact_tangle :
    tangle.dominators.idom? 0 = some 2 ∧ StrictlyDominates tangle.Edge 1 2 0 ∧
      tangle.dominators.idom? 1 = none ∧ tangle.dominators.depth 0 = 2 ∧ ∃ as : List Nat,
        as.Nodup ∧ (∀ a, a ∈ as ↔ StrictlyDominates tangle.Edge 1 a 0) ∧ as.length = 2 := by
  obtain ⟨htree, hnone, -, -, hdepth⟩ := built_tangle.dominatorTree_exact
  have hedge : 2 ∈ tangle.successors 1 ∧ 0 ∈ tangle.successors 2 := by decide
  have hreaches : tangle.Reaches 1 0 := .tail (.single hedge.1) hedge.2
  have hidom : tangle.dominators.idom? 0 = some 2 := by decide +kernel
  obtain ⟨d, hd, hstrict, -⟩ := htree 0 (by decide) hreaches (by decide)
  obtain rfl : d = 2 := Option.some.inj (hd.symm.trans hidom)
  obtain ⟨as, hnodup, hmem, hlength⟩ := hdepth 0 (by decide) hreaches
  have htwo : tangle.dominators.depth 0 = 2 := by decide +kernel
  exact ⟨hidom, hstrict, hnone 1 (.inl rfl), htwo, as, hnodup, hmem, hlength.symm.trans htwo⟩

/-! ## Frontiers -/

lemma inFrontier_iff : InFrontier g.Edge g.entry x y ↔
    (∃ p, g.Reaches g.entry p ∧ g.Edge p y ∧ Dominates g.Edge g.entry x p) ∧
      ¬ StrictlyDominates g.Edge g.entry x y := by
  simp only [← visited_iff]
  constructor
  · rintro ⟨p, hedge, hp, hx, hnot⟩
    exact ⟨⟨p, hp, hedge, hx⟩, hnot⟩
  · rintro ⟨⟨p, hp, hedge, hx⟩, hnot⟩
    exact ⟨p, hedge, hp, hx, hnot⟩

/-- The frontier of a node `x` of a built graph consists of the places where dominance by `x` ends:
`x` dominates a predecessor of the place, but not strictly the place itself.  The entry is one of them
only if two edges lead back to it.  Nothing else has or is in a frontier, and every way up ends. -/
theorem Built.frontiers_exact (hg : g.Built) (hentry : g.entry < g.size) :
    (∀ x y, g.Reaches g.entry x → g.Reaches g.entry y →
        (y ∈ (g.frontiers g.dominators).getD x [] ↔
          ((∃ p, g.Reaches g.entry p ∧ g.Edge p y ∧ Dominates g.Edge g.entry x p) ∧
            ¬ StrictlyDominates g.Edge g.entry x y) ∧
          (y = g.entry → 2 ≤ ((g.predecessors y).filter g.dominators.isReachable).length))) ∧
      (∀ x y, y ∈ (g.frontiers g.dominators).getD x [] →
        g.Reaches g.entry x ∧ g.Reaches g.entry y) ∧
      ∀ y p more, g.Reaches g.entry p →
        g.dominators.climb (g.dominators.idom? y) (g.size + more) p =
          g.dominators.climb (g.dominators.idom? y) g.size p := by
  have hc := hg.coherent (Nat.zero_lt_of_lt hentry)
  refine ⟨fun x y hx hy => ?_, fun x y h => ?_, fun y p more hp => ?_⟩
  · rw [← inFrontier_iff]
    constructor
    · intro h
      refine ⟨hc.inFrontier_of_mem_frontiers h, fun _ => ?_⟩
      exact (contains_frontierOwners.mp (mem_getD_frontiers.mp h).2.2).1.2
    · rintro ⟨h, htwo⟩
      exact (hc.mem_frontiers_iff (Decidable.not_or_of_imp htwo)).mpr h
  · obtain ⟨p, hedge, hp, hx, -⟩ := hc.inFrontier_of_mem_frontiers h
    exact ⟨visited_iff.mp (hx.exists_trail hp), (visited_iff.mp hp).tail hedge⟩
  · have hpos := hc.domCount_pos (visited_iff.mpr hp)
    have hle := hc.domCount_le (visited_iff.mpr hp)
    exact hc.climb_add (fun _ => hle) (by omega) more

/-- The entry has an edge to itself and no other. -/
def selfLoop : Graph where
  succs := #[[0]]
  preds := #[[0]]
  entry := 0

lemma built_selfLoop : selfLoop.Built :=
  .addEdge (s := 0) (t := 0) (built_discrete 1) rfl

theorem frontiers_exact_tangle : 0 ∈ (tangle.frontiers tangle.dominators).getD 0 [] ∧
    (∃ p, tangle.Reaches 1 p ∧ tangle.Edge p 0 ∧ Dominates tangle.Edge 1 0 p) ∧
      ¬ StrictlyDominates tangle.Edge 1 0 0 := by
  have hedge : 2 ∈ tangle.successors 1 ∧ 0 ∈ tangle.successors 2 := by decide
  have hreaches : tangle.Reaches 1 0 := .tail (.single hedge.1) hedge.2
  have hmem : 0 ∈ (tangle.frontiers tangle.dominators).getD 0 [] := by decide +kernel
  obtain ⟨hexact, -⟩ := built_tangle.frontiers_exact (by decide)
  exact ⟨hmem, ((hexact 0 0 hreaches hreaches).mp hmem).1⟩

/-- Dominance by the entry ends at the entry, which is in no frontier. -/
theorem exists_not_mem_frontiers : ∃ g : Graph, g.Built ∧ g.entry < g.size ∧
    (∃ p, g.Reaches g.entry p ∧ g.Edge p g.entry ∧ Dominates g.Edge g.entry g.entry p) ∧
    ¬ StrictlyDominates g.Edge g.entry g.entry g.entry ∧
    g.entry ∉ (g.frontiers g.dominators).getD g.entry [] := by
  refine ⟨selfLoop, built_selfLoop, by decide, ⟨0, .refl, ?_, .refl 0⟩, fun h => h.2 rfl, ?_⟩
  · change 0 ∈ selfLoop.successors 0
    decide
  · decide +kernel

/-! ## Iterated frontiers -/

/-- A definition, or a place where definitions meet, that is on the way from the closest strict
dominator of `n` to `n` makes `n` such a place. -/
lemma Coherent.not_mem_of_walk (hg : g.Coherent) {sets merges : Nat → Prop}
    (hclosed : ∀ m, sets m ∨ merges m → ∀ y ∈ (g.frontiers g.dominators).getD m [], merges y)
    {d : Nat} (hd : g.dominators.idom? n = some d) (hn : ¬ merges n) {q : List Nat}
    (hwalk : (d :: q ++ [n]).IsChain g.Edge) (hq : d ∉ q) :
    ∀ c ∈ q, ¬ (sets c ∨ merges c) := by
  obtain ⟨hvisited, hidom⟩ := hg.idom?_eq_some.mp hd
  obtain ⟨r, hr⟩ := hidom.1.1.exists_trail hvisited
  have htrail := hr.append_walk hwalk
  simp only [append_eq, reverse_append, reverse_singleton, singleton_append] at htrail
  have hent : n ≠ g.entry := by
    rintro rfl
    rw [(hg.idom?_eq_none_iff hvisited).mpr rfl] at hd
    cases hd
  -- the entry is not on the walk, so it may be added to the places where definitions meet
  have hclosed' (x y : Nat) (hx : sets x ∨ merges x ∨ x = g.entry)
      (h : InFrontier g.Edge g.entry x y) : merges y ∨ y = g.entry := by
    by_cases hy : y = g.entry
    · exact .inr hy
    refine .inl (hclosed x ?_ y ((hg.mem_frontiers_iff (.inl hy)).mpr h))
    rcases hx with hx | hx | rfl
    · exact .inl hx
    · exact .inr hx
    · exact absurd ⟨.of_root y, Ne.symm hy⟩ (inFrontier_iff.mp h).2
  intro c hc hset
  exact hidom.not_sets_of_mem hclosed' (not_or.mpr ⟨hn, hent⟩) htrail (by simpa using hq) c
    (mem_reverse.mpr hc) (hset.imp_right .inl)

/-- The iterated frontier of nodes of a built graph that can be reached is found, and it is the least
set that holds the frontiers of these nodes and of its own members.  If a node is not in it, then
on every walk to the node from its closest strict dominator, which does not come back there, there are
neither given nodes nor members. -/
theorem Built.iteratedFrontier_exact (hg : g.Built) (hentry : g.entry < g.size) {defs : List Nat}
    (hdefs : ∀ n ∈ defs, g.Reaches g.entry n) :
    ∃ s, iteratedFrontier? (g.frontiers g.dominators) defs = .ok s ∧
      (∀ more, closeFrontier (g.frontiers g.dominators)
        (defs.length + (g.frontiers g.dominators).size + more) defs
          (.empty (g.frontiers g.dominators).size) = s) ∧
      (∀ n, n ∈ defs ∨ s.contains n = true →
        ∀ y ∈ (g.frontiers g.dominators).getD n [], s.contains y = true) ∧
      (∀ upper : Nat → Prop,
        (∀ n, n ∈ defs ∨ upper n → ∀ y ∈ (g.frontiers g.dominators).getD n [], upper y) →
          ∀ y, s.contains y = true → upper y) ∧
      ∀ n d q, g.dominators.idom? n = some d → s.contains n = false →
        (d :: q ++ [n]).IsChain g.Edge → d ∉ q → ∀ c ∈ q, c ∉ defs ∧ s.contains c = false := by
  have hc := hg.coherent (Nat.zero_lt_of_lt hentry)
  have hsize : (g.frontiers g.dominators).size = g.size := by simp [frontiers]
  have hnodup := nodup_getD_frontiers (g := g) g.dominators
  have hrange (n y : Nat) (hy : y ∈ (g.frontiers g.dominators).getD n []) :
      y < (g.frontiers g.dominators).size :=
    hsize ▸ (mem_getD_frontiers.mp hy).2.1
  refine ⟨iteratedFrontier (g.frontiers g.dominators) defs, if_pos ?_,
    (closes_iteratedFrontier hnodup hrange defs).2,
    fun n hn y hy => mem_iteratedFrontier hnodup hrange defs hn hy,
    fun upper hupper y hy => iteratedFrontier_least hnodup hrange defs upper hupper hy,
    fun n d q hd hn hwalk hq c hmem => ?_⟩
  · rw [all_eq_true]
    exact fun n hn => decide_eq_true (hsize ▸ hc.closed.lt_of_reaches hc.entry (hdefs n hn))
  · have hnot := hc.not_mem_of_walk
      (fun m hm y hy => mem_iteratedFrontier hnodup hrange defs hm hy) hd (by simp [hn]) hwalk hq c hmem
    exact ⟨fun h => hnot (.inl h), Bool.eq_false_iff.mpr fun h => hnot (.inr h)⟩

/-- Two ways lead from the entry to node three, and an edge leads back. -/
def diamond : Graph where
  succs := #[[1, 2], [3], [3], [0]]
  preds := #[[3], [0], [0], [1, 2]]
  entry := 0

lemma built_diamond : diamond.Built := by
  refine .addEdge (s := 3) (t := 0) (.addEdge (s := 2) (t := 3) (.addEdge (s := 1) (t := 3)
    (.addEdge (s := 0) (t := 2) (.addEdge (s := 0) (t := 1) (built_discrete 4) rfl) rfl) rfl) rfl) ?_
  rfl

theorem iteratedFrontier_exact_diamond :
    ∃ s, iteratedFrontier? (diamond.frontiers diamond.dominators) [0] = .ok s ∧
      diamond.dominators.idom? 3 = some 0 ∧ s.contains 3 = false ∧ [0, 1, 3].IsChain diamond.Edge ∧
      1 ∉ [0] ∧ s.contains 1 = false := by
  have hdefs : ∀ n ∈ [0], diamond.Reaches 0 n := fun n hn => mem_singleton.mp hn ▸ .refl
  obtain ⟨s, hs, -, -, -, hwalk⟩ := built_diamond.iteratedFrontier_exact (by decide) hdefs
  have hidom : diamond.dominators.idom? 3 = some 0 := by decide +kernel
  have hout : s.contains 3 = false := by
    rw [iteratedFrontier?, if_pos (by decide +kernel)] at hs
    cases hs
    decide +kernel
  have hedges : 1 ∈ diamond.successors 0 ∧ 3 ∈ diamond.successors 1 := by decide
  have hchain : [0, 1, 3].IsChain diamond.Edge :=
    .cons_cons hedges.1 (.cons_cons hedges.2 (.singleton 3))
  exact ⟨s, hs, hidom, hout, hchain, hwalk 3 0 [1] hidom hout hchain (by decide) 1 (by decide)⟩

end Graph
end MiddleEnd
