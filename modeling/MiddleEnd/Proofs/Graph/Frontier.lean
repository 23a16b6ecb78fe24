import MiddleEnd.Proofs.Graph.Dominator

/-!
# The computed dominance frontiers

Where dominance by a node ends, the node is met on the way up the dominator tree from a predecessor,
before the closest strict dominator of the node where it ends, and no other node is met there.  Such
a place has two predecessors unless it is the entry, which is in a frontier only if it has two.

The iterated frontier of some nodes is the least set that holds the frontiers of these nodes and of
its own members.
-/

namespace MiddleEnd.Graph

open List

variable {g : Graph} {d : Dominators}

/-! ## One frontier -/

lemma getD_frontiers (g : Graph) (d : Dominators) (x : Nat) :
    (g.frontiers d).getD x [] = if x < g.size then
      (List.range g.size).filter fun y => (g.frontierOwners d y).contains x else [] := by
  split
  · next hx =>
    simp only [frontiers, Array.getD_eq_getD_getElem?, Array.getElem?_map, Array.getElem?_range,
      hx, if_true, Option.map_some, Option.getD_some]
    refine filter_congr fun y hy => ?_
    simp [mem_range.mp hy]
  · next hx => simp [frontiers, Array.getD_eq_getD_getElem?, hx]

lemma mem_getD_frontiers {x y : Nat} :
    y ∈ (g.frontiers d).getD x [] ↔
      x < g.size ∧ y < g.size ∧ (g.frontierOwners d y).contains x := by
  rw [getD_frontiers]
  split
  · next hx => rw [mem_filter, mem_range, and_iff_right hx]
  · next hx => exact iff_of_false not_mem_nil fun h => hx h.1

lemma nodup_getD_frontiers (d : Dominators) (x : Nat) : ((g.frontiers d).getD x []).Nodup := by
  rw [getD_frontiers]
  split
  · exact nodup_range.filter _
  · exact nodup_nil

def IsJoin (g : Graph) (y : Nat) : Prop :=
  2 ≤ ((g.predecessors y).filter g.dominators.isReachable).length

lemma contains_frontierOwners {x y : Nat} :
    (g.frontierOwners d y).contains x ↔
      (d.isReachable y ∧ 2 ≤ ((g.predecessors y).filter d.isReachable).length) ∧
        x < g.size ∧ ∃ p ∈ g.predecessors y, d.isReachable p ∧
          x ∈ d.climb (d.idom? y) g.size p := by
  unfold frontierOwners
  dsimp only
  have hcap : (BitSet.empty g.size).capacity = g.size := rfl
  split
  · next hcond =>
    rw [Bool.and_eq_true, decide_eq_true_eq] at hcond
    rw [BitSet.contains_foldl_insert, BitSet.contains_empty, Bool.false_or, decide_eq_true_eq,
      hcap, and_iff_right hcond, and_comm, mem_flatMap]
    simp only [mem_filter, and_assoc]
  · simp_all

namespace Coherent

variable {x y : Nat}

variable (hg : g.Coherent) {stop : Option Nat}

include hg

/-- The way up the dominator tree meets all dominators of `n` that do not dominate the place where
it stops. -/
lemma mem_climb {fuel n : Nat} (hn : g.Visited n)
    (hfuel : g.domCount n ≤ fuel) (hx : Dominates g.Edge g.entry x n)
    (hstop : ∀ s, stop = some s → ¬ Dominates g.Edge g.entry x s) :
    x ∈ g.dominators.climb stop fuel n := by
  induction fuel generalizing n with
  | zero =>
    have hpos := hg.domCount_pos hn
    omega
  | succ fuel ih =>
    have hne : some n ≠ stop := fun heq => hstop n heq.symm hx
    rw [Dominators.climb, if_neg hne]
    by_cases hxn : x = n
    · exact hxn ▸ mem_cons_self
    · obtain ⟨l, hl⟩ := hn
      have hent : n ≠ g.entry := by
        rintro rfl
        exact hxn (mem_singleton.mp (hx [] .root))
      obtain ⟨p, hp⟩ := ImmediatelyDominates.exists_of_trail hl hent
      have hidom := hg.idom?_eq_some.mpr ⟨⟨l, hl⟩, hp⟩
      have hcnt := hg.domCount_eq ⟨l, hl⟩ hp
      rw [hidom]
      apply mem_cons_of_mem
      exact ih (hp.1.1.exists_trail ⟨l, hl⟩) (by omega) (hp.2 x ⟨hx, hxn⟩)

/-- Two reachable edges lead to a place where dominance ends, unless it is the entry. -/
lemma isJoin_of_inFrontier (h : InFrontier g.Edge g.entry x y) (hy : y ≠ g.entry) :
    g.IsJoin y := by
  obtain ⟨p, hedge, ⟨l, hl⟩, hx, hnot⟩ := h
  have hylt := hg.lt_of_visited ⟨_, hl.step hedge⟩
  obtain ⟨p', hne', hp', hedge'⟩ := hx.exists_other_edge ⟨l, hl⟩ hedge hnot hy
  have hmem {q : Nat} (hq : g.Visited q) (hqy : g.Edge q y) :
      q ∈ (g.predecessors y).filter g.dominators.isReachable :=
    mem_filter.mpr ⟨(hg.mem_predecessors q y hylt).mpr hqy, hg.isReachable_iff.mpr hq⟩
  have hsubset : [p, p'] ⊆ (g.predecessors y).filter g.dominators.isReachable := by
    simp [hmem ⟨l, hl⟩ hedge, hmem hp' hedge']
  have hnd : [p, p'].Nodup := by simpa using hne'.symm
  exact (hnd.subperm hsubset).length_le

/-- The frontiers hold every place where dominance ends, provided that two edges lead to it. -/
lemma mem_frontiers (h : InFrontier g.Edge g.entry x y) (htwo : g.IsJoin y) :
    y ∈ (g.frontiers g.dominators).getD x [] := by
  obtain ⟨p, hedge, ⟨l, hl⟩, hx, hnot⟩ := h
  have hy : g.Visited y := ⟨_, hl.step hedge⟩
  have hylt := hg.lt_of_visited hy
  have hxlt := hg.lt_of_visited (hx.exists_trail ⟨l, hl⟩)
  rw [mem_getD_frontiers, contains_frontierOwners]
  refine ⟨hxlt, hylt, ⟨hg.isReachable_iff.mpr hy, htwo⟩, hxlt, p,
    (hg.mem_predecessors p y hylt).mpr hedge, hg.isReachable_iff.mpr ⟨l, hl⟩, ?_⟩
  refine hg.mem_climb ⟨l, hl⟩ (hg.domCount_le ⟨l, hl⟩) hx fun s hs hxs => ?_
  -- what dominates the closest strict dominator of `y` strictly dominates `y`
  exact hnot (.trans_left hxs (hg.idom?_eq_some.mp hs).2.1 (hl.step hedge))

/-- The way up the dominator tree meets dominators only, and only such that the place where it stops
strictly dominates them. -/
lemma dominates_of_mem_climb {fuel n : Nat} (hn : g.Visited n)
    (hstop : ∀ s, stop = some s → Dominates g.Edge g.entry s n)
    (hx : x ∈ g.dominators.climb stop fuel n) :
    Dominates g.Edge g.entry x n ∧
      ∀ s, stop = some s → StrictlyDominates g.Edge g.entry s x := by
  induction fuel generalizing n with
  | zero => cases hx
  | succ fuel ih =>
    rw [Dominators.climb] at hx
    split at hx
    · cases hx
    · next hne =>
      have hstrict (s : Nat) (hs : stop = some s) : StrictlyDominates g.Edge g.entry s n :=
        ⟨hstop s hs, fun heq => hne (heq ▸ hs.symm)⟩
      rcases mem_cons.mp hx with rfl | hx
      · exact ⟨.refl x, hstrict⟩
      · cases hidom : g.dominators.idom? n with
        | none => grind
        | some p =>
          rw [hidom] at hx
          obtain ⟨-, hp⟩ := hg.idom?_eq_some.mp hidom
          obtain ⟨hxp, hsx⟩ := ih (hp.1.1.exists_trail hn) (fun s hs => hp.2 s (hstrict s hs)) hx
          exact ⟨hxp.trans hp.1.1, hsx⟩

lemma inFrontier_of_mem_frontiers (h : y ∈ (g.frontiers g.dominators).getD x []) :
    InFrontier g.Edge g.entry x y := by
  obtain ⟨-, hylt, howner⟩ := mem_getD_frontiers.mp h
  obtain ⟨⟨hy, -⟩, -, p, hp, hpreach, hx⟩ := contains_frontierOwners.mp howner
  have hvisited := hg.isReachable_iff.mp hpreach
  have hedge : g.Edge p y := (hg.mem_predecessors p y hylt).mp hp
  have hstop (s : Nat) (hs : g.dominators.idom? y = some s) : Dominates g.Edge g.entry s p := by
    obtain ⟨hdom, hne⟩ := (hg.idom?_eq_some.mp hs).2.1
    exact hdom.of_edge hne hedge
  obtain ⟨hxp, hsx⟩ := hg.dominates_of_mem_climb hvisited hstop hx
  refine ⟨p, hedge, hvisited, hxp, fun hstrict => ?_⟩
  obtain ⟨l, hl⟩ := hg.isReachable_iff.mp hy
  have hroot : y ≠ g.entry := by
    rintro rfl
    exact hstrict.2 (mem_singleton.mp (hstrict.1 [] .root))
  obtain ⟨d, hd⟩ := ImmediatelyDominates.exists_of_trail hl hroot
  obtain ⟨hdx, hne⟩ := hsx d (hg.idom?_eq_some.mpr ⟨⟨l, hl⟩, hd⟩)
  -- a strict dominator of `y` dominates the closest one, which the way up does not pass
  obtain ⟨m, hm⟩ := hxp.exists_trail hvisited
  exact hne (hdx.antisymm (hd.2 x hstrict) hm)

lemma mem_frontiers_iff (hy : y ≠ g.entry ∨ g.IsJoin y) :
    y ∈ (g.frontiers g.dominators).getD x [] ↔ InFrontier g.Edge g.entry x y :=
  ⟨hg.inFrontier_of_mem_frontiers, fun h =>
    hg.mem_frontiers h (hy.elim (hg.isJoin_of_inFrontier h) id)⟩

lemma visited_of_mem_frontiers (h : y ∈ (g.frontiers g.dominators).getD x []) :
    g.Visited y ∧ ∃ p, g.Edge p y := by
  obtain ⟨-, hylt, howner⟩ := mem_getD_frontiers.mp h
  obtain ⟨⟨hreach, -⟩, -, p, hp, -⟩ := contains_frontierOwners.mp howner
  exact ⟨hg.isReachable_iff.mp hreach, p, (hg.mem_predecessors p y hylt).mp hp⟩

end Coherent

/-! ## Iterated frontiers -/

section Iterated

variable {frontiers : Array (List Nat)}

/-- `result` holds what was found before, the frontiers of the waiting nodes and the frontiers of its
new members, and it is the least such set. -/
structure Closes (frontiers : Array (List Nat)) (waiting : List Nat) (found result : BitSet) :
    Prop where
  old : ∀ y, found.contains y → result.contains y
  frontier : ∀ n ∈ waiting, ∀ y ∈ frontiers.getD n [], result.contains y
  members : ∀ n, result.contains n → found.contains n = false →
    ∀ y ∈ frontiers.getD n [], result.contains y
  least : ∀ upper : Nat → Prop, (∀ y, found.contains y → upper y) →
    (∀ n, n ∈ waiting ∨ upper n → ∀ y ∈ frontiers.getD n [], upper y) →
    ∀ y, result.contains y → upper y

lemma Closes.nil (frontiers : Array (List Nat)) (found : BitSet) :
    Closes frontiers [] found found := by
  refine ⟨fun _ h => h, nofun, fun n hn hnot => ?_,
    fun _ hfound _ => hfound⟩
  rw [hn] at hnot
  exact absurd hnot (by simp)

lemma Closes.step {n : Nat} {waiting : List Nat} {found result : BitSet}
    (hrange : ∀ y ∈ frontiers.getD n [], y < found.capacity)
    (h : Closes frontiers (((frontiers.getD n []).filter fun y => !found.contains y) ++ waiting)
      (((frontiers.getD n []).filter fun y => !found.contains y).foldl BitSet.insert found) result) :
    Closes frontiers (n :: waiting) found result := by
  have hold (y : Nat) : (((frontiers.getD n []).filter fun y => !found.contains y).foldl
      BitSet.insert found).contains y ↔
        found.contains y ∨ y ∈ frontiers.getD n [] := by
    rw [BitSet.contains_foldl_insert, Bool.or_eq_true, decide_eq_true_eq, mem_filter]
    constructor
    · rintro (hy | ⟨⟨hy, -⟩, -⟩)
      · exact Or.inl hy
      · exact Or.inr hy
    · rintro (hy | hy)
      · exact Or.inl hy
      · by_cases hfound : found.contains y
        · exact Or.inl hfound
        · exact Or.inr ⟨⟨hy, by simpa using hfound⟩, hrange y hy⟩
  refine ⟨fun y hy => h.old y ((hold y).mpr (Or.inl hy)), fun m hm y hy => ?_,
    fun m hm hnot y hy => ?_, fun upper hfound hclosed => h.least upper (fun y hy => ?_) ?_⟩
  · rcases mem_cons.mp hm with rfl | hm
    · exact h.old y ((hold y).mpr (Or.inr hy))
    · exact h.frontier m (mem_append_right _ hm) y hy
  · by_cases hfresh : m ∈ frontiers.getD n []
    · refine h.frontier m (mem_append_left _ (mem_filter.mpr ⟨hfresh, ?_⟩)) y hy
      simpa using hnot
    · refine h.members m hm ?_ y hy
      rw [← Bool.not_eq_true, hold]
      rintro (hfound | hmem)
      · rw [hfound] at hnot
        exact absurd hnot (by simp)
      · exact hfresh hmem
  · exact ((hold y).mp hy).elim (hfound y) (hclosed n (.inl (.head _)) y)
  · rintro m (hm | hm)
    · rcases mem_append.mp hm with hm | hm
      · have hm := hclosed n (.inl (.head _)) m (mem_filter.mp hm).1
        exact hclosed m (.inr hm)
      · exact hclosed m (.inl (.tail n hm))
    · exact hclosed m (.inr hm)

/-- Each node waits at most once after it has been found, so the loop does not stop too early. -/
lemma closes_closeFrontier (hnd : ∀ n, (frontiers.getD n []).Nodup)
    (hrange : ∀ n, ∀ y ∈ frontiers.getD n [], y < frontiers.size) (fuel : Nat) (waiting : List Nat)
    (found : BitSet) (hcap : found.capacity = frontiers.size)
    (hfuel : waiting.length + frontiers.size ≤ fuel + found.count) :
    Closes frontiers waiting found (closeFrontier frontiers fuel waiting found) ∧
      ∀ more, closeFrontier frontiers (fuel + more) waiting found =
        closeFrontier frontiers fuel waiting found := by
  induction fuel generalizing waiting found with
  | zero =>
    have hcnt := found.count_le_capacity
    obtain rfl : waiting = [] := eq_nil_of_length_eq_zero (by omega)
    exact ⟨.nil frontiers found, fun more => by cases more <;> simp [closeFrontier]⟩
  | succ fuel ih =>
    cases waiting with
    | nil => exact ⟨.nil frontiers found, fun more => by simp [Nat.succ_add, closeFrontier]⟩
    | cons n waiting =>
      have hlt : ∀ y ∈ frontiers.getD n [], y < found.capacity := fun y hy =>
        hcap ▸ hrange n y hy
      have hcnt := BitSet.count_foldl_insert
        ((hnd n).filter fun y => !found.contains y) fun y hy => by
          obtain ⟨hmem, hnew⟩ := mem_filter.mp hy
          exact ⟨hlt y hmem, by simpa using hnew⟩
      have hrest := ih (((frontiers.getD n []).filter fun y => !found.contains y) ++ waiting)
        (((frontiers.getD n []).filter fun y => !found.contains y).foldl BitSet.insert found)
        (by rw [BitSet.capacity_foldl_insert, hcap]) (by
          rw [length_append]
          rw [length_cons] at hfuel
          omega)
      refine ⟨hrest.1.step hlt, fun more => ?_⟩
      rw [Nat.succ_add]
      exact hrest.2 more

variable (hnd : ∀ n, (frontiers.getD n []).Nodup)
  (hrange : ∀ n, ∀ y ∈ frontiers.getD n [], y < frontiers.size) (defs : List Nat)

include hnd hrange

lemma closes_iteratedFrontier :
    Closes frontiers defs (.empty frontiers.size) (iteratedFrontier frontiers defs) ∧
      ∀ more, closeFrontier frontiers (defs.length + frontiers.size + more) defs
        (.empty frontiers.size) = iteratedFrontier frontiers defs :=
  closes_closeFrontier hnd hrange (defs.length + frontiers.size) defs (.empty frontiers.size) rfl
    (by rw [BitSet.count_empty]; rfl)

/-- The iterated frontier holds the frontiers of the given nodes and of its own members. -/
lemma mem_iteratedFrontier {n y : Nat}
    (hn : n ∈ defs ∨ (iteratedFrontier frontiers defs).contains n)
    (hy : y ∈ frontiers.getD n []) : (iteratedFrontier frontiers defs).contains y := by
  obtain ⟨hcloses, -⟩ := closes_iteratedFrontier hnd hrange defs
  rcases hn with hn | hn
  · exact hcloses.frontier n hn y hy
  · exact hcloses.members n hn (BitSet.contains_empty _ n) y hy

/-- The iterated frontier has no other members than a set that holds these frontiers. -/
lemma iteratedFrontier_least (upper : Nat → Prop)
    (hupper : ∀ n, n ∈ defs ∨ upper n → ∀ y ∈ frontiers.getD n [], upper y) {y : Nat}
    (hy : (iteratedFrontier frontiers defs).contains y) : upper y := by
  obtain ⟨hcloses, -⟩ := closes_iteratedFrontier hnd hrange defs
  exact hcloses.least upper (by simp) hupper y hy

end Iterated

end MiddleEnd.Graph
