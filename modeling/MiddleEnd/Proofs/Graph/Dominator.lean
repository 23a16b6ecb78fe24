import Mathlib.Algebra.Order.BigOperators.Group.Finset
import MiddleEnd.Graph.Dominator
import MiddleEnd.Proofs.Graph.Path
import MiddleEnd.Proofs.Graph.Traversal

/-!
# The computed dominators

The sweeps start from sets that are too large.  An update makes a set smaller, because the sets stay
above the meet of their predecessors, and never takes a real dominator away.  Since the sets can
shrink only so often the sweeps settle, and in settled sets each member of a set is on every path to
its node.

The dominators of a node other than the entry are those of its closest strict dominator and the
node itself, so the closest one is found by counting.
-/

namespace MiddleEnd.Graph

open List Dominators Nat Option

variable {n x : Nat} {g : Graph} {sets : Array BitSet} {nodes : List Nat}

/-- The two lists of a graph name the same edges, and the entry is a node. -/
structure Coherent (g : Graph) : Prop where
  closed : g.Closed
  mem_predecessors : ∀ s t, t < g.size → (s ∈ g.predecessors t ↔ t ∈ g.successors s)
  entry : g.entry < g.size

def Edge (g : Graph) (s t : Nat) : Prop :=
  t ∈ g.successors s

lemma Edge.lt_size {s t : Nat} (h : g.Edge s t) : s < g.size := by
  by_contra hs
  have hsize : g.succs.size ≤ s := Nat.le_of_not_lt hs
  simp [Edge, successors, Array.getD_eq_getD_getElem?, hsize] at h

def member (sets : Array BitSet) (n x : Nat) : Prop :=
  (sets.getD n (.empty 0)).contains x

/-! ## One update -/

lemma contains_foldl_inter (ps : List Nat) (sets : Array BitSet) (s : BitSet) (x : Nat) :
    (ps.foldl (fun s p => s.inter (sets.getD p (.empty 0))) s).contains x ↔
      s.contains x ∧ ∀ p ∈ ps, member sets p x := by
  induction ps generalizing s with
  | nil => simp
  | cons p ps ih =>
    rw [foldl_cons, ih, BitSet.contains_inter, Bool.and_eq_true, forall_mem_cons, and_assoc]
    rfl

lemma capacity_foldl_inter (ps : List Nat) (sets : Array BitSet) (s : BitSet) :
    (ps.foldl (fun s p => s.inter (sets.getD p (.empty 0))) s).capacity = s.capacity :=
  foldlRecOn (motive := fun t : BitSet => t.capacity = _) ps _ rfl fun _ h _ _ => h

lemma contains_meet (sets : Array BitSet) :
    (g.meet sets n).contains x ↔
      x < g.size ∧ (x = n ∨ ∀ p ∈ g.predecessors n, member sets p x) := by
  rw [meet, BitSet.contains_insert, Bool.or_eq_true, contains_foldl_inter, BitSet.contains_full,
    capacity_foldl_inter]
  have hcap : (BitSet.full g.size).capacity = g.size := rfl
  constructor
  · grind
  · grind

lemma capacity_meet (sets : Array BitSet) (n : Nat) : (g.meet sets n).capacity = g.size := by
  rw [meet, BitSet.capacity_insert, capacity_foldl_inter]
  rfl

structure Sized (g : Graph) (sets : Array BitSet) : Prop where
  size : sets.size = g.size
  capacity : ∀ n < g.size, (sets.getD n (.empty 0)).capacity = g.size

lemma getD_update (sets : Array BitSet) (n m : Nat) (s : BitSet) :
    (sets.setIfInBounds n s).getD m (.empty 0) =
      if m = n ∧ n < sets.size then s else sets.getD m (.empty 0) := by
  simp only [Array.getD_eq_getD_getElem?, Array.getElem?_setIfInBounds]
  by_cases hmn : n = m
  · grind
  · grind

lemma Sized.member_update (hsets : g.Sized sets) (hn : n < g.size) {m : Nat} :
    member (sets.setIfInBounds n (g.meet sets n)) m x ↔
      if m = n then (g.meet sets n).contains x = true else member sets m x := by
  rw [member, getD_update, hsets.size]
  by_cases hm : m = n
  · simp [hm, hn]
  · simp [hm, member]

lemma Sized.update (hsets : g.Sized sets) (n : Nat) :
    g.Sized (sets.setIfInBounds n (g.meet sets n)) := by
  refine ⟨by rw [Array.size_setIfInBounds, hsets.size], fun m hm => ?_⟩
  rw [getD_update]
  split
  · exact capacity_meet sets n
  · exact hsets.capacity m hm

lemma Sized.ext {s t : Array BitSet} (hs : g.Sized s) (ht : g.Sized t)
    (h : ∀ n x, member s n x ↔ member t n x) : s = t := by
  refine Array.ext (hs.size.trans ht.size.symm) fun n hn hn' => ?_
  have hsize : n < g.size := hs.size ▸ hn
  have hget : s.getD n (.empty 0) = t.getD n (.empty 0) := by
    refine BitSet.ext ((hs.capacity n hsize).trans (ht.capacity n hsize).symm) fun x => ?_
    exact Bool.eq_iff_iff.mpr (h n x)
  simpa [hn, hn'] using hget

/-! ## Sweeps -/

/-- The sets between two updates: they hold all real dominators, the set of each of `nodes` is above
the meet of its predecessors, and the entry has only itself. -/
structure Above (g : Graph) (nodes : List Nat) (sets : Array BitSet) : Prop where
  sized : g.Sized sets
  dominators : ∀ n < g.size, ∀ x < g.size, Dominates g.Edge g.entry x n → member sets n x
  meet : ∀ n ∈ nodes, ∀ x, (g.meet sets n).contains x → member sets n x
  entry : ∀ x, member sets g.entry x → x = g.entry

/-- Each set of the first array is included in that of the second. -/
def Below (s t : Array BitSet) : Prop :=
  ∀ n x, member s n x → member t n x

lemma Below.refl (s : Array BitSet) : Below s s :=
  fun _ _ h => h

lemma Below.trans {s t u : Array BitSet} (hst : Below s t) (htu : Below t u) : Below s u :=
  fun n x h => htu n x (hst n x h)

lemma contains_meet_mono {s t : Array BitSet} (hst : Below s t)
    (h : (g.meet s n).contains x) : (g.meet t n).contains x := by
  rw [contains_meet] at h ⊢
  exact ⟨h.1, h.2.imp_right fun hall p hp => hst p x (hall p hp)⟩

section Sweeps

variable {nodes : List Nat} {sets : Array BitSet}

lemma Above.below_update (h : g.Above nodes sets) (hn : n ∈ nodes)
    (hlt : n < g.size) : Below (sets.setIfInBounds n (g.meet sets n)) sets := by
  intro m x hx
  rw [h.sized.member_update hlt] at hx
  split at hx
  · next hm => exact hm ▸ h.meet n hn x hx
  · exact hx

section

variable (hg : g.Coherent) (h : g.Above nodes sets) {ns : List Nat}
include hg h

lemma Above.update (hn : n ∈ nodes) (hlt : n < g.size) (hent : n ≠ g.entry) :
    g.Above nodes (sets.setIfInBounds n (g.meet sets n)) where
  sized := h.sized.update n
  dominators m hm x hx hdom := by
    rw [h.sized.member_update hlt]
    split
    · next hmn =>
      subst hmn
      rw [contains_meet]
      refine ⟨hx, or_iff_not_imp_left.mpr fun hne p hp => ?_⟩
      have hedge : g.Edge p m := (hg.mem_predecessors p m hlt).mp hp
      exact h.dominators p hedge.lt_size x hx (hdom.of_edge hne hedge)
    · exact h.dominators m hm x hx hdom
  meet m hm x hx := by
    have hbelow := h.below_update hn hlt
    rw [h.sized.member_update hlt]
    split
    · next hmn => exact hmn ▸ contains_meet_mono hbelow hx
    · exact h.meet m hm x (contains_meet_mono hbelow hx)
  entry x hx := h.entry x (h.below_update hn hlt _ x hx)

lemma Above.sweep (hns : ∀ n ∈ ns, n ∈ nodes ∧ n < g.size ∧ n ≠ g.entry) :
    g.Above nodes (g.sweep ns sets) ∧ Below (g.sweep ns sets) sets := by
  induction ns generalizing sets with
  | nil => exact ⟨h, .refl sets⟩
  | cons n ns ih =>
    obtain ⟨hn, hlt, hent⟩ := hns n (.head _)
    obtain ⟨habove, hbelow⟩ := ih (h.update hg hn hlt hent) fun m hm => hns m (.tail n hm)
    exact ⟨habove, hbelow.trans (h.below_update hn hlt)⟩

lemma Above.meet_of_sweep_eq
    (hns : ∀ n ∈ ns, n ∈ nodes ∧ n < g.size ∧ n ≠ g.entry) (heq : g.sweep ns sets = sets) :
    ∀ n ∈ ns, ∀ x, member sets n x → (g.meet sets n).contains x := by
  induction ns with
  | nil => exact nofun
  | cons n ns ih =>
    obtain ⟨hn, hlt, hent⟩ := hns n (.head _)
    have hrest : ∀ m ∈ ns, m ∈ nodes ∧ m < g.size ∧ m ≠ g.entry := fun m hm => hns m (.tail n hm)
    have hbelow := ((h.update hg hn hlt hent).sweep hg hrest).2
    change Below (g.sweep (n :: ns) sets) _ at hbelow
    rw [heq] at hbelow
    have hsame := (h.sized.update n).ext h.sized fun m x => ⟨h.below_update hn hlt m x, hbelow m x⟩
    intro m hm x hx
    rcases mem_cons.mp hm with rfl | hm
    · rw [← hsame, h.sized.member_update hlt, if_pos rfl] at hx
      exact hx
    · refine ih hrest ?_ m hm x hx
      change g.sweep ns (sets.setIfInBounds n (g.meet sets n)) = sets at heq
      rwa [hsame] at heq

end

/-! ## Settling -/

def total (g : Graph) (sets : Array BitSet) : Nat :=
  ∑ n ∈ Finset.range g.size, (sets.getD n (.empty 0)).count

lemma count_lt_count {s t : BitSet} (h : ∀ x, s.contains x → t.contains x)
    (hcap : s.capacity = t.capacity) (hs : s.contains x = false)
    (ht : t.contains x) : s.count < t.count := by
  have hx : x < s.capacity := hcap ▸ BitSet.lt_of_contains ht
  calc s.count < s.count + 1 := lt_succ_self _
    _ = (s.insert x).count := (BitSet.count_insert hx hs).symm
    _ ≤ t.count := BitSet.count_le_count fun y hy => by
      rw [BitSet.contains_insert, Bool.or_eq_true, decide_eq_true_eq] at hy
      rcases hy with hy | ⟨rfl, -⟩
      · exact h y hy
      · exact ht

lemma Sized.total_lt {s t : Array BitSet} (hs : g.Sized s) (ht : g.Sized t) (hst : Below s t)
    (hne : s ≠ t) : g.total s < g.total t := by
  obtain ⟨n, x, hns, hnt⟩ : ∃ n x, ¬ member s n x ∧ member t n x := by
    by_contra hnone
    push Not at hnone
    exact hne (hs.ext ht fun n x => ⟨hst n x, fun h => by_contra fun hn => hnone n x hn h⟩)
  have hn : n < g.size := by
    by_contra hn
    have hsize : t.size ≤ n := ht.size ▸ Nat.le_of_not_lt hn
    simp [member, Array.getD_eq_getD_getElem?, hsize] at hnt
  refine Finset.sum_lt_sum (fun m _ => BitSet.count_le_count (hst m)) ⟨n, by simpa using hn, ?_⟩
  refine count_lt_count (hst n) ((hs.capacity n hn).trans (ht.capacity n hn).symm) ?_ hnt
  simpa [member] using hns

lemma Sized.total_le (hsets : g.Sized sets) : g.total sets ≤ g.size * g.size := by
  calc g.total sets ≤ ∑ _n ∈ Finset.range g.size, g.size := by
        refine Finset.sum_le_sum fun n hn => ?_
        rw [← hsets.capacity n (Finset.mem_range.mp hn)]
        exact BitSet.count_le_capacity _
    _ = g.size * g.size := by simp

lemma Above.settle (hg : g.Coherent) (hnodes : ∀ n ∈ nodes, n < g.size ∧ n ≠ g.entry) {fuel : Nat}
    (hfuel : g.total sets < fuel) (h : g.Above nodes sets) :
    g.Above nodes (g.settle nodes fuel sets).2 ∧
      g.sweep nodes (g.settle nodes fuel sets).2 = (g.settle nodes fuel sets).2 := by
  induction fuel generalizing sets with
  | zero => exact absurd hfuel (not_lt_zero _)
  | succ fuel ih =>
    unfold Graph.settle
    dsimp only
    split
    · next hfixed => exact ⟨h, hfixed⟩
    · next hne =>
      obtain ⟨habove, hbelow⟩ := h.sweep hg fun n hn => ⟨hn, hnodes n hn⟩
      have hlt := habove.sized.total_lt h.sized hbelow hne
      exact ih (by omega) habove

end Sweeps

/-! ## The result -/

lemma above_initialSets (hg : g.Coherent)
    (hnodes : ∀ n ∈ nodes, n < g.size ∧ n ≠ g.entry) : g.Above nodes g.initialSets := by
  have hsize : (Array.replicate g.size (BitSet.full g.size)).size = g.size := by simp
  have hget (n : Nat) (hn : n < g.size) : g.initialSets.getD n (.empty 0) =
      if n = g.entry then (BitSet.empty g.size).insert g.entry else BitSet.full g.size := by
    rw [initialSets, getD_update, hsize]
    by_cases hent : n = g.entry
    · rw [if_pos ⟨hent, hg.entry⟩, if_pos hent]
    · simp_all
  have hmember (n : Nat) (hn : n < g.size) (x : Nat) : member g.initialSets n x ↔
      if n = g.entry then x = g.entry else x < g.size := by
    rw [member, hget n hn]
    split
    · have hcap : (BitSet.empty g.size).capacity = g.size := rfl
      simp [hcap, hg.entry]
    · simp
  refine ⟨⟨by simp [initialSets], fun n hn => ?_⟩, fun n hn x hx hdom => ?_, fun n hn x hx => ?_,
    fun x hx => ?_⟩
  · rw [hget n hn]
    split
    · rfl
    · rfl
  · rw [hmember n hn]
    split
    · next heq =>
      subst heq
      exact mem_singleton.mp (hdom [] .root)
    · exact hx
  · obtain ⟨hlt, hne⟩ := hnodes n hn
    rw [hmember n hlt, if_neg hne]
    exact (contains_meet _).mp hx |>.1
  · rwa [hmember _ hg.entry, if_pos rfl] at hx

def Visited (g : Graph) (n : Nat) : Prop :=
  ∃ l, Trail g.Edge g.entry (n :: l)

lemma visited_iff : g.Visited n ↔ g.Reaches g.entry n :=
  Trail.exists_iff

lemma Coherent.lt_of_visited (hg : g.Coherent) (hn : g.Visited n) : n < g.size :=
  hg.closed.lt_of_reaches hg.entry (visited_iff.mp hn)

lemma Above.dominates_of_member (hg : g.Coherent)
    (h : g.Above nodes sets) (hnodes : ∀ n, g.Visited n → n = g.entry ∨ n ∈ nodes)
    (hmeet : ∀ n ∈ nodes, ∀ x, member sets n x → (g.meet sets n).contains x)
    (hx : member sets n x) : Dominates g.Edge g.entry x n := by
  intro l hl
  generalize hm : n :: l = m at hl
  induction hl generalizing n l with
  | root =>
    obtain ⟨rfl, -⟩ := List.cons.inj hm
    exact mem_singleton.mpr (h.entry x hx)
  | @step a b l' htrail hedge ih =>
    obtain ⟨rfl, -⟩ := List.cons.inj hm
    rcases hnodes n ⟨_, htrail.step hedge⟩ with rfl | hn
    · exact mem_cons.mpr (Or.inl (h.entry x hx))
    · have hlt := hg.lt_of_visited ⟨_, htrail.step hedge⟩
      rcases ((contains_meet sets).mp (hmeet n hn x hx)).2 with rfl | hall
      · exact .head _
      · have hpred := hall a ((hg.mem_predecessors a n hlt).mpr hedge)
        exact .tail _ (ih hpred _ rfl)

def settled (g : Graph) : Array BitSet :=
  (g.settle (g.reversePostorder g.entry).tail (g.size * g.size + 1) g.initialSets).2

/-- The settled sets, emptied for the nodes that are not visited. -/
def finalSets (g : Graph) : Array BitSet :=
  g.settled.mapIdx fun n s => if n ∈ g.reversePostorder g.entry then s else s.clear

def domCount (g : Graph) (n : Nat) : Nat :=
  (g.finalSets.getD n (.empty 0)).count

namespace Coherent

variable {n p x : Nat}

variable (hg : g.Coherent)

include hg

lemma order_dominators : g.dominators.order = g.reversePostorder g.entry := by
  rw [Graph.dominators, if_neg (not_le.mpr hg.entry)]

lemma sets_dominators : g.dominators.sets = g.finalSets := by
  rw [Graph.dominators, if_neg (not_le.mpr hg.entry)]
  rfl

lemma idoms_dominators : g.dominators.idoms = (Array.range g.size).map fun n =>
    if n ∈ (g.reversePostorder g.entry).tail then
      closest g.finalSets (g.finalSets.map BitSet.count) n
    else none := by
  rw [Graph.dominators, if_neg (not_le.mpr hg.entry)]
  rfl

lemma mem_order : n ∈ g.reversePostorder g.entry ↔ g.Visited n := by
  obtain ⟨rest, horder, -, hmem⟩ := hg.closed.reversePostorder_eq hg.entry
  rw [horder, hmem, visited_iff]

lemma mem_order_tail : n ∈ (g.reversePostorder g.entry).tail ↔ g.Visited n ∧ n ≠ g.entry := by
  obtain ⟨rest, horder, hnd, hmem⟩ := hg.closed.reversePostorder_eq hg.entry
  rw [horder, visited_iff, ← hmem, mem_cons]
  have hent := (nodup_cons.mp hnd).1
  constructor
  · exact fun hn => ⟨Or.inr hn, fun heq => hent (heq ▸ hn)⟩
  · grind

lemma above_settled : g.Above (g.reversePostorder g.entry).tail g.settled ∧
    g.sweep (g.reversePostorder g.entry).tail g.settled = g.settled := by
  have hnodes : ∀ n ∈ (g.reversePostorder g.entry).tail, n < g.size ∧ n ≠ g.entry := fun n hn =>
    ⟨hg.lt_of_visited (hg.mem_order_tail.mp hn).1, (hg.mem_order_tail.mp hn).2⟩
  have hini := above_initialSets hg hnodes
  exact hini.settle hg hnodes (lt_succ_of_le hini.sized.total_le)

lemma member_settled (hn : g.Visited n) :
    member g.settled n x ↔ Dominates g.Edge g.entry x n := by
  obtain ⟨habove, hfixed⟩ := hg.above_settled
  have hnodes : ∀ n ∈ (g.reversePostorder g.entry).tail, n ∈ (g.reversePostorder g.entry).tail ∧
      n < g.size ∧ n ≠ g.entry := fun n hn =>
    ⟨hn, hg.lt_of_visited (hg.mem_order_tail.mp hn).1, (hg.mem_order_tail.mp hn).2⟩
  have hvisited (m : Nat) (hm : g.Visited m) :
      m = g.entry ∨ m ∈ (g.reversePostorder g.entry).tail := by
    rw [hg.mem_order_tail]
    exact or_iff_not_imp_left.mpr fun hne => ⟨hm, hne⟩
  constructor
  · exact habove.dominates_of_member hg hvisited (habove.meet_of_sweep_eq hg hnodes hfixed)
  · intro hdom
    have hx : g.Visited x := hdom.exists_trail hn
    exact habove.dominators n (hg.lt_of_visited hn) x (hg.lt_of_visited hx) hdom

lemma sized_finalSets : g.Sized g.finalSets := by
  have hsized := hg.above_settled.1.sized
  have hsize : g.finalSets.size = g.size := by rw [finalSets, Array.size_mapIdx, hsized.size]
  refine ⟨hsize, fun n hn => ?_⟩
  have hcap := hsized.capacity n hn
  have hn' : n < g.settled.size := hsized.size.symm ▸ hn
  simp only [finalSets, Array.getD_eq_getD_getElem?, Array.getElem?_mapIdx] at hcap ⊢
  simp only [hn', Array.getElem?_eq_getElem, map_some, getD_some] at hcap ⊢
  split
  · exact hcap
  · exact hcap

lemma member_finalSets : member g.finalSets n x ↔ g.Visited n ∧ Dominates g.Edge g.entry x n := by
  by_cases hn : g.Visited n
  · have hmem := hg.mem_order.mpr hn
    have hsame : g.finalSets.getD n (.empty 0) = g.settled.getD n (.empty 0) := by
      simp only [finalSets, Array.getD_eq_getD_getElem?, Array.getElem?_mapIdx, hmem, if_true]
      cases g.settled[n]? <;> rfl
    rw [and_iff_right hn, member, hsame]
    exact hg.member_settled hn
  · have hnot : n ∉ g.reversePostorder g.entry := fun h => hn (hg.mem_order.mp h)
    have hnone : ¬ member g.finalSets n x := by
      simp only [member, finalSets, Array.getD_eq_getD_getElem?, Array.getElem?_mapIdx, hnot,
        if_false]
      cases g.settled[n]? <;> simp [BitSet.clear]
    exact iff_of_false hnone fun h => hn h.1

lemma dominates_iff :
    g.dominators.dominates x n ↔ g.Visited n ∧ Dominates g.Edge g.entry x n := by
  rw [Dominators.dominates, Dominators.set, hg.sets_dominators]
  exact hg.member_finalSets

lemma isReachable_iff : g.dominators.isReachable n ↔ g.Visited n := by
  rw [isReachable, Bool.not_eq_true', BitSet.isEmpty_eq_false_iff]
  constructor
  · rintro ⟨x, hx⟩
    exact (hg.dominates_iff.mp hx).1
  · exact fun hn => ⟨n, hg.dominates_iff.mpr ⟨hn, .refl n⟩⟩

/-! ## Closest strict dominators -/

lemma domCount_pos (hn : g.Visited n) : 0 < g.domCount n := by
  have hmem := BitSet.mem_toList.mpr (hg.member_finalSets.mpr ⟨hn, .refl n⟩)
  exact (length_pos_of_mem hmem).trans_eq (BitSet.count_eq_length _).symm

lemma domCount_le (hn : g.Visited n) : g.domCount n ≤ g.size := by
  have hcap := hg.sized_finalSets.capacity n (hg.lt_of_visited hn)
  exact hcap ▸ BitSet.count_le_capacity _

lemma domCount_eq (hn : g.Visited n) (hp : ImmediatelyDominates g.Edge g.entry p n) :
    g.domCount n = g.domCount p + 1 := by
  obtain ⟨l, hl⟩ := hn
  have hvisited : g.Visited p := hp.1.1.exists_trail ⟨l, hl⟩
  have hlt := hg.lt_of_visited ⟨l, hl⟩
  have hcap := hg.sized_finalSets.capacity p (hg.lt_of_visited hvisited)
  have hnew : (g.finalSets.getD p (.empty 0)).contains n = false := by
    rw [← Bool.not_eq_true]
    intro hmem
    have hnp := (hg.member_finalSets.mp hmem).2
    exact hp.1.2 (hp.1.1.antisymm hnp hl)
  have hinsert : g.finalSets.getD n (.empty 0) = (g.finalSets.getD p (.empty 0)).insert n := by
    refine BitSet.ext ?_ fun x => ?_
    · rw [BitSet.capacity_insert, hcap, hg.sized_finalSets.capacity n hlt]
    rw [Bool.eq_iff_iff, BitSet.contains_insert, Bool.or_eq_true, decide_eq_true_eq, hcap,
      and_iff_left hlt]
    have hxn := hg.member_finalSets (n := n) (x := x)
    have hxp := hg.member_finalSets (n := p) (x := x)
    rw [member] at hxn hxp
    rw [hxn, hxp]
    constructor
    · rintro ⟨-, hdom⟩
      exact or_iff_not_imp_right.mpr fun hne => ⟨hvisited, hp.2 x ⟨hdom, hne⟩⟩
    · rintro (⟨-, hdom⟩ | rfl)
      · exact ⟨⟨l, hl⟩, hdom.trans hp.1.1⟩
      · exact ⟨⟨l, hl⟩, .refl x⟩
  have hroom : n < (g.finalSets.getD p (.empty 0)).capacity := by
    rw [hcap]
    exact hlt
  rw [domCount, hinsert, BitSet.count_insert hroom hnew, domCount]

lemma domCount_lt (hn : g.Visited n) (hx : StrictlyDominates g.Edge g.entry x n) :
    g.domCount x < g.domCount n := by
  obtain ⟨l, hl⟩ := hn
  have hvisited : g.Visited x := hx.1.exists_trail ⟨l, hl⟩
  refine count_lt_count (x := n) (fun y hy => ?_) ?_ ?_ ?_
  · have hdom := (hg.member_finalSets.mp hy).2
    exact hg.member_finalSets.mpr ⟨⟨l, hl⟩, hdom.trans hx.1⟩
  · rw [hg.sized_finalSets.capacity x (hg.lt_of_visited hvisited),
      hg.sized_finalSets.capacity n (hg.lt_of_visited ⟨l, hl⟩)]
  · rw [← Bool.not_eq_true]
    intro hmem
    exact hx.2 (hx.1.antisymm (hg.member_finalSets.mp hmem).2 hl)
  · exact hg.member_finalSets.mpr ⟨⟨l, hl⟩, .refl n⟩

lemma closest_eq_some (hn : g.Visited n) (hent : n ≠ g.entry) :
    closest g.finalSets (g.finalSets.map BitSet.count) n = some p ↔
      ImmediatelyDominates g.Edge g.entry p n := by
  obtain ⟨l, hl⟩ := hn
  have hcnt (m : Nat) : (g.finalSets.map BitSet.count).getD m 0 = g.domCount m := by
    simp only [domCount, Array.getD_eq_getD_getElem?, Array.getElem?_map]
    cases g.finalSets[m]? <;> simp
  obtain ⟨q, hq⟩ := ImmediatelyDominates.exists_of_trail hl hent
  -- no other strict dominator has the same number of dominators
  have hunique (x : Nat) (hx : StrictlyDominates g.Edge g.entry x n)
      (hsucc : g.domCount x + 1 = g.domCount n) : x = q := by
    by_contra hne
    have hlt := hg.domCount_lt (hq.1.1.exists_trail ⟨l, hl⟩) ⟨hq.2 x hx, hne⟩
    have heq := hg.domCount_eq ⟨l, hl⟩ hq
    omega
  have hmember (x : Nat) : x ∈ (g.finalSets.getD n (.empty 0)).toList ↔
      Dominates g.Edge g.entry x n := by
    rw [BitSet.mem_toList]
    exact hg.member_finalSets.trans (and_iff_right ⟨l, hl⟩)
  have hfind : closest g.finalSets (g.finalSets.map BitSet.count) n = some q := by
    unfold closest
    simp only [hcnt]
    generalize (g.finalSets.getD n (.empty 0)).toList = members at hmember
    have hsome : (members.find? fun d =>
        decide (d ≠ n) && decide (g.domCount d + 1 = g.domCount n)).isSome := by
      refine List.find?_isSome.mpr ⟨q, (hmember q).mpr hq.1.1, ?_⟩
      simp [hq.1.2, hg.domCount_eq ⟨l, hl⟩ hq]
    obtain ⟨x, hx⟩ := isSome_iff_exists.mp hsome
    obtain ⟨hne, hsucc⟩ : x ≠ n ∧ g.domCount x + 1 = g.domCount n := by
      simpa using List.find?_some hx
    have hxn := (hmember x).mp (mem_of_find?_eq_some hx)
    rw [hx, hunique x ⟨hxn, hne⟩ hsucc]
  rw [hfind, some.injEq]
  constructor
  · rintro rfl
    exact hq
  · exact fun hp => hq.unique hp hl

lemma idom?_eq_some : g.dominators.idom? n = some p ↔
    g.Visited n ∧ ImmediatelyDominates g.Edge g.entry p n := by
  have hidom : g.dominators.idom? n = if n ∈ (g.reversePostorder g.entry).tail then
      closest g.finalSets (g.finalSets.map BitSet.count) n else none := by
    rw [idom?, hg.idoms_dominators, Array.getElem?_map, Array.getElem?_range]
    split
    · rfl
    · next hn =>
      refine (if_neg fun hmem => hn ?_).symm
      exact hg.lt_of_visited (hg.mem_order_tail.mp hmem).1
  rw [hidom]
  split
  · next hn =>
    obtain ⟨hvisited, hne⟩ := hg.mem_order_tail.mp hn
    rw [hg.closest_eq_some hvisited hne, and_iff_right hvisited]
  · next hn =>
    refine iff_of_false (by simp) ?_
    rintro ⟨hvisited, hp⟩
    refine hn (hg.mem_order_tail.mpr ⟨hvisited, ?_⟩)
    rintro rfl
    exact hp.1.2 (mem_singleton.mp (hp.1.1 [] .root))

lemma mem_children {c : Nat} : c ∈ g.dominators.children n ↔
    g.Visited c ∧ ImmediatelyDominates g.Edge g.entry n c := by
  rw [children, mem_filter, decide_eq_true_eq, hg.idom?_eq_some, hg.order_dominators, hg.mem_order]
  exact and_iff_right_of_imp fun h => h.1

lemma nodup_children (n : Nat) : (g.dominators.children n).Nodup := by
  obtain ⟨rest, horder, hnd, -⟩ := hg.closed.reversePostorder_eq hg.entry
  rw [children, hg.order_dominators, horder]
  exact hnd.filter _

end Coherent

end MiddleEnd.Graph
