import MiddleEnd.Proofs.Graph.Built
import MiddleEnd.Proofs.Graph.Component

/-!
# The order of strongly connected components

Along a path the position of the component never grows, since every edge leads to the same component
or to an earlier one.  So nodes that reach each other are in one component, and the components are the
classes of mutual reachability.  A node lies on a cycle if its component has another node or if it has
an edge to itself.
-/

namespace MiddleEnd.Graph

open List

variable {g : Graph} {components : List (List Nat)}

namespace Partition

variable {a b n : Nat}

variable (h : g.Partition components) {c : List Nat}

include h

lemma position_unique {i j : Fin components.length} (hi : n ∈ components.get i)
    (hj : n ∈ components.get j) : i = j := by
  have hdisj := (nodup_flatten.mp h.nodup).2
  rw [pairwise_iff_get] at hdisj
  rcases lt_trichotomy i j with hlt | heq | hgt
  · exact absurd hj (hdisj i j hlt hi)
  · exact heq
  · exact absurd hi (hdisj j i hgt hj)

lemma exists_position (hn : n < g.size) : ∃ i, n ∈ components.get i := by
  obtain ⟨c, hc, hmem⟩ := mem_flatten.mp ((h.mem_iff n).mpr hn)
  obtain ⟨i, rfl⟩ := mem_iff_get.mp hc
  exact ⟨i, hmem⟩

lemma position_le_of_edge {i j : Fin components.length} (ha : a ∈ components.get i)
    (hb : b ∈ components.get j) (hedge : g.Edge a b) : j ≤ i := by
  have hsplit : components = components.take i ++ components.get i :: components.drop (i + 1) := by
    rw [get_eq_getElem, getElem_cons_drop, take_append_drop]
  rcases h.ordered _ _ _ hsplit a ha b hedge with hbefore | hsame
  · obtain ⟨c, hc, hmem⟩ := mem_flatten.mp hbefore
    obtain ⟨k, hk, rfl⟩ := mem_take_iff_getElem.mp hc
    rw [h.position_unique hb hmem]
    exact Fin.mk_le_of_le_val (by omega)
  · exact (h.position_unique hb hsame).le

lemma position_le_of_reaches (hg : g.Closed) (hreach : g.Reaches a b)
    {i j : Fin components.length} (ha : a ∈ components.get i) (hb : b ∈ components.get j) :
    j ≤ i := by
  induction hreach generalizing j with
  | refl => exact (h.position_unique hb ha).le
  | @tail m b hm hedge ih =>
    have hlt : a < g.size := (h.mem_iff a).mp (mem_flatten.mpr ⟨_, get_mem components i, ha⟩)
    obtain ⟨k, hk⟩ := h.exists_position (hg.lt_of_reaches hlt hm)
    exact (h.position_le_of_edge hk hb hedge).trans (ih hk)

lemma exists_common_iff (hg : g.Closed) (ha : a < g.size) (hb : b < g.size) :
    (∃ c ∈ components, a ∈ c ∧ b ∈ c) ↔ g.Reaches a b ∧ g.Reaches b a := by
  constructor
  · rintro ⟨c, hc, hac, hbc⟩
    exact ⟨h.connected c hc a hac b hbc, h.connected c hc b hbc a hac⟩
  · rintro ⟨hab, hba⟩
    obtain ⟨i, hi⟩ := h.exists_position ha
    obtain ⟨j, hj⟩ := h.exists_position hb
    obtain rfl : i = j :=
      le_antisymm (h.position_le_of_reaches hg hba hj hi) (h.position_le_of_reaches hg hab hi hj)
    exact ⟨_, get_mem components i, hi, hj⟩

/-! ## Cycles -/

lemma exists_ne_of_length (hc : c ∈ components) (hlen : 1 < c.length) (n : Nat) :
    ∃ m ∈ c, m ≠ n := by
  by_contra hall
  push Not at hall
  have hnodup := (nodup_flatten.mp h.nodup).1 c hc
  rw [eq_replicate_of_mem hall, nodup_replicate] at hnodup
  omega

lemma transGen_of_isCyclic (hc : c ∈ components) (hn : n ∈ c)
    (hcyclic : g.isCyclic c n) : Relation.TransGen g.Edge n n := by
  rcases Bool.or_eq_true_iff.mp hcyclic with hlen | hedge
  · obtain ⟨m, hm, hne⟩ := h.exists_ne_of_length hc (of_decide_eq_true hlen) n
    have hto : g.Reaches n m := h.connected c hc n hn m hm
    rcases Relation.reflTransGen_iff_eq_or_transGen.mp hto with heq | hto
    · exact absurd heq hne
    · exact hto.trans_left (h.connected c hc m hm n hn)
  · exact .single (contains_iff_mem.mp hedge)

lemma isCyclic_of_transGen (hg : g.Closed) (hc : c ∈ components) (hn : n ∈ c)
    (hcycle : Relation.TransGen g.Edge n n) : g.isCyclic c n := by
  -- the first node after `n` is in the component of `n`
  obtain ⟨m, hedge, hback⟩ := Relation.TransGen.head'_iff.mp hcycle
  have hlt : n < g.size := (h.mem_iff n).mp (mem_flatten.mpr ⟨c, hc, hn⟩)
  obtain ⟨d, hd, hnd, hmd⟩ :=
    (h.exists_common_iff hg hlt (hg n m hedge)).mpr ⟨Relation.ReflTransGen.single hedge, hback⟩
  obtain ⟨i, rfl⟩ := mem_iff_get.mp hc
  obtain ⟨j, rfl⟩ := mem_iff_get.mp hd
  obtain rfl := h.position_unique hn hnd
  rw [isCyclic, Bool.or_eq_true_iff]
  by_cases hmn : m = n
  · subst hmn
    exact Or.inr (contains_iff_mem.mpr hedge)
  · refine Or.inl (decide_eq_true ?_)
    by_contra hle
    obtain ⟨k, hk⟩ := length_eq_one_iff.mp
      (show (components.get i).length = 1 by have := length_pos_of_mem hn; omega)
    rw [hk, mem_singleton] at hn hmd
    exact hmn (hmd.trans hn.symm)

end Partition

/-- The components are non-empty, list every node exactly once, are the classes of mutual
reachability, come before the components that have an edge into them, and tell the nodes on cycles
from the others. -/
theorem Closed.components_classes (hg : g.Closed) :
    (∀ c ∈ g.components, c ≠ []) ∧
      g.components.flatten.Perm (List.range g.size) ∧
      (∀ a < g.size, ∀ b < g.size,
        (∃ c ∈ g.components, a ∈ c ∧ b ∈ c) ↔ g.Reaches a b ∧ g.Reaches b a) ∧
      (∀ i j : Fin g.components.length, i ≠ j → ∀ a ∈ g.components.get i, ∀ b ∈ g.components.get j,
        g.Edge a b → j < i) ∧
      ∀ c ∈ g.components, ∀ n ∈ c, g.isCyclic c n = true ↔ Relation.TransGen g.Edge n n := by
  have h := hg.partition_components
  refine ⟨h.nonempty, ?_, fun a ha b hb => h.exists_common_iff hg ha hb,
    fun i j hne a ha b hb hedge => lt_of_le_of_ne (h.position_le_of_edge ha hb hedge) hne.symm,
    fun c hc n hn => ⟨h.transGen_of_isCyclic hc hn, h.isCyclic_of_transGen hg hc hn⟩⟩
  rw [perm_ext_iff_of_nodup h.nodup nodup_range]
  exact fun n => (h.mem_iff n).trans mem_range.symm

/-- Two calling each other, called by a third that also calls a fourth, which calls itself. -/
def intertwined : Graph where
  succs := #[[1, 3], [2, 2], [1], [3]]
  preds := #[[], [0, 2], [1, 1], [0, 3]]
  entry := 0

theorem components_classes_intertwined :
    intertwined.components = [[2, 1], [3], [0]] ∧ intertwined.isCyclic [2, 1] 1 = true ∧
      Relation.TransGen intertwined.Edge 1 1 ∧ ¬ Relation.TransGen intertwined.Edge 0 0 := by
  have hclosed : intertwined.Closed := by
    intro s t ht
    by_cases hs : s < 4
    · have hall : ∀ s < 4, ∀ t ∈ intertwined.successors s, t < intertwined.size := by decide
      exact hall s hs t ht
    · rw [successors, Array.getD_eq_getD_getElem?, Array.getElem?_eq_none (Nat.le_of_not_lt hs)] at ht
      cases ht
  have hcomponents : intertwined.components = [[2, 1], [3], [0]] := by decide
  obtain ⟨-, -, -, -, hcyclic⟩ := hclosed.components_classes
  refine ⟨hcomponents, by decide, (hcyclic [2, 1] (by decide) 1 (by decide)).mp (by decide), ?_⟩
  exact fun hcycle =>
    absurd ((hcyclic [0] (by decide) 0 (by decide)).mpr hcycle) (by decide)

end MiddleEnd.Graph
