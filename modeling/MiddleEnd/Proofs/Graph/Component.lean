import Mathlib.Data.List.TakeWhile
import MiddleEnd.Graph.Component
import MiddleEnd.Proofs.Graph.Traversal

/-!
# Strongly connected components

The search keeps the nodes that it has numbered but not yet put into a component in one list, the
one with the highest number first.  What it knows of a node in that list is a lower bound on the
numbers that its successors in the list have, and this bound is itself the number of a node in the
list that can be reached.  A node whose search is over has a bound below its own number, or it has
closed a component.  So the nodes of a component reach each other, and an edge leads from a component
to itself or to an earlier one.
-/

namespace MiddleEnd.Graph

open List Nat Option

variable {g : Graph} {path : List Nat} {s s' s'' : Search} {n : Nat}

namespace Search

variable {new : List Nat} {k : Nat}

def numberOf (s : Search) (n : Nat) : Nat :=
  (s.numberOf? n).getD 0

/-- A state of the search, in which the search from each node of `path` is not over. -/
structure Valid (g : Graph) (path : List Nat) (s : Search) : Prop where
  number_size : s.number.size = g.size
  low_size : s.low.size = g.size
  numbered : ∀ n, s.numberOf? n = none ↔ n ∉ s.active ++ s.components.flatten
  nodup : (s.active ++ s.components.flatten).Nodup
  next : s.next = (s.active ++ s.components.flatten).length
  lt_next : ∀ n ∈ s.active, s.numberOf n < s.next
  sorted : s.active.Pairwise fun a b => s.numberOf b < s.numberOf a
  onPath : path.Sublist s.active
  low_le : ∀ n ∈ s.active, s.lowOf n ≤ s.numberOf n
  reaches : ∀ n ∈ s.active, ∃ t ∈ s.active, s.numberOf t = s.lowOf n ∧ g.Reaches n t
  below : ∀ p ∈ path, ∀ n ∈ s.active, s.numberOf p ≤ s.numberOf n → g.Reaches p n
  /-- A node whose search is over. -/
  done : ∀ n ∈ s.active, n ∉ path → s.lowOf n < s.numberOf n ∧
    ∀ t ∈ g.successors n, t ∈ s.components.flatten ∨ t ∈ s.active ∧ s.lowOf n ≤ s.numberOf t
  ordered : ∀ before c after, s.components = before ++ c :: after → ∀ n ∈ c,
    ∀ t ∈ g.successors n, t ∈ before.flatten ∨ t ∈ c
  connected : ∀ c ∈ s.components, ∀ a ∈ c, ∀ b ∈ c, g.Reaches a b
  nonempty : ∀ c ∈ s.components, c ≠ []

/-- A later state of the search, in which the nodes `new` have been opened. -/
structure Grows (s s' : Search) (new : List Nat) : Prop where
  active : s'.active = new ++ s.active
  number : ∀ n, s.numberOf? n ≠ none → s'.numberOf? n = s.numberOf? n
  low : ∀ n ∈ s.active, s'.lowOf n = s.lowOf n
  components : ∃ more, s'.components = s.components ++ more
  next : s.next ≤ s'.next
  fresh : ∀ n ∈ new, ∃ k, s'.numberOf? n = some k ∧ s.next ≤ k

lemma Grows.mem_components (h : s.Grows s' new) (hn : n ∈ s.components.flatten) :
    n ∈ s'.components.flatten := by
  obtain ⟨more, hmore⟩ := h.components
  rw [hmore, flatten_append]
  exact mem_append_left _ hn

lemma Grows.trans {new' : List Nat} (h : s.Grows s' new) (h' : s'.Grows s'' new') :
    s.Grows s'' (new' ++ new) where
  active := by rw [h'.active, h.active, append_assoc]
  number n hn := by
    rw [h'.number n (by rwa [h.number n hn]), h.number n hn]
  low n hn := by
    rw [h'.low n (h.active ▸ mem_append_right new hn), h.low n hn]
  components := by
    obtain ⟨more, hmore⟩ := h.components
    obtain ⟨more', hmore'⟩ := h'.components
    exact ⟨more ++ more', by rw [hmore', hmore, append_assoc]⟩
  next := h.next.trans h'.next
  fresh n hn := by
    rcases mem_append.mp hn with hn | hn
    · obtain ⟨k, hk, hle⟩ := h'.fresh n hn
      exact ⟨k, hk, h.next.trans hle⟩
    · obtain ⟨k, hk, hle⟩ := h.fresh n hn
      exact ⟨k, by rw [h'.number n (by rw [hk]; exact some_ne_none k), hk], hle⟩

lemma Grows.numberOf_eq (h : s.Grows s' new) (hn : s.numberOf? n ≠ none) :
    s'.numberOf n = s.numberOf n := by
  rw [numberOf, numberOf, h.number n hn]

namespace Valid

variable {above rest : List Nat} {m : Nat}

variable (h : Valid g path s)

include h

lemma numberOf?_of_mem (hn : n ∈ s.active) : s.numberOf? n = some (s.numberOf n) := by
  cases hnumber : s.numberOf? n with
  | none => exact absurd (mem_append_left _ hn) ((h.numbered n).mp hnumber)
  | some k => rw [numberOf, hnumber, getD_some]

lemma lt_size (hn : n ∈ s.active ++ s.components.flatten) : n < g.size := by
  have hsome : s.numberOf? n ≠ none := fun hnone => (h.numbered n).mp hnone hn
  rw [← h.number_size]
  by_contra hle
  rw [numberOf?, Array.getElem?_eq_none (Nat.le_of_not_lt hle)] at hsome
  exact hsome rfl

lemma next_lt (hn : n < g.size) (hnew : s.numberOf? n = none) : s.next < g.size := by
  have hnd := nodup_cons.mpr ⟨(h.numbered n).mp hnew, h.nodup⟩
  have hsub : n :: (s.active ++ s.components.flatten) ⊆ List.range g.size := by
    refine cons_subset.mpr ⟨mem_range.mpr hn, fun m hm => ?_⟩
    exact mem_range.mpr (h.lt_size hm)
  have hlen := (hnd.subperm hsub).length_le
  rw [length_cons, length_range, ← h.next] at hlen
  exact hlen

lemma numberOf?_ne_none (hn : n ∈ s.active ++ s.components.flatten) : s.numberOf? n ≠ none :=
  fun hnone => (h.numbered n).mp hnone hn

lemma lt_of_mem_active (hactive : s.active = above ++ n :: rest) (hm : m ∈ rest) :
    s.numberOf m < s.numberOf n := by
  have hsorted := h.sorted
  rw [hactive, pairwise_append, pairwise_cons] at hsorted
  exact hsorted.2.1.1 m hm

lemma lt_of_mem_above (hactive : s.active = above ++ n :: rest) (hm : m ∈ above) :
    s.numberOf n < s.numberOf m := by
  have hsorted := h.sorted
  rw [hactive, pairwise_append] at hsorted
  exact hsorted.2.2 m hm n (.head _)

/-- The open nodes with a number from that of `n` on are `n` and the ones above it. -/
lemma mem_above (hactive : s.active = above ++ n :: rest) (hm : m ∈ s.active)
    (hle : s.numberOf n ≤ s.numberOf m) : m ∈ above ++ [n] := by
  rw [hactive, mem_append, mem_cons] at hm
  rcases hm with hm | rfl | hm
  · exact mem_append_left _ hm
  · exact mem_append_right _ (mem_singleton_self _)
  · have hlt := h.lt_of_mem_active hactive hm
    omega

/-! ## Entering a node -/

omit h in
lemma numberOf?_enter (hsize : s.number.size = g.size) (hn : n < g.size) (m : Nat) :
    (s.enter n).numberOf? m = if m = n then some s.next else s.numberOf? m := by
  rw [numberOf?, enter, numberOf?, Array.getElem?_setIfInBounds]
  by_cases hm : m = n
  · subst hm
    simp [hsize, hn]
  · simp [hm, Ne.symm hm]

omit h in
lemma lowOf_enter (hsize : s.low.size = g.size) (hn : n < g.size) (m : Nat) :
    (s.enter n).lowOf m = if m = n then s.next else s.lowOf m := by
  rw [lowOf, enter, lowOf, Array.getD_eq_getD_getElem?, Array.getD_eq_getD_getElem?,
    Array.getElem?_setIfInBounds]
  by_cases hm : m = n
  · subst hm
    simp [hsize, hn]
  · simp [hm, Ne.symm hm]

lemma enter (hn : n < g.size) (hnew : s.numberOf? n = none) (hpath : ∀ p ∈ path, g.Reaches p n) :
    Valid g (n :: path) (s.enter n) ∧ s.Grows (s.enter n) [n] := by
  have hnumber := numberOf?_enter h.number_size hn
  have hlow := lowOf_enter h.low_size hn
  have hfresh := (h.numbered n).mp hnew
  have hne {m : Nat} (hm : m ∈ s.active) : m ≠ n :=
    fun heq => hfresh (mem_append_left _ (heq ▸ hm))
  have hself : (s.enter n).numberOf n = s.next := by rw [numberOf, hnumber, if_pos rfl]; rfl
  have hold {m : Nat} (hm : m ∈ s.active) : (s.enter n).numberOf m = s.numberOf m := by
    rw [numberOf, hnumber, if_neg (hne hm), numberOf]
  have holdLow {m : Nat} (hm : m ∈ s.active) : (s.enter n).lowOf m = s.lowOf m := by
    rw [hlow, if_neg (hne hm)]
  have hselfLow : (s.enter n).lowOf n = s.next := by rw [hlow, if_pos rfl]
  have hactive {m : Nat} (hm : m ∈ (s.enter n).active) : m = n ∨ m ∈ s.active := mem_cons.mp hm
  have hmem {m : Nat} (hm : m ∈ s.active) : m ∈ (s.enter n).active := .tail n hm
  refine ⟨⟨?_, ?_, fun m => ?_, nodup_cons.mpr ⟨hfresh, h.nodup⟩, ?_, fun m hm => ?_, ?_,
    h.onPath.cons_cons n, fun m hm => ?_, fun m hm => ?_, fun p hp m hm hle => ?_,
    fun m hm hnot => ?_, h.ordered, h.connected, h.nonempty⟩, rfl, fun m hm => ?_,
      fun m hm => holdLow hm,
    ⟨[], (append_nil _).symm⟩, le_succ _, ?_⟩
  · rw [← h.number_size]
    exact Array.size_setIfInBounds
  · rw [← h.low_size]
    exact Array.size_setIfInBounds
  · rw [hnumber]
    change _ ↔ m ∉ n :: (s.active ++ s.components.flatten)
    split
    · next heq => simp [heq]
    · next hne => simp [hne, h.numbered]
  · change s.next + 1 = (n :: (s.active ++ s.components.flatten)).length
    rw [length_cons, ← h.next]
  · change _ < s.next + 1
    rcases hactive hm with rfl | hm
    · grind
    · rw [hold hm]
      exact (h.lt_next m hm).trans (lt_succ_self _)
  · refine pairwise_cons.mpr ⟨fun m hm => ?_, h.sorted.imp_of_mem fun ha hb hlt => ?_⟩
    · rw [hself, hold hm]
      exact h.lt_next m hm
    · rwa [hold ha, hold hb]
  · rcases hactive hm with rfl | hm
    · rw [hself, hselfLow]
    · rw [hold hm, holdLow hm]
      exact h.low_le m hm
  · rcases hactive hm with rfl | hm
    · exact ⟨m, .head _, by rw [hself, hselfLow], .refl⟩
    · obtain ⟨t, ht, heq, hreach⟩ := h.reaches m hm
      exact ⟨t, hmem ht, by rw [hold ht, holdLow hm, heq], hreach⟩
  · rcases hactive hm with rfl | hm'
    · rcases mem_cons.mp hp with rfl | hp
      · exact .refl
      · exact hpath p hp
    · rcases mem_cons.mp hp with heq | hp
      · rw [heq, hold hm'] at hle
        exact absurd (h.lt_next m hm') (by omega)
      · rw [hold (h.onPath.mem hp), hold hm'] at hle
        exact h.below p hp m hm' hle
  · rw [mem_cons, not_or] at hnot
    have hm := (hactive hm).resolve_left hnot.1
    obtain ⟨hlt, hsuccs⟩ := h.done m hm hnot.2
    rw [hold hm, holdLow hm]
    refine ⟨hlt, fun t ht => (hsuccs t ht).imp_right fun ⟨hmem', hle⟩ => ⟨hmem hmem', ?_⟩⟩
    rwa [hold hmem']
  · grind
  · grind

/-! ## Lowering a bound -/

omit h in
lemma lowOf_lower (hsize : s.low.size = g.size) (hn : n < g.size) (k m : Nat) :
    (s.lower n k).lowOf m = if m = n then min (s.lowOf n) k else s.lowOf m := by
  rw [lowOf, lower, lowOf, lowOf, Array.getD_eq_getD_getElem?, Array.getD_eq_getD_getElem?,
    Array.getD_eq_getD_getElem?, Array.getElem?_modify]
  by_cases hm : m = n
  · subst hm
    simp [hsize, hn]
  · simp [hm, Ne.symm hm]

/-- The bound of a node whose search goes on can be lowered to the number of a node that it
reaches. -/
lemma lower (hn : n ∈ path)
    (hk : s.lowOf n ≤ k ∨ ∃ t ∈ s.active, s.numberOf t = k ∧ g.Reaches n t) :
    Valid g path (s.lower n k) := by
  have hnactive := h.onPath.mem hn
  have hlow := lowOf_lower h.low_size (h.lt_size (mem_append_left _ hnactive)) k
  have hnumber (m : Nat) : (s.lower n k).numberOf m = s.numberOf m := rfl
  refine ⟨h.number_size, ?_, h.numbered, h.nodup, h.next, h.lt_next, h.sorted, h.onPath,
    fun m hm => ?_, fun m hm => ?_, h.below, fun m hm hnot => ?_, h.ordered, h.connected,
    h.nonempty⟩
  · rw [← h.low_size]
    exact Array.size_modify
  · rw [hlow]
    split
    · next heq => exact (min_le_left _ _).trans (heq ▸ h.low_le m hm)
    · exact h.low_le m hm
  · rw [hlow]
    split
    · next heq =>
      subst heq
      rcases le_total (s.lowOf m) k with hle | hle
      · rw [min_eq_left hle]
        exact h.reaches m hm
      · rw [min_eq_right hle]
        rcases hk with hle' | ht
        · rw [le_antisymm hle hle']
          exact h.reaches m hm
        · exact ht
    · exact h.reaches m hm
  · have hne : m ≠ n := fun heq => hnot (heq ▸ hn)
    rw [hlow, if_neg hne]
    exact h.done m hm hnot

end Valid

/-! ## Leaving a node -/

/-- The state when the search from `n` has come back from some of its successors: `n` was entered in
the state `old`, and the nodes `above` were opened since then. -/
structure Scanned (g : Graph) (path : List Nat) (old s : Search) (n : Nat)
    (above targets : List Nat) : Prop where
  valid : Valid g (n :: path) s
  wasValid : Valid g path old
  wasNew : old.numberOf? n = none
  grows : old.Grows s (above ++ [n])
  bound : ∀ m ∈ above, s.lowOf n ≤ s.lowOf m
  targets : ∀ t ∈ targets, t ∈ s.components.flatten ∨ t ∈ s.active ∧ s.lowOf n ≤ s.numberOf t

/-- What the search from `n` in the state `s` leads to. -/
structure Searched (g : Graph) (path : List Nat) (s s' : Search) (n : Nat) (new : List Nat) :
    Prop where
  valid : Valid g path s'
  grows : s.Grows s' new
  numbered : s'.numberOf? n ≠ none
  bound : n ∈ s'.active ∧ (∀ m ∈ new, s'.lowOf n ≤ s'.lowOf m) ∨
    n ∉ s'.active ∧ new = [] ∧ s.next ≤ s'.lowOf n

lemma scanned_lower {old : Search} {above targets : List Nat} (hv : Valid g (n :: path) s)
    (hw : Valid g path old) (hnew : old.numberOf? n = none) (hgrows : old.Grows s (above ++ [n]))
    (hk : s.lowOf n ≤ k ∨ ∃ t ∈ s.active, s.numberOf t = k ∧ g.Reaches n t)
    (hbound : ∀ m ∈ above, min (s.lowOf n) k ≤ s.lowOf m)
    (htgts : ∀ t ∈ targets,
      t ∈ s.components.flatten ∨ t ∈ s.active ∧ min (s.lowOf n) k ≤ s.numberOf t) :
    Scanned g path old (s.lower n k) n above targets := by
  have hactive : s.active = above ++ n :: old.active := by
    rw [hgrows.active, append_assoc, singleton_append]
  have hmem : n ∈ s.active := hv.onPath.mem (.head _)
  have hlow := Valid.lowOf_lower hv.low_size (hv.lt_size (mem_append_left _ hmem)) k
  have hself : (s.lower n k).lowOf n = min (s.lowOf n) k := by rw [hlow, if_pos rfl]
  refine ⟨hv.lower (.head _) hk, hw, hnew, ⟨hgrows.active, hgrows.number, fun m hm => ?_,
    hgrows.components, hgrows.next, hgrows.fresh⟩, fun m hm => ?_, fun t ht => ?_⟩
  · have hne : m ≠ n := by
      rintro rfl
      exact (hw.numbered m).mp hnew (mem_append_left _ hm)
    rw [hlow, if_neg hne, hgrows.low m hm]
  · have hne : m ≠ n := by
      rintro rfl
      exact lt_irrefl _ (hv.lt_of_mem_above hactive hm)
    rw [hself, hlow, if_neg hne]
    exact hbound m hm
  · rw [hself]
    exact htgts t ht

namespace Scanned

variable {old : Search} {above targets : List Nat} (h : Scanned g path old s n above targets)

include h

lemma active_eq : s.active = above ++ n :: old.active := by
  rw [h.grows.active, append_assoc, singleton_append]

lemma mem_active : n ∈ s.active := by
  rw [h.active_eq]
  exact mem_append_right _ (.head _)

lemma notMem_path {m : Nat} (hm : m ∈ above) : m ∉ n :: path := by
  have hnd := (nodup_append.mp h.valid.nodup).1
  rw [h.active_eq, nodup_append] at hnd
  intro hpath
  refine hnd.2.2 m hm m ?_ rfl
  rcases mem_cons.mp hpath with rfl | hpath
  · exact .head _
  · exact .tail n (h.wasValid.onPath.mem hpath)

/-- If the bound of `n` is its own number, every node opened since then reaches `n`. -/
lemma reaches_root (hroot : s.numberOf n = s.lowOf n) (k : Nat) :
    ∀ m ∈ above ++ [n], s.numberOf m = k → g.Reaches m n := by
  induction k using Nat.strong_induction_on with
  | _ k ih =>
    intro m hm hk
    rcases mem_append.mp hm with hm | hm
    · have hactive : m ∈ s.active := h.active_eq ▸ mem_append_left _ hm
      obtain ⟨t, ht, heq, hreach⟩ := h.valid.reaches m hactive
      have hlt := (h.valid.done m hactive (h.notMem_path hm)).1
      have hle := h.bound m hm
      exact hreach.trans (ih (s.numberOf t) (by omega) t
        (h.valid.mem_above h.active_eq ht (by omega)) rfl)
    · rw [mem_singleton.mp hm]
      exact .refl

lemma scan_open (ht : t ∈ g.successors n) (hopen : t ∈ s.active) :
    Scanned g path old (s.lower n (s.numberOf t)) n above (targets ++ [t]) := by
  refine scanned_lower h.valid h.wasValid h.wasNew h.grows
    (Or.inr ⟨t, hopen, rfl, .single ht⟩) (fun m hm => (min_le_left _ _).trans (h.bound m hm))
    fun u hu => ?_
  rcases mem_append.mp hu with hu | hu
  · exact (h.targets u hu).imp_right fun ⟨hu, hle⟩ => ⟨hu, (min_le_left _ _).trans hle⟩
  · grind

lemma scan_closed (hclosed : t ∈ s.components.flatten) :
    Scanned g path old s n above (targets ++ [t]) := by
  refine ⟨h.valid, h.wasValid, h.wasNew, h.grows, h.bound, fun u hu => ?_⟩
  rcases mem_append.mp hu with hu | hu
  · exact h.targets u hu
  · exact Or.inl (mem_singleton.mp hu ▸ hclosed)

lemma scan_searched (ht : t ∈ g.successors n)
    (hs : Searched g (n :: path) s s' t new) :
    Scanned g path old (s'.lower n (s'.lowOf t)) n (new ++ above) (targets ++ [t]) := by
  have hlow := hs.grows.low n h.mem_active
  have hnumber {m : Nat} (hm : m ∈ s.active) : s'.numberOf m = s.numberOf m :=
    hs.grows.numberOf_eq (h.valid.numberOf?_ne_none (mem_append_left _ hm))
  have hgrows : old.Grows s' (new ++ above ++ [n]) := by
    rw [append_assoc]
    exact h.grows.trans hs.grows
  refine scanned_lower hs.valid h.wasValid h.wasNew hgrows ?_ (fun m hm => ?_) fun u hu => ?_
  · rcases hs.bound with ⟨hopen, -⟩ | ⟨-, -, hle⟩
    · obtain ⟨u, hu, heq, hreach⟩ := hs.valid.reaches t hopen
      exact Or.inr ⟨u, hu, heq, .head ht hreach⟩
    · have hlt := h.valid.lt_next n h.mem_active
      have hle' := h.valid.low_le n h.mem_active
      exact Or.inl (by omega)
  · rcases mem_append.mp hm with hm | hm
    · rcases hs.bound with ⟨-, hbound⟩ | ⟨-, hnil, -⟩
      · exact (min_le_right _ _).trans (hbound m hm)
      · grind
    · rw [hs.grows.low m (h.active_eq ▸ mem_append_left _ hm), hlow]
      exact (min_le_left _ _).trans (h.bound m hm)
  · rcases mem_append.mp hu with hu | hu
    · refine (h.targets u hu).imp hs.grows.mem_components fun ⟨hopen, hle⟩ => ⟨?_, ?_⟩
      · rw [hs.grows.active]
        exact mem_append_right new hopen
      · grind
    · rw [mem_singleton.mp hu]
      have hmem : t ∈ s'.active ++ s'.components.flatten := by
        by_contra hnot
        exact hs.numbered ((hs.valid.numbered t).mpr hnot)
      rcases mem_append.mp hmem with hopen | hclosed
      · exact Or.inr ⟨hopen, (min_le_right _ _).trans (hs.valid.low_le t hopen)⟩
      · exact Or.inl hclosed

variable (htgts : ∀ t ∈ g.successors n, t ∈ targets)
include htgts

/-- The search from `n` is over, and `n` belongs to the component of an earlier node. -/
lemma valid_of_ne (hne : s.numberOf n ≠ s.lowOf n) : Valid g path s := by
  have hv := h.valid
  refine ⟨hv.number_size, hv.low_size, hv.numbered, hv.nodup, hv.next, hv.lt_next, hv.sorted,
    (sublist_cons_self n path).trans hv.onPath, hv.low_le, hv.reaches,
    fun p hp => hv.below p (.tail n hp), fun m hm hnot => ?_, hv.ordered, hv.connected,
    hv.nonempty⟩
  by_cases hmn : m = n
  · subst hmn
    exact ⟨lt_of_le_of_ne (hv.low_le m hm) (Ne.symm hne), fun t ht => h.targets t (htgts t ht)⟩
  · exact hv.done m hm (by simp [hmn, hnot])

lemma valid_close (hroot : s.numberOf n = s.lowOf n) :
    Valid g path
      { s with active := old.active, components := s.components ++ [above ++ [n]] } := by
  have hv := h.valid
  have hw := h.wasValid
  have hmem {m : Nat} (hm : m ∈ above ++ [n]) : m ∈ s.active := by
    rw [h.active_eq, append_cons]
    exact mem_append_left _ hm
  have hperm : (old.active ++ (s.components ++ [above ++ [n]]).flatten).Perm
      (s.active ++ s.components.flatten) := by
    refine perm_iff_count.mpr fun a => ?_
    simp only [h.active_eq, flatten_append, flatten_cons, flatten_nil,
      count_append, count_cons, count_nil]
    omega
  have hnumber {m : Nat} (hm : m ∈ old.active) : s.numberOf m = old.numberOf m :=
    h.grows.numberOf_eq (hw.numberOf?_ne_none (mem_append_left _ hm))
  have hlow {m : Nat} (hm : m ∈ old.active) : s.lowOf m = old.lowOf m := h.grows.low m hm
  refine ⟨hv.number_size, hv.low_size, fun m => ?_, hperm.nodup_iff.mpr hv.nodup, ?_, fun m hm => ?_,
    hw.sorted.imp_of_mem fun ha hb hlt => ?_, hw.onPath, fun m hm => ?_, fun m hm => ?_,
    fun p hp m hm hle => ?_, fun m hm hnot => ?_, fun before c after hc m hm t ht => ?_,
    fun c hc a ha b hb => ?_, fun c hc => ?_⟩
  · exact (hv.numbered m).trans (not_congr hperm.mem_iff.symm)
  · exact hv.next.trans hperm.length_eq.symm
  · exact hv.lt_next m (h.active_eq ▸ mem_append_right _ (.tail n hm))
  · change s.numberOf _ < s.numberOf _
    rwa [hnumber ha, hnumber hb]
  · change s.lowOf m ≤ s.numberOf m
    rw [hnumber hm, hlow hm]
    exact hw.low_le m hm
  · change ∃ t ∈ old.active, s.numberOf t = s.lowOf m ∧ _
    obtain ⟨t, ht, heq, hreach⟩ := hw.reaches m hm
    exact ⟨t, ht, by rw [hnumber ht, hlow hm, heq], hreach⟩
  · change s.numberOf p ≤ s.numberOf m at hle
    rw [hnumber (hw.onPath.mem hp), hnumber hm] at hle
    exact hw.below p hp m hm hle
  · change s.lowOf m < s.numberOf m ∧ ∀ t ∈ g.successors m,
      t ∈ (s.components ++ [above ++ [n]]).flatten ∨ t ∈ old.active ∧ s.lowOf m ≤ s.numberOf t
    obtain ⟨hlt, hsuccs⟩ := hw.done m hm hnot
    rw [hnumber hm, hlow hm]
    refine ⟨hlt, fun t ht => (hsuccs t ht).imp (fun hclosed => ?_) fun ⟨hopen, hle⟩ => ⟨hopen, ?_⟩⟩
    · rw [flatten_append]
      exact mem_append_left _ (h.grows.mem_components hclosed)
    · rwa [hnumber hopen]
  · rcases eq_nil_or_concat after with rfl | ⟨after', last, rfl⟩
    · -- the new component: an open node with a number from that of `n` on is in it
      obtain ⟨rfl, hlast⟩ := append_inj' hc rfl
      obtain rfl : above ++ [n] = c := (List.cons.inj hlast).1
      have hbound : t ∈ s.components.flatten ∨ t ∈ s.active ∧ s.lowOf n ≤ s.numberOf t := by
        rcases mem_append.mp hm with habove | hself
        · obtain ⟨-, hsuccs⟩ := hv.done m (hmem hm) (h.notMem_path habove)
          exact (hsuccs t ht).imp_right fun ⟨hopen, hle⟩ => ⟨hopen, (h.bound m habove).trans hle⟩
        · rw [mem_singleton.mp hself] at ht
          exact h.targets t (htgts t ht)
      exact hbound.imp_right fun ⟨hopen, hle⟩ => hv.mem_above h.active_eq hopen (hroot ▸ hle)
    · have hsplit : s.components ++ [above ++ [n]] = (before ++ c :: after') ++ [last] := by
        simpa using hc
      exact hv.ordered before c after' (append_inj' hsplit rfl).1 m hm t ht
  · rcases mem_append.mp hc with hc | hc
    · exact hv.connected c hc a ha b hb
    · rw [mem_singleton] at hc
      subst hc
      have hb' : g.Reaches n b := by
        refine hv.below n (.head _) b (hmem hb) ?_
        rcases mem_append.mp hb with hb | hb
        · exact (hv.lt_of_mem_above h.active_eq hb).le
        · rw [mem_singleton.mp hb]
      exact (h.reaches_root hroot _ a ha rfl).trans hb'
  · rcases mem_append.mp hc with hc | hc
    · exact hv.nonempty c hc
    · simp_all

lemma leave : ∃ new, Searched g path old (s.leave n) n new := by
  have hv := h.valid
  have hnumber := hv.numberOf?_of_mem h.mem_active
  have hfresh : old.next ≤ s.numberOf n := by
    obtain ⟨k, hk, hle⟩ := h.grows.fresh n (mem_append_right _ (mem_singleton_self n))
    rwa [numberOf, hk]
  rw [Search.leave]
  split
  · next hclose =>
    have hroot := some.inj (hnumber.symm.trans hclose)
    have hnot : n ∉ above := fun hn => h.notMem_path hn (.head _)
    have hall : ∀ m ∈ above, decide (m ≠ n) :=
      fun m hm => decide_eq_true fun heq => hnot (heq ▸ hm)
    have htake : s.active.takeWhile (fun m => decide (m ≠ n)) = above := by
      rw [h.active_eq, takeWhile_append_of_pos hall]
      simp
    have hdrop : (s.active.dropWhile fun m => decide (m ≠ n)).tail = old.active := by
      rw [h.active_eq, dropWhile_append_of_pos hall]
      simp
    rw [htake, hdrop]
    refine ⟨[], h.valid_close htgts hroot, ⟨rfl, h.grows.number, h.grows.low, ?_, h.grows.next,
      nofun⟩, ?_, Or.inr ⟨?_, rfl, hroot ▸ hfresh⟩⟩
    · obtain ⟨more, hmore⟩ := h.grows.components
      exact ⟨more ++ [above ++ [n]], by rw [hmore, append_assoc]⟩
    · exact hv.numberOf?_ne_none (mem_append_left _ h.mem_active)
    · exact fun hn => (h.wasValid.numbered n).mp h.wasNew (mem_append_left _ hn)
  · next hopen =>
    have hne : s.numberOf n ≠ s.lowOf n := fun heq => hopen (by rw [hnumber, heq])
    refine ⟨above ++ [n], h.valid_of_ne htgts hne, h.grows, ?_, Or.inl ⟨h.mem_active, ?_⟩⟩
    · exact hv.numberOf?_ne_none (mem_append_left _ h.mem_active)
    · intro m hm
      rcases mem_append.mp hm with hm | hm
      · exact h.bound m hm
      · rw [mem_singleton.mp hm]

end Scanned

end Search

/-! ## The search -/

open Search

def scan (g : Graph) (depth n : Nat) (s : Search) (t : Nat) : Search :=
  match s.numberOf? t with
  | none => (g.connect depth t s).lower n ((g.connect depth t s).lowOf t)
  | some k => if t ∈ s.active then s.lower n k else s

lemma Closed.scanned_foldl (hg : g.Closed) {depth : Nat}
    (hconn : ∀ {path s n}, Valid g path s → n < g.size → s.numberOf? n = none →
      (∀ p ∈ path, g.Reaches p n) → g.size ≤ s.next + depth →
      ∃ new, Searched g path s (g.connect depth n s) n new)
    (h : Valid g path s) (hn : n < g.size) (hnew : s.numberOf? n = none)
    (hpath : ∀ p ∈ path, g.Reaches p n) (hdepth : g.size ≤ s.next + (depth + 1)) {ts : List Nat}
    (hts : ts ⊆ g.successors n) :
    ∃ above, Scanned g path s (ts.foldl (g.scan depth n) (s.enter n)) n above ts := by
  induction ts using List.reverseRecOn with
  | nil =>
    obtain ⟨hv, hgrows⟩ := h.enter hn hnew hpath
    exact ⟨[], hv, h, hnew, hgrows, nofun, nofun⟩
  | append_singleton ts t ih =>
    obtain ⟨above, hscanned⟩ := ih fun u hu => hts (mem_append_left _ hu)
    have ht := hts (mem_append_right _ (mem_singleton_self t))
    rw [foldl_append, foldl_cons]
    generalize ts.foldl (g.scan depth n) (s.enter n) = u at hscanned ⊢
    rw [scan]
    cases hnumber : u.numberOf? t with
    | none =>
      -- the number of `n` has been given out since
      have hnext : s.next < u.next := by
        have hlt := hscanned.valid.lt_next n hscanned.mem_active
        obtain ⟨k, hk, hle⟩ := hscanned.grows.fresh n (mem_append_right _ (mem_singleton_self n))
        rw [numberOf, hk] at hlt
        exact lt_of_le_of_lt hle hlt
      obtain ⟨new, hsearched⟩ := hconn hscanned.valid (hg n t ht) hnumber (fun p hp => by
        rcases mem_cons.mp hp with rfl | hp
        · exact .single ht
        · exact (hpath p hp).tail ht) (by omega)
      exact ⟨_, hscanned.scan_searched ht hsearched⟩
    | some k =>
      dsimp only
      split
      · next hopen =>
        have hk : k = u.numberOf t := by rw [numberOf, hnumber, getD_some]
        exact ⟨above, hk ▸ hscanned.scan_open ht hopen⟩
      · next hnot =>
        have hmem : t ∈ u.active ++ u.components.flatten := by
          by_contra hmem
          rw [(hscanned.valid.numbered t).mpr hmem] at hnumber
          cases hnumber
        exact ⟨above, hscanned.scan_closed ((mem_append.mp hmem).resolve_left hnot)⟩

lemma Closed.searched_connect (hg : g.Closed) (depth : Nat) (h : Valid g path s) (hn : n < g.size)
    (hnew : s.numberOf? n = none) (hpath : ∀ p ∈ path, g.Reaches p n)
    (hdepth : g.size ≤ s.next + depth) : ∃ new, Searched g path s (g.connect depth n s) n new := by
  induction depth generalizing path s n with
  | zero => exact absurd (h.next_lt hn hnew) (by omega)
  | succ depth ih =>
    obtain ⟨above, hscanned⟩ := hg.scanned_foldl ih h hn hnew hpath hdepth (List.Subset.refl _)
    exact hscanned.leave fun t ht => ht

lemma Search.valid_start (g : Graph) : Valid g [] (Search.start g.size) := by
  have hnone (n : Nat) : (Search.start g.size).numberOf? n = none := by
    rw [numberOf?, Search.start]
    by_cases hn : n < g.size <;> simp [hn]
  refine ⟨Array.size_replicate, Array.size_replicate, fun n => ?_, nodup_nil, rfl, ?_,
    List.Pairwise.nil, List.Sublist.refl _, ?_, ?_, ?_, ?_, fun before c after hc => ?_, ?_, ?_⟩
  · exact iff_of_true (hnone n) not_mem_nil
  all_goals first
    | exact absurd hc.symm (append_ne_nil_of_right_ne_nil _ (cons_ne_nil _ _))
    | exact nofun

lemma Search.Valid.active_eq_nil (h : Valid g [] s) : s.active = [] := by
  by_contra hne
  have hlast := getLast_mem hne
  obtain ⟨t, ht, heq, -⟩ := h.reaches _ hlast
  have hlt := (h.done _ hlast not_mem_nil).1
  have hsplit := dropLast_append_getLast hne
  have hmem : t ∈ s.active.dropLast ++ [s.active.getLast hne] := hsplit.symm ▸ ht
  rcases mem_append.mp hmem with habove | hself
  · have hlt' := h.lt_of_mem_above hsplit.symm habove
    omega
  · grind

/-- The components cover the graph without overlap, none is empty, the nodes of a component reach
each other, and an edge leads from a component to itself or to an earlier one. -/
structure Partition (g : Graph) (components : List (List Nat)) : Prop where
  nodup : components.flatten.Nodup
  mem_iff : ∀ n, n ∈ components.flatten ↔ n < g.size
  nonempty : ∀ c ∈ components, c ≠ []
  connected : ∀ c ∈ components, ∀ a ∈ c, ∀ b ∈ c, g.Reaches a b
  ordered : ∀ before c after, components = before ++ c :: after → ∀ n ∈ c, ∀ t ∈ g.successors n,
    t ∈ before.flatten ∨ t ∈ c

lemma Closed.partition_components (hg : g.Closed) : g.Partition g.components := by
  have hroots (ns : List Nat) (hns : ∀ n ∈ ns, n < g.size) {s : Search} (h : Valid g [] s) :
      Valid g [] (ns.foldl (fun s n => if s.numberOf? n = none then g.connect g.size n s else s) s) ∧
        ∀ n, n ∈ ns ∨ s.numberOf? n ≠ none → (ns.foldl (fun s n =>
          if s.numberOf? n = none then g.connect g.size n s else s) s).numberOf? n ≠ none := by
    induction ns generalizing s with
    | nil => exact ⟨h, fun n hn => hn.resolve_left not_mem_nil⟩
    | cons m ns ih =>
      have hstep : ∃ s', (if s.numberOf? m = none then g.connect g.size m s else s) = s' ∧
          Valid g [] s' ∧ ∀ n, n = m ∨ s.numberOf? n ≠ none → s'.numberOf? n ≠ none := by
        split
        · next hnone =>
          obtain ⟨new, hs⟩ := hg.searched_connect g.size h (hns m (.head _)) hnone
            (nofun) (by omega)
          refine ⟨_, rfl, hs.valid, fun n hn => ?_⟩
          rcases hn with rfl | hn
          · exact hs.numbered
          · rwa [hs.grows.number n hn]
        · grind
      obtain ⟨s', hs', hvalid, hnumbered⟩ := hstep
      rw [foldl_cons, hs']
      obtain ⟨hv, hall⟩ := ih (fun n hn => hns n (.tail m hn)) hvalid
      refine ⟨hv, fun n hn => hall n ?_⟩
      rcases hn with hn | hn
      · grind
      · exact Or.inr (hnumbered n (Or.inr hn))
  obtain ⟨hv, hall⟩ := hroots (List.range g.size) (fun n hn => mem_range.mp hn)
    (Search.valid_start g)
  have hnil := hv.active_eq_nil
  have hnd := hv.nodup
  rw [hnil] at hnd
  refine ⟨hnd, fun n => ⟨fun hn => hv.lt_size (mem_append_right _ hn), fun hn => ?_⟩,
    hv.nonempty, hv.connected, hv.ordered⟩
  have hmem := not_imp_comm.mp (hv.numbered n).mpr (hall n (Or.inl (mem_range.mpr hn)))
  rwa [hnil] at hmem

end MiddleEnd.Graph
