import Mathlib.Algebra.BigOperators.Group.Finset.Basic
import MiddleEnd.Graph.Traversal
import MiddleEnd.Proofs.BitSet

/-!
# The recursive depth-first search and the post-order

A recursive search enters a node that it has not entered before, visits the successors of the node
in order, and finishes the node.  `Explores` says so without a stack and without a bound on the
depth; on a graph whose edges lead to nodes of the graph there is exactly one such search.

The post-order is the order in which the recursive search finishes the nodes.  The loop keeps the
nodes entered and not finished on its stack, with the successors that are still to be visited.  It
takes one step for each node and each edge, so its bound on the number of steps is exact.
-/

namespace MiddleEnd.Graph

open List

variable {g : Graph} {seen : BitSet} {start n : Nat} {order : List Nat} {s t u : Tour}
  {ns : List Nat}

def Closed (g : Graph) : Prop :=
  ∀ s, ∀ t ∈ g.successors s, t < g.size

lemma Closed.of_lt (h : ∀ s < g.size, ∀ t ∈ g.successors s, t < g.size) : g.Closed := by
  intro s t ht
  by_cases hs : s < g.size
  · exact h s hs t ht
  · rw [successors, Array.getD_eq_getD_getElem?, Array.getElem?_eq_none (Nat.le_of_not_lt hs)] at ht
    cases ht

/-- There is a path from the first node to the second. -/
def Reaches (g : Graph) : Nat → Nat → Prop :=
  Relation.ReflTransGen fun s t => t ∈ g.successors s

lemma Closed.lt_of_reaches (hg : g.Closed) {s t : Nat} (hs : s < g.size) (h : g.Reaches s t) :
    t < g.size := by
  induction h with
  | refl => exact hs
  | tail _ hedge _ => exact hg _ _ hedge

/-- A set of nodes with the start and all successors of its members has all reachable nodes. -/
lemma Reaches.mem_of_closed {s t : Nat} (h : g.Reaches s t) {visited : List Nat}
    (hstart : s ∈ visited)
    (hclosed : ∀ n ∈ visited, ∀ m ∈ g.successors n, m ∈ visited) : t ∈ visited := by
  induction h with
  | refl => exact hstart
  | tail _ hedge ih => exact hclosed _ ih _ hedge

/-! ## The recursive search -/

/-- The nodes that a search has entered and those that it has finished, in order. -/
structure Tour where
  entered : List Nat := []
  finished : List Nat := []

namespace Tour

variable {s : Tour}

def enter (s : Tour) (n : Nat) : Tour :=
  { s with entered := s.entered ++ [n] }

def finish (s : Tour) (n : Nat) : Tour :=
  { s with finished := s.finished ++ [n] }

/-- The search is still visiting successors of the node. -/
def Active (s : Tour) (n : Nat) : Prop :=
  n ∈ s.entered ∧ n ∉ s.finished

lemma mem_enter (s : Tour) (n : Nat) : n ∈ (s.enter n).entered :=
  mem_append_right _ (mem_singleton_self n)

lemma active_enter_iff (hs : s.finished ⊆ s.entered)
    (hn : n ∉ s.entered) (m : Nat) : (s.enter n).Active m ↔ s.Active m ∨ m = n := by
  simp only [Active, enter, mem_append, mem_singleton]
  constructor
  · rintro ⟨hm | rfl, hfinished⟩
    · exact .inl ⟨hm, hfinished⟩
    · exact .inr rfl
  · rintro (⟨hm, hfinished⟩ | rfl)
    · exact ⟨.inl hm, hfinished⟩
    · exact ⟨.inr rfl, fun h => hn (hs h)⟩

/-- What is active between entering a node and finishing it is active before and after, but for the
node. -/
lemma active_finish_iff {t : Tour} (hn : n ∉ s.entered)
    (h : ∀ m, t.Active m ↔ (s.enter n).Active m) (m : Nat) :
    (t.finish n).Active m ↔ s.Active m := by
  have hm := h m
  simp only [Active, enter, finish, mem_append, mem_singleton] at hm ⊢
  by_cases hmn : m = n
  · subst hmn
    exact iff_of_false (fun h => h.2 (.inr rfl)) fun h => hn h.1
  · simpa [hmn] using hm

/-- What has been finished has been entered, was finished once, and has no successor that has not
been entered. -/
structure Sound (g : Graph) (s : Tour) : Prop where
  subset : s.finished ⊆ s.entered
  nodup : s.finished.Nodup
  closed : ∀ n ∈ s.finished, g.successors n ⊆ s.entered

lemma Sound.empty (g : Graph) : Sound g {} where
  subset := nil_subset _
  nodup := nodup_nil
  closed := fun _ hn => absurd hn not_mem_nil

lemma Sound.enter (hs : s.Sound g) (n : Nat) : (s.enter n).Sound g where
  subset := subset_append_of_subset_left _ hs.subset
  nodup := hs.nodup
  closed := fun m hm => subset_append_of_subset_left _ (hs.closed m hm)

lemma Sound.finish (hs : s.Sound g) (hn : s.Active n)
    (hsuccs : g.successors n ⊆ s.entered) : (s.finish n).Sound g where
  subset := append_subset.mpr ⟨hs.subset, cons_subset.mpr ⟨hn.1, nil_subset _⟩⟩
  nodup := hs.nodup.append (nodup_singleton n) (disjoint_singleton.mpr hn.2)
  closed := by
    intro m hm
    rcases mem_append.mp hm with hm | hm
    · exact hs.closed m hm
    · exact mem_singleton.mp hm ▸ hsuccs

end Tour

/-- The search visits the given nodes in turn.  It passes over a node that it has entered before.
Any other node it enters, visits the successors of the node, and finishes the node. -/
inductive Explores (g : Graph) : Tour → List Nat → Tour → Prop
  | done {s : Tour} : Explores g s [] s
  | pass {s t : Tour} {n : Nat} {ns : List Nat} : n ∈ s.entered → Explores g s ns t →
    Explores g s (n :: ns) t
  | visit {s t u : Tour} {n : Nat} {ns : List Nat} : n ∉ s.entered →
    Explores g (s.enter n) (g.successors n) t → Explores g (t.finish n) ns u →
    Explores g s (n :: ns) u

namespace Explores

lemma unique (h : g.Explores s ns t) (h' : g.Explores s ns u) : t = u := by
  induction h generalizing u with
  | done =>
    cases h'
    rfl
  | pass hn _ ih =>
    cases h' with
    | pass _ h' => exact ih h'
    | visit hnew _ _ => exact absurd hn hnew
  | visit hnew _ _ ihbelow ihrest =>
    cases h' with
    | pass hn _ => exact absurd hn hnew
    | visit _ hbelow hrest =>
      obtain rfl := ihbelow hbelow
      exact ihrest hrest

lemma entered_prefix (h : g.Explores s ns t) : s.entered <+: t.entered := by
  induction h with
  | done => exact prefix_rfl
  | pass _ _ ih => exact ih
  | visit _ _ _ ihbelow ihrest => exact (prefix_append _ _).trans (ihbelow.trans ihrest)

lemma mem_entered (h : g.Explores s ns t) : ns ⊆ t.entered := by
  induction h with
  | done => exact nil_subset _
  | pass hn hrest ih => exact cons_subset.mpr ⟨hrest.entered_prefix.subset hn, ih⟩
  | visit _ hbelow hrest _ ihrest =>
    refine cons_subset.mpr ⟨hrest.entered_prefix.subset ?_, ihrest⟩
    exact hbelow.entered_prefix.subset (Tour.mem_enter _ _)

lemma sound (h : g.Explores s ns t) (hs : s.Sound g) :
    t.Sound g ∧ ∀ n, t.Active n ↔ s.Active n := by
  induction h with
  | done => exact ⟨hs, fun _ => Iff.rfl⟩
  | pass _ _ ih => exact ih hs
  | @visit s t u m ms hnew hbelow _ ihbelow ihrest =>
    obtain ⟨ht, hactive⟩ := ihbelow (hs.enter m)
    have hm : t.Active m :=
      (hactive m).mpr ((Tour.active_enter_iff hs.subset hnew m).mpr (.inr rfl))
    obtain ⟨hu, hrest⟩ := ihrest (ht.finish hm hbelow.mem_entered)
    exact ⟨hu, fun n => (hrest n).trans (Tour.active_finish_iff hnew hactive n)⟩

lemma reaches_of_mem (h : g.Explores s ns t) (hn : n ∈ t.entered) :
    n ∈ s.entered ∨ ∃ m ∈ ns, g.Reaches m n := by
  induction h with
  | done => exact .inl hn
  | pass _ _ ih => exact (ih hn).imp_right fun ⟨k, hk, hreach⟩ => ⟨k, .tail _ hk, hreach⟩
  | @visit s t u m ms _ _ _ ihbelow ihrest =>
    rcases ihrest hn with hn | ⟨k, hk, hreach⟩
    · rcases ihbelow hn with hn | ⟨k, hedge, hreach⟩
      · rcases mem_append.mp hn with hn | hn
        · exact .inl hn
        · exact .inr ⟨m, .head _, mem_singleton.mp hn ▸ .refl⟩
      · exact .inr ⟨m, .head _, hreach.head hedge⟩
    · exact .inr ⟨k, .tail m hk, hreach⟩

end Explores

/-! ## There is a search -/

/-- The number of nodes that a search can still enter. -/
def unentered (g : Graph) (s : Tour) : Nat :=
  (Finset.range g.size \ s.entered.toFinset).card

lemma unentered_le (h : s.entered ⊆ t.entered) : g.unentered t ≤ g.unentered s := by
  refine Finset.card_le_card (Finset.sdiff_subset_sdiff (Finset.Subset.refl _) ?_)
  exact fun n hn => mem_toFinset.mpr (h (mem_toFinset.mp hn))

lemma unentered_enter_lt (hn : n < g.size) (hnew : n ∉ s.entered) :
    g.unentered (s.enter n) < g.unentered s := by
  refine Finset.card_lt_card (Finset.ssubset_iff_of_subset ?_ |>.mpr ⟨n, ?_, ?_⟩)
  · refine Finset.sdiff_subset_sdiff (Finset.Subset.refl _) fun m hm => ?_
    exact mem_toFinset.mpr (mem_append_left _ (mem_toFinset.mp hm))
  · simp [hn, hnew]
  · simp [Tour.enter]

lemma Closed.exists_explores (hg : g.Closed) (s : Tour) (hns : ∀ n ∈ ns, n < g.size) :
    ∃ t, g.Explores s ns t := by
  -- entering a node leaves fewer nodes to enter; passing one leaves fewer nodes to visit
  induction hbound : g.unentered s using Nat.strong_induction_on generalizing s ns with
  | _ bound ihbelow =>
    replace hbound := hbound.le
    induction ns generalizing s with
    | nil => exact ⟨s, .done⟩
    | cons n ns ih =>
      obtain ⟨hn, hns⟩ := forall_mem_cons.mp hns
      by_cases hmem : n ∈ s.entered
      · obtain ⟨t, ht⟩ := ih s hns hbound
        exact ⟨t, .pass hmem ht⟩
      · have hlt := lt_of_lt_of_le (unentered_enter_lt hn hmem) hbound
        obtain ⟨t, ht⟩ := ihbelow _ hlt (s.enter n) (hg n) rfl
        have hle := (unentered_le ht.entered_prefix.subset).trans hlt.le
        obtain ⟨u, hu⟩ := ih (t.finish n) hns hle
        exact ⟨u, .visit hmem ht hu⟩

lemma explores_singleton_iff :
    g.Explores {} [start] u ↔
      ∃ t, g.Explores ⟨[start], []⟩ (g.successors start) t ∧ u = t.finish start := by
  constructor
  · intro h
    cases h with
    | pass hn _ => exact absurd hn not_mem_nil
    | visit _ hbelow hrest =>
      cases hrest
      exact ⟨_, hbelow, rfl⟩
  · rintro ⟨t, hbelow, rfl⟩
    exact .visit not_mem_nil hbelow .done

lemma Explores.mem_finished_iff (h : g.Explores {} [start] t) :
    n ∈ t.finished ↔ g.Reaches start n := by
  obtain ⟨hsound, hactive⟩ := h.sound (.empty g)
  have hfinished {m : Nat} (hm : m ∈ t.entered) : m ∈ t.finished := by
    by_contra hnot
    exact not_mem_nil ((hactive m).mp ⟨hm, hnot⟩).1
  constructor
  · intro hn
    rcases h.reaches_of_mem (hsound.subset hn) with hn | ⟨m, hm, hreach⟩
    · exact absurd hn not_mem_nil
    · exact mem_singleton.mp hm ▸ hreach
  · exact fun hreach => hreach.mem_of_closed (hfinished (h.mem_entered (.head _)))
      fun m hm k hk => hfinished (hsound.closed m hm hk)

lemma Explores.last_finished (h : g.Explores {} [start] t) :
    t.finished.getLast? = some start := by
  obtain ⟨t, -, rfl⟩ := explores_singleton_iff.mp h
  exact List.getLast?_concat

/-! ## The loop of the post-order -/

/-- The steps that the loop takes for nodes not seen so far: one for each node and each edge. -/
def unseenWork (g : Graph) (seen : BitSet) : Nat :=
  ∑ n ∈ Finset.range g.size with seen.contains n = false, ((g.successors n).length + 1)

/-- The steps that the loop takes for the frames on its stack. -/
def frameWork (frames : List (Nat × List Nat)) : Nat :=
  frames.foldr (fun frame total => frame.2.length + 1 + total) 0

lemma frameWork_cons (n : Nat) (pending : List Nat) (frames : List (Nat × List Nat)) :
    frameWork ((n, pending) :: frames) = pending.length + 1 + frameWork frames := rfl

lemma unseenWork_empty (g : Graph) :
    g.unseenWork (BitSet.empty g.size) = g.size + g.edgeCount := by
  have hsuccs : (List.range g.size).map (fun n => (g.successors n).length) =
      g.succs.toList.map List.length := by
    refine ext_getElem (by simp [size]) fun n hn _ => ?_
    have hlt : n < g.succs.size := by simpa [size] using hn
    simp [successors, Array.getD_eq_getD_getElem?, hlt]
  have hall : (Finset.range g.size).filter (fun n => (BitSet.empty g.size).contains n = false) =
      Finset.range g.size := Finset.filter_true_of_mem fun n _ => by simp
  rw [unseenWork, hall, Finset.sum_add_distrib, Finset.sum_const, Finset.card_range, Nat.nsmul_eq_mul,
    mul_one, add_comm, edgeCount, length_flatten, ← hsuccs]
  rfl

lemma unseenWork_insert (seen : BitSet) (hcap : seen.capacity = g.size)
    (hn : n < g.size) (hnew : seen.contains n = false) :
    g.unseenWork seen = (g.successors n).length + 1 + g.unseenWork (seen.insert n) := by
  have hmem : n ∈ (Finset.range g.size).filter fun m => seen.contains m = false := by
    simp [hn, hnew]
  have herase : ((Finset.range g.size).filter fun m => (seen.insert n).contains m = false) =
      ((Finset.range g.size).filter fun m => seen.contains m = false).erase n := by
    ext m
    by_cases hmn : m = n
    · simp [hmn, hcap, hn]
    · simp [hmn]
  rw [unseenWork, unseenWork, herase]
  exact (Finset.add_sum_erase _ _ hmem).symm

/-- The loop visits the successors that its top frame holds as the recursive search does.  Each of
its steps is one of those that the frames and the nodes not seen account for. -/
lemma Explores.postorderLoop_eq (hg : g.Closed) (h : g.Explores s ns t)
    (hcap : seen.capacity = g.size) (hseen : ∀ m, seen.contains m ↔ m ∈ s.entered)
    (hns : ∀ m ∈ ns, m < g.size) (n : Nat) (frames : List (Nat × List Nat)) (extra : Nat) :
    ∃ (seen' : BitSet) (new : List Nat), seen'.capacity = g.size ∧
      (∀ m, seen'.contains m ↔ m ∈ t.entered) ∧ t.finished = s.finished ++ new ∧
      g.postorderLoop (frameWork ((n, ns) :: frames) + g.unseenWork seen + extra)
          ((n, ns) :: frames) seen =
        new ++ g.postorderLoop (frameWork ((n, []) :: frames) + g.unseenWork seen' + extra)
          ((n, []) :: frames) seen' := by
  induction h generalizing seen n frames with
  | done => exact ⟨seen, [], hcap, hseen, by simp, rfl⟩
  | @pass s t m ms hm _ ih =>
    obtain ⟨-, hms⟩ := forall_mem_cons.mp hns
    obtain ⟨seen', new, hcap', hseen', hnew, hloop⟩ := ih hcap hseen hms n frames
    refine ⟨seen', new, hcap', hseen', hnew, ?_⟩
    have hwork : frameWork ((n, m :: ms) :: frames) + g.unseenWork seen + extra =
        frameWork ((n, ms) :: frames) + g.unseenWork seen + extra + 1 := by
      simp only [frameWork_cons, length_cons]
      omega
    rw [hwork, postorderLoop, if_pos ((hseen m).mpr hm), hloop]
  | @visit s t u m ms hnew _ _ ihbelow ihrest =>
    obtain ⟨hm, hms⟩ := forall_mem_cons.mp hns
    have hcap' : (seen.insert m).capacity = g.size := hcap
    have hfresh : seen.contains m = false := by
      rw [← Bool.not_eq_true, hseen]
      exact hnew
    have hinsert (k : Nat) : (seen.insert m).contains k ↔ k ∈ (s.enter m).entered := by
      rw [BitSet.contains_insert, Bool.or_eq_true, hseen, decide_eq_true_eq, hcap]
      simp only [Tour.enter, mem_append, mem_singleton]
      exact or_congr_right (and_iff_left_of_imp fun hk => hk ▸ hm)
    obtain ⟨seen₁, new₁, hcapacity₁, hseen₁, hnew₁, hloop₁⟩ :=
      ihbelow hcap' hinsert (hg m) m ((n, ms) :: frames)
    obtain ⟨seen₂, new₂, hcapacity₂, hseen₂, hnew₂, hloop₂⟩ := ihrest hcapacity₁ hseen₁ hms n frames
    refine ⟨seen₂, new₁ ++ m :: new₂, hcapacity₂, hseen₂, ?_, ?_⟩
    · rw [hnew₂, Tour.finish, hnew₁]
      simp [Tour.enter]
    · have hwork : frameWork ((n, m :: ms) :: frames) + g.unseenWork seen + extra =
          frameWork ((m, g.successors m) :: (n, ms) :: frames) + g.unseenWork (seen.insert m) +
            extra + 1 := by
        rw [unseenWork_insert seen hcap hm hfresh]
        simp only [frameWork_cons, length_cons]
        omega
      have hfinish : frameWork ((m, []) :: (n, ms) :: frames) + g.unseenWork seen₁ + extra =
          frameWork ((n, ms) :: frames) + g.unseenWork seen₁ + extra + 1 := by
        simp only [frameWork_cons, length_nil]
        omega
      rw [hwork, postorderLoop, if_neg (by simp [hfresh]), hloop₁, hfinish, postorderLoop, hloop₂,
        append_assoc, cons_append]

/-- From the start on, the loop lists the nodes as the recursive search finishes them, and it ends
within its bound: further steps change nothing. -/
lemma Closed.postorderLoop_eq_finished (hg : g.Closed) (hstart : start < g.size)
    (h : g.Explores {} [start] t) (extra : Nat) :
    g.postorderLoop (g.size + g.edgeCount + extra) [(start, g.successors start)]
      ((BitSet.empty g.size).insert start) = t.finished := by
  obtain ⟨t, hbelow, rfl⟩ := explores_singleton_iff.mp h
  have hseen (m : Nat) : ((BitSet.empty g.size).insert start).contains m ↔ m ∈ [start] := by
    rw [BitSet.contains_insert, BitSet.contains_empty, Bool.false_or, decide_eq_true_eq,
      mem_singleton]
    exact and_iff_left_of_imp fun hm => hm ▸ hstart
  obtain ⟨seen, new, -, -, hnew, hloop⟩ := hbelow.postorderLoop_eq hg
    (BitSet.capacity_insert _ _) hseen (hg start) start [] extra
  have hwork := unseenWork_insert (BitSet.empty g.size) rfl hstart (by simp)
  have hsteps : g.size + g.edgeCount + extra = frameWork [(start, g.successors start)] +
      g.unseenWork ((BitSet.empty g.size).insert start) + extra := by
    rw [← unseenWork_empty, hwork]
    rfl
  have hlast : frameWork [(start, [])] + g.unseenWork seen + extra =
      g.unseenWork seen + extra + 1 := by
    change 0 + 1 + 0 + _ + _ = _
    omega
  rw [hsteps, hloop, hlast, Tour.finish, hnew]
  cases g.unseenWork seen + extra with
  | zero => rfl
  | succ k => rfl

/-! ## Edges against the order -/

/-- A node comes after its successors, but for those that it can be reached from. -/
def Grounded (g : Graph) (order : List Nat) : Prop :=
  ∀ before n after, order = before ++ n :: after → ∀ m ∈ g.successors n, m ∈ before ∨ g.Reaches m n

lemma Grounded.snoc (h : g.Grounded order)
    (hn : ∀ m ∈ g.successors n, m ∈ order ∨ g.Reaches m n) : g.Grounded (order ++ [n]) := by
  intro before k after heq
  rcases eq_nil_or_concat after with rfl | ⟨after, l, rfl⟩
  · obtain ⟨rfl, hk⟩ := append_inj' heq rfl
    obtain rfl : n = k := by simpa using hk
    exact hn
  · rw [concat_eq_append, ← cons_append, ← append_assoc] at heq
    exact h before k after (append_inj' heq rfl).1

/-- A successor of a node that is being finished has been finished before, or is active.  What is
active leads to the nodes that are being visited. -/
lemma Explores.grounded (h : g.Explores s ns t) (hs : s.Sound g)
    (hreach : ∀ a, s.Active a → ∀ n ∈ ns, g.Reaches a n) (hgrounded : g.Grounded s.finished) :
    g.Grounded t.finished := by
  induction h with
  | done => exact hgrounded
  | pass _ _ ih => exact ih hs (fun a ha n hn => hreach a ha n (.tail _ hn)) hgrounded
  | @visit s t u m ms hnew hbelow _ ihbelow ihrest =>
    have henter := Tour.active_enter_iff hs.subset hnew
    have hactive (a : Nat) (ha : (s.enter m).Active a) : g.Reaches a m := by
      rcases (henter a).mp ha with ha | rfl
      · exact hreach a ha m (.head _)
      · exact .refl
    obtain ⟨ht, hsame⟩ := hbelow.sound (hs.enter m)
    have hm : t.Active m := (hsame m).mpr ((henter m).mpr (.inr rfl))
    have hground := ihbelow (hs.enter m) (fun a ha n hn => (hactive a ha).tail hn) hgrounded
    refine ihrest (ht.finish hm hbelow.mem_entered) (fun a ha n hn => ?_)
      (hground.snoc fun k hk => ?_)
    · exact hreach a ((Tour.active_finish_iff hnew hsame a).mp ha) n (.tail _ hn)
    · by_cases hfinished : k ∈ t.finished
      · exact .inl hfinished
      · exact .inr (hactive k ((hsame k).mp ⟨hbelow.mem_entered hk, hfinished⟩))

lemma Grounded.reaches_of_idxOf_le (h : g.Grounded order) {m : Nat}
    (hn : n ∈ order) (hedge : m ∈ g.successors n) (hle : order.idxOf n ≤ order.idxOf m) :
    g.Reaches m n := by
  obtain ⟨before, after, rfl, hfirst⟩ := eq_append_cons_of_mem hn
  rcases h before n after rfl m hedge with hm | hreach
  · have hlt := idxOf_lt_length_of_mem hm
    rw [idxOf_append_of_notMem hfirst, idxOf_append_of_mem hm] at hle
    omega
  · exact hreach

section

variable (hg : g.Closed) (hstart : start < g.size)
include hg hstart

lemma Closed.exists_postorder_eq :
    ∃ t, g.Explores {} [start] t ∧ g.postorder start = t.finished := by
  obtain ⟨t, ht⟩ : ∃ t, g.Explores {} [start] t :=
    hg.exists_explores {} (forall_mem_singleton.mpr hstart)
  refine ⟨t, ht, ?_⟩
  rw [postorder, if_pos hstart]
  exact hg.postorderLoop_eq_finished hstart ht 0

lemma Closed.nodup_postorder : (g.postorder start).Nodup := by
  obtain ⟨t, ht, hpost⟩ := hg.exists_postorder_eq hstart
  exact hpost ▸ (ht.sound (.empty g)).1.nodup

lemma Closed.mem_postorder_iff : n ∈ g.postorder start ↔ g.Reaches start n := by
  obtain ⟨t, ht, hpost⟩ := hg.exists_postorder_eq hstart
  exact hpost ▸ ht.mem_finished_iff

lemma Closed.last_postorder : (g.postorder start).getLast? = some start := by
  obtain ⟨t, ht, hpost⟩ := hg.exists_postorder_eq hstart
  exact hpost ▸ ht.last_finished

lemma Closed.reversePostorder_eq :
    ∃ rest, g.reversePostorder start = start :: rest ∧ (start :: rest).Nodup ∧
      ∀ n, n ∈ start :: rest ↔ g.Reaches start n := by
  have hhead : (g.reversePostorder start).head? = some start := by
    rw [reversePostorder, List.head?_reverse, hg.last_postorder hstart]
  obtain ⟨rest, hrest⟩ := List.head?_eq_some_iff.mp hhead
  refine ⟨rest, hrest, ?_, fun n => ?_⟩
  · rw [← hrest, reversePostorder, (reverse_perm _).nodup_iff]
    exact hg.nodup_postorder hstart
  · rw [← hrest, reversePostorder, mem_reverse, hg.mem_postorder_iff hstart]

/-- The post-order ends within the bound on its steps.  It lists what can be reached from its start,
each node once and the start last, in the order in which the recursive search finishes the nodes.
An edge leads on in it only to a node from which its source can be reached. -/
theorem Closed.postorder_finishing_order :
    (∀ extra, g.postorderLoop (g.size + g.edgeCount + extra) [(start, g.successors start)]
        ((BitSet.empty g.size).insert start) = g.postorder start) ∧
      (g.postorder start).Nodup ∧ (∀ n, n ∈ g.postorder start ↔ g.Reaches start n) ∧
      (g.postorder start).getLast? = some start ∧
      (∃ t, (∀ u, g.Explores {} [start] u ↔ u = t) ∧ g.postorder start = t.finished) ∧
      ∀ u ∈ g.postorder start, ∀ v ∈ g.postorder start, v ∈ g.successors u →
        (g.postorder start).idxOf u ≤ (g.postorder start).idxOf v → g.Reaches v u := by
  obtain ⟨t, ht, hpostorder⟩ := hg.exists_postorder_eq hstart
  have hgrounded : g.Grounded t.finished := ht.grounded (.empty g)
    (fun a ha => absurd ha.1 not_mem_nil) fun before n after h => absurd h (by simp)
  refine ⟨fun extra => (hg.postorderLoop_eq_finished hstart ht extra).trans hpostorder.symm,
    hg.nodup_postorder hstart, fun n => hg.mem_postorder_iff hstart, hg.last_postorder hstart,
    ⟨t, fun u => ⟨fun hu => hu.unique ht, fun hu => hu ▸ ht⟩, hpostorder⟩, ?_⟩
  intro u hu v _ hedge hle
  rw [hpostorder] at hu hle
  exact hgrounded.reaches_of_idxOf_le hu hedge hle

end

/-- Parallel edges into a cycle that has a way out. -/
def knot : Graph where
  succs := #[[1, 2, 1], [2], [1, 3], []]
  preds := #[[], [0, 0, 2], [0, 1], [2]]
  entry := 0

theorem postorder_finishing_order_knot :
    knot.postorder 0 = [3, 2, 1, 0] ∧
      (∃ t, knot.Explores {} [0] t ∧ t.finished = [3, 2, 1, 0]) ∧ knot.Reaches 1 2 := by
  have horder : knot.postorder 0 = [3, 2, 1, 0] := by decide
  have hclosed : knot.Closed := .of_lt (by decide)
  obtain ⟨-, -, -, -, ⟨t, ht, hfinished⟩, hedges⟩ :=
    hclosed.postorder_finishing_order (show 0 < knot.size by decide)
  refine ⟨horder, ⟨t, (ht t).mpr rfl, hfinished.symm.trans horder⟩, ?_⟩
  rw [horder] at hedges
  exact hedges 2 (by decide) 1 (by decide) (by decide) (by decide)

end MiddleEnd.Graph
