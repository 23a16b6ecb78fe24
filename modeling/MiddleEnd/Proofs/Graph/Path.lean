import Mathlib.Logic.Equiv.List

/-!
# Paths from a root and dominance

A path from the root is written with its last node first, so that it grows and is cut at the head.
A node dominates another one if it is on every path to it.  Among the strict dominators of a node
there is a closest one, which all the others dominate.

The last part is about values that are set in some nodes and merged in others.  If a node merges
wherever dominance by a setting or merging node ends, then nothing is set or merged between a node
that does not merge and its closest strict dominator.  No path enters the stretch from elsewhere,
and the value at its start is the value at its end.
-/

namespace MiddleEnd

open List

section Trails

variable {α : Type} {edge : α → α → Prop} {root a c : α}

/-- The nodes of a path from the root, the last one first. -/
inductive Trail (edge : α → α → Prop) (root : α) : List α → Prop
  | root : Trail edge root [root]
  | step {a b : α} {l : List α} : Trail edge root (a :: l) → edge a b →
    Trail edge root (b :: a :: l)

namespace Trail

variable {l : List α} {b : α}

lemma of_append {q : List α} (h : Trail edge root (q ++ a :: l)) :
    Trail edge root (a :: l) := by
  induction q with
  | nil => exact h
  | cons b q ih =>
    cases q with
    | nil =>
      cases h with
      | step h _ => exact h
    | cons c q =>
      cases h with
      | step h _ => exact ih h

lemma splice {q m : List α} (h : Trail edge root (q ++ a :: l))
    (h' : Trail edge root (a :: m)) : Trail edge root (q ++ a :: m) := by
  induction q with
  | nil => exact h'
  | cons b q ih =>
    cases q with
    | nil =>
      cases h with
      | step _ hedge => exact .step h' hedge
    | cons c q =>
      cases h with
      | step h hedge => exact .step (ih h) hedge

lemma append_walk {q r : List α} (h : Trail edge root (a :: r))
    (hq : (a :: q).IsChain edge) : Trail edge root (q.reverse ++ a :: r) := by
  induction q generalizing a r with
  | nil => exact h
  | cons b q ih =>
    obtain ⟨hedge, hq⟩ := isChain_cons_cons.mp hq
    rw [reverse_cons, append_assoc]
    exact ih (h.step hedge) hq

lemma root_mem (h : Trail edge root l) : root ∈ l := by
  induction h with
  | root => exact mem_singleton_self root
  | step _ _ ih => exact .tail _ ih

lemma exists_simple (h : Trail edge root (b :: l)) :
    ∃ m, Trail edge root (b :: m) ∧ b ∉ m := by
  induction hn : l.length using Nat.strongRecOn generalizing l with
  | _ n ih =>
    by_cases hb : b ∈ l
    · obtain ⟨q, m, rfl⟩ := append_of_mem hb
      have hlt : m.length < n := by grind
      exact ih m.length hlt (of_append (q := b :: q) h) rfl
    · exact ⟨l, h, hb⟩

lemma exists_iff :
    (∃ l, Trail edge root (b :: l)) ↔ Relation.ReflTransGen edge root b := by
  constructor
  · rintro ⟨l, h⟩
    generalize hm : b :: l = m at h
    induction h generalizing b l with
    | root => grind
    | step _ hedge ih => grind
  · intro h
    induction h with
    | refl => exact ⟨[], .root⟩
    | tail _ hedge ih =>
      obtain ⟨l, hl⟩ := ih
      exact ⟨_, .step hl hedge⟩

end Trail

/-! ## Dominance -/

def Dominates (edge : α → α → Prop) (root a b : α) : Prop :=
  ∀ l, Trail edge root (b :: l) → a ∈ b :: l

def StrictlyDominates (edge : α → α → Prop) (root a b : α) : Prop :=
  Dominates edge root a b ∧ a ≠ b

def ImmediatelyDominates (edge : α → α → Prop) (root d b : α) : Prop :=
  StrictlyDominates edge root d b ∧ ∀ a, StrictlyDominates edge root a b → Dominates edge root a d

namespace Dominates

lemma refl (a : α) : Dominates edge root a a :=
  fun _ _ => (.head _)

lemma of_root (b : α) : Dominates edge root root b :=
  fun _ h => h.root_mem

lemma trans {b : α} (hab : Dominates edge root a b) (hbc : Dominates edge root b c) :
    Dominates edge root a c := by
  intro l hl
  obtain ⟨q, m, hm⟩ := append_of_mem (hbc l hl)
  rw [hm] at hl ⊢
  exact mem_append_right q (hab m hl.of_append)

lemma exists_trail {b : α} (hab : Dominates edge root a b)
    (hb : ∃ l, Trail edge root (b :: l)) : ∃ l, Trail edge root (a :: l) := by
  obtain ⟨l, hl⟩ := hb
  obtain ⟨q, m, hm⟩ := append_of_mem (hab l hl)
  exact ⟨m, (hm ▸ hl).of_append⟩

lemma antisymm {b : α} (hab : Dominates edge root a b) (hba : Dominates edge root b a)
    {l : List α} (hl : Trail edge root (b :: l)) : a = b := by
  obtain ⟨m, hm, hb⟩ := hl.exists_simple
  rcases mem_cons.mp (hab m hm) with heq | ha
  · exact heq
  · obtain ⟨q, r, rfl⟩ := append_of_mem ha
    have hsuffix := Trail.of_append (q := b :: q) hm
    exact absurd (mem_append_right q (hba r hsuffix)) hb

lemma of_edge {p b : α} (h : Dominates edge root a b) (hne : a ≠ b) (hedge : edge p b) :
    Dominates edge root a p := by
  intro l hl
  rcases mem_cons.mp (h _ (hl.step hedge)) with heq | ha
  · exact absurd heq hne
  · exact ha

end Dominates

lemma StrictlyDominates.trans_left {b : α} (hab : Dominates edge root a b)
    (hbc : StrictlyDominates edge root b c) {l : List α} (hl : Trail edge root (c :: l)) :
    StrictlyDominates edge root a c := by
  refine ⟨hab.trans hbc.1, ?_⟩
  rintro rfl
  exact hbc.2 (hbc.1.antisymm hab hl)

namespace ImmediatelyDominates

variable {l : List α} {d b : α} {q r : List α}

lemma exists_of_trail {b : α} (h : Trail edge root (b :: l)) (hb : b ≠ root) :
    ∃ d, ImmediatelyDominates edge root d b := by
  classical
  have hroot : root ∈ l := by
    rcases mem_cons.mp h.root_mem with heq | hmem
    · exact absurd heq.symm hb
    · exact hmem
  -- the strict dominator that the path has visited last
  obtain ⟨d, hd⟩ : ∃ d, l.find? (fun d => decide (StrictlyDominates edge root d b)) = some d := by
    refine Option.isSome_iff_exists.mp (List.find?_isSome.mpr ⟨root, hroot, ?_⟩)
    exact decide_eq_true ⟨.of_root b, hb.symm⟩
  obtain ⟨hsdom, q, r, rfl, hq⟩ := List.find?_eq_some_iff_append.mp hd
  refine ⟨d, of_decide_eq_true hsdom, fun a ha m hm => ?_⟩
  have hspliced : Trail edge root (b :: (q ++ d :: m)) := Trail.splice (q := b :: q) h hm
  rcases mem_cons.mp (ha.1 _ hspliced) with rfl | hmem
  · exact absurd rfl ha.2
  · grind

lemma unique {d e b : α} (hd : ImmediatelyDominates edge root d b)
    (he : ImmediatelyDominates edge root e b) (hl : Trail edge root (b :: l)) :
    d = e := by
  obtain ⟨q, r, hr⟩ := append_of_mem (he.1.1 l hl)
  rw [hr] at hl
  exact (he.2 d hd.1).antisymm (hd.2 e he.1) hl.of_append

/-- Below a strict dominator of a node there is one branch of the dominator tree with that node. -/
lemma exists_below {b x : α} (h : StrictlyDominates edge root b x)
    (hl : Trail edge root (x :: l)) :
    ∃ c, ImmediatelyDominates edge root b c ∧ Dominates edge root c x := by
  induction hn : l.length using Nat.strongRecOn generalizing x l with
  | _ n ih =>
    have hx : x ≠ root := by
      rintro rfl
      exact h.2 (mem_singleton.mp (h.1 [] .root))
    obtain ⟨d, hd⟩ := exists_of_trail hl hx
    by_cases hbd : b = d
    · exact ⟨x, hbd ▸ hd, .refl x⟩
    · have hmem : d ∈ l := (mem_cons.mp (hd.1.1 l hl)).resolve_left hd.1.2
      obtain ⟨q, r, rfl⟩ := append_of_mem hmem
      have hlt : r.length < n := by grind
      obtain ⟨c, hbc, hcd⟩ := ih r.length hlt ⟨hd.2 b h, hbd⟩ (Trail.of_append (q := x :: q) hl) rfl
      exact ⟨c, hbc, hcd.trans hd.1.1⟩

/-- All nodes on the way from the closest strict dominator have it as a strict dominator. -/
lemma strictlyDominates_of_mem (h : ImmediatelyDominates edge root d b)
    (htrail : Trail edge root (b :: q ++ d :: r)) (hd : d ∉ q) (hc : c ∈ b :: q) :
    StrictlyDominates edge root d c := by
  obtain ⟨q₁, q₂, hq⟩ := append_of_mem hc
  have hnot : d ∉ b :: q := not_mem_cons_of_ne_of_not_mem h.1.2 hd
  refine ⟨fun m hm => ?_, fun heq => hnot (heq ▸ hc)⟩
  rw [hq, append_assoc] at htrail
  have hother := Trail.splice htrail hm
  -- the other path to `c` gives one to `b`, which `d` is on, but not after `c`
  have hmem : d ∈ q₁ ++ c :: m := by
    cases q₁ with
    | nil =>
      obtain ⟨rfl, -⟩ := List.cons.inj hq
      exact h.1.1 m hother
    | cons x q₁ =>
      obtain ⟨rfl, -⟩ := List.cons.inj hq
      exact h.1.1 _ hother
  rcases mem_append.mp hmem with hmem | hmem
  · exact absurd (hq ▸ mem_append_left _ hmem) hnot
  · exact hmem

lemma not_strictlyDominates_of_mem (h : ImmediatelyDominates edge root d b)
    (htrail : Trail edge root (b :: q ++ d :: r)) (hd : d ∉ q) (hc : c ∈ q) :
    ¬ StrictlyDominates edge root c b := by
  intro hcb
  have hdc := h.strictlyDominates_of_mem htrail hd (.tail b hc)
  obtain ⟨q₁, q₂, rfl⟩ := append_of_mem hc
  have hsuffix : Trail edge root (c :: (q₂ ++ d :: r)) := by
    refine Trail.of_append (q := b :: q₁) ?_
    simpa using htrail
  exact hdc.2 (hdc.1.antisymm (h.2 c hcb) hsuffix)

end ImmediatelyDominates

/-! ## Where dominance ends -/

/-- `y` is where dominance by `x` ends: it comes right after a node that `x` dominates, but `x` does
not strictly dominate it. -/
def InFrontier (edge : α → α → Prop) (root x y : α) : Prop :=
  ∃ p, edge p y ∧ (∃ l, Trail edge root (p :: l)) ∧ Dominates edge root x p ∧
    ¬ StrictlyDominates edge root x y

/-- Dominance does not end at a node with one predecessor, unless that is the root. -/
lemma Dominates.exists_other_edge {x y p : α} (hx : Dominates edge root x p)
    (hp : ∃ l, Trail edge root (p :: l)) (hedge : edge p y)
    (hnot : ¬ StrictlyDominates edge root x y) (hroot : y ≠ root) :
    ∃ p', p' ≠ p ∧ (∃ l, Trail edge root (p' :: l)) ∧ edge p' y := by
  by_contra hnone
  push Not at hnone
  have hbefore {l : List α} (hl : Trail edge root (y :: l)) :
      ∃ m, l = p :: m ∧ Trail edge root (p :: m) := by
    cases hl with
    | root => exact absurd rfl hroot
    | @step a _ m htrail hay =>
      obtain rfl : a = p := by_contra fun hne => hnone a hne ⟨m, htrail⟩ hay
      exact ⟨m, rfl, htrail⟩
  refine hnot ⟨fun l hl => ?_, ?_⟩
  · obtain ⟨m, rfl, htrail⟩ := hbefore hl
    exact .tail y (hx m htrail)
  · rintro rfl
    obtain ⟨l, hl⟩ := hp
    obtain ⟨m, hm, hnew⟩ := (hl.step hedge).exists_simple
    obtain ⟨m', rfl, htrail⟩ := hbefore hm
    exact hnew (hx m' htrail)

/-- A path from `c` to a node that `c` does not strictly dominate visits the frontier of `c`. -/
lemma Trail.exists_inFrontier {b : α} {q r : List α}
    (h : Trail edge root (b :: q ++ c :: r)) (hb : ¬ StrictlyDominates edge root c b) :
    ∃ y ∈ b :: q, InFrontier edge root c y := by
  induction q generalizing b with
  | nil =>
    cases h with
    | step htrail hedge =>
      exact ⟨b, .head _, c, hedge, ⟨r, htrail⟩, .refl c, hb⟩
  | cons z q ih =>
    cases h with
    | step htrail hedge =>
      by_cases hz : Dominates edge root c z
      · exact ⟨b, .head _, z, hedge, ⟨_, htrail⟩, hz, hb⟩
      · obtain ⟨y, hy, hfront⟩ := ih htrail fun hsdom => hz hsdom.1
        exact ⟨y, .tail b hy, hfront⟩

/-- If `merges` holds wherever dominance by a setting or merging node ends, then nothing is set or
merged on the way from its closest strict dominator to a node that does not merge. -/
lemma ImmediatelyDominates.not_sets_of_mem {sets merges : α → Prop}
    (hclosed : ∀ x y, sets x ∨ merges x → InFrontier edge root x y → merges y) {d b : α}
    (h : ImmediatelyDominates edge root d b) (hb : ¬ merges b) {q r : List α}
    (htrail : Trail edge root (b :: q ++ d :: r)) (hd : d ∉ q) :
    ∀ c ∈ q, ¬ (sets c ∨ merges c) := by
  classical
  by_contra hnot
  push Not at hnot
  -- the last node on the way that sets or merges
  obtain ⟨c, hc⟩ : ∃ c, q.find? (fun c => decide (sets c ∨ merges c)) = some c := by
    obtain ⟨c, hcq, hc⟩ := hnot
    exact Option.isSome_iff_exists.mp (List.find?_isSome.mpr ⟨c, hcq, decide_eq_true hc⟩)
  obtain ⟨hsets, q₁, q₂, rfl, hq₁⟩ := List.find?_eq_some_iff_append.mp hc
  have hcb : ¬ StrictlyDominates edge root c b := h.not_strictlyDominates_of_mem htrail hd (by simp)
  have htrail' : Trail edge root (b :: q₁ ++ c :: (q₂ ++ d :: r)) := by
    simpa using htrail
  obtain ⟨y, hy, hfront⟩ := htrail'.exists_inFrontier hcb
  have hmerges : merges y := hclosed c y (of_decide_eq_true hsets) hfront
  rcases mem_cons.mp hy with rfl | hy
  · exact hb hmerges
  · exact absurd (Or.inr hmerges) (by simpa using hq₁ y hy)

/-! ## Renamed nodes -/

section Map

variable {β : Type} {edge' : β → β → Prop} {l : List α}

lemma Trail.map {φ : α → β} (hφ : ∀ a b, edge a b → edge' (φ a) (φ b))
    (h : Trail edge root l) : Trail edge' (φ root) (l.map φ) := by
  induction h with
  | root => exact .root
  | step _ hedge ih => exact ih.step (hφ _ _ hedge)

variable (e : α ≃ β) (hedge : ∀ a b, edge' (e a) (e b) ↔ edge a b)

include hedge

lemma trail_map_iff : Trail edge' (e root) (l.map e) ↔ Trail edge root l := by
  constructor
  · intro h
    have hback (a b : β) (hab : edge' a b) : edge (e.symm a) (e.symm b) := by
      rw [← hedge, e.apply_symm_apply, e.apply_symm_apply]
      exact hab
    have hmap := h.map hback
    rwa [map_map, e.symm_comp_self, map_id, e.symm_apply_apply] at hmap
  · exact fun h => h.map fun a b hab => (hedge a b).mpr hab

lemma dominates_map_iff {b : α} :
    Dominates edge' (e root) (e a) (e b) ↔ Dominates edge root a b := by
  constructor
  · intro h l hl
    have hmap := h (l.map e) (by rwa [← map_cons, trail_map_iff e hedge])
    rwa [← map_cons, mem_map_of_injective e.injective] at hmap
  · intro h l hl
    obtain ⟨m, rfl⟩ : ∃ m, l = m.map e := ⟨l.map e.symm, by simp⟩
    rw [← map_cons, trail_map_iff e hedge] at hl
    rw [← map_cons, mem_map_of_injective e.injective]
    exact h m hl

lemma strictlyDominates_map_iff {b : α} :
    StrictlyDominates edge' (e root) (e a) (e b) ↔ StrictlyDominates edge root a b := by
  rw [StrictlyDominates, dominates_map_iff e hedge, e.injective.ne_iff, StrictlyDominates]

lemma immediatelyDominates_map_iff {b : α} :
    ImmediatelyDominates edge' (e root) (e a) (e b) ↔ ImmediatelyDominates edge root a b := by
  rw [ImmediatelyDominates, ← e.forall_congr_right,
    ImmediatelyDominates]
  simp only [strictlyDominates_map_iff e hedge, dominates_map_iff e hedge]

lemma inFrontier_map_iff {b : α} :
    InFrontier edge' (e root) (e a) (e b) ↔ InFrontier edge root a b := by
  have htrail (p : α) : (∃ l, Trail edge' (e root) (e p :: l)) ↔ ∃ l, Trail edge root (p :: l) := by
    rw [← (Equiv.listEquivOfEquiv e).exists_congr_right]
    exact exists_congr fun l => trail_map_iff e hedge (l := p :: l)
  rw [InFrontier, ← e.exists_congr_right, InFrontier]
  simp only [hedge, htrail, dominates_map_iff e hedge, strictlyDominates_map_iff e hedge]

end Map

end Trails

end MiddleEnd
