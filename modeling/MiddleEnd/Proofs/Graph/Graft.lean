import MiddleEnd.Proofs.Graph.Path

/-!
# Graphs with a graph put into a node

A node is split into two halves, and a copy of another graph is put between them: the first half leads
to the entry of the copy, and some nodes of the copy lead to the second half, which has the edges out of
the node.

A path in the new graph is one of the old graph with detours through the copy.  So an old node still
dominates what it dominated, the second half dominates what the node strictly dominated, and the copy
has the dominance of the graph copied.
-/

namespace MiddleEnd

open List

variable {α β : Type} {old : α → Bool}

/-- The edges after a copy of the graph `inner` has been put between `site` and its second half. -/
inductive Grafted (edge : α → α → Prop) (inner : β → β → Prop) (entry : β) (leaves : β → Prop)
    (site rest : α) (copy : β → α) : α → α → Prop
  | keep {a b : α} : a ≠ site → edge a b → Grafted edge inner entry leaves site rest copy a b
  | resume {b : α} : edge site b → Grafted edge inner entry leaves site rest copy rest b
  | enter : Grafted edge inner entry leaves site rest copy site (copy entry)
  | inside {c d : β} : inner c d →
    Grafted edge inner entry leaves site rest copy (copy c) (copy d)
  | leave {c : β} : leaves c → Grafted edge inner entry leaves site rest copy (copy c) rest

/-- The old nodes, the second half and the copy are apart from each other. -/
structure Graft (edge : α → α → Prop) (inner : β → β → Prop) (entry : β) (site rest : α)
    (copy : β → α) (old : α → Bool) : Prop where
  site_old : old site
  edge_old : ∀ a b, edge a b → old a ∧ old b
  rest_new : old rest = false
  copy_new : ∀ c, old (copy c) = false
  copy_ne_rest : ∀ c, copy c ≠ rest
  entry_inj : ∀ c, copy entry = copy c → entry = c
  inner_inj : ∀ b c d, inner b c → copy c = copy d → c = d

def homeOf (site : α) (old : α → Bool) (a : α) : α :=
  if old a then a else site

lemma homeOf_of_old {site a : α} (ha : old a) : homeOf site old a = a :=
  if_pos ha

lemma homeOf_of_new {site a : α} (ha : old a = false) : homeOf site old a = site := by
  rw [homeOf, ha]
  rfl

namespace Graft

variable {edge : α → α → Prop} {inner : β → β → Prop} {entry : β} {leaves : β → Prop}
  {site rest root : α} {copy : β → α} {old : α → Bool}

variable (h : Graft edge inner entry site rest copy old) {b : α} {l : List α}
include h

lemma edge_of_old {a : α} (hab : Grafted edge inner entry leaves site rest copy a b)
    (hb : old b) : edge (homeOf site old a) b := by
  cases hab with
  | keep _ hedge => rwa [homeOf_of_old (h.edge_old _ _ hedge).1]
  | resume hedge => rwa [homeOf_of_new h.rest_new]
  | enter => cases (h.copy_new entry).symm.trans hb
  | inside _ => cases (h.copy_new _).symm.trans hb
  | leave _ => cases h.rest_new.symm.trans hb

lemma homeOf_eq_of_new {a : α} (hab : Grafted edge inner entry leaves site rest copy a b)
    (hb : old b = false) : homeOf site old a = site := by
  cases hab with
  | keep _ hedge | resume hedge => cases (h.edge_old _ _ hedge).2.symm.trans hb
  | enter => exact homeOf_of_old h.site_old
  | inside _ | leave _ => exact homeOf_of_new (h.copy_new _)

variable (hroot : old root)
include hroot

lemma trail_filter (hl : Trail (Grafted edge inner entry leaves site rest copy) root (b :: l)) :
    ∃ m, (b :: l).filter old = homeOf site old b :: m ∧ Trail edge root (homeOf site old b :: m) := by
  generalize hm : b :: l = n at hl
  induction hl generalizing b l with
  | root =>
    obtain ⟨rfl, rfl⟩ := cons.inj hm
    rw [homeOf_of_old hroot]
    exact ⟨[], by simp [hroot], .root⟩
  | @step a c n hn hedge ih =>
    obtain ⟨rfl, rfl⟩ := cons.inj hm
    obtain ⟨m, hfilter, htrail⟩ := ih rfl
    cases hb : old b with
    | true =>
      rw [homeOf_of_old hb, filter_cons_of_pos hb, hfilter]
      exact ⟨_, rfl, .step htrail (h.edge_of_old hedge hb)⟩
    | false =>
      rw [homeOf_of_new hb, filter_cons_of_neg (by simp [hb]), hfilter]
      have hsite := h.homeOf_eq_of_new hedge hb
      rw [hsite] at htrail ⊢
      exact ⟨m, rfl, htrail⟩

lemma reaches_home
    (hb : Relation.ReflTransGen (Grafted edge inner entry leaves site rest copy) root b) :
    Relation.ReflTransGen edge root (homeOf site old b) := by
  obtain ⟨l, hl⟩ := Trail.exists_iff.mpr hb
  obtain ⟨m, -, hm⟩ := h.trail_filter hroot hl
  exact Trail.exists_iff.mp ⟨m, hm⟩

lemma dominates_of_home {a : α} (hab : Dominates edge root a (homeOf site old b)) :
    Dominates (Grafted edge inner entry leaves site rest copy) root a b := by
  intro l hl
  obtain ⟨m, hfilter, hm⟩ := h.trail_filter hroot hl
  have ha := hab m hm
  rw [← hfilter] at ha
  exact mem_of_mem_filter ha

/-- A path that has been at the site is still there or has come through the second half. -/
lemma homeOf_eq_or_mem (hl : Trail (Grafted edge inner entry leaves site rest copy) root (b :: l))
    (hsite : site ∈ b :: l) : homeOf site old b = site ∨ rest ∈ b :: l := by
  generalize hm : b :: l = n at hl hsite
  induction hl generalizing b l with
  | root =>
    obtain ⟨rfl, rfl⟩ := cons.inj hm
    obtain rfl := mem_singleton.mp hsite
    exact Or.inl (homeOf_of_old hroot)
  | @step a c n hn hedge ih =>
    obtain ⟨rfl, rfl⟩ := cons.inj hm
    rcases mem_cons.mp hsite with rfl | hsite
    · exact Or.inl (homeOf_of_old h.site_old)
    · rcases ih rfl hsite with hhome | hmem
      · cases hedge with
        | keep hne hedge =>
          rw [homeOf_of_old (h.edge_old _ _ hedge).1] at hhome
          exact absurd hhome hne
        | resume hedge => exact Or.inr (by simp)
        | enter | inside _ => exact Or.inl (homeOf_of_new (h.copy_new _))
        | leave _ => exact Or.inl (homeOf_of_new h.rest_new)
      · exact Or.inr (.tail _ hmem)

lemma dominates_rest (hb : Dominates edge root site b) (hne : b ≠ site) (hold : old b) :
    Dominates (Grafted edge inner entry leaves site rest copy) root rest b := by
  intro l hl
  have hhome : homeOf site old b = b := homeOf_of_old hold
  have hsite := h.dominates_of_home hroot (hhome.symm ▸ hb) l hl
  refine (h.homeOf_eq_or_mem hroot hl hsite).resolve_left fun heq => hne ?_
  rw [← hhome, heq]

lemma exists_inner_trail {d : β}
    (hl : Trail (Grafted edge inner entry leaves site rest copy) root (copy d :: l)) :
    ∃ m, Trail inner entry (d :: m) ∧ (d :: m).map copy ⊆ copy d :: l := by
  generalize hn : copy d :: l = n at hl
  induction hl generalizing d l with
  | root =>
    rw [← (cons.inj hn).1] at hroot
    cases (h.copy_new d).symm.trans hroot
  | @step a c n htrail hedge ih =>
    obtain ⟨rfl, rfl⟩ := cons.inj hn
    generalize hc : copy d = c at hedge
    cases hedge with
    | keep _ hedge | resume hedge =>
      rw [← hc] at hedge
      cases (h.copy_new d).symm.trans (h.edge_old _ _ hedge).2
    | enter =>
      obtain rfl := h.entry_inj d hc.symm
      exact ⟨[], .root, by simp⟩
    | @inside b e hedge =>
      obtain rfl := h.inner_inj b e d hedge hc.symm
      obtain ⟨m, hm, hsub⟩ := ih rfl
      exact ⟨_, .step hm hedge, cons_subset_cons _ hsub⟩
    | leave _ => exact absurd hc (h.copy_ne_rest d)

lemma dominates_copy {c d : β} (hcd : Dominates inner entry c d) :
    Dominates (Grafted edge inner entry leaves site rest copy) root (copy c) (copy d) := by
  intro l hl
  obtain ⟨m, hm, hsub⟩ := h.exists_inner_trail hroot hl
  exact hsub (mem_map_of_mem (hcd m hm))

lemma dominates_rest_of_leaves {c : β} (hc : ∀ d, leaves d → d = c) :
    Dominates (Grafted edge inner entry leaves site rest copy) root (copy c) rest := by
  intro l hl
  generalize hn : rest :: l = n at hl
  cases hl with
  | root =>
    rw [← (cons.inj hn).1] at hroot
    cases h.rest_new.symm.trans hroot
  | @step a b l' _ hedge =>
    obtain ⟨rfl, rfl⟩ := cons.inj hn
    generalize hb : rest = b at hedge
    cases hedge with
    | keep _ hedge =>
      rw [← hb] at hedge
      cases h.rest_new.symm.trans (h.edge_old _ _ hedge).2
    | resume hedge =>
      cases h.rest_new.symm.trans (hb ▸ (h.edge_old _ _ hedge).2)
    | enter | inside _ => exact absurd hb.symm (h.copy_ne_rest _)
    | leave hleaves =>
      rw [hc _ hleaves]
      simp

end Graft

end MiddleEnd
