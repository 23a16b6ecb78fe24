import MiddleEnd.CallGraph
import MiddleEnd.Proofs.Graph.Condensation

/-!
# Call graphs

The edges of a call graph are the calls in functions that are in use.  A function is recursive if it
can reach itself through calls.  In the order of the components, a function comes after each of its
callees that is not recursive.
-/

namespace MiddleEnd

open List Graph

/-- The function `f` is in use and has a call of `g` in a live block. -/
def Program.Calls (p : Program) (f g : FuncId) : Prop :=
  (p.func f).isDefined ∧ g ∈ (p.func f).calls

namespace CallGraph

variable {g : Graph} {p : Program} {c : CallGraph}

/-! ## Edges -/

lemma mem_successors_addEdge {s t : Nat} (hs : s < g.size) (a b : Nat) :
    b ∈ (g.addEdge s t).successors a ↔ b ∈ g.successors a ∨ b = t ∧ a = s := by
  rw [successors, addEdge, mem_getD_modify]
  exact or_congr_right (and_congr_right fun _ => and_iff_left hs)

lemma addCall_eq_ok {h : Graph} {s t : Nat} (hg : g.Paired) (hok : addCall g s t = .ok h) :
    h.Paired ∧ h.size = g.size ∧ ∀ a b, b ∈ h.successors a ↔ b ∈ g.successors a ∨ b = t ∧ a = s := by
  rw [addCall] at hok
  split at hok
  · next hedge =>
    obtain rfl := Except.ok.inj hok
    refine ⟨hg, rfl, fun a b => (or_iff_left_of_imp ?_).symm⟩
    rintro ⟨rfl, rfl⟩
    exact contains_iff_mem.mp hedge
  · obtain ⟨hs, ht, rfl⟩ := addEdge?_eq_ok.mp hok
    exact ⟨hg.addEdge hs ht, Array.size_modify, mem_successors_addEdge hs⟩

lemma foldlM_addCall {edges : List (Nat × Nat)} {h : Graph} (hg : g.Paired)
    (hok : edges.foldlM (fun g (s, t) => addCall g s t) g = .ok h) :
    h.Paired ∧ h.size = g.size ∧
      ∀ a b, b ∈ h.successors a ↔ b ∈ g.successors a ∨ (a, b) ∈ edges := by
  induction edges generalizing g with
  | nil =>
    obtain rfl := Except.ok.inj hok
    exact ⟨hg, rfl, fun a b => by simp⟩
  | cons e edges ih =>
    obtain ⟨s, t⟩ := e
    rw [foldlM_cons] at hok
    dsimp only at hok
    cases hm : addCall g s t with
    | error e =>
      rw [hm] at hok
      cases hok
    | ok m =>
      rw [hm] at hok
      obtain ⟨hpaired, hsize, hmem⟩ := addCall_eq_ok hg hm
      obtain ⟨hpaired', hsize', hmem'⟩ := ih hpaired hok
      refine ⟨hpaired', hsize'.trans hsize, fun a b => ?_⟩
      rw [hmem', hmem, mem_cons, Prod.mk.injEq, or_assoc, and_comm]

lemma exists_foldlM_addCall (edges : List (Nat × Nat)) (hg : g.Paired)
    (hedges : ∀ e ∈ edges, e.1 < g.size ∧ e.2 < g.size) :
    ∃ h, edges.foldlM (fun g (s, t) => addCall g s t) g = .ok h := by
  induction edges generalizing g with
  | nil => exact ⟨g, rfl⟩
  | cons e edges ih =>
    obtain ⟨s, t⟩ := e
    rw [forall_mem_cons] at hedges
    obtain ⟨h, hok⟩ : ∃ h, addCall g s t = .ok h := by
      rw [addCall]
      split
      · exact ⟨_, rfl⟩
      · exact ⟨_, addEdge?_eq_ok.mpr ⟨hedges.1.1, hedges.1.2, rfl⟩⟩
    obtain ⟨hpaired, hsize, -⟩ := addCall_eq_ok hg hok
    rw [foldlM_cons]
    dsimp only
    rw [hok]
    exact ih hpaired (hsize ▸ hedges.2)

structure Of (p : Program) (c : CallGraph) : Prop where
  closed : c.graph.Closed
  size : c.graph.size = p.funcs.size
  mem_successors : ∀ f g : FuncId, g.idx ∈ c.graph.successors f.idx ↔ p.Calls f g
  partition : c.graph.Partition c.components

lemma paired_discrete (n : Nat) : (discrete n).Paired :=
  (built_discrete n).paired

lemma of_eq_ok (h : ofProgram p = .ok c) : Of p c := by
  rw [ofProgram] at h
  generalize hedges : (p.funcIds.flatMap fun f => if (p.func f).isDefined then
    (p.func f).calls.map fun c => (f.idx, c.idx) else []) = edges at h
  cases hgraph : edges.foldlM (fun g (s, t) => addCall g s t) (Graph.discrete p.funcs.size) with
  | error e =>
    rw [hgraph] at h
    cases h
  | ok g =>
    rw [hgraph] at h
    obtain rfl : { graph := g, components := g.components } = c := Except.ok.inj h
    obtain ⟨hpaired, hsize, hmem⟩ := foldlM_addCall (paired_discrete _) hgraph
    refine ⟨hpaired.closed, hsize.trans Array.size_replicate, fun f k => ?_,
      hpaired.closed.partition_components⟩
    have hnil : k.idx ∉ (Graph.discrete p.funcs.size).successors f.idx := by
      rw [Graph.successors, Graph.discrete, Array.getD_eq_getD_getElem?, Array.getElem?_replicate]
      split <;> simp
    rw [hmem, or_iff_right hnil, ← hedges, mem_flatMap]
    constructor
    · rintro ⟨f', hf', hcall⟩
      split at hcall
      · next hdef =>
        obtain ⟨k', hk', heq⟩ := mem_map.mp hcall
        obtain ⟨hf, hk⟩ := Prod.mk.inj heq
        obtain rfl : f' = f := congrArg FuncId.mk hf
        obtain rfl : k' = k := congrArg FuncId.mk hk
        exact ⟨hdef, hk'⟩
      · cases hcall
    · rintro ⟨hdef, hcall⟩
      refine ⟨f, ?_, by rw [if_pos hdef]; exact mem_map_of_mem hcall⟩
      rw [Program.funcIds, mem_map]
      refine ⟨f.idx, mem_range.mpr ?_, rfl⟩
      by_contra hlt
      have hdefault : p.func f = default := by
        rw [Program.func, Array.getD_eq_getD_getElem?, Array.getElem?_eq_none (Nat.le_of_not_lt hlt)]
        rfl
      rw [hdefault] at hcall
      cases hcall

lemma exists_ofProgram (hcalls : ∀ f g, p.Calls f g → p.hasFunc g) :
    ∃ c, ofProgram p = .ok c := by
  obtain ⟨h, hok⟩ := exists_foldlM_addCall (p.funcIds.flatMap fun f =>
      if (p.func f).isDefined then (p.func f).calls.map fun c => (f.idx, c.idx) else [])
    (paired_discrete p.funcs.size) fun e he => by
      obtain ⟨f, hf, he⟩ := mem_flatMap.mp he
      obtain ⟨n, hn, rfl⟩ := mem_map.mp hf
      split at he
      · next hdef =>
        obtain ⟨g, hg, rfl⟩ := mem_map.mp he
        have hhas := hcalls ⟨n⟩ g ⟨hdef, hg⟩
        have hsize : (Graph.discrete p.funcs.size).size = p.funcs.size := by
          simp [Graph.discrete, Graph.size]
        rw [hsize]
        exact ⟨mem_range.mp hn, by simpa [Program.hasFunc] using hhas⟩
      · cases he
  rw [ofProgram]
  rw [hok]
  exact ⟨_, rfl⟩

lemma isRecursive_of_mem {f : FuncId} {component : List Nat} (hcomp : component ∈ c.components)
    (hf : f.idx ∈ component) (hcyclic : c.graph.isCyclic component f.idx) :
    c.isRecursive f :=
  any_eq_true.mpr ⟨component, hcomp, by rw [contains_iff_mem.mpr hf, hcyclic]; rfl⟩

namespace Of

variable {f : FuncId}

variable (h : Of p c)

include h

lemma reaches_iff {g : FuncId} :
    c.graph.Reaches f.idx g.idx ↔ Relation.ReflTransGen p.Calls f g := by
  constructor
  · intro hreach
    generalize hn : g.idx = n at hreach
    induction hreach generalizing g with
    | refl =>
      obtain rfl : g = f := congrArg FuncId.mk hn
      exact .refl
    | @tail m n _ hedge ih =>
      subst hn
      exact (ih rfl).tail ((h.mem_successors ⟨m⟩ g).mp hedge)
  · intro hreach
    induction hreach with
    | refl => exact .refl
    | tail _ hcall ih => exact ih.tail ((h.mem_successors _ _).mpr hcall)

lemma exists_component (hf : f.idx < p.funcs.size) :
    ∃ before component after, c.components = before ++ component :: after ∧ f.idx ∈ component := by
  have hmem := (h.partition.mem_iff f.idx).mpr (h.size.symm ▸ hf)
  obtain ⟨component, hcomp, hf⟩ := mem_flatten.mp hmem
  obtain ⟨before, after, heq⟩ := append_of_mem hcomp
  exact ⟨before, component, after, heq, hf⟩

lemma transGen_of_isRecursive (hf : c.isRecursive f) : Relation.TransGen p.Calls f f := by
  obtain ⟨component, hcomp, hcyclic⟩ := any_eq_true.mp hf
  obtain ⟨hmem, hcyclic⟩ := Bool.and_eq_true_iff.mp hcyclic
  rw [contains_iff_mem] at hmem
  have hcycle := h.partition.transGen_of_isCyclic hcomp hmem hcyclic
  obtain ⟨n, hedge, hback⟩ := Relation.TransGen.head'_iff.mp hcycle
  exact .head' ((h.mem_successors f ⟨n⟩).mp hedge) ((h.reaches_iff (f := ⟨n⟩)).mp hback)

/-! ## Callees first -/

lemma nodup_bottomUp : c.bottomUp.Nodup :=
  h.partition.nodup.map fun _ _ heq => congrArg FuncId.idx heq

lemma mem_bottomUp : f ∈ c.bottomUp ↔ f.idx < p.funcs.size := by
  rw [← h.size, ← h.partition.mem_iff, bottomUp, mem_map]
  constructor
  · grind
  · exact fun hf => ⟨f.idx, hf, rfl⟩

lemma mem_before {before after : List FuncId} {g : FuncId}
    (horder : c.bottomUp = before ++ f :: after) (hcall : p.Calls f g)
    (hg : c.isRecursive g = false) : g ∈ before := by
  have hlt : f.idx < p.funcs.size := h.mem_bottomUp.mp (by rw [horder]; simp)
  obtain ⟨earlier, component, later, heq, hf⟩ := h.exists_component hlt
  obtain ⟨l, r, hsplit⟩ := append_of_mem hf
  have hflat : c.bottomUp = (earlier.flatten ++ l).map FuncId.mk ++
      f :: (r ++ later.flatten).map FuncId.mk := by
    rw [bottomUp, heq, hsplit]
    simp
  -- the function is listed once
  have hnd := h.nodup_bottomUp
  rw [horder, nodup_append, nodup_cons] at hnd
  have hnot : f ∉ before := fun hf => hnd.2.2 f hf f (.head _) rfl
  obtain ⟨rfl, -⟩ := (append_cons_inj_of_notMem hnot hnd.2.1.1).mp (horder.symm.trans hflat)
  have hedge := (h.mem_successors f g).mpr hcall
  rcases h.partition.ordered earlier component later heq f.idx hf g.idx hedge with hg' | hg'
  · exact mem_map.mpr ⟨g.idx, mem_append_left _ hg', rfl⟩
  · -- in one component with its caller it would be recursive
    have hmem : component ∈ c.components := by rw [heq]; simp
    rw [← Bool.not_eq_true] at hg
    refine absurd (isRecursive_of_mem hmem hg' ?_) hg
    refine h.partition.isCyclic_of_transGen h.closed hmem hg' ?_
    exact .tail' (h.partition.connected component hmem g.idx hg' f.idx hf) hedge

end Of

end CallGraph

end MiddleEnd
