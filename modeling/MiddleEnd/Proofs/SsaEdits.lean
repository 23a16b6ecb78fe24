import MiddleEnd.Proofs.Ssa

/-!
# Edits that keep SSA form

An edit that takes instructions out of their blocks and changes operands keeps SSA form if what is
left reads only values that are still there and were computed before.  Two edits are of this kind:
removing instructions that nothing else reads, and replacing a value by one that is available
wherever the first one is.
-/

namespace MiddleEnd

open List Instr

/-! ## Operations of the same shape -/

variable {α : Type}

/-- Two operations that differ in their operands only. -/
structure Instr.SameShape (k k' : Instr) : Prop where
  targets : k'.targets = k.targets
  isPhi : k'.isPhi = k.isPhi
  isPendingJump : k'.isPendingJump = k.isPendingJump
  preds : k'.entries.map PhiEntry.block = k.entries.map PhiEntry.block

lemma Instr.SameShape.refl (k : Instr) : k.SameShape k :=
  ⟨rfl, rfl, rfl, rfl⟩

lemma Instr.entries_mapOperands (g : Operand → Operand) (k : Instr) :
    (k.mapOperands g).entries = k.entries.map fun e => { e with value := e.value.map g } := by
  cases k <;> rfl

lemma Instr.sameShape_mapOperands (g : Operand → Operand) (k : Instr) :
    k.SameShape (k.mapOperands g) where
  targets := by cases k <;> rfl
  isPhi := k.isPhi_mapOperands g
  isPendingJump := by cases k <;> rfl
  preds := by
    rw [entries_mapOperands, map_map]
    rfl

/-! ## Fewer instructions -/

lemma filter_mem_of_sublist [DecidableEq α] {l m : List α} (hsub : l.Sublist m)
    (hm : m.Nodup) : m.filter (fun a => decide (a ∈ l)) = l := by
  induction hsub with
  | slnil => rfl
  | @cons l m a hsub ih => grind
  | @cons_cons l m a _ ih =>
    rw [nodup_cons] at hm
    rw [filter_cons_of_pos (by simp)]
    have hsame : m.filter (fun b => decide (b ∈ a :: l)) = m.filter fun b => decide (b ∈ l) := by
      refine filter_congr fun b hb => ?_
      have hne : b ≠ a := fun h => hm.1 (h ▸ hb)
      simp [hne]
    rw [hsame, ih hm.2]

lemma mem_of_sublist_split [DecidableEq α] {l m pre post pre' post' : List α} {a x : α}
    (hsub : l.Sublist m) (hm : m.Nodup) (hl : l = pre ++ a :: post) (hm' : m = pre' ++ a :: post')
    (hx : x ∈ pre') (hxl : x ∈ l) : x ∈ pre := by
  have hfilter := filter_mem_of_sublist hsub hm
  have ha : a ∈ l := by simp [hl]
  have hnd := hm
  rw [hm', nodup_middle, nodup_cons, mem_append, not_or] at hnd
  rw [hm', filter_append, filter_cons_of_pos (by simpa using ha)] at hfilter
  have hsplit := hfilter.trans hl
  rw [append_cons_inj_of_notMem (fun h => hnd.1.1 (mem_filter.mp h).1)
    (fun h => hnd.1.2 (mem_filter.mp h).1)] at hsplit
  rw [← hsplit.1, mem_filter]
  exact ⟨hx, by simpa using hxl⟩

namespace Func

variable {i : InstId} {f g : Func} {b : BlockId} {v : Operand} {opens : InstId → Prop}
  {is : List InstId}

/-- A value that was available, and is still there, is available among the instructions that are
left. -/
lemma Available.of_sublist {pre pre' post post' : List InstId}
    (h : f.Available b pre' v) (hf : f.Consistent) (hg : g.Consistent) (hdom : g.Dom = f.Dom)
    (hsub : (g.instsOf b).Sublist (f.instsOf b)) (hblk : ∀ j, (g.inst j).block = (f.inst j).block)
    (hsplit : g.instsOf b = pre ++ i :: post) (hsplit' : f.instsOf b = pre' ++ i :: post')
    (hdefs : g.defines v) : g.Available b pre v := by
  rintro j rfl
  rcases h j rfl with hmem | ⟨hne, hstrict⟩
  · refine .inl (mem_of_sublist_split hsub (hf.nodup b) hsplit hsplit' hmem ?_)
    have hin : j ∈ f.instsOf b := by simp [hsplit', hmem]
    rw [← hf.block_of_mem hin, ← hblk]
    exact hg.mem_of_live hdefs
  · simp_all

lemma Available.of_sublist_end (h : f.Available b (f.instsOf b) v) (hf : f.Consistent)
    (hg : g.Consistent) (hdom : g.Dom = f.Dom) (hblk : ∀ j, (g.inst j).block = (f.inst j).block)
    (hdefs : g.defines v) : g.Available b (g.instsOf b) v := by
  rintro j rfl
  rcases h j rfl with hmem | ⟨hne, hstrict⟩
  · left
    rw [← hf.block_of_mem hmem, ← hblk]
    exact hg.mem_of_live hdefs
  · simp_all

lemma Available.of_not_reachable (hf : f.Consistent)
    (hb : ¬ f.Reachable b) (hdefs : f.defines v) : f.Available b (f.instsOf b) v := by
  rintro j rfl
  by_cases hj : (f.inst j).block = b
  · exact .inl (hj ▸ hf.mem_of_live hdefs)
  · exact .inr ⟨hj, fun l hl => absurd (exists_path_iff.mp ⟨l, hl⟩) hb⟩

lemma Analyzed.placed_of_operand (hf : f.Analyzed)
    (hform : f.SsaForm opens) (hcomp : f.Complete) {u j : InstId} (hu : f.placed u)
    (hj : .inst j ∈ (f.instr u).operands) : f.placed j := by
  have hcons := hf.consistent
  obtain ⟨b, hb, -⟩ := mem_flatMap.mp (hcons.mem_liveInsts.mpr hu)
  have hent := hf.mem_liveBlocks_of_reachable (ne_nil_of_mem hb) .refl
  exact hform.placed_of_operand hcons hcomp hent hf.reachable hu hj

/-- What an edit has to respect to keep SSA form: instructions may go, the others keep their shape,
and what they read now is there and was available in `f`. -/
structure Trims (f g : Func) : Prop where
  liveBlocks : g.liveBlocks = f.liveBlocks
  edge : g.Edge = f.Edge
  block : ∀ i, (g.inst i).block = (f.inst i).block
  sublist : ∀ b, (g.instsOf b).Sublist (f.instsOf b)
  shape : ∀ b ∈ f.liveBlocks, ∀ i ∈ g.instsOf b, (f.instr i).SameShape (g.instr i)
  entry : ∀ i ∈ g.instsOf ⟨0⟩, (g.instr i).isPhi = false
  filled : ∀ b ∈ f.liveBlocks, ∀ i ∈ g.instsOf b, ∀ e ∈ (g.instr i).entries, e.value ≠ none
  complete : g.Complete
  dominated : ∀ b ∈ f.liveBlocks, f.Reachable b → ∀ pre i post, f.instsOf b = pre ++ i :: post →
    i ∈ g.instsOf b → (f.instr i).isPhi = false → ∀ v ∈ (g.instr i).operands, f.Available b pre v
  flows : ∀ b ∈ f.liveBlocks, f.Reachable b → ∀ i ∈ g.instsOf b, ∀ e ∈ (g.instr i).entries,
    ∀ v, e.value = some v → f.Available e.block (f.instsOf e.block) v

lemma Trims.ssaForm (h : f.Trims g) (hform : f.SsaForm opens)
    (hf : f.Formed) (hg : g.Formed) : g.SsaForm fun _ => False := by
  have hdom : g.Dom = f.Dom := dom_congr h.edge
  refine ⟨fun b hb i hi => ?_, fun b hb c hc => ?_, h.entry, fun b hb i hi hphi => ?_,
    fun b hb i hi _ => ?_, fun b hb hreach pre i post hsplit hphi v hv => ?_,
    fun b hb hreach i hi e he v hv => ?_⟩
  · rw [h.liveBlocks] at hb
    rw [(h.shape b hb i hi).isPendingJump]
    exact hform.resolved b hb i ((h.sublist b).mem hi)
  · obtain ⟨i, hi, hc⟩ := (hg.mem_targets hb).mp hc
    rw [h.liveBlocks] at hb ⊢
    rw [(h.shape b hb i hi).targets] at hc
    exact hform.targets b hb c ((hf.mem_targets hb).mpr ⟨i, (h.sublist b).mem hi, hc⟩)
  · rw [h.liveBlocks] at hb
    rw [(h.shape b hb i hi).isPhi] at hphi
    rw [Covers, h.edge, (h.shape b hb i hi).preds]
    exact hform.covers b hb i ((h.sublist b).mem hi) hphi
  · exact h.filled b (h.liveBlocks ▸ hb) i hi
  · have hi : i ∈ g.instsOf b := by simp [hsplit]
    have hdefs := h.complete b hb i hi v hv
    rw [h.liveBlocks] at hb
    rw [reachable_congr h.edge] at hreach
    rw [(h.shape b hb i hi).isPhi] at hphi
    obtain ⟨pre', post', hsplit'⟩ := append_of_mem ((h.sublist b).mem hi)
    exact (h.dominated b hb hreach pre' i post' hsplit' hi hphi v hv).of_sublist hf.consistent
      hg.consistent hdom (h.sublist b) h.block hsplit hsplit' hdefs
  · have hdefs := h.complete b hb i hi v (mem_operands_of_entry he hv)
    rw [h.liveBlocks] at hb
    rw [reachable_congr h.edge] at hreach
    exact (h.flows b hb hreach i hi e he v hv).of_sublist_end hf.consistent hg.consistent hdom h.block
      hdefs

/-! ## Removed instructions -/

lemma Formed.edge_of_shape (hf : f.Formed) (hg : g.Formed) (hlive : g.liveBlocks = f.liveBlocks)
    (hdel : ∀ b, (g.block b).deleted = (f.block b).deleted)
    (hsub : ∀ b, (g.instsOf b).Sublist (f.instsOf b))
    (htgts : ∀ b ∈ f.liveBlocks, ∀ i ∈ g.instsOf b, (g.instr i).targets = (f.instr i).targets)
    (hkept : ∀ b ∈ f.liveBlocks, ∀ i ∈ f.instsOf b, (f.instr i).isTerminator →
      i ∈ g.instsOf b) : g.Edge = f.Edge := by
  funext b c
  refine propext ?_
  rw [Edge, hlive]
  refine and_congr_right fun hb => ?_
  rw [mem_liveTargets, mem_liveTargets, hdel, hg.mem_targets (hlive ▸ hb), hf.mem_targets hb]
  refine and_congr_left fun _ => ⟨?_, ?_⟩
  · grind
  · rintro ⟨i, hi, hc⟩
    have hi' := hkept b hb i hi (isTerminator_of_mem_targets hc)
    exact ⟨i, hi', (htgts b hb i hi').symm ▸ hc⟩

lemma placed_foldl_remove (f : Func) (is : List InstId) (u : InstId) :
    (is.foldl Func.remove f).placed u = (f.placed u && decide (u ∉ is)) := by
  have hfr := sameFrame_foldl sameFrame_remove is f
  rw [placed, placed, Consistent.live_foldl_remove, (Consistent.record_foldl_remove is f u).2.2,
    hfr.blockDeleted, Bool.and_right_comm]

lemma Formed.foldl_remove (hf : f.Formed) (hnd : is.Nodup)
    (his : ∀ i ∈ is, (f.inst i).live ∧ (f.instr i).isTerminator = false) :
    (is.foldl Func.remove f).Formed := by
  induction is generalizing f with
  | nil => exact hf
  | cons i is ih =>
    rw [nodup_cons] at hnd
    obtain ⟨hi, hterm⟩ := his i (.head _)
    refine ih (hf.remove hi hterm) hnd.2 fun j hj => ?_
    obtain ⟨hlive, hkind⟩ := his j (.tail i hj)
    have hne : j ≠ i := fun h => hnd.1 (h ▸ hj)
    rw [live_remove, hlive, instr_remove, hkind]
    simp [hne]

lemma Ssa.foldl_remove (hf : f.Ssa) (hnd : is.Nodup)
    (his : ∀ i ∈ is, (f.inst i).live ∧ (f.instr i).isTerminator = false)
    (hunused : ∀ u, f.placed u → u ∉ is → ∀ i ∈ is, .inst i ∉ (f.instr u).operands) :
    (is.foldl Func.remove f).Ssa := by
  obtain ⟨hformed, hcomp, hform⟩ := ssa_iff.mp hf
  have hg := hformed.foldl_remove hnd his
  have hfr := sameFrame_foldl sameFrame_remove is f
  have hrec := fun i => Consistent.record_foldl_remove is f i
  have hinsts := hformed.instsOf_foldl_remove is
  have hinstr (i : InstId) : (is.foldl Func.remove f).instr i = f.instr i := (hrec i).1
  have hsub (b : BlockId) : ((is.foldl Func.remove f).instsOf b).Sublist (f.instsOf b) := by
    rw [hinsts]
    exact filter_sublist
  have hkept {b : BlockId} {i : InstId} (hi : i ∈ (is.foldl Func.remove f).instsOf b) :
      i ∈ f.instsOf b ∧ i ∉ is := by
    rw [hinsts, mem_filter] at hi
    exact ⟨hi.1, by simpa using hi.2⟩
  have hedge : (is.foldl Func.remove f).Edge = f.Edge := by
    refine hformed.edge_of_shape hg hfr.liveBlocks hfr.blockDeleted hsub
      (fun b _ i _ => by rw [hinstr]) fun b hb i hi hterm => ?_
    rw [hinsts, mem_filter]
    refine ⟨hi, ?_⟩
    have hnot : i ∉ is := fun h => by
      rw [(his i h).2] at hterm
      exact Bool.false_ne_true hterm
    simpa using hnot
  have htrims : f.Trims (is.foldl Func.remove f) := by
    refine ⟨hfr.liveBlocks, hedge, fun i => (hrec i).2.2, hsub, fun b _ i _ => ?_, fun i hi => ?_,
      fun b hb i hi => ?_, fun b hb i hi v hv => ?_, fun b hb hreach pre i post hsplit _ hphi v hv => ?_,
      fun b hb hreach i hi e he v hv => ?_⟩
    · rw [hinstr]
      exact .refl _
    · rw [hinstr]
      exact hform.entry i (hkept hi).1
    · rw [hinstr]
      exact hform.filled b hb i (hkept hi).1 fun h => h
    · rw [hfr.liveBlocks] at hb
      rw [hinstr] at hv
      have hdefs := hcomp b hb i (hkept hi).1 v hv
      have hpl := hformed.placed_of_mem hb (hkept hi).1
      cases v with
      | inst j =>
        rw [defines, Consistent.live_foldl_remove, Bool.and_eq_true, decide_eq_true_eq]
        exact ⟨hdefs, fun hj => hunused i hpl (hkept hi).2 j hj hv⟩
      | arg n => rwa [defines, hfr.params_size]
      | const c => rfl
      | global c => rfl
    · rw [hinstr] at hv
      exact hform.dominated b hb hreach pre i post hsplit hphi v hv
    · rw [hinstr] at he
      exact hform.flows b hb hreach i (hkept hi).1 e he v hv
  exact ssa_iff.mpr ⟨hg, htrims.complete, htrims.ssaForm hform hformed hg⟩

lemma Ssa.remove (hf : f.Ssa) (hlive : (f.inst i).live) (hterm : (f.instr i).isTerminator = false)
    (hunused : ∀ u, f.placed u → .inst i ∉ (f.instr u).operands) : (f.remove i).Ssa := by
  have hssa : ([i].foldl Func.remove f).Ssa := by
    refine hf.foldl_remove (nodup_singleton i) ?_ fun u hu _ j hj => ?_
    · exact forall_mem_singleton.mpr ⟨hlive, hterm⟩
    · grind
  exact hssa

/-! ## Replaced values -/

lemma Ssa.replaceUses (hf : f.Ssa) (hlive : (f.inst i).live) {new : Operand}
    (hdefs : f.defines new)
    (havail : ∀ b pre, f.Reachable b → f.Available b pre (.inst i) → f.Available b pre new) :
    (f.replaceUses (.inst i) new).2.Ssa := by
  obtain ⟨hformed, hcomp, hform⟩ := ssa_iff.mp hf
  have htr : f.tracks (.inst i) := hasInst_of_live hlive
  have hg := hformed.replaceUses htr hlive new
  have hplaces := samePlaces_replaceUses f (.inst i) new
  have hfr := hplaces.frame
  have hinstr {b : BlockId} (hb : b ∈ f.liveBlocks) {j : InstId} (hj : j ∈ f.instsOf b) :
      (f.replaceUses (.inst i) new).2.instr j = (f.instr j).mapOperands (subst (.inst i) new) := by
    rw [instr_replaceUses (hformed.uses _ htr hlive) htr new fun h =>
      hasInst_of_live (Formed.live_of_placed h), if_pos (hformed.placed_of_mem hb hj)]
  have hkind (j : InstId) : ((f.replaceUses (.inst i) new).2.instr j).isPhi = (f.instr j).isPhi := by
    rw [instr_replaceUses (hformed.uses _ htr hlive) htr new fun h =>
      hasInst_of_live (Formed.live_of_placed h)]
    split
    · exact isPhi_mapOperands _ _
    · rfl
  have hsubst {b : BlockId} {pre : List InstId} (hreach : f.Reachable b) {v : Operand}
      (hv : f.Available b pre v) : f.Available b pre (subst (.inst i) new v) := by
    rw [subst]
    split
    · next h => exact havail b pre hreach (h ▸ hv)
    · exact hv
  have hedge : (f.replaceUses (.inst i) new).2.Edge = f.Edge := by
    refine hformed.edge_of_shape hg hfr.liveBlocks hfr.blockDeleted
      (fun b => by rw [hplaces.instsOf]) (fun b hb j hj => ?_) fun b _ j hj _ =>
        by rwa [hplaces.instsOf]
    rw [hplaces.instsOf] at hj
    rw [hinstr hb hj, (sameShape_mapOperands _ _).targets]
  have htrims : f.Trims (f.replaceUses (.inst i) new).2 := by
    refine ⟨hfr.liveBlocks, hedge, hplaces.block, fun b => by rw [hplaces.instsOf],
      fun b hb j hj => ?_, fun j hj => ?_, fun b hb j hj e he => ?_, fun b hb j hj v hv => ?_,
      fun b hb hreach pre j post hsplit _ hphi v hv => ?_, fun b hb hreach j hj e he v hv => ?_⟩
    · rw [hinstr hb (hplaces.instsOf b ▸ hj)]
      exact sameShape_mapOperands _ _
    · rw [hkind]
      exact hform.entry j (hplaces.instsOf _ ▸ hj)
    · have hj' := hplaces.instsOf b ▸ hj
      rw [hinstr hb hj', entries_mapOperands] at he
      obtain ⟨e', he', rfl⟩ := mem_map.mp he
      have hsome := hform.filled b hb j hj' (fun h => h) e' he'
      simpa using hsome
    · rw [hfr.liveBlocks] at hb
      have hj' := hplaces.instsOf b ▸ hj
      rw [hinstr hb hj', operands_mapOperands] at hv
      obtain ⟨w, hw, rfl⟩ := mem_map.mp hv
      rw [hplaces.defines, subst]
      split
      · exact hdefs
      · exact hcomp b hb j hj' w hw
    · rw [hinstr hb (by simp [hsplit]), operands_mapOperands] at hv
      obtain ⟨w, hw, rfl⟩ := mem_map.mp hv
      exact hsubst hreach (hform.dominated b hb hreach pre j post hsplit hphi w hw)
    · have hj' := hplaces.instsOf b ▸ hj
      rw [hinstr hb hj', entries_mapOperands] at he
      obtain ⟨e', he', rfl⟩ := mem_map.mp he
      obtain ⟨w, hw, rfl⟩ := Option.map_eq_some_iff.mp hv
      have hold := hform.flows b hb hreach j hj' e' he' w hw
      by_cases hpred : f.Reachable e'.block
      · exact hsubst hpred hold
      · refine .of_not_reachable hformed.consistent hpred ?_
        rw [subst]
        split
        · exact hdefs
        · exact hcomp b hb j hj' w (mem_operands_of_entry he' hw)
  exact ssa_iff.mpr ⟨hg, htrims.complete, htrims.ssaForm hform hformed hg⟩

end Func

end MiddleEnd
