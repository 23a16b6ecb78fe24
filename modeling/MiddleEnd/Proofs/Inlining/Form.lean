import MiddleEnd.Proofs.Inlining.Calls
import MiddleEnd.Proofs.Inlining.Edges

/-!
# SSA form of a caller with a copy

What is available at a place of the caller is available at the place where control is after the call
has been replaced, and the copy has the values that are available in the callee.  So a caller in SSA
form stays in SSA form.
-/

namespace MiddleEnd.Inlining

open List Instr Operand Func

variable {f g m : Func} {s : Site} {n : Nat} {memset : Option FuncId} {pre post : List InstId}
  {clears merge : List (Instr × Ty)} {value : Option Operand} {k : Nat}

/-- What has been executed in block `b` of the caller, `before`, and what has been executed in block
`b'` after the call has been replaced, `before'`. -/
structure Place (f : Func) (s : Site) (pre : List InstId) (clears merge : List (Instr × Ty))
    (b : BlockId) (before : List InstId) (b' : BlockId) (before' : List InstId) : Prop where
  home : homeOf (f.inst s.call).block f.hasBlock b' = b
  seen : ∀ i ∈ before, i ≠ s.call → i ∈ before' ∨ i ∈ pre ∧ f.hasBlock b' = false
  /-- After the call the returned values have met. -/
  met : s.call ∈ before → b' = f.nextBlock ∧ ∀ k < merge.length,
    ⟨s.size f + clears.length + k⟩ ∈ before'

lemma place_old {b : BlockId} (hb : f.hasBlock b) {before : List InstId}
    (hcall : s.call ∉ before) (front : List InstId) :
    Place f s pre clears merge b before b (front ++ before) :=
  ⟨homeOf_of_old hb, fun _ hi _ => Or.inl (mem_append_right _ hi), fun hmem => absurd hmem hcall⟩

lemma place_after (rest : List InstId) : Place f s pre clears merge (f.inst s.call).block
    (pre ++ s.call :: rest) f.nextBlock
    (idsFrom (s.size f + clears.length) merge.length ++ rest) := by
  refine ⟨homeOf_of_new f.not_hasBlock_nextBlock, fun i hi hne => ?_, fun _ => ⟨rfl, fun k hk => ?_⟩⟩
  · rcases mem_append.mp hi with hpre | hi
    · exact Or.inr ⟨hpre, f.not_hasBlock_nextBlock⟩
    · exact Or.inl (mem_append_right _ ((mem_cons.mp hi).resolve_left hne))
  · exact mem_append_left _ (mem_map_range'.mpr ⟨k, hk, rfl⟩)

lemma Merges.zero?_eq_none {c : Copy} (h : Merges c n merge none) :
    Constant.zero? c.callee.ret = none ∧ merge = [] := by
  generalize hval : (none : Option Operand) = value at h
  cases h with
  | void hret => exact ⟨by rw [hret]; rfl, rfl⟩
  | never => exact ⟨Option.map_eq_none_iff.mp hval.symm, rfl⟩
  | @once e _ hreturned =>
    obtain ⟨i, -, v, -, rfl⟩ := Copy.mem_returned.mp (hreturned ▸ mem_singleton_self e)
    cases hval
  | phi => cases hval

lemma Clears.operands {kind : InstId → Instr} {slots : List InstId} {code : List (Instr × Ty)}
    (h : Clears kind memset n slots code) {p : Instr × Ty} (hk : code[k]? = some p)
    {v : Operand} (hv : v ∈ p.1.operands) :
    (∃ c, v = .const c) ∨ (∃ i ∈ slots, v = .inst i) ∨ ∃ j < k, v = .inst ⟨n + j⟩ := by
  induction h generalizing k with
  | nil n => cases hk
  | @scalar n slot slots code t zero _ _ _ ih =>
    cases k with
    | zero =>
      obtain rfl := Option.some.inj hk
      rcases mem_pair.mp hv with rfl | rfl
      · exact Or.inl ⟨zero, rfl⟩
      · exact Or.inr (Or.inl ⟨slot, .head _, rfl⟩)
    | succ k =>
      rcases ih hk with hc | ⟨i, hi, rfl⟩ | ⟨j, hj, rfl⟩
      · exact Or.inl hc
      · exact Or.inr (Or.inl ⟨i, .tail _ hi, rfl⟩)
      · exact Or.inr (Or.inr ⟨j + 1, by omega, by rw [Nat.add_right_comm, Nat.add_assoc]⟩)
  | @array n slot slots code t fill size _ _ _ _ _ ih =>
    match k with
    | 0 =>
      obtain rfl := Option.some.inj hk
      rw [mem_singleton.mp hv]
      exact Or.inr (Or.inl ⟨slot, .head _, rfl⟩)
    | 1 =>
      obtain rfl := Option.some.inj hk
      simp only [Instr.operands, mem_cons, not_mem_nil, or_false] at hv
      rcases hv with rfl | rfl | rfl
      · exact Or.inr (Or.inr ⟨0, Nat.zero_lt_one, rfl⟩)
      · exact Or.inl ⟨_, rfl⟩
      · exact Or.inl ⟨_, rfl⟩
    | k + 2 =>
      rcases ih hk with hc | ⟨i, hi, rfl⟩ | ⟨j, hj, rfl⟩
      · exact Or.inl hc
      · exact Or.inr (Or.inl ⟨i, .tail _ hi, rfl⟩)
      · exact Or.inr (Or.inr ⟨j + 2, by omega, by rw [Nat.add_right_comm, Nat.add_assoc]⟩)

namespace Replaced

variable {b b' d : BlockId} {v w : Operand} {i u : InstId} {before before' : List InstId}
  {e : PhiEntry}

variable (h : Replaced f s n memset pre post clears merge value m g) {p : BlockId}

include h

/-! ## Dominance -/

lemma dom_of_home {a : BlockId} (hab : f.Dom a (homeOf (f.inst s.call).block f.hasBlock b)) :
    g.Dom a b := by
  rw [Dom, h.edge_eq]
  exact h.graft.dominates_of_home h.fits.hasBlock_entry hab

lemma dom_after (hb : f.Dom (f.inst s.call).block b) (hne : b ≠ (f.inst s.call).block)
    (hold : f.hasBlock b) : g.Dom f.nextBlock b := by
  rw [Dom, h.edge_eq]
  exact h.graft.dominates_rest h.fits.hasBlock_entry hb hne hold

lemma dom_copy {e : BlockId} (hde : s.callee.Dom d e) :
    g.Dom ((s.copy f).block d) ((s.copy f).block e) := by
  rw [Dom, h.edge_eq]
  exact h.graft.dominates_copy h.fits.hasBlock_entry hde

lemma dom_of_leaves (hd : ∀ e, s.callee.Leaves e → e = d) :
    g.Dom ((s.copy f).block d) f.nextBlock := by
  rw [Dom, h.edge_eq]
  exact h.graft.dominates_rest_of_leaves h.fits.hasBlock_entry hd

lemma reachable_home (hb : g.Reachable b) :
    f.Reachable (homeOf (f.inst s.call).block f.hasBlock b) := by
  rw [Reachable, h.edge_eq] at hb
  exact h.graft.reaches_home h.fits.hasBlock_entry hb

lemma reachable_call (hb : g.Reachable b) (hnew : f.hasBlock b = false) :
    f.Reachable (f.inst s.call).block := by
  have hhome := h.reachable_home hb
  rwa [homeOf_of_new hnew] at hhome

/-! ## Values of the caller -/

lemma available_old (hplace : Place f s pre clears merge b before b' before')
    (hi : (f.inst i).live) (hne : i ≠ s.call) (hav : f.Available b before (.inst i)) :
    g.Available b' before' (.inst i) := by
  have hf := h.fits.consistent
  have hhas := hf.hasBlock_of_live hi
  rintro j hj
  obtain rfl := inst.inj hj
  rw [h.block_old hi]
  rcases hav i rfl with hbefore | ⟨hblk, hdom⟩
  · refine (hplace.seen i hbefore hne).imp_right fun ⟨hpre, hnew⟩ => ?_
    have hcall := hf.block_of_mem (h.mem_of_mem_pre hpre)
    rw [if_neg (h.nodup_call.2.2 i hpre), hcall]
    refine ⟨?_, h.dom_of_home ?_⟩
    · grind
    · rw [homeOf_of_new hnew]
      exact Dominates.refl _
  · right
    have hhome := hplace.home
    split
    · next hpost =>
      -- What follows the call is at its block, so the place is elsewhere in the caller.
      rw [hf.block_of_mem (h.mem_of_mem_post hpost)] at hblk hdom
      have hold : f.hasBlock b' := by
        by_contra hnew
        rw [homeOf_of_new (Bool.eq_false_of_not_eq_true hnew)] at hhome
        exact hblk hhome
      rw [homeOf_of_old hold] at hhome
      subst hhome
      exact ⟨(ne_nextBlock hold).symm, h.dom_after hdom hblk.symm hold⟩
    · refine ⟨?_, h.dom_of_home (hhome ▸ hdom)⟩
      rintro rfl
      exact hblk (by rw [← hhome, homeOf_of_old hhas])

/-! ## Values of the callee -/

lemma block_slot (hi : i ∈ s.callee.liveInsts) (hslot : isSlot s.callee i) :
    (g.inst ((s.copy f).copied i)).block = ⟨0⟩ :=
  h.consistent.block_of_mem (h.mem_of_found (.slot hi hslot))

lemma block_copied (hi : i ∈ s.callee.liveInsts) (hslot : isSlot s.callee i = false) :
    (g.inst ((s.copy f).copied i)).block = (s.copy f).block (s.callee.inst i).block := by
  obtain ⟨d, hd, hmem⟩ := mem_flatMap.mp hi
  rw [h.fits.callee.consistent.block_of_mem hmem]
  exact h.consistent.block_of_mem (h.mem_of_found (.copy hd hmem hslot))

lemma available_slot (hi : i ∈ s.callee.liveInsts) (hslot : isSlot s.callee i)
    (hb : f.hasBlock b = false) (before : List InstId) :
    g.Available b before (.inst ((s.copy f).copied i)) := by
  rintro j hj
  obtain rfl := inst.inj hj
  rw [h.block_slot hi hslot]
  refine Or.inr ⟨?_, Dominates.of_root b⟩
  rintro rfl
  rw [h.fits.hasBlock_entry] at hb
  cases hb

section

variable (hreach : f.Reachable (f.inst s.call).block)
include hreach

lemma available_arg (hv : v ∈ s.args) : f.Available (f.inst s.call).block pre v :=
  h.fits.form.dominated _ h.fits.mem_liveBlocks_call hreach pre s.call post h.split
    h.fits.isPhi_call v (h.fits.operands_call ▸ hv)

lemma ne_call_of_mem_args (hv : v ∈ s.args) : v ≠ .inst s.call := by
  rintro rfl
  rcases h.available_arg hreach hv s.call rfl with hpre | ⟨hne, -⟩
  · exact h.nodup_call.1 hpre
  · exact hne rfl

lemma substResult_stands (hvw : Stands f s v w) : substResult s.call value w = w := by
  refine substResult_of_ne ?_ value
  cases hvw with
  | inst hi =>
    intro heq
    exact copied_ne (f.hasInst_of_live h.fits.live_call) (inst.inj heq)
  | arg hv => exact h.ne_call_of_mem_args hreach (mem_of_getElem? hv)
  | const => exact Operand.noConfusion
  | global => exact Operand.noConfusion

lemma available_copy (hvw : Stands f s v w) (hav : s.callee.Available d before v)
    (hbefore : ∀ i ∈ before, isSlot s.callee i = false → (s.copy f).copied i ∈ before') :
    g.Available ((s.copy f).block d) before' w := by
  have hnew := h.graft.copy_new d
  cases hvw with
  | @inst i hi =>
    cases hslot : isSlot s.callee i with
    | true => exact h.available_slot hi hslot hnew before'
    | false =>
      rintro j hj
      obtain rfl := inst.inj hj
      rw [h.block_copied hi hslot]
      rcases hav i rfl with hmem | ⟨hne, hdom⟩
      · exact Or.inl (hbefore i hmem hslot)
      · refine Or.inr ⟨fun heq => hne ?_, h.dom_copy hdom⟩
        have hpl := h.fits.callee.consistent.mem_liveInsts.mp hi
        exact (s.copy f).block_inj (mem_of_mem_filter
          (h.fits.callee.consistent.block_mem_of_placed hpl)) heq
  | arg hv =>
    have hmem := mem_of_getElem? hv
    have havail := h.available_arg hreach hmem
    rintro i rfl
    have hne := h.ne_call_of_mem_args hreach hmem
    have hdef := h.fits.complete _ h.fits.mem_liveBlocks_call s.call
      (by simp [h.split]) (.inst i) (h.fits.operands_call.symm ▸ hmem)
    have hplace : Place f s pre clears merge (f.inst s.call).block pre ((s.copy f).block d)
        before' := ⟨homeOf_of_new hnew, fun i hi _ => Or.inr ⟨hi, hnew⟩,
      fun hcall => absurd hcall h.nodup_call.1⟩
    exact h.available_old hplace hdef (fun heq => hne (heq ▸ rfl)) havail i rfl
  | const c | global c => exact .of_forall_ne fun _ => Operand.noConfusion

lemma available_returned (he : e ∈ (s.copy f).returned) (hv : e.value = some v) :
    g.Available e.block (g.instsOf e.block) v ∧ substResult s.call value v = v := by
  have hcallee := h.fits.callee
  obtain ⟨i, hi, u, hret, hblk, hstands⟩ := h.fits.stands_of_returned he hv
  obtain ⟨d, hd, hmem⟩ := mem_flatMap.mp hi
  rw [hcallee.consistent.block_of_mem hmem] at hblk
  obtain ⟨p, q, hsplit⟩ := append_of_mem hmem
  have havail := hcallee.form.dominated d hd (h.fits.reachable d hd) p i q hsplit
    (by rw [hret]; rfl) u (by rw [hret]; exact mem_singleton_self u)
  refine ⟨?_, h.substResult_stands hreach hstands⟩
  rw [hblk]
  refine h.available_copy hreach hstands havail fun j hj hslot => ?_
  exact h.mem_of_found (.copy hd (hsplit ▸ mem_append_left _ hj) hslot)

end

lemma mem_returned_of_leaves (hret : s.callee.ret ≠ .void) (hd : s.callee.Leaves d) :
    ∃ v, { block := (s.copy f).block d, value := some v } ∈ (s.copy f).returned := by
  obtain ⟨hd, i, hi, v, hv⟩ := hd
  have hlive := mem_flatMap.mpr ⟨d, hd, hi⟩
  cases v with
  | none => exact absurd hv (h.fits.returns hret i hlive)
  | some v =>
    refine ⟨(s.copy f).operand v, Copy.mem_returned.mpr ⟨i, hlive, v, hv, ?_⟩⟩
    change _ = PhiEntry.mk ((s.copy f).block (s.callee.inst i).block) _
    rw [h.fits.callee.consistent.block_of_mem hi]

lemma available_value (hreach : g.Reachable f.nextBlock) (hw : value = some w) :
    g.Available f.nextBlock (idsFrom (s.size f + clears.length) merge.length) w := by
  have hcall := h.reachable_call hreach f.not_hasBlock_nextBlock
  have hres := h.expanded.result
  cases hres with
  | void => cases hw
  | never =>
    obtain ⟨c, -, rfl⟩ := Option.map_eq_some_iff.mp hw
    exact .of_forall_ne fun _ => Operand.noConfusion
  | @once e hret hreturned =>
    have he : e ∈ (s.copy f).returned := hreturned ▸ mem_singleton_self e
    obtain ⟨havail, -⟩ := h.available_returned hcall he hw
    obtain ⟨i, hi, -, -, hblk, -⟩ := h.fits.stands_of_returned he hw
    rw [hblk] at havail
    refine (havail.of_dom h.consistent (h.dom_of_leaves fun d hd => ?_)
      (h.graft.copy_ne_rest _) hreach).mono (nil_subset _)
    obtain ⟨v, hv⟩ := h.mem_returned_of_leaves hret hd
    rw [hreturned, mem_singleton] at hv
    rw [← hv] at hblk
    exact (s.copy f).block_inj (mem_of_mem_filter hd.1) hblk
  | phi =>
    obtain rfl := Option.some.inj hw
    exact .of_mem (mem_map_range'.mpr ⟨0, Nat.zero_lt_one, rfl⟩)

lemma ne_call_of_value_eq_none (hval : value = none) (hu : f.placed u) :
    .inst s.call ∉ (f.instr u).operands := by
  have hres := h.expanded.result
  rw [hval] at hres
  exact h.fits.unused hres.zero?_eq_none.1 u hu

lemma available_subst (hplace : Place f s pre clears merge b before b' before')
    (hreach : g.Reachable b') (hdefs : f.defines v) (hu : f.placed u)
    (hv : v ∈ (f.instr u).operands) (hav : f.Available b before v) :
    g.Available b' before' (substResult s.call value v) := by
  by_cases hcall : v = .inst s.call
  · subst hcall
    cases hval : value with
    | none => exact absurd hv (h.ne_call_of_value_eq_none hval hu)
    | some w =>
      rw [substResult, subst, if_pos rfl]
      rcases hav s.call rfl with hbefore | ⟨hne, hdom⟩
      · obtain ⟨rfl, hmerge⟩ := hplace.met hbefore
        refine (h.available_value hreach hval).mono fun i hi => ?_
        obtain ⟨k, hk, rfl⟩ := mem_map_range'.mp hi
        exact hmerge k hk
      · have hhome := hplace.home
        have hold : f.hasBlock b' := by
          by_contra hnew
          rw [homeOf_of_new (Bool.eq_false_of_not_eq_true hnew)] at hhome
          exact hne hhome
        rw [homeOf_of_old hold] at hhome
        subst hhome
        have hafter := h.dom_after hdom hne.symm hold
        have hreachAfter := exists_path_iff.mp (hafter.exists_trail (exists_path_iff.mpr hreach))
        have hend : g.Available f.nextBlock (g.instsOf f.nextBlock) w :=
          (h.available_value hreachAfter hval).mono (by
            rw [h.instsOf_after]
            exact subset_append_left _ _)
        exact (hend.of_dom h.consistent hafter (ne_nextBlock hold).symm hreach).mono (nil_subset _)
  · rw [substResult_of_ne hcall]
    cases v with
    | inst i => exact h.available_old hplace hdefs (fun heq => hcall (heq ▸ rfl)) hav
    | _ => exact .of_forall_ne fun _ => Operand.noConfusion

/-! ## Operands -/

lemma defines_old (hv : f.defines v) : g.defines v := by
  cases v with
  | inst i => exact h.consistent.live_of_mem (h.mem_instsOf_old hv)
  | arg n =>
    rw [defines, h.head.params_size]
    exact hv
  | _ => rfl

lemma defines_arg (hv : v ∈ s.args) : f.defines v :=
  h.fits.complete _ h.fits.mem_liveBlocks_call s.call (by simp [h.split]) v
    (h.fits.operands_call.symm ▸ hv)

lemma defines_found (hu : Found f s pre post clears merge b u) : g.defines (.inst u) :=
  h.consistent.live_of_mem (h.mem_of_found hu)

lemma defines_stands (hvw : Stands f s v w) : g.defines w := by
  cases hvw with
  | inst hi =>
    obtain ⟨b, hfound⟩ := found_copied hi
    exact h.defines_found hfound
  | arg hv => exact h.defines_old (h.defines_arg (mem_of_getElem? hv))
  | const => rfl
  | global => rfl

lemma defines_value (hw : value = some w) : g.defines w := by
  have hres := h.expanded.result
  cases hres with
  | void => cases hw
  | never =>
    obtain ⟨c, -, rfl⟩ := Option.map_eq_some_iff.mp hw
    rfl
  | @once e _ hreturned =>
    obtain ⟨_, _, _, _, _, hstands⟩ :=
      h.fits.stands_of_returned (hreturned ▸ mem_singleton_self e) hw
    exact h.defines_stands hstands
  | phi =>
    obtain rfl := Option.some.inj hw
    exact h.defines_found (Found.merge (k := 0) rfl)

lemma defines_subst (hv : g.defines v) : g.defines (substResult s.call value v) := by
  cases hval : value with
  | none => exact hv
  | some w =>
    rw [substResult, subst]
    split
    · exact h.defines_value hval
    · exact hv

lemma operands_old (hu : f.placed u) (hne : u ≠ s.call) :
    (g.instr u).operands = (f.instr u).operands.map (substResult s.call value) := by
  rw [h.instr_old hu hne, operands_mapOperands, operands_renameEntry]

lemma operands_copied (hi : i ∈ s.callee.liveInsts)
    (hv : v ∈ (g.instr ((s.copy f).copied i)).operands) :
    ∃ u ∈ (s.callee.instr i).operands, ∃ w, Stands f s u w ∧ v = substResult s.call value w := by
  rw [h.instr_copied hi, operands_mapOperands] at hv
  obtain ⟨w, hw, rfl⟩ := mem_map.mp hv
  obtain ⟨u, hu, hstands⟩ := h.fits.operands_copied hi hw
  exact ⟨u, hu, w, hstands, rfl⟩

lemma operands_clear {p : Instr × Ty} (hk : clears[k]? = some p)
    (hv : v ∈ (g.instr ⟨s.size f + k⟩).operands) :
    (∃ c, v = .const c) ∨
      (∃ i ∈ s.callee.liveInsts, isSlot s.callee i ∧ v = .inst ((s.copy f).copied i)) ∨
      ∃ j < k, v = .inst ⟨s.size f + j⟩ := by
  have hcall := f.hasInst_of_live h.fits.live_call
  rw [h.instr_clear hk, operands_mapOperands] at hv
  obtain ⟨w, hw, rfl⟩ := mem_map.mp hv
  rcases h.expanded.fill.operands hk hw with ⟨c, rfl⟩ | ⟨i, hi, rfl⟩ | ⟨j, hj, rfl⟩
  · rw [substResult_of_ne Operand.noConfusion]
    exact Or.inl ⟨c, rfl⟩
  · obtain ⟨i, hlive, hslot, rfl⟩ := Copy.of_mem_slots h.fits.callee.consistent hi
    rw [substResult_of_ne fun heq => copied_ne hcall (inst.inj heq)]
    exact Or.inr (Or.inl ⟨i, hlive, hslot, rfl⟩)
  · rw [substResult_of_ne fun heq => h.ne_call_of_le (by dsimp only [Site.size]; omega) (inst.inj heq)]
    exact Or.inr (Or.inr ⟨j, hj, rfl⟩)

lemma operands_merge {p : Instr × Ty} (hk : merge[k]? = some p)
    (he : e ∈ (g.instr ⟨s.size f + clears.length + k⟩).entries) :
    ∃ e' ∈ (s.copy f).returned,
      e = { e' with value := e'.value.map (substResult s.call value) } := by
  rw [h.instr_merge hk, h.expanded.result.eq_phi (mem_of_getElem? hk)] at he
  obtain ⟨e', he', rfl⟩ := mem_map.mp he
  exact ⟨e', he', rfl⟩

lemma defines_operand (hu : Found f s pre post clears merge b u) :
    ∀ v ∈ (g.instr u).operands, g.defines v := by
  refine h.of_found (P := fun u => ∀ v ∈ (g.instr u).operands, g.defines v) hu
    (fun u hu hne v hv => ?_) (fun v hv => ?_) (fun i hi v hv => ?_) (fun k p hk v hv => ?_)
    fun k p hk v hv => ?_
  · obtain ⟨b, hb, hmem⟩ := mem_flatMap.mp (h.fits.consistent.mem_liveInsts.mpr hu)
    rw [h.operands_old hu hne] at hv
    obtain ⟨w, hw, rfl⟩ := mem_map.mp hv
    exact h.defines_subst (h.defines_old (h.fits.complete b hb u hmem w hw))
  · rw [h.instr_call] at hv
    cases hv
  · obtain ⟨u, -, w, hstands, rfl⟩ := h.operands_copied hi hv
    exact h.defines_subst (h.defines_stands hstands)
  · obtain ⟨e, he, hval⟩ := exists_entry_of_mem_operands (h.kind_merge hk).2 hv
    obtain ⟨e', he', rfl⟩ := h.operands_merge hk he
    obtain ⟨w, hw, rfl⟩ := Option.map_eq_some_iff.mp hval
    obtain ⟨_, _, _, _, _, hstands⟩ := h.fits.stands_of_returned he' hw
    exact h.defines_subst (h.defines_stands hstands)
  · rcases h.operands_clear hk hv with ⟨c, rfl⟩ | ⟨i, hi, hslot, rfl⟩ | ⟨j, hj, rfl⟩
    · rfl
    · exact h.defines_found (.slot hi hslot)
    · have hlt := (List.getElem?_eq_some_iff.mp hk).1
      exact h.defines_found (.clear (List.getElem?_eq_getElem (by omega : j < clears.length)))

lemma complete : g.Complete :=
  fun _ hb _ hi => h.defines_operand (h.found hb hi)

/-! ## SSA form -/

lemma resolved (hu : Found f s pre post clears merge b u) :
    (g.instr u).isPendingJump = false := by
  refine h.of_found (P := fun u => (g.instr u).isPendingJump = false) hu (fun u hu hne => ?_)
    (by rw [h.instr_call]; rfl) (fun i hi => ?_) (fun k p hk => ?_) fun k p hk => ?_
  · obtain ⟨b, hb, hmem⟩ := mem_flatMap.mp (h.fits.consistent.mem_liveInsts.mpr hu)
    rw [h.instr_old hu hne, (sameShape_mapOperands _ _).isPendingJump, isPendingJump_renameEntry]
    exact h.fits.form.resolved b hb u hmem
  · obtain ⟨d, hd, hmem⟩ := mem_flatMap.mp hi
    rw [h.instr_copied hi, (sameShape_mapOperands _ _).isPendingJump, Copy.isPendingJump_instr]
    exact h.fits.callee.form.resolved d hd i hmem
  · exact not_isPendingJump_of_not_isTerminator (h.kind_merge hk).1
  · exact not_isPendingJump_of_not_isTerminator (h.kind_clear hk).1

lemma not_isPhi_of_mem_entry (hu : u ∈ g.instsOf ⟨0⟩) : (g.instr u).isPhi = false := by
  have hf := h.fits.caller
  have hold (hu : u ∈ f.instsOf ⟨0⟩) : (g.instr u).isPhi = false := by
    have hhas := f.hasInst_of_live (hf.consistent.live_of_mem hu)
    have hm : (m.instr u).isPhi = false := by
      rw [(h.expanded.spliced.old u hhas).1,
        ((extends_splitAtCall hf.consistent h.split _).2.2.2 u).1, ← hf.form.entry u hu]
      split
      · cases f.instr u <;> rfl
      · rfl
    rw [h.expanded.instr_eq (h.hasInst_old (f.hasInst_of_live h.fits.live_call))]
    split
    · rfl
    · cases value with
      | none => exact hm
      | some w =>
        rcases m.instr_replaceUses_cases (.inst s.call) w u with heq | heq
        · exact (congrArg isPhi heq).trans hm
        · exact (congrArg isPhi heq).trans ((isPhi_mapOperands _ _).trans hm)
  rw [h.instsOf_old h.fits.hasBlock_entry, mem_append] at hu
  rcases hu with hu | hu
  · exact (h.kind_slot hu).2
  · split at hu
    · next hcall =>
      rcases mem_append.mp hu with hpre | hu
      · exact hold (hcall ▸ h.mem_of_mem_pre hpre)
      · rw [mem_singleton.mp hu, h.instr_call]
        rfl
    · exact hold hu

lemma entries_old (hu : f.placed u) (hne : u ≠ s.call) :
    (g.instr u).entries = (f.instr u).entries.map fun e =>
      { block := if e.block = (f.inst s.call).block then f.nextBlock else e.block,
        value := e.value.map (substResult s.call value) } := by
  rw [h.instr_old hu hne, entries_mapOperands, entries_renameEntry, map_map]
  rfl

lemma entries_copied (hi : i ∈ s.callee.liveInsts) :
    (g.instr ((s.copy f).copied i)).entries = (s.callee.instr i).entries.map fun e =>
      { block := (s.copy f).block e.block,
        value := (e.value.map (s.copy f).operand).map (substResult s.call value) } := by
  rw [h.instr_copied hi, entries_mapOperands, Copy.entries_instr, map_map]
  rfl

lemma phi_cases (hu : Found f s pre post clears merge b u) (hphi : (g.instr u).isPhi) :
    (b ∈ f.liveBlocks ∧ u ∈ f.instsOf b ∧ u ≠ s.call ∧ (f.instr u).isPhi) ∨
      (b = f.nextBlock ∧ s.callee.ret ≠ .void ∧
        (g.instr u).entries = (s.copy f).returned.map fun e =>
          { e with value := e.value.map (substResult s.call value) }) ∨
      ∃ d ∈ s.callee.liveBlocks, ∃ i ∈ s.callee.instsOf d, b = (s.copy f).block d ∧
        u = (s.copy f).copied i ∧ (s.callee.instr i).isPhi := by
  have hf := h.fits.consistent
  cases hu with
  | old hb hu hne =>
    rw [(h.kind_old (hf.placed_of_mem hb hu) hne).2] at hphi
    exact Or.inl ⟨hb, hu, hne, hphi⟩
  | call =>
    rw [h.instr_call] at hphi
    cases hphi
  | slot hi hslot =>
    rw [(h.kind_copied hi).2, (isPhi_of_isSlot hslot).1] at hphi
    cases hphi
  | rest hu =>
    rw [(h.kind_old (h.placed_of_mem_post hu) (h.ne_call_of_mem_post hu)).2,
      h.fits.isPhi_of_mem_post h.split hu] at hphi
    cases hphi
  | merge hk =>
    refine Or.inr (Or.inl ⟨rfl, ?_, ?_⟩)
    · have hres := h.expanded.result
      cases hres with
      | phi hret => exact hret
      | _ => cases hk
    · rw [h.instr_merge hk, h.expanded.result.eq_phi (mem_of_getElem? hk)]
      rfl
  | @copy d i hd hi =>
    rw [(h.kind_copied (mem_flatMap.mpr ⟨d, hd, hi⟩)).2] at hphi
    exact Or.inr (Or.inr ⟨d, hd, i, hi, rfl, rfl, hphi⟩)
  | clear hk =>
    rw [(h.kind_clear hk).2] at hphi
    cases hphi

lemma filled (hu : Found f s pre post clears merge b u) (he : e ∈ (g.instr u).entries) :
    e.value ≠ none := by
  have hf := h.fits.caller
  rcases h.phi_cases hu (isPhi_of_mem_entries he) with
    ⟨hb, hub, hne, -⟩ | ⟨-, -, hents⟩ | ⟨d, hd, i, hi, -, rfl, -⟩
  · rw [h.entries_old (hf.consistent.placed_of_mem hb hub) hne] at he
    obtain ⟨e', he', rfl⟩ := mem_map.mp he
    exact fun hnone => hf.form.filled b hb u hub id e' he' (Option.map_eq_none_iff.mp hnone)
  · rw [hents] at he
    obtain ⟨e', he', rfl⟩ := mem_map.mp he
    obtain ⟨i, -, v, -, rfl⟩ := Copy.mem_returned.mp he'
    exact Option.some_ne_none _
  · rw [h.entries_copied (mem_flatMap.mpr ⟨d, hd, hi⟩)] at he
    obtain ⟨e', he', rfl⟩ := mem_map.mp he
    intro hnone
    exact h.fits.callee.form.filled d hd i hi id e' he'
      (Option.map_eq_none_iff.mp (Option.map_eq_none_iff.mp hnone))

lemma edge_to_old (hb : f.hasBlock b) : g.Edge p b ↔
    (p ≠ (f.inst s.call).block ∧ f.Edge p b) ∨
      (p = f.nextBlock ∧ f.Edge (f.inst s.call).block b) := by
  rw [h.edge_eq]
  constructor
  · intro hedge
    cases hedge with
    | keep hne hedge => exact Or.inl ⟨hne, hedge⟩
    | resume hedge => exact Or.inr ⟨rfl, hedge⟩
    | enter | inside _ => cases (h.graft.copy_new _).symm.trans hb
    | leave _ => cases h.graft.rest_new.symm.trans hb
  · rintro (⟨hne, hedge⟩ | ⟨rfl, hedge⟩)
    · exact .keep hne hedge
    · exact .resume hedge

lemma edge_to_after : g.Edge p f.nextBlock ↔ ∃ d, s.callee.Leaves d ∧ p = (s.copy f).block d := by
  rw [h.edge_eq]
  constructor
  · intro hedge
    generalize hc : f.nextBlock = c at hedge
    cases hedge with
    | keep _ hedge => cases h.graft.rest_new.symm.trans (hc ▸ (h.graft.edge_old _ _ hedge).2)
    | resume hedge => cases h.graft.rest_new.symm.trans (hc ▸ (h.graft.edge_old _ _ hedge).2)
    | enter | inside _ => exact absurd hc.symm (h.graft.copy_ne_rest _)
    | leave hleaves => exact ⟨_, hleaves, rfl⟩
  · rintro ⟨d, hd, rfl⟩
    exact .leave hd

lemma edge_to_copy (hd : d ≠ ⟨0⟩) :
    g.Edge p ((s.copy f).block d) ↔ ∃ c, s.callee.Edge c d ∧ p = (s.copy f).block c := by
  rw [h.edge_eq]
  constructor
  · intro hedge
    generalize hb : (s.copy f).block d = b at hedge
    cases hedge with
    | keep _ hedge => cases (h.graft.copy_new d).symm.trans (hb ▸ (h.graft.edge_old _ _ hedge).2)
    | resume hedge => cases (h.graft.copy_new d).symm.trans (hb ▸ (h.graft.edge_old _ _ hedge).2)
    | enter => exact absurd (h.graft.entry_inj d hb.symm).symm hd
    | inside hedge =>
      obtain rfl := h.graft.inner_inj _ _ d hedge hb.symm
      exact ⟨_, hedge, rfl⟩
    | leave _ => exact absurd hb (h.graft.copy_ne_rest d)
  · rintro ⟨c, hc, rfl⟩
    exact .inside hc

lemma nodup_returned : ((s.copy f).returned.map PhiEntry.block).Nodup := by
  have hcallee := h.fits.callee.consistent
  rw [Copy.returned, List.Nodup, pairwise_map, pairwise_filterMap]
  refine hcallee.nodup_liveInsts.imp_of_mem fun {i j} hi hj hne e he e' he' heq => hne ?_
  have hpl {i : InstId} (hi : i ∈ s.callee.liveInsts) :
      (s.callee.inst i).block ∈ s.callee.liveBlocks ∧
        i ∈ s.callee.instsOf (s.callee.inst i).block := by
    have hpl := hcallee.mem_liveInsts.mp hi
    exact ⟨hcallee.block_mem_of_placed hpl,
      hcallee.mem_of_live (Bool.and_eq_true_iff.mp hpl).1⟩
  have hterm {i : InstId} {v : Operand} (hkind : s.callee.instr i = .ret (some v)) :
      (s.callee.instr i).isTerminator := by
    rw [hkind]
    rfl
  obtain ⟨hd, hmem⟩ := hpl hi
  obtain ⟨-, hmem'⟩ := hpl hj
  split at he
  · next hkind =>
    split at he'
    · next hkind' =>
      obtain rfl := Option.some.inj he
      obtain rfl := Option.some.inj he'
      have hsame : (s.callee.inst i).block = (s.callee.inst j).block :=
        (s.copy f).block_inj (mem_of_mem_filter hd) heq
      rw [← hsame] at hmem'
      exact h.fits.callee.formed.terminator_unique hd hmem (hterm hkind) hmem'
        (hterm hkind')
    · cases he'
  · cases he

lemma covers (hu : Found f s pre post clears merge b u) (hphi : (g.instr u).isPhi) :
    g.Covers b (g.instr u).entries := by
  have hf := h.fits.caller
  rcases h.phi_cases hu hphi with
    ⟨hb, hub, hne, hold⟩ | ⟨rfl, hret, hents⟩ | ⟨d, hd, i, hi, rfl, rfl, hold⟩
  · obtain ⟨hnd, hpreds⟩ := hf.form.covers b hb u hub hold
    have hhas := (hf.consistent.mem_liveBlocks.mp hb).1
    rw [h.entries_old (hf.consistent.placed_of_mem hb hub) hne, Covers, map_map]
    have hmap : (f.instr u).entries.map (PhiEntry.block ∘ fun e =>
          { block := if e.block = (f.inst s.call).block then f.nextBlock else e.block,
            value := e.value.map (substResult s.call value) }) =
        ((f.instr u).entries.map PhiEntry.block).map fun p =>
          if p = (f.inst s.call).block then f.nextBlock else p := by
      rw [map_map]
      rfl
    have hnew {p : BlockId} (hp : p ∈ (f.instr u).entries.map PhiEntry.block) :
        p ≠ f.nextBlock := by
      rintro rfl
      cases h.graft.rest_new.symm.trans (h.graft.edge_old _ _ ((hpreds _).mp hp)).1
    rw [hmap]
    refine ⟨hnd.map_on fun p hp q hq heq => ?_, fun p => ?_⟩
    · split at heq <;> split at heq
      · next hp' hq' => rw [hp', hq']
      · exact absurd heq.symm (hnew hq)
      · exact absurd heq (hnew hp)
      · exact heq
    · rw [h.edge_to_old hhas, mem_map]
      constructor
      · rintro ⟨q, hq, rfl⟩
        split
        · next heq => exact Or.inr ⟨rfl, heq ▸ (hpreds q).mp hq⟩
        · next hneq => exact Or.inl ⟨hneq, (hpreds q).mp hq⟩
      · rintro (⟨hneq, hedge⟩ | ⟨rfl, hedge⟩)
        · exact ⟨p, (hpreds p).mpr hedge, if_neg hneq⟩
        · exact ⟨_, (hpreds _).mpr hedge, if_pos rfl⟩
  · rw [hents, Covers, map_map]
    refine ⟨h.nodup_returned, fun p => ?_⟩
    rw [h.edge_to_after]
    constructor
    · intro hp
      obtain ⟨e, he, rfl⟩ := mem_map.mp hp
      obtain ⟨i, hi, v, hv, rfl⟩ := Copy.mem_returned.mp he
      obtain ⟨d, hd, hmem⟩ := mem_flatMap.mp hi
      refine ⟨d, ⟨hd, i, hmem, _, hv⟩, ?_⟩
      change (s.copy f).block (s.callee.inst i).block = _
      rw [h.fits.callee.consistent.block_of_mem hmem]
    · rintro ⟨d, hd, rfl⟩
      obtain ⟨v, hv⟩ := h.mem_returned_of_leaves hret hd
      exact mem_map.mpr ⟨_, hv, rfl⟩
  · obtain ⟨hnd, hpreds⟩ := h.fits.callee.form.covers d hd i hi hold
    have hent : d ≠ ⟨0⟩ := by
      rintro rfl
      rw [h.fits.callee.form.entry i hi] at hold
      cases hold
    rw [h.entries_copied (mem_flatMap.mpr ⟨d, hd, hi⟩), Covers, map_map]
    have hmap : (s.callee.instr i).entries.map (PhiEntry.block ∘ fun e =>
          { block := (s.copy f).block e.block,
            value := (e.value.map (s.copy f).operand).map (substResult s.call value) }) =
        ((s.callee.instr i).entries.map PhiEntry.block).map (s.copy f).block := by
      rw [map_map]
      rfl
    rw [hmap]
    refine ⟨hnd.map_on fun p hp q hq heq => ?_, fun p => ?_⟩
    · exact (s.copy f).block_inj (mem_of_mem_filter ((hpreds p).mp hp).1) heq
    · rw [h.edge_to_copy hent, mem_map]
      exact exists_congr fun c => and_congr (hpreds c) eq_comm

lemma available_operand (hu : f.placed u) (hne : u ≠ s.call)
    (hplace : Place f s pre clears merge b before b' before') (hreach : g.Reachable b')
    (hav : ∀ v ∈ (f.instr u).operands, f.Available b before v) (hv : v ∈ (g.instr u).operands) :
    g.Available b' before' v := by
  rw [h.operands_old hu hne] at hv
  obtain ⟨w, hw, rfl⟩ := mem_map.mp hv
  obtain ⟨c, hc, huc⟩ := mem_flatMap.mp (h.fits.consistent.mem_liveInsts.mpr hu)
  have hdefs := h.fits.complete c hc u huc w hw
  exact h.available_subst hplace hreach hdefs hu hw (hav w hw)

lemma notMem_of_ne (hb : b ≠ (f.inst s.call).block) : s.call ∉ f.instsOf b :=
  fun hmem => hb (h.fits.consistent.block_of_mem hmem).symm

lemma dominated (hu : Found f s pre post clears merge b u) (hreach : g.Reachable b)
    (hphi : (g.instr u).isPhi = false) :
    ∃ p q, g.instsOf b = p ++ u :: q ∧ ∀ v ∈ (g.instr u).operands, g.Available b p v := by
  have hf := h.fits.caller
  have hhome := h.reachable_home hreach
  cases hu with
  | @old b u hb hu hne hpre =>
    have hpl := hf.consistent.placed_of_mem hb hu
    have hhas := (hf.consistent.mem_liveBlocks.mp hb).1
    rw [homeOf_of_old hhas] at hhome
    rw [(h.kind_old hpl hne).2] at hphi
    rw [h.instsOf_old hhas]
    generalize (if b = ⟨0⟩ then (s.copy f).slots else []) = front
    by_cases hcall : b = (f.inst s.call).block
    · obtain ⟨p, q, rfl⟩ := append_of_mem (hpre hcall)
      have hsplit : f.instsOf b = p ++ u :: (q ++ s.call :: post) := by
        rw [hcall, h.split, append_assoc, cons_append]
      refine ⟨front ++ p, q ++ [s.call], ?_, fun v hv => ?_⟩
      · rw [if_pos hcall, append_assoc, append_assoc, cons_append]
      · have hnot : s.call ∉ p := fun hmem => h.nodup_call.1 (mem_append_left _ hmem)
        exact h.available_operand hpl hne (place_old hhas hnot _) hreach
          (hf.form.dominated b hb hhome p u _ hsplit hphi) hv
    · obtain ⟨p, q, hsplit⟩ := append_of_mem hu
      refine ⟨front ++ p, q, ?_, fun v hv => ?_⟩
      · rw [if_neg hcall, hsplit, append_assoc]
      · have hnot : s.call ∉ p := fun hmem => h.notMem_of_ne hcall (hsplit ▸ mem_append_left _ hmem)
        exact h.available_operand hpl hne (place_old hhas hnot _) hreach
          (hf.form.dominated b hb hhome p u q hsplit hphi) hv
  | call =>
    obtain ⟨p, q, hsplit⟩ := append_of_mem (h.mem_of_found .call)
    refine ⟨p, q, hsplit, fun v hv => ?_⟩
    rw [h.instr_call] at hv
    cases hv
  | @slot i hi hslot =>
    obtain ⟨p, q, hsplit⟩ := append_of_mem (h.mem_of_found (.slot hi hslot))
    refine ⟨p, q, hsplit, fun v hv => ?_⟩
    obtain ⟨t, ht⟩ := isSlot_iff.mp hslot
    rw [h.instr_copied hi, ht] at hv
    cases hv
  | @rest u hu =>
    have hne := h.ne_call_of_mem_post hu
    have hpl := h.placed_of_mem_post hu
    rw [homeOf_of_new f.not_hasBlock_nextBlock] at hhome
    rw [(h.kind_old hpl hne).2] at hphi
    obtain ⟨p, q, rfl⟩ := append_of_mem hu
    have hsplit : f.instsOf (f.inst s.call).block = (pre ++ s.call :: p) ++ u :: q := by
      rw [h.split, append_assoc, cons_append]
    refine ⟨idsFrom (s.size f + clears.length) merge.length ++ p, q, ?_, fun v hv => ?_⟩
    · rw [h.instsOf_after, append_assoc]
    · exact h.available_operand hpl hne (place_after p) hreach
        (hf.form.dominated _ h.fits.mem_liveBlocks_call hhome _ u q hsplit hphi) hv
  | merge hk =>
    rw [(h.kind_merge hk).2] at hphi
    cases hphi
  | @copy d i hd hi hslot =>
    have hcall := h.reachable_call hreach (h.graft.copy_new d)
    have hlive := mem_flatMap.mpr ⟨d, hd, hi⟩
    rw [(h.kind_copied hlive).2] at hphi
    obtain ⟨p, q, hsplit⟩ := append_of_mem hi
    rw [h.instsOf_copy hd]
    generalize (if d = ⟨0⟩ then _ else ([] : List InstId)) = front
    refine ⟨front ++ (p.filter fun i => !isSlot s.callee i).map (s.copy f).copied,
      (q.filter fun i => !isSlot s.callee i).map (s.copy f).copied, ?_, fun v hv => ?_⟩
    · grind
    · obtain ⟨w, hw, v, hstands, rfl⟩ := h.operands_copied hlive hv
      rw [h.substResult_stands hcall hstands]
      have hav := h.fits.callee.form.dominated d hd (h.fits.reachable d hd) p i q hsplit hphi w hw
      refine h.available_copy hcall hstands hav fun j hj hj' => ?_
      refine mem_append_right _ (mem_map_of_mem (mem_filter.mpr ⟨hj, ?_⟩))
      rw [hj']
      rfl
  | @clear k p hk =>
    obtain ⟨r, hr⟩ := Nat.exists_eq_add_of_lt (List.getElem?_eq_some_iff.mp hk).1
    rw [h.instsOf_copy h.fits.entry, if_pos rfl, hr, Nat.add_assoc, idsFrom, ← List.range'_append_1,
      List.range'_succ, map_append, map_cons, append_assoc, cons_append]
    refine ⟨_, _, rfl, fun v hv => ?_⟩
    rcases h.operands_clear hk hv with ⟨c, rfl⟩ | ⟨i, hi, hslot, rfl⟩ | ⟨j, hj, rfl⟩
    · exact .of_forall_ne fun _ => Operand.noConfusion
    · exact h.available_slot hi hslot (h.graft.copy_new _) _
    · exact .of_mem (mem_map_range'.mpr ⟨j, hj, rfl⟩)

lemma flows (hu : Found f s pre post clears merge b u) (hreach : g.Reachable b)
    (he : e ∈ (g.instr u).entries) (hv : e.value = some v) :
    g.Available e.block (g.instsOf e.block) v := by
  have hf := h.fits.caller
  have hhome := h.reachable_home hreach
  -- No path leads to the end of a predecessor that cannot be reached.
  by_cases hpred : g.Reachable e.block
  swap
  · exact .of_not_reachable h.consistent hpred
      (h.defines_operand hu v (mem_operands_of_entry he hv))
  rcases h.phi_cases hu (isPhi_of_mem_entries he) with
    ⟨hb, hub, hne, hphi⟩ | ⟨rfl, -, hents⟩ | ⟨d, hd, i, hi, rfl, rfl, -⟩
  · have hpl := hf.consistent.placed_of_mem hb hub
    rw [homeOf_of_old (hf.consistent.mem_liveBlocks.mp hb).1] at hhome
    rw [h.entries_old hpl hne] at he
    obtain ⟨e', he', rfl⟩ := mem_map.mp he
    obtain ⟨w, hw, rfl⟩ := Option.map_eq_some_iff.mp hv
    have hoperand := mem_operands_of_entry he' hw
    have hdefs := hf.complete b hb u hub w hoperand
    have hav := hf.form.flows b hb hhome u hub e' he' w hw
    have hedge : f.Edge e'.block b := ((hf.form.covers b hb u hub hphi).2 _).mp (mem_map_of_mem he')
    split at hpred
    · next hcall =>
      rw [if_pos hcall, h.instsOf_after]
      rw [hcall, h.split] at hav
      exact h.available_subst (place_after post) hpred hdefs hpl hoperand hav
    · next hcall =>
      have hhas := (h.graft.edge_old _ _ hedge).1
      rw [if_neg hcall, h.instsOf_old hhas, if_neg hcall]
      exact h.available_subst (place_old hhas (h.notMem_of_ne hcall) _) hpred hdefs hpl
        hoperand hav
  · rw [hents] at he
    obtain ⟨e', he', rfl⟩ := mem_map.mp he
    obtain ⟨w, hw, rfl⟩ := Option.map_eq_some_iff.mp hv
    have hcall := h.reachable_call hreach f.not_hasBlock_nextBlock
    obtain ⟨hav, hsame⟩ := h.available_returned hcall he' hw
    rw [hsame]
    exact hav
  · have hcall := h.reachable_call hreach (h.graft.copy_new d)
    have hlive := mem_flatMap.mpr ⟨d, hd, hi⟩
    rw [h.entries_copied hlive] at he
    obtain ⟨e', he', rfl⟩ := mem_map.mp he
    obtain ⟨w', hw', rfl⟩ := Option.map_eq_some_iff.mp hv
    obtain ⟨w, hw, rfl⟩ := Option.map_eq_some_iff.mp hw'
    have hstands := h.fits.stands hlive (mem_operands_of_entry he' hw)
    have hav := h.fits.callee.form.flows d hd (h.fits.reachable d hd) i hi e' he' w hw
    have hphi := isPhi_of_mem_entries he'
    have hedge := ((h.fits.callee.form.covers d hd i hi hphi).2 _).mp (mem_map_of_mem he')
    rw [h.substResult_stands hcall hstands]
    exact h.available_copy hcall hstands hav fun j hj hslot =>
      h.mem_of_found (.copy hedge.1 hj hslot)

lemma ssa : g.Ssa := by
  refine ssa_iff.mpr ⟨h.formed, h.complete, ?_⟩
  exact
    { resolved := fun b hb u hu => h.resolved (h.found hb hu)
      targets := fun b hb c hc => by
        obtain ⟨u, hu, hc⟩ := (h.formed.mem_targets hb).mp hc
        exact h.mem_liveBlocks_of_target hb hu hc
      entry := fun u hu => h.not_isPhi_of_mem_entry hu
      covers := fun b hb u hu hphi => h.covers (h.found hb hu) hphi
      filled := fun b hb u hu _ e he => h.filled (h.found hb hu) he
      dominated := fun b hb hreach p u q hsplit hphi v hv => by
        have hu : u ∈ g.instsOf b := by simp [hsplit]
        obtain ⟨p', q', hsplit', hav⟩ := h.dominated (h.found hb hu) hreach hphi
        have hnd := h.consistent.nodup b
        rw [hsplit, nodup_middle, nodup_cons, mem_append, not_or] at hnd
        rw [((append_cons_inj_of_notMem hnd.1.1 hnd.1.2).mp (hsplit.symm.trans hsplit')).1]
        exact hav v hv
      flows := fun b hb hreach u hu e he v hv => h.flows (h.found hb hu) hreach he hv }

end Replaced

end MiddleEnd.Inlining
