import MiddleEnd.Proofs.Inlining.Form

/-!
# Calls that fit can be replaced

If the call fits and the slots of its callee can be cleared, no check of the expansion fails.
-/

namespace MiddleEnd.Inlining

open List Bool Transform Operand

variable {w : Work} {f g m : Func} {s : Site} {n : Nat} {memset : Option FuncId}
  {pre post : List InstId} {clears merge : List (Instr × Ty)} {value : Option Operand} {b : BlockId}
  {slots : List InstId} {t : Ty}

/-! ## Slots -/

def Clearable (memset : Option FuncId) (t : Ty) : Prop :=
  Constant.zero? t = none → memset ≠ none ∧ t.cells < 0x20000000

lemma exists_byteSize (ht : t.cells < 0x20000000) : ∃ size, byteSize? t = some size :=
  ⟨_, if_pos (by omega)⟩

lemma exists_clearSlot (first : InstId) {slot : InstId}
    (halloc : w.func.instr slot = .alloc t) (ht : Clearable memset t) :
    ∃ w', clearSlot memset first slot w = .ok () w' := by
  rw [clearSlot, func_bind, halloc]
  dsimp only
  cases hzero : Constant.zero? t with
  | some zero => exact ⟨_, rfl⟩
  | none =>
    obtain ⟨hmemset, hcells⟩ := ht hzero
    obtain ⟨fill, rfl⟩ := Option.ne_none_iff_exists'.mp hmemset
    obtain ⟨size, hsize⟩ := exists_byteSize hcells
    rw [hsize]
    exact ⟨_, rfl⟩

lemma exists_forM_clearSlot {first : InstId} {l r : List InstId}
    (hf : w.func.Consistent) (hl : w.func.instsOf b = l ++ first :: r)
    (hslots : ∀ i ∈ slots, w.func.hasInst i ∧
      ∃ t, w.func.instr i = .alloc t ∧ Clearable memset t) :
    ∃ w', slots.forM (clearSlot memset first) w = .ok () w' := by
  induction slots generalizing w l with
  | nil => exact ⟨w, rfl⟩
  | cons slot slots ih =>
    rw [forall_mem_cons] at hslots
    obtain ⟨⟨-, t, halloc, ht⟩, hrest⟩ := hslots
    obtain ⟨v, hv⟩ := exists_clearSlot first halloc ht
    obtain ⟨code, hcode, -⟩ := clearSlot_eq_ok halloc hv
    obtain ⟨hadds, hlists⟩ := foldl_insertBefore hf hl code
    rw [← hcode] at hadds hlists
    obtain ⟨w', hw'⟩ := ih
      hadds.ext.consistent (by rw [hlists, if_pos rfl]) fun i hi => by
        obtain ⟨hhas, t, halloc, ht⟩ := hrest i hi
        exact ⟨hadds.ext.hasInst hhas, t, (hadds.old i hhas).1.trans halloc, ht⟩
    exact ⟨w', (forM_cons_of_ok hv).trans hw'⟩

lemma exists_clearSlots (hf : w.func.Consistent) (hb : w.func.instsOf b ≠ [])
    (hslots : ∀ i ∈ slots, w.func.hasInst i ∧
      ∃ t, w.func.instr i = .alloc t ∧ Clearable memset t) :
    ∃ w', clearSlots memset slots b w = .ok () w' := by
  rw [clearSlots, func_bind, hf.threaded.first]
  cases hlist : w.func.instsOf b with
  | nil => exact absurd hlist hb
  | cons first rest => exact exists_forM_clearSlot hf (l := []) hlist hslots

/-! ## Results -/

lemma exists_mergeReturns {c : Copy}
    (h : ∀ e ∈ c.returned, ∀ v, e.value = some v → w.func.admits v) :
    ∃ value w', mergeReturns c w = .ok value w' := by
  rw [mergeReturns]
  split
  · exact ⟨_, _, rfl⟩
  · rcases hret : c.returned with _ | ⟨e, _ | ⟨e', es⟩⟩
    · exact ⟨_, _, rfl⟩
    · exact ⟨_, _, rfl⟩
    · have hall : (Instr.phi (e :: e' :: es)).operands.all w.func.admitsNew := by
        refine all_eq_true.mpr fun v hv => ?_
        obtain ⟨d, hd, hval⟩ := mem_filterMap.mp hv
        exact admitsNew_of_admits (h d (hret ▸ hd) v hval)
      dsimp only
      rw [func_bind, hall]
      exact ⟨_, _, rfl⟩

lemma exists_replaceResult (c : Copy) (call : InstId)
    (hadmits : ∀ v, value = some v → w.func.admits v)
    (hunused : value = none → (w.func.inst call).users = []) :
    ∃ w', replaceResult c call value w = .ok () w' := by
  rw [replaceResult, func_bind]
  cases value with
  | some v =>
    dsimp only
    rw [if_pos (hadmits v rfl)]
    exact ⟨_, rfl⟩
  | none =>
    rw [hunused rfl]
    exact ⟨_, rfl⟩

/-! ## The whole expansion -/

lemma not_stands {u : InstId} (hu : f.hasInst u) (hargs : .inst u ∉ s.args) {v : Operand}
    (h : Stands f s v (.inst u)) : False := by
  generalize hw : inst u = w at h
  cases h with
  | inst => exact copied_ne hu (inst.inj hw).symm
  | arg hv => grind
  | const => cases hw
  | global => cases hw

namespace Fits

variable (hfit : Fits f s)

include hfit

lemma users_call_eq_nil
    (hunused : ∀ u, f.placed u → .inst s.call ∉ (f.instr u).operands)
    {label : String} (hm : Spliced f s label pre post clears [] m) (hcounted : Counted f m)
    {kind : InstId → Instr} (hfill : Clears kind memset (s.size f)
      (s.copy f).slots clears) : (m.inst s.call).users = [] := by
  have hhas := f.hasInst_of_live hfit.live_call
  have hlt := f.hasInst_iff.mp hhas
  have hsize := hm.ext.insts
  have hmhas : m.hasInst s.call := (Func.hasInst_iff m).mpr (by omega)
  have huses := hcounted.tallied.uses (.inst s.call) hmhas fun i hi _ => by
    rw [← inst.inj hi]
    exact hfit.live_call
  refine eq_nil_iff_forall_not_mem.mpr fun u hu => ?_
  have hcnt := huses u
  have hpos : 0 < (m.users (.inst s.call)).count u := count_pos_iff.mpr hu
  split at hcnt
  swap
  · omega
  next hcounts =>
  rw [hcnt, count_pos_iff] at hpos
  simp only [counts, or_eq_true, and_eq_true, decide_eq_true_eq] at hcounts
  rcases hcounts with hpl | ⟨hle, hult⟩
  · have hhas' := f.hasInst_of_live (and_eq_true_iff.mp hpl).1
    rw [(hm.old u hhas').1, (sameUses_splitAtCall f s.call label).operands] at hpos
    exact hunused u hpl hpos
  · rw [hsize, length_nil, Nat.add_zero, ← Nat.add_assoc] at hult
    rcases new_cases hfit.callee.consistent hle hult with ⟨i, hi, rfl⟩ | ⟨k, p, hk, rfl⟩
    · rw [(hm.copied i hi).1] at hpos
      obtain ⟨v, -, hstands⟩ := hfit.operands_copied hi hpos
      exact not_stands hhas (hfit.operands_call ▸ hunused s.call hfit.call) hstands
    · rw [(hm.new k p (by rwa [append_nil])).1] at hpos
      rcases hfill.operands hk hpos with ⟨c, hc⟩ | ⟨i, hi, heq⟩ | ⟨j, -, heq⟩
      · cases hc
      · obtain ⟨j, -, -, rfl⟩ := Copy.of_mem_slots hfit.callee.consistent hi
        exact copied_ne hhas (inst.inj heq).symm
      · grind

lemma copiesInRange_withHoles (n : Nat) : copiesInRange (s.copy f) (withHoles f s n) := by
  refine all_eq_true.mpr fun i hi => and_eq_true_iff.mpr ⟨?_, ?_⟩
  · have hcallee := hfit.callee
    obtain ⟨d, hd, hmem⟩ := mem_flatMap.mp hi
    refine all_eq_true.mpr fun b hb => (hcallee.consistent.mem_liveBlocks.mp ?_).1
    change b ∈ (s.callee.instr i).blocks at hb
    cases hphi : (s.callee.instr i).isPhi with
    | true =>
      have hedge : s.callee.Edge b d := by
        refine ((hcallee.form.covers d hd i hmem hphi).2 b).mp ?_
        cases hk : s.callee.instr i with
        | phi es => rwa [hk] at hb
        | _ =>
          rw [hk] at hphi
          cases hphi
      exact hedge.1
    | false =>
      refine (hcallee.edge_of_target hd hmem ?_).2
      cases hk : s.callee.instr i with
      | phi es =>
        rw [hk] at hphi
        cases hphi
      | _ => rwa [hk] at hb
  · refine all_eq_true.mpr fun v hv => ?_
    obtain ⟨u, -, hstands⟩ := hfit.operands_copied hi hv
    exact hfit.admits_of_stands (k := 0) (hfit.size_withHoles n) hstands

lemma all_hasBlock_targetsAfter (label : String) :
    (targetsAfter f s.call).all (splitAtCall f s.call label).hasBlock := by
  obtain ⟨pre, post, hsplit⟩ := hfit.exists_split
  have hext := (extends_splitAtCall hfit.consistent hsplit label).1
  refine all_eq_true.mpr fun b hb => hext.hasBlock ?_
  have hedge := (hfit.mem_targetsAfter hsplit).mp hb
  exact (hfit.consistent.mem_liveBlocks.mp (hfit.mem_liveBlocks_of_edge hedge)).1

lemma exists_expand (hw : w.func = f) (n : Nat) (memset : Option FuncId)
    (hslots : ∀ i ∈ s.callee.liveInsts, ∀ t, s.callee.instr i = .alloc t → Clearable memset t) :
    ∃ w', expand s n memset w = .ok () w' := by
  subst hw
  obtain ⟨pre, post, hsplit⟩ := hfit.exists_split
  have hcallee := hfit.callee
  have hspliced := spliced_withCopy hfit.consistent hcallee.consistent hfit.live_call
    (hfit.callerEntry ▸ hfit.hasBlock_entry) hsplit n
  have hsize := hspliced.ext.insts
  have hent : s.calleeEntry ∈ s.callee.liveBlocks := hfit.calleeEntry ▸ hfit.entry
  have hlist : (withCopy w.func s n).instsOf ((s.copy w.func).block s.calleeEntry) ≠ [] := by
    rw [hspliced.instsOf_copy _ (mem_of_mem_filter hent), Copy.body_eq hcallee.consistent hent]
    obtain ⟨l, t, hl, ht, -⟩ := hcallee.formed.terminated _ hent
    have hslot : isSlot s.callee t = false := by
      rw [← not_eq_true]
      intro hslot
      cases (isPhi_of_isSlot hslot).2.symm.trans ht
    change _ ++ ((s.callee.instsOf s.calleeEntry).filter fun i => !isSlot s.callee i).map _ ≠ []
    simp [hl, hslot]
  have hallocs : ∀ i ∈ (s.copy w.func).slots, (withCopy w.func s n).hasInst i ∧
      ∃ t, (withCopy w.func s n).instr i = .alloc t ∧ Clearable memset t := by
    intro i hi
    obtain ⟨hhas, -⟩ := hspliced.alloc_of_mem hcallee.consistent hi
    obtain ⟨j, hlive, hslot, rfl⟩ := Copy.of_mem_slots hcallee.consistent hi
    obtain ⟨t, ht⟩ := isSlot_iff.mp hslot
    refine ⟨hhas, t, (hspliced.copied j hlive).1.trans ?_, hslots j hlive t ht⟩
    rw [show s.callee.instr j = .alloc t from ht]
    rfl
  obtain ⟨w₂, hw₂⟩ := exists_clearSlots (w := { w with func := withCopy w.func s n })
    hspliced.ext.consistent hlist hallocs
  obtain ⟨first, rest, clears, hfirst, hclears, heq₂⟩ := clearSlots_eq_ok
    (w := { w with func := withCopy w.func s n }) hspliced.ext.consistent
    (fun i hi => hspliced.alloc_of_mem hcallee.consistent hi) hw₂
  have hcleared := hspliced.clear (mem_of_mem_filter hent) hfirst clears
  have hcounted₂ := (hfit.counted_withCopy n).clears hclears rfl
    (fun i hi => (hspliced.alloc_of_mem hcallee.consistent hi).1) first
  rw [← heq₂] at hcleared hcounted₂
  have hsize₂ : w₂.func.insts.size =
      s.size w.func + clears.length := by
    rw [hcleared.ext.insts, length_nil, Nat.add_zero, Nat.add_assoc]
  obtain ⟨value, w₃, hw₃⟩ := exists_mergeReturns fun e he v hv => by
    obtain ⟨_, _, _, _, _, hstands⟩ := hfit.stands_of_returned he hv
    exact hfit.admits_of_stands hsize₂ hstands
  obtain ⟨merge, hmerges, heq₃⟩ := mergeReturns_eq_ok hw₃
  obtain ⟨hcounted₃, hadmits⟩ := hfit.counted_merges hcounted₂ hsize₂ hmerges
  obtain ⟨w₄, hw₄⟩ := exists_replaceResult (s.copy w.func) s.call (w := w₃)
    (fun v hv => (congrArg (Func.admits · v) heq₃).trans (hadmits v hv)) fun hval => by
      rw [hval] at hmerges
      obtain ⟨hzero, rfl⟩ := hmerges.zero?_eq_none
      rw [heq₃]
      exact hfit.users_call_eq_nil (hfit.unused hzero) hcleared hcounted₂ (hsize ▸ hclears)
  rw [expand, func_bind]
  dsimp only
  split
  · next hnot =>
    rw [hfit.all_hasBlock_targetsAfter] at hnot
    cases hnot
  split
  · next hnot =>
    change (!copiesInRange (s.copy w.func) (withHoles w.func s n)) at hnot
    rw [hfit.copiesInRange_withHoles n] at hnot
    cases hnot
  have hset : setFunc (withCopy w.func s n) w = .ok () { w with func := withCopy w.func s n } := rfl
  exact ⟨_, (bind_of_ok hset).trans ((bind_of_ok hw₂).trans
    ((bind_of_ok hw₃).trans (bind_of_ok hw₄)))⟩

end Fits

end MiddleEnd.Inlining
