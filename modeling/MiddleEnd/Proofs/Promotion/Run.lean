import Mathlib
import MiddleEnd.Proofs.Promotion.Cleanup

/-!
# The result of promotion

On a function in SSA form no step of promotion fails, and what it leaves is in SSA form again.  The
slots that could be promoted are gone, and with them every load and store of them.
-/

namespace MiddleEnd.Promotion

open List Bool Transform Func Prod Option Constant Instr

variable {f m g : Func} {ss : List Slot} {phis : SlotPhis} {start : BlockId → Values}
  {out : BlockId → Option Values} {subst : InstId → Operand} {i : InstId}

/-! ## One promotion -/

namespace Renamed

variable (h : Renamed f m g ss phis start out subst)

include h

lemma slot_unread {s : Slot} (hs : s ∈ ss) :
    (g.inst s.alloc).live ∧ g.instr s.alloc = .alloc s.ty ∧
      ∀ u, g.placed u → .inst s.alloc ∉ (g.instr u).operands := by
  have hgf := h.walk.formed
  have hinstr := h.ready.slots.instr s hs
  obtain ⟨b, hb, hmem⟩ := mem_flatMap.mp
    (h.inserted.mem_liveInsts.mpr (h.ready.slots.placed s hs))
  have hkept : s.alloc ∈ g.instsOf b := by
    refine h.mem_instsOf.mpr ⟨hmem, fun hgone => ?_⟩
    rw [hinstr] at hgone
    exact false_ne_true hgone.2
  have hnone : phis.lookup s.alloc = none := by
    rw [eq_none_iff_forall_ne_some]
    intro a ha
    rw [(h.instr_phi ha).1] at hinstr
    cases hinstr
  refine ⟨hgf.live_of_mem hkept, ?_, fun u hu huse => ?_⟩
  · rw [h.instr_old hb hkept hnone, hinstr]
    rfl
  · obtain ⟨c, hc, huc⟩ := mem_flatMap.mp (hgf.mem_liveInsts.mpr hu)
    rw [h.walk.progress.frame.liveBlocks] at hc
    exact (h.settled_operand hc huc huse).slot s.alloc rfl (mem_map_of_mem hs)

lemma phi_placed (hi : i ∈ phis.map fst) : g.placed i ∧ (g.instr i).isPhi := by
  obtain ⟨⟨j, a⟩, hmem, rfl⟩ := mem_map.mp hi
  have hlook := (lookup_eq_some_iff_mem h.inserted.nodup).mpr hmem
  obtain ⟨hpl, hopen, -⟩ := h.ready.phi j a hlook
  obtain ⟨b, hb, hjb⟩ := mem_flatMap.mp (h.inserted.mem_liveInsts.mpr hpl)
  have hkept : j ∈ g.instsOf b := by
    refine h.mem_instsOf.mpr ⟨hjb, fun hgone => ?_⟩
    rw [h.ready.loadsSlot_of_lookup hlook] at hgone
    exact false_ne_true hgone.2
  refine ⟨h.walk.progress.formed.placed_of_mem
    (h.walk.progress.frame.liveBlocks.symm ▸ hb) hkept, ?_⟩
  rw [(h.instr_phi hlook).2]
  rfl

end Renamed

def clearSlots (g : Func) (ss : List Slot) : Func :=
  (ss.map Slot.alloc).foldl remove g

def clearPhis (g : Func) (is : List InstId) : Func :=
  (unneededPhis g is).foldl remove g

lemma Renamed.phi_clearSlots (h : Renamed f m g ss phis start out subst)
    (hi : i ∈ phis.map fst) :
    (clearSlots g ss).placed i ∧ ((clearSlots g ss).instr i).isPhi := by
  obtain ⟨hpl, hphi⟩ := h.phi_placed hi
  have hinstr : (clearSlots g ss).instr i = g.instr i := (Consistent.record_foldl_remove _ _ i).1
  refine ⟨?_, hinstr.symm ▸ hphi⟩
  rw [clearSlots, placed_foldl_remove, hpl, Bool.true_and, decide_eq_true_iff]
  intro hslot
  obtain ⟨s, hs, rfl⟩ := mem_map.mp hslot
  rw [(h.slot_unread hs).2.1] at hphi
  exact Bool.false_ne_true hphi

lemma StoresUnread.inserted {homes : List (InstId × BlockId)} (h : StoresUnread f ss)
    (hins : Inserted f m phis homes) (hf : f.Analyzed) (hssa : f.Ssa) : StoresUnread m ss := by
  obtain ⟨-, hcomp, hform⟩ := ssa_iff.mp hssa
  have hformed := hf.formed
  have hold {i : InstId} (hi : f.placed i) : m.instr i = f.instr i :=
    (hins.old i (hasInst_of_live (Formed.live_of_placed hi))).2.1
  intro u hu j hj hacc
  rcases hins.hasInst_or_mem hformed.consistent hu with hpl | hphi
  · rw [hold hpl] at hj
    have hj' := hf.placed_of_operand hform hcomp hpl hj
    rw [hold hj'] at hacc ⊢
    exact h u hpl j hj hacc
  · obtain ⟨p, hp, rfl⟩ := mem_map.mp hphi
    rw [(hins.new p hp).2.2, operands_openPhi] at hj
    cases hj

/-- Promotion succeeds.  It leaves the renamed function without the slots and the phis that are not
needed, and with instructions folded. -/
lemma promote_eq_ok (hf : f.Analyzed) (hssa : f.Ssa) (hslots : slots f = .ok ss) (hne : ss ≠ [])
    (hstores : StoresUnread f ss) (events : List Event) :
    ∃ m g phis start out subst w, promote ss { func := f, events } = .ok () w ∧
      Renamed f m g ss phis start out subst ∧ g.Ssa ∧ (clearSlots g ss).Ssa ∧
      (clearPhis (clearSlots g ss) (phis.map fst)).Ssa ∧
      Folded (clearPhis (clearSlots g ss) (phis.map fst)) w.func := by
  obtain ⟨phis, foldable, w₂, w₃, start, out, subst, hphis, hrename, h⟩ :=
    exists_renamed hf hssa hslots hne events
  have hent : ⟨0⟩ ∈ w₂.func.liveBlocks := by
    obtain ⟨s, hs⟩ := exists_mem_of_ne_nil ss hne
    obtain ⟨b, hb, -⟩ := mem_flatMap.mp
      (h.inserted.mem_liveInsts.mpr (h.ready.slots.placed s hs))
    exact h.ready.mem_liveBlocks_of_reachable (ne_nil_of_mem hb) .refl
  have hg := h.ssa (hstores.inserted h.inserted hf hssa) hent
  obtain ⟨w₄, hslots', hcleared, hfunc₄⟩ := forM_removeSlot hg h.ready.slots.nodup
    fun s hs => h.slot_unread hs
  have hphi {i : InstId} (hi : i ∈ phis.map fst) : w₄.func.placed i ∧ (w₄.func.instr i).isPhi := by
    rw [hfunc₄]
    exact h.phi_clearSlots hi
  have hfilled : checkFilled (phis.map fst) w₄ = .ok () w₄ := by
    refine checkFilled_eq_ok fun i hi e he => ?_
    obtain ⟨-, -, hform⟩ := ssa_iff.mp hcleared
    obtain ⟨b, hb, hib⟩ := mem_flatMap.mp (hcleared.1.mem_liveInsts.mpr (hphi hi).1)
    exact hform.filled b hb i hib not_false e he
  obtain ⟨w₅, hsweep, hfunc₅⟩ := sweepPhis_eq_ok (phis.map fst) w₄
  obtain ⟨w₆, hfold, hfolds⟩ := foldStack_folds foldable.reverse w₅ (by rw [length_reverse])
  refine ⟨w₂.func, w₃.func, phis, start, out, subst, w₆, ?_, h, hg, ?_, ?_, ?_⟩
  · rw [promote, bind_of_ok hphis, bind_of_ok hrename,
      bind_of_ok hslots', bind_of_ok hfilled, bind_of_ok hsweep,
      foldConstants, func_bind, hfold]
  · rwa [clearSlots, ← hfunc₄]
  · rw [clearSlots, ← hfunc₄]
    exact ssa_sweep hcleared h.inserted.nodup
      fun i hi => ⟨Formed.live_of_placed (hphi hi).1, (hphi hi).2⟩
  · rw [clearSlots, ← hfunc₄, clearPhis, ← hfunc₅]
    exact hfolds.folded

/-! ## The pass -/

lemma run_of_analyses {w w₁ : Work} (h : analyses w = .ok () w₁) :
    run w = (match slots w₁.func with
      | .error e => throw e
      | .ok [] => return false
      | .ok ss => do promote ss; return true : Transform Bool) w₁ := by
  obtain ⟨⟨⟩, v₁, h₁, h⟩ := bind_ok h
  obtain ⟨⟨⟩, v₂, h₂, h⟩ := bind_ok h
  rw [run, bind_of_ok h₁, bind_of_ok h₂]
  exact (bind_of_ok h).trans (func_bind _)

lemma exists_mapM_eq_ok {ε α β : Type} {k : α → Except ε β} {xs : List α}
    (h : ∀ x ∈ xs, ∃ y, k x = .ok y) : ∃ ys, xs.mapM k = .ok ys := by
  induction xs with
  | nil => exact ⟨[], rfl⟩
  | cons x xs ih =>
    obtain ⟨y, hy⟩ := h x (.head _)
    obtain ⟨ys, hys⟩ := ih fun x' hx' => h x' (.tail x hx')
    refine ⟨y :: ys, ?_⟩
    rw [mapM_cons, hy]
    rw [hys]
    rfl

lemma slots_eq_ok (hf : f.Consistent) (htypes : ∀ i t, f.placed i → f.instr i = .alloc t →
    t.isArray ∨ (zero? t).isSome) : ∃ ss, slots f = .ok ss := by
  refine exists_mapM_eq_ok fun p hp => ?_
  obtain ⟨i, hi, hslot⟩ := mem_filterMap.mp hp
  obtain ⟨t, ht, rfl⟩ := map_eq_some_iff.mp hslot
  obtain ⟨halloc, harray, -⟩ := promotable?_eq_some.mp ht
  obtain ⟨zero, hzero⟩ := isSome_iff_exists.mp
    ((htypes i t (hf.mem_liveInsts.mp hi) halloc).resolve_left (by simp [harray]))
  exact ⟨⟨i, t, zero⟩, by simp only [slotOf, hzero]⟩

/-- No operand names a store to a slot, which has no result. -/
def ReadsNoStore (f : Func) : Prop :=
  ∀ u, f.placed u → ∀ j, .inst j ∈ (f.instr u).operands →
    ∀ v a t, f.instr j = .store v (.inst a) → f.instr a ≠ .alloc t

lemma readsNoStore_of_forall (hf : f.Consistent) (h : ∀ u ∈ f.liveInsts,
    ∀ v ∈ (f.instr u).operands, ∀ j ∈ v.inst?, isStore (f.instr j) = false) : ReadsNoStore f := by
  intro u hu j hj v a t hstore
  have hkind := h u (hf.mem_liveInsts.mpr hu) (.inst j) hj j rfl
  rw [hstore] at hkind
  cases hkind

lemma ReadsNoStore.storesUnread (h : ReadsNoStore f) (hg : g.Analyzed) (hssa : g.Ssa)
    (hs : Slots g ss)
    (hkept : ∀ i, g.placed i → f.placed i ∧
      ∃ keep, g.instr i = (f.instr i).filterEntries keep) : StoresUnread g ss := by
  intro u hu j hj hacc
  obtain ⟨-, hcomp, hform⟩ := ssa_iff.mp hssa
  have hj' := hg.placed_of_operand hform hcomp hu hj
  obtain ⟨a, ha, hacc⟩ := accesses_eq_true.mp hacc
  obtain ⟨s, hs', rfl⟩ := mem_map.mp ha
  obtain ⟨hpl, keep, hk⟩ := hkept u hu
  obtain ⟨-, keepj, hkj⟩ := hkept j hj'
  obtain ⟨-, keepa, hka⟩ := hkept s.alloc (hs.placed s hs')
  rw [hk] at hj
  have halloc := eq_of_filterEntries_eq (hka.symm.trans (hs.instr s hs')) rfl
  cases hkind : g.instr j with
  | load p => rfl
  | store v p =>
    rw [hkind] at hacc hkj
    cases p with
    | inst b =>
      obtain rfl : b = s.alloc := some.inj hacc
      exact absurd halloc (h u hpl j (mem_operands_of_filterEntries hj) v _ s.ty
        (eq_of_filterEntries_eq hkj.symm rfl))
    | _ => cases hacc
  | _ =>
    rw [hkind] at hacc
    cases hacc

/-- What the pass makes of an analyzed function with the slots `ss`. -/
inductive Promoted (f : Func) : List Slot → Func → Prop
  | none : Promoted f [] f
  | some {ss : List Slot} {m g h : Func} {phis : SlotPhis} {start : BlockId → Values}
    {out : BlockId → Option Values} {subst : InstId → Operand} :
    ss ≠ [] → Renamed f m g ss phis start out subst → (clearSlots g ss).Ssa →
    (clearPhis (clearSlots g ss) (phis.map fst)).Ssa →
    Folded (clearPhis (clearSlots g ss) (phis.map fst)) h → Promoted f ss h

lemma Promoted.ssa (h : Promoted f ss g) (hf : f.Ssa) : g.Ssa := by
  cases h with
  | none => exact hf
  | some _ _ _ hswept hfolded => exact hfolded.ssa hswept

lemma Promoted.dead (h : Promoted f ss g) {a : InstId} (ha : a ∈ ss.map Slot.alloc) :
    (g.inst a).live = false := by
  cases h with
  | none => cases ha
  | some _ _ _ _ hfolded =>
    rw [← not_eq_true]
    intro hlive
    have hlive' := hfolded.live hlive
    rw [clearPhis, Consistent.live_foldl_remove, clearSlots, Consistent.live_foldl_remove] at hlive'
    simp [ha] at hlive'

lemma exists_run (hf : f.Ssa) {entry : BlockId} (hent : f.entry? = some entry)
    (hpreds : ∀ b, ¬ f.Edge b entry)
    (htypes : ∀ i t, f.placed i → f.instr i = .alloc t →
      t.isArray ∨ (zero? t).isSome)
    (events : List Event) (hstores : ∀ g ss, g.Analyzed → g.Ssa → Slots g ss →
      (∀ i, g.placed i → f.placed i ∧
        ∃ keep, g.instr i = (f.instr i).filterEntries keep) → StoresUnread g ss) :
    ∃ f₁ ss changed w, analyses { func := f, events } = .ok () { func := f₁, events } ∧
      slots f₁ = .ok ss ∧ run { func := f, events } = .ok changed w ∧ f₁.Analyzed ∧ f₁.Ssa ∧
      Promoted f₁ ss w.func := by
  obtain ⟨f₁, hanalyses, hanalyzed, hssa, hkept⟩ := analyses_eq_ok hf hent hpreds events
  have hformed := hanalyzed.formed
  obtain ⟨ss, hslots⟩ := slots_eq_ok hformed.consistent fun i t hi halloc => by
    obtain ⟨hpl, keep, hk⟩ := hkept i hi
    exact htypes i t hpl (eq_of_filterEntries_eq (hk.symm.trans halloc) rfl)
  have hs := slots_of_eq_ok hslots hformed
  have hrun := run_of_analyses hanalyses
  rw [hslots] at hrun
  cases hss : ss with
  | nil =>
    refine ⟨f₁, [], false, { func := f₁, events }, hanalyses, hss ▸ hslots, ?_, hanalyzed, hssa, .none⟩
    rw [hrun, hss]
    rfl
  | cons s ss' =>
    have hne : ss ≠ [] := by simp [hss]
    obtain ⟨m, g, phis, start, out, subst, w, hpromote, hren, -, hcleared, hswept, hfolded⟩ :=
      promote_eq_ok hanalyzed hssa hslots hne (hstores f₁ ss hanalyzed hssa hs hkept) events
    refine ⟨f₁, s :: ss', true, w, hanalyses, hss ▸ hslots, ?_, hanalyzed, hssa, ?_⟩
    · rw [hrun, hss]
      rw [hss] at hpromote
      exact (bind_of_ok hpromote).trans rfl
    · rw [← hss]
      exact .some hne hren hcleared hswept hfolded

theorem run_eq_ok_ssa (hf : f.Ssa) {entry : BlockId} (hentry : f.entry? = some entry)
    (hpreds : ∀ b, ¬ f.Edge b entry)
    (htypes : ∀ i t, f.placed i = true → f.instr i = .alloc t →
      t.isArray = true ∨ (Constant.zero? t).isSome = true)
    (hstores : ReadsNoStore f) (events : List Event) :
    ∃ f₁ changed w, analyses { func := f, events } = .ok () { func := f₁, events } ∧
      run { func := f, events } = .ok changed w ∧ w.func.Ssa ∧
      ∀ i t, f₁.placed i = true → f₁.instr i = .alloc t → t.isArray = false →
        (∀ u, f₁.placed u = true → .inst i ∈ (f₁.instr u).operands →
          isAccess i (f₁.instr u) = true) →
        (w.func.inst i).live = false ∧
          ∀ u, w.func.placed u = true → .inst i ∉ (w.func.instr u).operands := by
  obtain ⟨f₁, ss, changed, w, hanalyses, hslots, hrun, hanalyzed, hssa, hpromoted⟩ :=
    exists_run hf hentry hpreds htypes events fun g ss hg hssa hs hkept =>
      hstores.storesUnread hg hssa hs hkept
  have hformed := hanalyzed.formed
  have hw := hpromoted.ssa hssa
  refine ⟨f₁, changed, w, hanalyses, hrun, hw, fun i t hi halloc harray husers => ?_⟩
  -- what is used in loads and stores only is one of the slots
  have hslot : i ∈ ss.map Slot.alloc := by
    have hlive := Func.Formed.live_of_placed hi
    have haccess (u : InstId) (hu : u ∈ (f₁.inst i).users) : isAccess i (f₁.instr u) = true := by
      have hcount : (f₁.inst i).users.count u = _ :=
        hformed.uses (.inst i) (f₁.hasInst_of_live hlive) hlive u
      have hpos := count_pos_iff.mpr hu
      split at hcount
      · next hplaced => exact husers u hplaced (count_pos_iff.mp (hcount ▸ hpos))
      · omega
    obtain ⟨s, hmem, rfl, -⟩ := (mem_slots_iff hslots hformed.consistent).mpr
      ⟨hi, promotable?_eq_some.mpr ⟨halloc, harray, haccess⟩⟩
    exact mem_map_of_mem hmem
  have hdead := hpromoted.dead hslot
  refine ⟨hdead, fun u hu huse => ?_⟩
  -- a function in SSA form reads live instructions only
  obtain ⟨b, hb, hub⟩ := mem_flatMap.mp (hw.1.mem_liveInsts.mpr hu)
  have hdefines : (w.func.inst i).live = true := hw.complete b hb u hub _ huse
  rw [hdead] at hdefines
  exact false_ne_true hdefines

/-- A slot that the instruction reserves has a zero. -/
def hasZero : Instr → Bool
  | .alloc t => (zero? t).isSome
  | _ => true

theorem run_counter_eq_ok_ssa : ∃ changed w, run { func := counter } = .ok changed w ∧ w.func.Ssa ∧
    (w.func.inst ⟨0⟩).live = false ∧
      ∀ u, w.func.placed u = true → .inst ⟨0⟩ ∉ (w.func.instr u).operands := by
  have hentry : counter.entry? = some ⟨0⟩ := by decide +kernel
  have htypes : ∀ i ∈ counter.liveInsts, hasZero (counter.instr i) := by decide +kernel
  obtain ⟨f₁, changed, w, hanalyses, hrun, hssa, hgone⟩ := run_eq_ok_ssa ssa_counter hentry
    not_edge_counter (fun i t hi halloc => by
      have hzero := htypes i (ssa_counter.1.mem_liveInsts.mpr hi)
      rw [halloc] at hzero
      exact Or.inr hzero)
    (readsNoStore_of_forall ssa_counter.1 (by decide +kernel)) []
  obtain rfl : analyzed counter = f₁ := by rw [analyzed, hanalyses]
  have hconsistent : (analyzed counter).Consistent := by decide +kernel
  refine ⟨changed, w, hrun, hssa, hgone ⟨0⟩ .i32 (by decide +kernel) (by decide +kernel) rfl ?_⟩
  intro u hu huse
  have haccess : ∀ u ∈ (analyzed counter).liveInsts, .inst ⟨0⟩ ∈ ((analyzed counter).instr u).operands →
      isAccess ⟨0⟩ ((analyzed counter).instr u) = true := by decide +kernel
  exact haccess u (hconsistent.mem_liveInsts.mpr hu) huse

/-- A function that returns what a store to a slot leaves. -/
def readsStore : Func :=
  Edit.applyAll (.new "f" .i32 [])
    [.addBlock "entry",
      .append ⟨0⟩ (.alloc .i32) (.pointer .i32),
      .append ⟨0⟩ (.store (.int 1) (.inst ⟨0⟩)) .void,
      .append ⟨0⟩ (.ret (some (.inst ⟨1⟩))) .void]

/-- When the store goes, an operand is left that names it. -/
theorem exists_run_not_ssa : ∃ f entry, f.Ssa ∧ f.entry? = some entry ∧ (∀ b, ¬ f.Edge b entry) ∧
    (∀ i t, f.placed i = true → f.instr i = .alloc t →
      t.isArray = true ∨ (Constant.zero? t).isSome = true) ∧
    ∃ changed w, run { func := f } = .ok changed w ∧ ¬ w.func.Ssa := by
  have hssa : readsStore.Ssa := Func.ssa_of_local (by cbv) (by decide +kernel)
  have htypes : ∀ i ∈ readsStore.liveInsts, hasZero (readsStore.instr i) := by decide +kernel
  have hedges : ∀ c ∈ readsStore.liveBlocks, (⟨0⟩ : BlockId) ∉ readsStore.liveTargets c := by
    decide +kernel
  refine ⟨readsStore, ⟨0⟩, hssa, by decide +kernel, fun b hb => hedges b hb.1 hb.2,
    fun i t hi halloc => ?_, ?_⟩
  · have hzero := htypes i (hssa.1.mem_liveInsts.mpr hi)
    rw [halloc] at hzero
    exact Or.inr hzero
  · obtain ⟨w, hrun⟩ : ∃ w, run { func := readsStore } = .ok true w :=
      report?_eq_some (by decide +kernel)
    have hfails : (left run { func := readsStore }).func.verify =
        .error (.removedOperand ⟨2⟩ ⟨1⟩) := by
      cbv
    rw [left, hrun] at hfails
    exact ⟨true, w, hrun, fun h => absurd (h.verified.symm.trans hfails) (by simp)⟩

end MiddleEnd.Promotion
