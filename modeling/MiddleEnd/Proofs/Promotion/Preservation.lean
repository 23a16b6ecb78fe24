import MiddleEnd.Proofs.DeadCode
import MiddleEnd.Proofs.Machine.Pruned
import MiddleEnd.Proofs.Machine.Transfer
import MiddleEnd.Proofs.Promotion.Simulation

/-!
# Promotion preserves runs

The pass takes a function through several ones: without the blocks that control does not get to,
without the slots, without the phis that are not needed, and with one instruction after the other
folded.  Each of them returns whatever the one before returns.  So a scalar program with a promoted
function does what it did before, under the same limits and in no more steps.

The interpreter starts at the first block of a function even if that has been deleted, but the pass
does not look at deleted blocks.  It then takes the blocks after the entry for unreachable.
-/

namespace MiddleEnd

open List Bool Func Operand Local Program Instr

/-! ## Chains of simulations -/

/-- One function does what the other does, under the same head. -/
def Local.Follows (f g : Func) : Prop :=
  Relation.ReflTransGen (fun f g => f.SameHead g ∧ SimulatedBy f g) f g

lemma Func.Simplifies.follows {f g : Func} {runs : BlockId → Prop} {kept : InstId → Bool}
    {lit : InstId → Option Constant} (h : f.Simplifies g runs kept lit) (hhead : f.SameHead g) :
    Follows f g :=
  .single ⟨hhead, h.simulatedBy⟩

lemma Local.Follows.head {f g : Func} (h : Follows f g) : f.SameHead g := by
  induction h with
  | refl => exact .refl f
  | tail _ hstep ih => exact ih.trans hstep.1

/-- Calls do what they did when one function is replaced by one at the end of a chain. -/
lemma Local.Follows.calls {p : Program} {id : FuncId} (hid : p.hasFunc id) {g : Func}
    (h : Follows (p.func id) g) (fuel depth : Nat) :
    CallSem.RefinedBy (Calls p fuel depth) (Calls (p.setFunc id g) fuel depth) := by
  induction h with
  | refl => exact calls_setFunc (.refl _) (Simplifies.refl _).simulatedBy fuel depth
  | @tail m g _ hstep ih =>
    have hfunc : (p.setFunc id m).func id = m := by
      rw [p.func_setFunc, if_pos ⟨rfl, hid⟩]
    have hhead : ((p.setFunc id m).func id).SameHead g := hfunc.symm ▸ hstep.1
    have hlast := calls_setFunc hhead (hfunc.symm ▸ hstep.2) fuel depth
    rw [setFunc_setFunc] at hlast
    exact ih.trans hlast

/-! ## Phis that nothing reads -/

namespace Func

variable {f g : Func}

lemma Ssa.simplifies_foldl_remove (hf : f.Ssa) (hent : ⟨0⟩ ∈ f.liveBlocks) {is : List InstId}
    (hg : (is.foldl Func.remove f).Formed) (hphis : ∀ i ∈ is, (f.instr i).isPhi)
    (hunread : ∀ u, f.placed u → u ∉ is → ∀ i ∈ is, .inst i ∉ (f.instr u).operands) :
    f.Simplifies (is.foldl Func.remove f) (· ∈ f.liveBlocks) (fun i => decide (i ∉ is))
      fun _ => none := by
  have hformed := hf.formed
  have hfr : f.SameFrame (is.foldl Func.remove f) := sameFrame_foldl sameFrame_remove _ _
  have hinstr (i : InstId) : (is.foldl Func.remove f).instr i = f.instr i :=
    (Consistent.record_foldl_remove _ _ i).1
  have hfill : Operand.fill (fun _ => none) = id := funext Operand.fill_none
  constructor
  · exact hent
  · intro b hb i hi c hc _
    exact (hf.edge_of_target hb (mem_filter.mp hi).1 hc).2
  · intro b _ hblk
    rw [hfr.hasBlock, hblk]
  · intro b hb
    rw [hg.phis_eq (hfr.liveBlocks.symm ▸ hb), hformed.phis_eq hb,
      hf.consistent.instsOf_foldl_remove, filter_filter, filter_filter]
    exact filter_congr fun i _ => by rw [hinstr, Bool.and_comm]
  · intro b hb
    rw [body, body, hf.consistent.instsOf_foldl_remove, filter_filter, filter_filter]
    exact filter_congr fun i _ => by rw [hinstr, Bool.and_comm]
  · intro b hb i hi _
    exact (Consistent.record_foldl_remove _ _ i).2.1
  · intro b hb i hi _
    rw [hinstr, hfill]
    exact (Instr.mapOperands_id _).symm
  · grind
  · intro i c hc
    cases hc
  · intro b hb i hi hkept
    have hmem : i ∈ is := by simpa using hkept
    have hphi := (mem_filter.mp hi).2
    rw [hphis i hmem] at hphi
    cases hphi
  · intro b hb i hi hkept j hj
    refine .inl (decide_eq_true fun hmem => ?_)
    exact hunread i (hf.consistent.placed_of_mem hb hi) (of_decide_eq_true hkept) j hmem hj

end Func

namespace Promotion

variable {f g : Func} {ss : List Slot} {i : InstId}

lemma simplifies_foldAt (hf : f.Ssa) (hent : ⟨0⟩ ∈ f.liveBlocks) {c : Constant}
    (hc : foldable? f i = some c) :
    f.Simplifies (foldAt f i c) (· ∈ f.liveBlocks) (fun j => decide (j ≠ i))
      fun j => if j = i then some c else none := by
  obtain ⟨hlive, hfold⟩ := foldable?_eq_some hc
  obtain ⟨hformed, -, -⟩ := ssa_iff.mp hf
  have hg : (foldAt f i c).Ssa := (Folded.step hc (.refl _)).ssa hf
  have hformed' := hg.formed
  have hplaces := f.samePlaces_replaceUses (.inst i) (.const c)
  have hfr : f.SameFrame (foldAt f i c) := hplaces.frame.trans (sameFrame_remove _ _)
  have hinsts (b : BlockId) : (foldAt f i c).instsOf b =
    (f.instsOf b).filter fun j => decide (j ≠ i) := by
    rw [foldAt, (hplaces.consistent hf.consistent).instsOf_remove, hplaces.instsOf,
      (hf.consistent.nodup b).erase_eq_filter]
    exact filter_congr fun j _ => by rw [Bool.eq_iff_iff]; simp
  have hfill : fill (fun j => if j = i then some c else none) =
      subst (.inst i) (.const c) := by
    funext v
    cases v with
    | inst j =>
      by_cases hj : j = i
      · simp [fill, subst, hj]
      · simp [fill, subst, hj]
    | _ => simp [fill, subst]
  have hinstr {b : BlockId} (hb : b ∈ f.liveBlocks) {j : InstId} (hj : j ∈ f.instsOf b) :
      (foldAt f i c).instr j =
        (f.instr j).mapOperands (fill fun j => if j = i then some c else none) := by
    have hpl := hf.consistent.placed_of_mem hb hj
    have huses := hformed.uses (.inst i) (f.hasInst_of_live hlive) hlive
    have hrepl := instr_replaceUses huses (f.hasInst_of_live hlive) (.const c) (j := j)
      fun h => f.hasInst_of_live (Formed.live_of_placed h)
    rw [hpl, if_pos rfl] at hrepl
    rw [hfill, ← hrepl]
    exact (record_remove _ i j).1
  have hphi {b : BlockId} (hb : b ∈ f.liveBlocks) {j : InstId} (hj : j ∈ f.instsOf b) :
      ((foldAt f i c).instr j).isPhi = (f.instr j).isPhi := by
    rw [hinstr hb hj]
    exact (sameShape_mapOperands _ _).isPhi
  constructor
  · exact hent
  · intro b hb j hj d hd _
    exact (hf.edge_of_target hb (mem_filter.mp hj).1 hd).2
  · intro b _ hblk
    rw [hfr.hasBlock, hblk]
  · intro b hb
    rw [hformed'.phis_eq (hfr.liveBlocks.symm ▸ hb), hformed.phis_eq hb, hinsts,
      filter_filter, filter_filter]
    exact filter_congr fun j hj => by rw [hphi hb hj, Bool.and_comm]
  · intro b hb
    rw [body, body, hinsts, filter_filter, filter_filter]
    exact filter_congr fun j hj => by rw [hphi hb hj, Bool.and_comm]
  · intro b hb j hj _
    exact (record_remove _ i j).2.1.trans (ty_replaceUses f _ _ j)
  · intro b hb j hj _
    exact hinstr hb (mem_filter.mp hj).1
  · intro b hb j hj _ p _
    rw [hinstr hb ((takeWhile_sublist _).subset hj), operandFrom?_mapOperands]
  · intro j d hd
    split at hd
    · next hji =>
      obtain rfl := Option.some.inj hd
      subst hji
      exact ⟨by simp, hfold⟩
    · cases hd
  · intro b hb j hj hkept
    have hji : j = i := by simpa using hkept
    simp [hji]
  · intro b hb j hj _ k hk
    by_cases hki : k = i
    · exact .inr (by simp [hki])
    · exact .inl (decide_eq_true hki)

lemma Folded.follows (h : Folded f g) (hf : f.Ssa) (hent : ⟨0⟩ ∈ f.liveBlocks) :
    Follows f g := by
  induction h with
  | refl => exact .refl
  | @step f g i c hc _ ih =>
    have hfr : f.SameFrame (foldAt f i c) :=
      (f.sameFrame_replaceUses _ _).trans (sameFrame_remove _ _)
    have hstep := (simplifies_foldAt hf hent hc).follows hfr.head
    exact hstep.trans (ih ((Folded.step hc (.refl _)).ssa hf) (hfr.liveBlocks.symm ▸ hent))

lemma initial_of_mem_slots (h : slots f = .ok ss) (hf : f.Consistent) {c : Slot} (hc : c ∈ ss) :
    Value.initial c.ty = .ofConstant c.zero := by
  have hzero := (map_slot_of_slots h).2 c hc
  obtain ⟨-, hslot⟩ := (mem_slots_iff h hf).mp ⟨c, hc, rfl, rfl⟩
  obtain ⟨-, harray, -⟩ := promotable?_eq_some.mp hslot
  have hscalar : c.ty.scalar = c.ty := by
    cases hty : c.ty <;> rw [hty] at harray <;> first | rfl | cases harray
  rw [Value.initial, hscalar, hzero]
  rfl

lemma Promoted.follows (h : Promoted f ss g) (hssa : f.Ssa) (hent : ⟨0⟩ ∈ f.liveBlocks)
    (hslots : slots f = .ok ss) : Local.Follows f g := by
  cases h with
  | none => exact .refl
  | @some _ m k _ phis start out subst hne hren hcleared hswept hfolded =>
    have hfr : f.SameFrame (clearSlots k ss) :=
      (hren.inserted.trans hren.walk.frame).trans
        (Func.sameFrame_foldl Func.sameFrame_remove _ _)
    have hframe' : (clearSlots k ss).SameFrame (clearPhis (clearSlots k ss) (phis.map Prod.fst)) :=
      Func.sameFrame_foldl Func.sameFrame_remove _ _
    have hlive : ⟨0⟩ ∈ (clearSlots k ss).liveBlocks := hfr.liveBlocks.symm ▸ hent
    have hformed := hcleared.formed
    have hslotless : Local.Follows f (clearSlots k ss) :=
      .single ⟨hfr.head, hren.simulatedBy hformed hssa
        (hren.inserted.liveBlocks.symm ▸ hent)
        fun c hc => initial_of_mem_slots hslots hssa.consistent hc⟩
    have hphiless : Local.Follows (clearSlots k ss)
        (clearPhis (clearSlots k ss) (phis.map Prod.fst)) := by
      refine (hcleared.simplifies_foldl_remove hlive hswept.formed
        (fun i hi => (hren.phi_clearSlots (mem_filter.mp hi).1).2)
        fun u hu hkept i hi => ?_).follows hframe'.head
      refine notMem_operands_of_unneeded hren.inserted.nodup (fun j hj => ?_) hu hkept hi
      have hlive := Func.Formed.live_of_placed (hren.phi_clearSlots hj).1
      exact hformed.uses _ (Func.hasInst_of_live hlive) hlive
    have hfolds := hfolded.follows hswept (hframe'.liveBlocks.symm ▸ hlive)
    exact (hslotless.trans hphiless).trans hfolds

lemma follows_of_analyses (hf : f.Ssa) (hent : ⟨0⟩ ∈ f.liveBlocks) (hpreds : ∀ b, ¬ f.Edge b ⟨0⟩)
    {events : List Event} (h : analyses { func := f, events } = .ok () { func := g, events }) :
    Follows f g ∧ ⟨0⟩ ∈ g.liveBlocks := by
  have hcode := f.sameCode_setEdges f.liveBlocks
  obtain ⟨m, hconn, hprune, hrouted, hprun, hrouted', hssa, hreach, -⟩ := hf.prune
  have hhas : m.hasBlock ⟨0⟩ := by
    rw [hprun.without.hasBlock, hcode.hasBlock]
    exact (hf.consistent.mem_liveBlocks.mp hent).1
  have hentry' : ⟨0⟩ ∈ (f.setEdges f.liveBlocks).liveBlocks := by rwa [hcode.liveBlocks]
  have hpreds' (b : BlockId) : ¬ m.Edge b ⟨0⟩ := by
    rw [hprun.edge_iff hrouted hrouted'.formed, hcode.edge]
    exact fun hedge => hpreds b hedge.1
  have hdominance := hrouted'.computeDominance hreach hhas hpreds'
  have hlast := m.sameCode_withDominance
  rw [analyses_of_ok hconn hprune hdominance] at h
  obtain rfl : m.withDominance = g := by
    injection h with _ h
    injection h
  constructor
  · have hroutes := hcode.simplifies.follows hcode.head
    have hprunes := (hprun.simplifies hrouted (hcode.ssaForm hf.form) hrouted'.formed
      hentry').follows hprun.without.head
    exact (hroutes.trans hprunes).trans (hlast.simplifies.follows hlast.head)
  · rw [hlast.liveBlocks, hrouted.mem_liveBlocks_of_without hprun.without]
    exact ⟨hentry', .refl⟩

/-! ## Scalar functions -/

section Scalar

variable {p : Program} (hf : f.Scalar p)

include hf

lemma zero_of_scalar {t : Ty} (hi : f.placed i) (hk : f.instr i = .alloc t) :
    t.isArray ∨ (Constant.zero? t).isSome := by
  have htyped := hf.isWellTyped hi
  simp only [isWellTyped, hk, and_eq_true] at htyped
  have hscalar := htyped.1.1
  cases t <;> first | exact .inr rfl | cases hscalar

lemma storesUnread_of_scalar (hg : g.Analyzed) (hssa : g.Ssa)
    (hkept : ∀ i, g.placed i → f.placed i ∧
      ∃ keep, g.instr i = (f.instr i).filterEntries keep) : StoresUnread g ss := by
  intro u hu j hj hacc
  obtain ⟨-, hcomp, hform⟩ := ssa_iff.mp hssa
  obtain ⟨hju, _, hk⟩ := hkept j (hg.placed_of_operand hform hcomp hu hj)
  obtain ⟨huf, keep, hu'⟩ := hkept u hu
  rw [hu'] at hj
  have hread := place_or_hasType_of_operand (hf.isWellTyped huf) (mem_operands_of_filterEntries hj)
  cases hkind : g.instr j with
  | load ptr => rfl
  | store v ptr =>
    have hstore := eq_of_filterEntries_eq (hk.symm.trans hkind) rfl
    have htyped := hf.isWellTyped hju
    simp only [isWellTyped, hstore, and_eq_true, decide_eq_true_eq] at htyped
    rcases hread with hplace | ⟨t, ht⟩
    · simp [placeTy?, hstore] at hplace
    · simp only [hasType, typeOf?, htyped.2, and_eq_true, decide_eq_true_eq,
        Option.some.injEq] at ht
      rw [← ht.2] at ht
      cases ht.1
  | _ =>
    rw [hkind] at hacc
    cases hacc

end Scalar

/-! ## The pass -/

lemma exists_run_follows {p : Program} (hf : f.Scalar p) (hent : ⟨0⟩ ∈ f.liveBlocks)
    (hpreds : ∀ b, ¬ f.Edge b ⟨0⟩) (events : List Event) :
    ∃ changed w, run { func := f, events } = .ok changed w ∧ Follows f w.func := by
  have hhas : f.entry? = some ⟨0⟩ := by
    have hpos := (hasBlock_iff f).mp (hf.ssa.consistent.mem_liveBlocks.mp hent).1
    rw [ entry?, if_neg]
    rw [Array.isEmpty_iff]
    rintro hempty
    simp [hempty] at hpos
  obtain ⟨f₁, ss, changed, w, hanalyses, hslots, hrun, -, hssa, hpromoted⟩ :=
    exists_run hf.ssa hhas hpreds (fun i t hi hk => zero_of_scalar hf hi hk) events
      fun g ss hg hssa _ hkept => storesUnread_of_scalar hf hg hssa hkept
  obtain ⟨hfollows, hlive⟩ := follows_of_analyses hf.ssa hent hpreds hanalyses
  exact ⟨changed, w, hrun, hfollows.trans (hpromoted.follows hssa hlive hslots)⟩

/-- Promotion in a function of a scalar program succeeds and keeps every successful run: the same
result, output, input left and memory, and no more instructions.  The limits are the same for both
runs. -/
theorem run_setFunc_ahead {p : Program} (hp : p.Entered) {id : FuncId} (hid : p.hasFunc id = true)
    (hdefined : (p.func id).isDefined = true) (hentry : (p.func id).hasBlock ⟨0⟩ = true)
    (hpreds : ∀ b, ¬ (p.func id).Edge b ⟨0⟩) (events : List Event) :
    ∃ changed w, run { func := p.func id, events } = .ok changed w ∧
      ∀ limits input e s, p.load limits input = .ok (e, s) →
        ∃ e', (p.setFunc id w.func).load limits input = .ok (e', s) ∧
          ∀ name args v t, p.Accepts name args → e.run name args s = .ok v t →
            ∃ t', e'.run name args s = .ok v t' ∧ t'.output = t.output ∧ t'.input = t.input ∧
              t'.memory = t.memory ∧ t'.steps ≤ t.steps := by
  obtain ⟨changed, w, hrun, hfollows⟩ := exists_run_follows (hp.func hid hdefined)
    (hp.mem_liveBlocks hid hdefined hentry) hpreds events
  refine ⟨changed, w, hrun, fun limits input e s hload => ⟨_, Program.load_congr hload rfl,
    fun name args v t hargs ht => ?_⟩⟩
  have hhead (id' : FuncId) : (p.func id').SameHead ((p.setFunc id w.func).func id') := by
    rw [p.func_setFunc]
    split
    · next heq =>
      rw [heq.1]
      exact hfollows.head
    · exact .refl _
  obtain ⟨t', ht', hahead⟩ := hp.run_of_refinedBy (q := p.setFunc id w.func) rfl
    (by simp [Program.setFunc]) hhead (fun fuel depth => hfollows.calls hid fuel depth) hload hargs ht
  exact ⟨t', ht', hahead.output, hahead.input, hahead.memory, hahead.steps⟩

lemma scalar_single (hf : f.Scalar (DeadCode.single f)) : (DeadCode.single f).Scalar where
  globals g hg := absurd hg (by simp [DeadCode.single])
  funcs h hh _ := by
    obtain rfl : h = f := by simpa [DeadCode.single] using hh
    exact hf

lemma accepts_single {args : List Value}
    (hargs : List.Forall₂ (fun v x => v.hasType x.ty) args f.params.toList) (name : String) :
    (DeadCode.single f).Accepts name args := by
  intro id hid _
  obtain ⟨n, hn, rfl⟩ := Option.map_eq_some_iff.mp hid
  obtain rfl : n = 0 := by
    have hlt := (Array.findIdx?_eq_some_iff_getElem.mp hn).1
    simpa [DeadCode.single] using hlt
  exact hargs

lemma entered_counter : (DeadCode.single counter).Entered where
  scalar := scalar_single ⟨ssa_counter, by decide +kernel, by decide +kernel, by decide +kernel⟩
  entry f hf _ := by
    obtain rfl : f = counter := by simpa [DeadCode.single] using hf
    exact fun _ => by decide +kernel

theorem run_counter_ahead : ∃ changed w t e' t', run { func := counter } = .ok changed w ∧
    Image.run { program := DeadCode.single counter } "count" [.bool false] DeadCode.start =
      .ok (.int 1) t ∧
    (DeadCode.single w.func).load {} "" = .ok (e', DeadCode.start) ∧
    e'.run "count" [.bool false] DeadCode.start = .ok (.int 1) t' ∧ t'.output = t.output ∧
    t'.input = t.input ∧ t'.memory = t.memory ∧ t'.steps ≤ t.steps := by
  obtain ⟨changed, w, hpass, hpreserves⟩ := run_setFunc_ahead entered_counter
    (by decide +kernel : (DeadCode.single counter).hasFunc ⟨0⟩ = true) (by decide +kernel)
    (by decide +kernel) not_edge_counter []
  obtain ⟨e', hload, hruns⟩ := hpreserves {} "" _ _ (DeadCode.load_single counter)
  have hfind : (DeadCode.single counter).findFunc? "count" = some ⟨0⟩ := by decide +kernel
  obtain ⟨t, hrun⟩ : ∃ t, Image.run { program := DeadCode.single counter } "count" [.bool false]
      DeadCode.start = .ok (.int 1) t :=
    Local.exists_run_of_call? 8 hfind rfl (Nat.zero_add _) (fun _ => by decide) (by decide +kernel)
  obtain ⟨t', ht', hsame⟩ := hruns "count" [.bool false] (.int 1) t
    (accepts_single (by decide +kernel) _) hrun
  exact ⟨changed, w, t, e', t', hpass, hrun, hload, ht', hsame⟩

def detached : Func :=
  Edit.applyAll (.new "f" .i32 [])
    [.addBlock "entry", .addBlock "next",
      .append ⟨1⟩ (.ret (some (.int 1))) .void,
      .deleteBlock ⟨0⟩,
      .append ⟨0⟩ (.jump (some ⟨1⟩)) .void]

def severed : Func :=
  match run { func := detached } with
  | .ok _ w => w.func
  | .error _ w => w.func

theorem exists_run_not_ahead : ∃ (p : Program) (id : FuncId) (changed : Bool) (w : Work)
    (limits : Limits) (input name : String) (args : List Value) (e : Image) (s t : Machine) (v : Value),
    p.Scalar ∧ p.hasFunc id = true ∧ (p.func id).isDefined = true ∧ (p.func id).hasBlock ⟨0⟩ = true ∧
      (∀ b, ¬ (p.func id).Edge b ⟨0⟩) ∧ run { func := p.func id } = .ok changed w ∧
      p.load limits input = .ok (e, s) ∧ p.Accepts name args ∧ e.run name args s = .ok v t ∧
      ∀ e' s' t', (p.setFunc id w.func).load limits input = .ok (e', s') →
        e'.run name args s' ≠ .ok v t' := by
  have hssa : detached.Ssa := Func.ssa_of_local (by cbv) (by decide +kernel)
  have hedges : ∀ c ∈ detached.liveBlocks, (⟨0⟩ : BlockId) ∉ detached.liveTargets c := by
    decide +kernel
  have hpass : run { func := detached } = .ok false { func := severed } := by cbv
  have hbefore : (Image.run { program := DeadCode.single detached } "f" []).answer?
      DeadCode.start = some (.int 1) := by decide +kernel
  have hafter : (Image.run { program := DeadCode.single severed } "f" []).answer?
      DeadCode.start = none := by decide +kernel
  obtain ⟨t, ht⟩ := Exec.answer?_eq_some.mp hbefore
  refine ⟨DeadCode.single detached, ⟨0⟩, false, { func := severed }, {}, "", "f", [], _,
    DeadCode.start, t, .int 1, scalar_single ⟨hssa, by decide +kernel, by decide +kernel,
      by decide +kernel⟩,
    rfl, by decide +kernel, by decide +kernel, fun b hb => hedges b hb.1 hb.2, hpass,
    DeadCode.load_single detached, ?_, ht, ?_⟩
  · exact accepts_single (by decide +kernel) _
  · intro e' s' t' hload hrun
    cases (DeadCode.load_single severed).symm.trans hload
    have hsame := hafter.symm.trans (Exec.answer?_eq_some.mpr ⟨t', hrun⟩)
    cases hsame

end Promotion

end MiddleEnd
