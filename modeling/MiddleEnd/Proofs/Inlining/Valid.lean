import MiddleEnd.Proofs.Inlining.Retire
import MiddleEnd.Proofs.Inlining.Total

/-!
# Inlining keeps SSA form

Every call that is to be replaced fits: its callee has been treated before and is still in SSA form,
and the calls of a caller that wait for their turn stay as they are while others are replaced.  So
inlining succeeds, and every function that is in use afterwards is in SSA form.
-/

namespace MiddleEnd

open List Nat Program Func Constant Option Instr Prod

def Instr.call? : Instr → Option (FuncId × List Operand)
  | .call g args _ => some (g, args)
  | _ => none

def Instr.slotType? : Instr → Option Ty
  | .alloc t => some t
  | _ => none

namespace Instr

lemma slotType?_mapOperands (σ : Operand → Operand) (k : Instr) :
    (k.mapOperands σ).slotType? = k.slotType? := by
  cases k <;> rfl

lemma slotType?_filterEntries (keep : BlockId → Bool) (k : Instr) :
    (k.filterEntries keep).slotType? = k.slotType? := by
  cases k <;> rfl

lemma slotType?_renameEntry (old new : BlockId) (k : Instr) :
    (k.renameEntry old new).slotType? = k.slotType? := by
  cases k <;> rfl

end Instr

/-- Nothing in a live block reads the result of the instruction. -/
def Func.Unused (f : Func) (u : InstId) : Prop :=
  ∀ v ∈ f.liveInsts, .inst u ∉ (f.instr v).operands

instance (f : Func) (u : InstId) : Decidable (f.Unused u) :=
  inferInstanceAs (Decidable (∀ v ∈ f.liveInsts, _))

/-- The calls of functions that are in use have the property, which is about the caller, the call, the
callee and the arguments. -/
def Program.ForCalls (p : Program) (P : Func → InstId → Func → List Operand → Prop) : Prop :=
  ∀ f ∈ p.funcs, f.isDefined → ∀ u ∈ f.liveInsts, ∀ c ∈ (f.instr u).call?,
    (p.func c.1).isDefined → P f u (p.func c.1) c.2

instance (p : Program) (P : Func → InstId → Func → List Operand → Prop)
    [∀ f u g args, Decidable (P f u g args)] : Decidable (p.ForCalls P) :=
  inferInstanceAs (Decidable (∀ f ∈ p.funcs, _ → ∀ u ∈ f.liveInsts, ∀ c ∈ (f.instr u).call?, _ → _))

namespace Inlining

variable {p : Program} {f g m : Func} {s : Site} {n : Nat} {memset : Option FuncId}
  {pre post : List InstId} {clears merge : List (Instr × Ty)} {value : Option Operand} {id : FuncId}
  {P : Instr → Prop}

/-! ## Bodies -/

/-- A function in SSA form that returns a value wherever it should and whose slots can be cleared. -/
structure Body (f : Func) : Prop where
  ssa : f.Ssa
  returns : f.ret ≠ .void → ∀ i ∈ f.liveInsts, f.instr i ≠ .ret none
  slots : ∀ i ∈ f.liveInsts, ∀ t ∈ (f.instr i).slotType?, t.cells ≤ 0x1fffffff

/-- A call of the function `id` with the right number of arguments, and without uses if there may be no
value. -/
structure Matches (f : Func) (u : InstId) (id : FuncId) (callee : Func) : Prop where
  placed : f.placed u
  args : ∃ args format, f.instr u = .call id args format ∧ args.length = callee.params.size
  unused : zero? callee.ret = none →
    ∀ v, f.placed v → .inst u ∉ (f.instr v).operands

lemma Matches.congr_head {callee callee' : Func} {u : InstId}
    (h : Matches f u id callee) (hhead : callee.SameHead callee') : Matches f u id callee' where
  placed := h.placed
  args := by
    rw [hhead.params_size]
    exact h.args
  unused := by
    rw [hhead.ret]
    exact h.unused

lemma Copy.slotType?_instr (c : Copy) (k : Instr) : (c.instr k).slotType? = k.slotType? := by
  cases k <;> rfl

/-- A property of operations that does not depend on operands and blocks and that holds of the code
around a copy. -/
structure Stable (P : Instr → Prop) : Prop where
  mapOperands : ∀ σ k, P k → P (k.mapOperands σ)
  renameEntry : ∀ old new k, P k → P (k.renameEntry old new)
  filterEntries : ∀ keep k, P k → P (k.filterEntries keep)
  copy : ∀ c k, P k → P (Copy.instr c k)
  jump : ∀ b, P (.jump b)
  phi : ∀ es, P (.phi es)
  store : ∀ v ptr, P (.store v ptr)
  cast : ∀ op v, P (.cast op v)
  call : ∀ g args, P (.call g args none)

lemma stable_slotType? (P : Ty → Prop) : Stable fun k => ∀ t ∈ k.slotType?, P t where
  mapOperands σ k hk := by rwa [slotType?_mapOperands]
  renameEntry old new k hk := by rwa [slotType?_renameEntry]
  filterEntries keep k hk := by rwa [slotType?_filterEntries]
  copy c k hk := by rwa [Copy.slotType?_instr]
  jump _ _ ht := by cases ht
  phi _ _ ht := by cases ht
  store _ _ _ ht := by cases ht
  cast _ _ _ ht := by cases ht
  call _ _ _ ht := by cases ht

lemma Stable.of_clears (hP : Stable P) {kind : InstId → Instr}
    {slots : List InstId} {code : List (Instr × Ty)} (h : Clears kind memset n slots code)
    {p : Instr × Ty} (hp : p ∈ code) : P p.1 := by
  induction h with
  | nil n => cases hp
  | scalar _ _ _ ih =>
    rcases mem_cons.mp hp with rfl | hp
    · exact hP.store _ _
    · exact ih hp
  | array _ _ _ _ _ ih =>
    rcases mem_cons.mp hp with rfl | hp
    · exact hP.cast _ _
    · rcases mem_cons.mp hp with rfl | hp
      · exact hP.call _ _
      · exact ih hp

lemma mapOperands_eq_ret {σ : Operand → Operand} {k : Instr} (h : k.mapOperands σ = .ret none) :
    k = .ret none := by
  cases k with
  | ret v =>
    cases v with
    | none => rfl
    | some v => cases h
  | _ => cases h

namespace Replaced

variable {u : InstId}

variable (h : Replaced f s n memset pre post clears merge value m g) {b : BlockId}

include h

lemma instr_old_of_not_isPhi (hu : f.placed u) (hne : u ≠ s.call)
    (hphi : (g.instr u).isPhi = false) :
    g.instr u = (f.instr u).mapOperands (substResult s.call value) := by
  rw [(h.kind_old hu hne).2] at hphi
  rw [h.instr_old hu hne, renameEntry_of_not_isPhi _ _ hphi]

/-- What holds of the operations of the caller and of the callee holds of all operations. -/
lemma stable (hP : Stable P) (hf : ∀ u ∈ f.liveInsts, P (f.instr u))
    (hcallee : ∀ i ∈ s.callee.liveInsts, P (s.callee.instr i)) :
    ∀ u ∈ g.liveInsts, P (g.instr u) := by
  intro u hu
  obtain ⟨b, hb, hmem⟩ := mem_flatMap.mp hu
  refine h.of_found (P := fun u => P (g.instr u)) (h.found hb hmem) (fun u hu hne => ?_)
    (by rw [h.instr_call]; exact hP.jump _) (fun i hi => ?_) (fun k p hk => ?_) fun k p hk => ?_
  · rw [h.instr_old hu hne]
    exact hP.mapOperands _ _ (hP.renameEntry _ _ _ (hf u
      (h.fits.consistent.mem_liveInsts.mpr hu)))
  · rw [h.instr_copied hi]
    exact hP.mapOperands _ _ (hP.copy _ _ (hcallee i hi))
  · rw [h.instr_merge hk, h.expanded.result.eq_phi (mem_of_getElem? hk)]
    exact hP.mapOperands _ _ (hP.phi _)
  · rw [h.instr_clear hk]
    exact hP.mapOperands _ _ (hP.of_clears h.expanded.fill (mem_of_getElem? hk))

lemma ret_of_found (hu : Found f s pre post clears merge b u) :
    g.instr u = .ret none → f.placed u ∧ f.instr u = .ret none := by
  have hplain {u : InstId} (hterm : (g.instr u).isTerminator = false) : g.instr u ≠ .ret none := by
    intro hret
    rw [hret] at hterm
    cases hterm
  refine h.of_found (P := fun u => g.instr u = .ret none → f.placed u ∧ f.instr u = .ret none)
    hu (fun u hu hne hret => ?_) (fun hret => ?_) (fun i hi hret => ?_)
    (fun k p hk hret => absurd hret (hplain (h.kind_merge hk).1))
    fun k p hk hret => absurd hret (hplain (h.kind_clear hk).1)
  · rw [h.instr_old_of_not_isPhi hu hne (by rw [hret]; rfl)] at hret
    exact ⟨hu, mapOperands_eq_ret hret⟩
  · rw [h.instr_call] at hret
    cases hret
  · rw [h.instr_copied hi] at hret
    have hcopy := mapOperands_eq_ret hret
    rcases (s.copy f).instr_cases (s.callee.instr i) with ⟨v, -, heq⟩ | ⟨hne, -⟩
    · grind
    · cases hk : s.callee.instr i with
      | ret v => exact absurd hk (hne v)
      | _ =>
        rw [hk] at hcopy
        cases hcopy

lemma body (hf : Body f) (hcallee : Body s.callee) : Body g where
  ssa := h.ssa
  returns hret i hi hnone := by
    obtain ⟨b, hb, hmem⟩ := mem_flatMap.mp hi
    obtain ⟨hpl, hinstr⟩ := h.ret_of_found (h.found hb hmem) hnone
    rw [h.head.ret] at hret
    exact hf.returns hret i (hf.ssa.consistent.mem_liveInsts.mpr hpl) hinstr
  slots := h.stable (stable_slotType? _) hf.slots hcallee.slots

/-! ## Calls that wait -/

lemma value_ne (hu : f.hasInst u) (hargs : .inst u ∉ s.args) : value ≠ some (.inst u) := by
  rintro rfl
  have hlt := f.hasInst_iff.mp hu
  have hres := h.expanded.result
  generalize hval : some (Operand.inst u) = value at hres
  cases hres with
  | void => cases hval
  | never => simp_all
  | @once e _ hreturned =>
    obtain ⟨_, _, _, _, _, hstands⟩ :=
      h.fits.stands_of_returned (hreturned ▸ mem_singleton_self e) hval.symm
    exact not_stands hu hargs hstands
  | phi => grind

lemma eq_of_substResult (hu : f.hasInst u) (hargs : .inst u ∉ s.args) {v : Operand}
    (hv : substResult s.call value v = .inst u) : v = .inst u := by
  cases hval : value with
  | none =>
    rw [hval] at hv
    exact hv
  | some w =>
    rw [hval, substResult, subst] at hv
    split at hv
    · exact absurd (hval.trans (congrArg some hv)) (h.value_ne hu hargs)
    · exact hv

lemma notMem_operands (hu : f.hasInst u)
    (hunused : ∀ v, f.placed v → .inst u ∉ (f.instr v).operands) {v : InstId}
    (hv : Found f s pre post clears merge b v) : .inst u ∉ (g.instr v).operands := by
  have hargs : .inst u ∉ s.args := h.fits.operands_call ▸ hunused s.call h.fits.call
  refine h.of_found (P := fun v => .inst u ∉ (g.instr v).operands) hv (fun v hv hne hmem => ?_)
    (by rw [h.instr_call]; exact not_mem_nil) (fun i hi hmem => ?_) (fun k p hk hmem => ?_)
    fun k p hk hmem => ?_
  · rw [h.operands_old hv hne] at hmem
    obtain ⟨w, hw, heq⟩ := mem_map.mp hmem
    exact hunused v hv (h.eq_of_substResult hu hargs heq ▸ hw)
  · obtain ⟨_, _, w, hstands, heq⟩ := h.operands_copied hi hmem
    exact not_stands hu hargs (h.eq_of_substResult hu hargs heq.symm ▸ hstands)
  · obtain ⟨e, he, hval⟩ := exists_entry_of_mem_operands (h.kind_merge hk).2 hmem
    obtain ⟨e', he', rfl⟩ := h.operands_merge hk he
    obtain ⟨w, hw, heq⟩ := map_eq_some_iff.mp hval
    obtain ⟨_, _, _, _, _, hstands⟩ := h.fits.stands_of_returned he' hw
    exact not_stands hu hargs (h.eq_of_substResult hu hargs heq ▸ hstands)
  · have hlt := f.hasInst_iff.mp hu
    rcases h.operands_clear hk hmem with ⟨c, hc⟩ | ⟨i, -, -, heq⟩ | ⟨j, -, heq⟩
    · cases hc
    · exact copied_ne hu (Operand.inst.inj heq).symm
    · grind

lemma matches_other {callee : Func} (hu : Matches f u id callee) (hne : u ≠ s.call) :
    Matches g u id callee where
  placed := h.expanded.placed h.fits.consistent h.split hu.placed
  args := by
    obtain ⟨args, format, hinstr, hlen⟩ := hu.args
    have hphi : (g.instr u).isPhi = false := by
      rw [(h.kind_old hu.placed hne).2, hinstr]
      rfl
    refine ⟨args.map (substResult s.call value), format, ?_, by rw [length_map, hlen]⟩
    rw [h.instr_old_of_not_isPhi hu.placed hne hphi, hinstr]
    rfl
  unused hzero v hv := by
    obtain ⟨b, hb, hmem⟩ := mem_flatMap.mp (h.consistent.mem_liveInsts.mpr hv)
    exact h.notMem_operands (f.hasInst_of_live (Bool.and_eq_true_iff.mp hu.placed).1)
      (hu.unused hzero) (h.found hb hmem)

end Replaced

/-! ## One call -/

lemma exists_pruned (hf : f.Ssa) : ∃ g, reachablePart f = .ok g ∧
    (f.setEdges f.liveBlocks).Routed ∧ (f.setEdges f.liveBlocks).Pruned g ∧ g.Ssa ∧
    (∀ b ∈ g.liveBlocks, g.Reachable b) ∧
    ∀ i ∈ g.liveInsts, i ∈ f.liveInsts ∧ ∃ keep, g.instr i = (f.instr i).filterEntries keep := by
  obtain ⟨g, hconn, hprune, hrouted, hprun, -, hssa, hreach, hinstr⟩ := hf.prune
  refine ⟨g, ?_, hrouted, hprun, hssa, hreach, fun i hi => ?_⟩
  · rw [reachablePart, hconn]
    dsimp only
    rw [hprune]
  · obtain ⟨hpl, hkeep⟩ := hinstr i (hssa.consistent.mem_liveInsts.mp hi)
    exact ⟨hf.consistent.mem_liveInsts.mpr hpl, hkeep⟩

lemma Stable.reachablePart (hP : Stable P) (hf : f.Ssa)
    (hg : reachablePart f = .ok g) (h : ∀ i ∈ f.liveInsts, P (f.instr i)) :
    ∀ i ∈ g.liveInsts, P (g.instr i) := by
  intro i hi
  obtain ⟨g', hok, -, -, -, -, hlive⟩ := exists_pruned hf
  obtain rfl : g' = g := Except.ok.inj (hok.symm.trans hg)
  obtain ⟨hi', keep, hkeep⟩ := hlive i hi
  rw [hkeep]
  exact hP.filterEntries _ _ (h i hi')

lemma exists_reachablePart (hf : Body f) (hent : ⟨0⟩ ∈ f.liveBlocks) :
    ∃ g, reachablePart f = .ok g ∧ Body g ∧ f.SameHead g ∧ ⟨0⟩ ∈ g.liveBlocks ∧
      ∀ b ∈ g.liveBlocks, g.Reachable b := by
  obtain ⟨g, hok, hrouted, hprun, hssa, hreach, hlive⟩ := exists_pruned hf.ssa
  have hsame := sameCode_setEdges f f.liveBlocks
  have hhead := (restricts_reachablePart hf.ssa.consistent hok).head
  refine ⟨g, hok, ⟨hssa, fun hret i hi hnone => ?_,
    (stable_slotType? _).reachablePart hf.ssa hok hf.slots⟩, hhead, ?_, hreach⟩
  · obtain ⟨hi', keep, hkeep⟩ := hlive i hi
    rw [hhead.ret] at hret
    refine hf.returns hret i hi' ?_
    rw [hkeep] at hnone
    cases hk : f.instr i with
    | ret v =>
      rw [hk] at hnone
      exact hnone
    | _ =>
      rw [hk] at hnone
      cases hnone
  · refine (hrouted.mem_liveBlocks_of_without hprun.without).mpr ⟨?_, .refl⟩
    rwa [hsame.liveBlocks]

lemma entry?_of_hasBlock {b : BlockId} (hb : f.hasBlock b) : f.entry? = some ⟨0⟩ :=
  entry_of_pos (zero_lt_of_lt (f.hasBlock_iff.mp hb))

lemma needsFill_eq_true {i : InstId} (hi : i ∈ f.liveInsts) {t : Ty} (ht : f.instr i = .alloc t)
    (hzero : zero? t = none) : needsFill f := by
  refine any_eq_true.mpr ⟨i, hi, ?_⟩
  rw [ht]
  dsimp only
  rw [hzero]
  rfl

lemma Matches.exists_site {body : Func} {u : InstId} (hu : Matches f u id body)
    (hf : Body f) (hbody : Body body) (hent : ⟨0⟩ ∈ body.liveBlocks)
    (hreach : ∀ b ∈ body.liveBlocks, body.Reachable b) :
    ∃ s format, site f u body = .ok s ∧ Fits f s ∧ s.callee = body ∧ s.call = u ∧
      f.instr s.call = .call id s.args format := by
  obtain ⟨args, format, hinstr, hlen⟩ := hu.args
  have hhas := hf.ssa.consistent.hasBlock_of_live (Formed.live_of_placed hu.placed)
  refine ⟨{ call := u, args, callee := body, calleeEntry := ⟨0⟩, callerEntry := ⟨0⟩ }, format, ?_,
    ⟨hf.ssa, hbody.ssa, hreach, hent, rfl, rfl, hu.placed, ⟨id, format, hinstr⟩,
      le_of_eq hlen.symm, hbody.returns, hu.unused⟩, rfl, rfl, hinstr⟩
  rw [site, hinstr, entry?_of_hasBlock hhas,
    entry?_of_hasBlock (hbody.ssa.consistent.mem_liveBlocks.mp hent).1]

lemma Fits.exists_replaced (hfits : Fits f s) (n : Nat) (memset : Option FuncId)
    (hslots : ∀ i ∈ s.callee.liveInsts, ∀ t, s.callee.instr i = .alloc t → Clearable memset t) :
    ∃ w pre post clears merge value m, expand s n memset { func := f } = .ok () w ∧
      Replaced f s n memset pre post clears merge value m w.func := by
  obtain ⟨w, hexpand⟩ := hfits.exists_expand (w := { func := f }) rfl n memset hslots
  obtain ⟨pre, post, hsplit⟩ := hfits.exists_split
  obtain ⟨clears, merge, value, m, hexp⟩ := expand_eq_ok
    hfits.consistent hfits.callee.consistent hfits.live_call
    (hfits.callerEntry ▸ hfits.hasBlock_entry)
    (mem_of_mem_filter (hfits.calleeEntry ▸ hfits.entry)) hsplit hexpand
  exact ⟨w, pre, post, clears, merge, value, m, hexpand, hfits, hsplit, hexp⟩

/-- The program after calls of one function have been replaced. -/
structure Advanced (caller : FuncId) (p q : Program) : Prop
    extends changed : Changed caller p q where
  body : Body (q.func caller)
  entry : ((q.func caller).block ⟨0⟩).deleted = ((p.func caller).block ⟨0⟩).deleted

lemma Advanced.trans {caller : FuncId} {q r : Program} (hpq : Advanced caller p q)
    (hqr : Advanced caller q r) : Advanced caller p r :=
  ⟨hpq.changed.trans hqr.changed, hqr.body, hqr.entry.trans hpq.entry⟩

/-- One call of the program `p` is replaced in `q` by what its callee can reach.  Nothing else changes
unless slots have to be filled. -/
inductive Expands (p q : Program) : Prop
  | intro {caller callee : FuncId} {site : Site} {format : Option StrId} {g : Func} :
    caller.idx < p.funcs.size → (p.func caller).isDefined → (p.func callee).isDefined →
    (p.func callee).Ssa → ⟨0⟩ ∈ (p.func callee).liveBlocks →
    reachablePart (p.func callee) = .ok site.callee →
    (p.func caller).instr site.call = .call callee site.args format →
    (∃ n memset pre post clears merge value m,
      Replaced (p.func caller) site n memset pre post clears merge value m g) →
    (needsFill site.callee = false → q = p.setFunc caller g) → Expands p q

section Session

variable {s t : Session} {caller callee : FuncId} {u : InstId}

lemma inlineCall_of_ok {s₁ : Session} {body : Func} {st : Site} {w : Work}
    (hbody : reachablePart (s.program.func callee) = .ok body)
    (hset : fillFor body s = .ok memset s₁)
    (hsite : site (s₁.program.func caller) u body = .ok st)
    (hexpand : expand st (s₁.context.labelNumber caller) memset { func := s₁.program.func caller } =
      .ok () w) :
    ∃ t, inlineCall caller u callee s = .ok () t ∧
      t.program = s₁.program.setFunc caller w.func := by
  have hlabels : reserveLabels caller (labelCount body) s₁ =
      .ok (s₁.context.labelNumber caller) ⟨s₁.program, s₁.context.setLabelNumber caller
        (s₁.context.labelNumber caller + labelCount body)⟩ := rfl
  have hlift : (site (s₁.program.func caller) u body).mapError Error.internal = .ok st := by
    rw [hsite]
    rfl
  rw [inlineCall, Compile.program_bind, bind_of_ok (Compile.lift_of_ok hbody s),
    bind_of_ok hset, Compile.program_bind, bind_of_ok (Compile.lift_of_ok hlift s₁),
    bind_of_ok hlabels]
  exact ⟨_, bind_of_ok (Compile.transform_of_ok hexpand), rfl⟩

/-- A call that matches its callee is replaced, and the other calls stay as they are. -/
lemma exists_inlineCall (hcaller : caller.idx < s.program.funcs.size)
    (hdef : (s.program.func caller).isDefined) (hdef' : (s.program.func callee).isDefined)
    (hf : Body (s.program.func caller)) (hg : Body (s.program.func callee))
    (hent : ⟨0⟩ ∈ (s.program.func callee).liveBlocks)
    (hu : Matches (s.program.func caller) u callee (s.program.func callee)) :
    ∃ t, inlineCall caller u callee s = .ok () t ∧ Advanced caller s.program t.program ∧
      Expands s.program t.program ∧ ∀ v id h, v ≠ u → Matches (s.program.func caller) v id h →
        Matches (t.program.func caller) v id h := by
  obtain ⟨body, hbody, hbodyValid, hhead, hbodyEntry, hreach⟩ := exists_reachablePart hg hent
  obtain ⟨memset, s₁, hset, hdecl, hfill⟩ := exists_fillFor body s
  obtain ⟨st, format, hsite, hfits, rfl, rfl, hinstr⟩ :=
    (hu.congr_head hhead).exists_site hf hbodyValid hbodyEntry hreach
  have hfunc := hdecl.other caller hcaller
  obtain ⟨w, pre, post, clears, merge, value, m, hexpand, hrepl⟩ := hfits.exists_replaced
    (s₁.context.labelNumber caller) memset fun i hi t ht hzero =>
      ⟨hfill (needsFill_eq_true hi ht hzero),
        lt_of_le_of_lt (hbodyValid.slots i hi t (by rw [ht]; rfl)) (by decide)⟩
  rw [← hfunc] at hsite hexpand
  obtain ⟨t, hok, hprog⟩ := inlineCall_of_ok hbody hset hsite hexpand
  have hself : t.program.func caller = w.func := by
    rw [hprog, func_setFunc_of_lt (lt_of_lt_of_le hcaller hdecl.size), if_pos rfl]
  refine ⟨t, hok, ⟨hprog ▸ .of_declared hcaller hdecl hrepl.head, ?_, ?_⟩,
    .intro hcaller hdef hdef' hg.ssa hent hbody hinstr ⟨_, _, _, _, _, _, _, _, hrepl⟩
      fun hfree => ?_, fun v id h hne hv => ?_⟩
  · rw [hself]
    exact hrepl.body hf hbodyValid
  · rw [hself, hrepl.expanded.places.blockDeleted,
      hrepl.expanded.spliced.deleted _ hfits.hasBlock_entry]
  · rw [fillFor, hfree] at hset
    obtain rfl := (EStateM.Result.ok.inj hset).2
    exact hprog
  · rw [hself]
    exact hrepl.matches_other hv hne

lemma exists_forM (calls : List (InstId × FuncId)) (hcaller : caller.idx < s.program.funcs.size)
    (hdef : (s.program.func caller).isDefined)
    (hf : Body (s.program.func caller)) (hnd : (calls.map fst).Nodup)
    (hcalls : ∀ c ∈ calls, c.2 ≠ caller ∧ c.2.idx < s.program.funcs.size ∧
      (s.program.func c.2).isDefined ∧ Body (s.program.func c.2) ∧
      ⟨0⟩ ∈ (s.program.func c.2).liveBlocks ∧
      Matches (s.program.func caller) c.1 c.2 (s.program.func c.2)) :
    ∃ t, (calls.forM fun c => inlineCall caller c.1 c.2 : Compile Unit) s = .ok () t ∧
      Advanced caller s.program t.program ∧
      Relation.ReflTransGen Expands s.program t.program := by
  induction calls generalizing s with
  | nil =>
    exact ⟨s, rfl, ⟨.refl hcaller, hf, rfl⟩, .refl⟩
  | cons c calls ih =>
    rw [forall_mem_cons] at hcalls
    obtain ⟨⟨-, -, hdef', hg, hent, hmatches⟩, hrest⟩ := hcalls
    rw [map_cons, nodup_cons] at hnd
    obtain ⟨s₁, hfirst, hadvanced, hexpands, hother⟩ :=
      exists_inlineCall hcaller hdef hdef' hf hg hent hmatches
    obtain ⟨t, ht, hadvanced', hexpands'⟩ := ih (lt_of_lt_of_le hcaller hadvanced.size)
      (by rw [hadvanced.head.isDefined, hdef]) hadvanced.body hnd.2 fun d hd => by
        obtain ⟨hne, hlt, hd', hg, hent, hmatches⟩ := hrest d hd
        have hkept := hadvanced.other d.2 hne hlt
        refine ⟨hne, lt_of_lt_of_le hlt hadvanced.size, ?_, ?_, ?_, ?_⟩
        · rwa [hkept]
        · rwa [hkept]
        · rwa [hkept]
        · rw [hkept]
          refine hother d.1 _ _ (fun heq => hnd.1 ?_) hmatches
          exact heq ▸ mem_map_of_mem hd
    exact ⟨t, (bind_of_ok hfirst).trans ht, hadvanced.trans hadvanced', hexpands'.head hexpands⟩

end Session

/-! ## The pass -/

/-- A program whose functions are bodies and whose calls have the arguments that are expected. -/
structure Ready (p : Program) : Prop where
  body : ∀ f ∈ p.funcs, f.isDefined → Body f
  called : ∀ f ∈ p.funcs, f.isDefined → ∀ g ∈ f.calls, p.hasFunc g
  args : p.ForCalls fun _ _ g args => args.length = g.params.size

lemma body_default : Body default where
  ssa := ssa_of_local (by decide) ⟨consistent_default, by decide, by decide, by decide⟩
  returns _ _ hi := absurd hi not_mem_nil
  slots _ hi := absurd hi not_mem_nil

lemma Ready.forall_body (h : Ready p) : ∀ f, (p.func f).isDefined → Body (p.func f) :=
  forall_func (fun _ => body_default) h.body

lemma Ready.hasFunc (h : Ready p) : ∀ f g, p.Calls f g → p.hasFunc g := by
  have hcalls := forall_func (fun _ g hg => absurd hg not_mem_nil) h.called
  exact fun f g hcall => hcalls f hcall.1 g hcall.2

/-- The program when the callers in `done` have been treated. -/
structure Treated (p₀ : Program) (done : List FuncId) (p : Program) : Prop
    extends touched : Touched p₀ done p where
  body : ∀ f, (p.func f).isDefined → Body (p.func f)
  entry : ∀ f, f.idx < p₀.funcs.size →
    ((p.func f).block ⟨0⟩).deleted = ((p₀.func f).block ⟨0⟩).deleted

lemma Treated.advance {p₀ q : Program} {done : List FuncId} {caller : FuncId}
    (hp : Treated p₀ done p) (hpq : Advanced caller p q) : Treated p₀ (done ++ [caller]) q where
  touched := hpq.touched hp.touched
  body f hdef := by
    by_cases hf : f = caller
    · subst hf
      exact hpq.body
    · rcases lt_or_ge f.idx p.funcs.size with hlt | hge
      · rw [hpq.other f hf hlt] at hdef ⊢
        exact hp.body f hdef
      · rcases lt_or_ge f.idx q.funcs.size with hlt | hge'
        · rw [isDefined, (hpq.added f hge hlt).1] at hdef
          cases hdef
        · have hsame : p.func f = q.func f := by
            rw [func_of_size_le hge, func_of_size_le hge']
          rw [← hsame] at hdef ⊢
          exact hp.body f hdef
  entry f hlt := by
    by_cases hf : f = caller
    · subst hf
      exact hpq.entry.trans (hp.entry f hlt)
    · rw [hpq.other f hf (lt_of_lt_of_le hlt hp.size)]
      exact hp.entry f hlt

section Pass

variable {s : Session} {p₀ : Program} {done rest : List FuncId} {caller : FuncId}
  (graph : CallGraph) (threshold : Option Nat)

lemma nodup_candidates (hf : (p.func caller).isDefined →
    (p.func caller).Consistent) : ((candidates p graph threshold caller).map fst).Nodup := by
  rw [candidates]
  split
  · next hdef =>
    rw [map_filterMap]
    refine (hf hdef).nodup_liveInsts.filterMap fun i j k hi hj => ?_
    have heq {i : InstId} (hi : k ∈ Option.map Prod.fst (match (p.func caller).instr i with
        | .call callee _ _ =>
          if isInlinable p graph threshold caller callee then some (i, callee) else none
        | _ => none)) : k = i := by
      split at hi
      · split at hi
        · exact (some.inj hi).symm
        · cases hi
      · cases hi
    rw [← heq hi, heq hj]
  · exact nodup_nil

lemma exists_inlineInto (hready : Ready p₀)
    (hent : p₀.ForCalls fun _ _ g _ => (g.block ⟨0⟩).deleted = false)
    (hunused : p₀.ForCalls fun f u g _ => zero? g.ret = none → f.Unused u)
    (hp : Treated p₀ done s.program) (hnot : caller ∉ done) (hcaller : caller.idx < p₀.funcs.size) :
    ∃ out t, inlineInto graph threshold caller s = .ok out t ∧
      Treated p₀ (done ++ [caller]) t.program ∧
      Relation.ReflTransGen Expands s.program t.program := by
  have hsame := hp.kept caller hnot hcaller
  cases hdef : (s.program.func caller).isDefined with
  | false =>
    have hnone : candidates s.program graph threshold caller = [] := by
      rw [candidates, if_neg (by simp [hdef])]
    refine ⟨[], s, ?_, ⟨⟨hp.size, fun f hf hlt => ?_, hp.head⟩, hp.body, hp.entry⟩, .refl⟩
    · rw [inlineInto, Compile.program_bind, hnone]
      rfl
    · exact hp.kept f (fun hmem => hf (mem_append_left _ hmem)) hlt
  | true =>
    have hf := hp.body caller hdef
    obtain ⟨t, ht, hadvanced, hexpands⟩ := exists_forM (candidates s.program graph threshold caller)
      (lt_of_lt_of_le hcaller hp.size) hdef hf (nodup_candidates graph threshold
      fun _ => hf.ssa.consistent)
      fun c hc => by
        obtain ⟨-, hlive, hcallee, hinlinable⟩ := mem_candidates.mp hc
        obtain ⟨hne, -, hdef', hblk, -⟩ := isInlinable_iff.mp hinlinable
        have hcalls : p₀.Calls caller c.2 := by
          rw [Calls, ← hsame]
          exact ⟨hdef, mem_calls.mpr ⟨c.1, hlive, hcallee⟩⟩
        have hlt : c.2.idx < p₀.funcs.size := by
          simpa [hasFunc] using hready.hasFunc caller c.2 hcalls
        have hhead := hp.head c.2 hlt
        have hdefined₀ : (p₀.func c.2).isDefined := by rw [← hhead.isDefined, hdef']
        have hbody := hp.body c.2 hdef'
        -- what holds of this call
        have hmem := mem_funcs (by simpa [hasFunc] using hcaller)
        rw [hsame] at hlive hcallee
        obtain ⟨g, args, format, hinstr⟩ : ∃ g args format, (p₀.func caller).instr c.1 =
            .call g args format := by
          cases hk : (p₀.func caller).instr c.1 with
          | call g args format => exact ⟨g, args, format, rfl⟩
          | _ =>
            rw [hk] at hcallee
            cases hcallee
        obtain rfl : g = c.2 := by
          rw [hinstr] at hcallee
          exact some.inj hcallee
        have hcall : (c.2, args) ∈ ((p₀.func caller).instr c.1).call? := by
          rw [hinstr]
          rfl
        refine ⟨hne, lt_of_lt_of_le hlt hp.size, hdef', hbody, ?_, ?_⟩
        · obtain ⟨b, hb⟩ := ne_none_iff_exists'.mp hblk
          refine hbody.ssa.consistent.mem_liveBlocks.mpr ⟨?_, ?_⟩
          · exact hasBlock_entry ( entry?_of_hasBlock (hasBlock_entry hb))
          · rw [hp.entry c.2 hlt]
            exact hent _ hmem hcalls.1 c.1 hlive _ hcall hdefined₀
        · have hcons := (hready.forall_body caller hcalls.1).ssa.consistent
          have hmatches : Matches (p₀.func caller) c.1 c.2 (p₀.func c.2) :=
            ⟨hcons.mem_liveInsts.mp hlive, ⟨args, format, hinstr,
              hready.args _ hmem hcalls.1 c.1 hlive _ hcall hdefined₀⟩, fun hzero v hv =>
              hunused _ hmem hcalls.1 c.1 hlive _ hcall hdefined₀ hzero v
                (hcons.mem_liveInsts.mpr hv)⟩
          rw [hsame]
          exact hmatches.congr_head hhead
    refine ⟨(candidates s.program graph threshold caller).map snd, t, ?_,
      hp.advance hadvanced, hexpands⟩
    rw [inlineInto, Compile.program_bind, bind_of_ok ht]
    rfl

lemma exists_flatMapM (hready : Ready p₀)
    (hent : p₀.ForCalls fun _ _ g _ => (g.block ⟨0⟩).deleted = false)
    (hunused : p₀.ForCalls fun f u g _ => zero? g.ret = none → f.Unused u)
    (hp : Treated p₀ done s.program)
    (hnd : (done ++ rest).Nodup) (hrest : ∀ f ∈ rest, f.idx < p₀.funcs.size) :
    ∃ out t, rest.flatMapM (inlineInto graph threshold) s = .ok out t ∧
      Treated p₀ (done ++ rest) t.program ∧ Relation.ReflTransGen Expands s.program t.program := by
  induction rest generalizing done s with
  | nil =>
    rw [append_nil]
    exact ⟨[], s, rfl, hp, .refl⟩
  | cons caller rest ih =>
    rw [forall_mem_cons] at hrest
    have hnot : caller ∉ done := by
      rw [nodup_append] at hnd
      exact fun hmem => hnd.2.2 caller hmem caller (.head _) rfl
    obtain ⟨out, s₁, hout, hp₁, hexpands⟩ :=
      exists_inlineInto graph threshold hready hent hunused hp hnot hrest.1
    rw [append_cons] at hnd ⊢
    obtain ⟨outs, t, houts, ht, hexpands'⟩ := ih hp₁ hnd hrest.2
    refine ⟨out ++ outs, t, ?_, ht, hexpands.trans hexpands'⟩
    rw [flatMapM_cons, bind_of_ok hout, bind_of_ok houts]
    rfl

lemma exists_forM_retire (fs : List FuncId) (s : Session) : ∃ t, fs.forM retire s = .ok () t := by
  induction fs generalizing s with
  | nil => exact ⟨s, rfl⟩
  | cons f fs ih =>
    obtain ⟨s₁, hs₁⟩ : ∃ s₁, retire f s = .ok () s₁ := ⟨_, rfl⟩
    obtain ⟨t, ht⟩ := ih s₁
    exact ⟨t, (bind_of_ok hs₁).trans ht⟩

/-- Inlining replaces calls one after the other and retires functions that are not called any more. -/
lemma exists_run_retire (hready : Ready s.program)
    (hent : s.program.ForCalls fun _ _ g _ => (g.block ⟨0⟩).deleted = false)
    (hunused : s.program.ForCalls fun f u g _ => zero? g.ret = none → f.Unused u) :
    ∃ (changed : Bool) (fs : List FuncId) (u t : Session), run threshold s = .ok changed t ∧
      Relation.ReflTransGen Expands s.program u.program ∧
      (∀ f, (u.program.func f).isDefined → Body (u.program.func f)) ∧
      (∀ f ∈ fs, f.idx < u.program.funcs.size ∧ isCalled u.program f = false) ∧
      fs.forM retire u = .ok () t := by
  obtain ⟨graph, hok⟩ := CallGraph.exists_ofProgram hready.hasFunc
  have hgraph := CallGraph.of_eq_ok hok
  have hinit : Treated s.program [] s.program :=
    ⟨⟨le_refl _, fun _ _ _ => rfl, fun _ _ => .refl _⟩, hready.forall_body, fun _ _ => rfl⟩
  obtain ⟨inlined, u, hflat, hu, hexpands⟩ := exists_flatMapM graph threshold hready hent hunused
    hinit hgraph.nodup_bottomUp fun f hf => hgraph.mem_bottomUp.mp hf
  have hinl : inlineAll threshold s = .ok inlined u := by
    rw [inlineAll, Compile.program_bind, bind_of_ok (Compile.lift_of_ok hok s)]
    exact hflat
  obtain ⟨t, ht⟩ := exists_forM_retire (u.program.funcIds.filter fun f =>
    inlined.contains f && !isCalled u.program f && (u.program.func f).name ≠ "main") u
  refine ⟨!inlined.isEmpty, _, u, t, ?_, hexpands, hu.body, fun f hf => ?_, ht⟩
  · rw [run, bind_of_ok hinl, Compile.program_bind, bind_of_ok ht]
    rfl
  · obtain ⟨hmem, hunused⟩ := mem_filter.mp hf
    obtain ⟨n, hn, rfl⟩ := mem_map.mp hmem
    simp only [Bool.and_eq_true, Bool.not_eq_true'] at hunused
    exact ⟨mem_range.mp hn, hunused.1.2⟩

end Pass

/-! ## Examples -/

end Inlining

end MiddleEnd
