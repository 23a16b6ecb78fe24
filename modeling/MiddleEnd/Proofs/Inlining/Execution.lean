import MiddleEnd.Proofs.Inlining.Simulation

/-!
# The caller returns what it returned

Control goes through the caller with a copy as it went through the caller: up to the call, then through
the copy instead of the callee, and on in the block behind the call.  Each move has its counterpart.
Slots of the copy are allocated when control gets to the entry of the caller, so that a move takes at
most as many additional cells as the copy has slots.
-/

namespace MiddleEnd

open List Nat Instr Option Func

lemma Local.Outcome.after_after (o : Outcome) (n k : Nat) : (o.after n).after k = o.after
    (n + k) := by
  simp only [after, add_assoc]

lemma eval_of_mapM {eval : Operand → Option Value} {ops : List Operand} {vs : List Value}
    (h : ops.mapM eval = some vs) {n : Nat} {v : Operand} (hv : ops[n]? = some v) {x : Value}
    (hx : vs[n]? = some x) : eval v = some x := by
  induction ops generalizing vs n with
  | nil => cases hv
  | cons u ops ih =>
    rw [mapM_cons] at h
    obtain ⟨y, hy, h⟩ := bind_eq_some_iff.mp h
    obtain ⟨ys, hys, h⟩ := bind_eq_some_iff.mp h
    obtain rfl := some.inj h
    cases n with
    | zero => grind
    | succ n => exact ih hys hv hx

namespace Inlining

open Local (At State World Outcome CallSem Advances Yields Moves Completes)

variable {f g m : Func} {s : Site} {n : Nat} {memset : Option FuncId} {pre post : List InstId}
  {clears merge : List (Instr × Ty)} {value : Option Operand} {p q : Program}
  {calls calls' : CallSem} {k : Nat} {args vs : List Value} {t old new : State} {b : BlockId}

lemma Copy.block_ne_entry (f : Func) (s : Site) (d : BlockId) : (s.copy f).block d ≠ ⟨0⟩ := by
  intro heq
  have hzero : f.blocks.size + 1 + s.callee.layout.idxOf d = 0 := congrArg BlockId.idx heq
  omega

/-! ## Through the copy -/

section Copied

variable {i : InstId} {d : BlockId} {x : Value}

variable (h : Replaced f s n memset pre post clears merge value m g) {e : BlockId}

include h

lemma Replaced.exists_inside (q : Program) (calls : CallSem) (args : List Value)
    (hscalar : ∀ i ∈ s.callee.liveInsts, ∀ ty, s.callee.instr i = .alloc ty → ty.isScalar)
    (hregs : ∀ i ∈ s.callee.liveInsts, ∀ x, old.regs i = some x →
      new.regs ((s.copy f).copied i) = some x)
    (hfree : ∀ i, old.slots i = none) (hworld : new.world = old.world) (hfr : Untouched f s t new)
    (hhoisted : Hoisted f s new) :
    ∃ new', Inside f s t old new' ∧ new'.room = new.room ∧ ∀ o,
      Moves q calls g args ((s.copy f).block ⟨0⟩)
        (((s.callee.body ⟨0⟩).filter fun i => !isSlot s.callee i).map (s.copy f).copied) new' o →
      Moves q calls g args ((s.copy f).block ⟨0⟩) (g.body ((s.copy f).block ⟨0⟩)) new o := by
  obtain ⟨new', honly, hroom, hcleared, hmoves⟩ := h.moves_clears hscalar hhoisted
  refine ⟨new', ⟨?_, ?_, ?_, honly.world.trans hworld, hfr.trans ⟨?_, ?_, ?_, hroom⟩⟩, hroom, ?_⟩
  · rw [honly.regs]
    exact hregs
  · grind
  · grind
  · intro i _
    rw [honly.regs]
  · intro i hi
    refine honly.other i fun hmem => ?_
    obtain ⟨j, -, -, -, -, rfl⟩ := h.exists_of_mem_slots hscalar hmem
    exact copied_ne hi rfl
  · intro _ a ha
    obtain ⟨i, hi, ty, hty, -, rfl⟩ := h.exists_of_mem_slots hscalar ha
    rw [hcleared i hi ty hty]
    rfl
  · intro o ho
    rw [h.body_copy h.fits.entry]
    exact hmoves _ _ o ho

variable (hreach : f.Reachable (f.inst s.call).block) (hpassed : Passed f s args vs t)
  (hin : Inside f s t old new)

include hreach hpassed hin

omit hreach in
/-- A callee that should return a value does so, and the copy of its operand has that value. -/
lemma Inside.exists_ret (hi : i ∈ s.callee.liveInsts)
    (hx : (s.callee.instr i).result? (old.eval vs) = some x) (hvoid : s.callee.ret ≠ .void) :
    ∃ v, s.callee.instr i = .ret (some v) ∧ new.eval args ((s.copy f).operand v) = some x := by
  cases hk : s.callee.instr i with
  | ret v =>
    cases v with
    | none => exact absurd hk (h.fits.returns hvoid i hi)
    | some v =>
      rw [hk] at hx
      exact ⟨v, rfl, hin.eval hpassed (h.fits.stands hi (by simp [hk, operands])) hx⟩
  | _ =>
    rw [hk] at hx
    cases hx

lemma Inside.incoming_merge (hd : d ∈ s.callee.liveBlocks) (hi : i ∈ s.callee.instsOf d)
    (hx : (s.callee.instr i).result? (old.eval vs) = some x) (hvoid : s.callee.ret ≠ .void)
    (hk : k < merge.length) : new.incoming g args ((s.copy f).block d)
      ⟨s.size f + clears.length + k⟩ = some x := by
  have hlive := mem_flatMap.mpr ⟨d, hd, hi⟩
  obtain ⟨v, hv, hx⟩ := hin.exists_ret h hpassed hlive hx hvoid
  rw [State.incoming, ← h.fits.callee.consistent.block_of_mem hi,
    h.operandFrom?_merge hreach (List.getElem?_eq_getElem hk) hlive hv]
  exact hx

lemma Inside.leave (hd : d ∈ s.callee.liveBlocks) (hi : i ∈ s.callee.instsOf d)
    (hx : (s.callee.instr i).result? (old.eval vs) = some x) :
    (∀ u ∈ g.phis f.nextBlock, (new.incoming g args ((s.copy f).block d) u).isSome) ∧
      (∀ v, value = some v →
        (new.enter g args ((s.copy f).block d) f.nextBlock).eval args v = some x) ∧
      Untouched f s t (new.enter g args ((s.copy f).block d) f.nextBlock) := by
  have hlive := mem_flatMap.mpr ⟨d, hd, hi⟩
  have hsize := f.hasBlock_iff.mp h.fits.hasBlock_entry
  have hne : f.nextBlock ≠ ⟨0⟩ := fun heq => absurd (congrArg BlockId.idx heq) (ne_of_gt hsize)
  have hmeets (hmerge : merge ≠ []) : s.callee.ret ≠ .void := by
    have hres := h.expanded.result
    cases hres with
    | phi hvoid => exact hvoid
    | _ => exact absurd rfl hmerge
  refine ⟨fun u hu => ?_, fun v hv => ?_, hin.frame.trans ⟨fun j hj => ?_, fun j _ => ?_, ?_, rfl⟩⟩
  · obtain ⟨k, hk, rfl⟩ := h.mem_phis_after.mp hu
    have hvoid := hmeets (ne_nil_of_length_pos (zero_lt_of_lt hk))
    rw [hin.incoming_merge h hreach hpassed hd hi hx hvoid hk]
    rfl
  · have hres := h.expanded.result
    cases hres with
    | void => cases hv
    | never hvoid hnone =>
      obtain ⟨w, hw, -⟩ := hin.exists_ret h hpassed hlive hx hvoid
      have hmem := Copy.mem_returned (c := s.copy f) |>.mpr ⟨i, hlive, w, hw, rfl⟩
      rw [hnone] at hmem
      cases hmem
    | once hvoid hone =>
      obtain ⟨w, hw, hx⟩ := hin.exists_ret h hpassed hlive hx hvoid
      have hmem := Copy.mem_returned (c := s.copy f) |>.mpr ⟨i, hlive, w, hw, rfl⟩
      rw [hone, mem_singleton] at hmem
      rw [← hmem] at hv
      obtain rfl := some.inj hv
      rw [← hx]
      cases (s.copy f).operand w with
      | inst j =>
        refine if_neg fun hmem => ?_
        obtain ⟨k, hk, -⟩ := h.mem_phis_after.mp hmem
        exact absurd hk (not_lt_zero k)
      | _ => rfl
    | phi hvoid =>
      obtain rfl := some.inj hv
      have hmem := h.mem_phis_after.mpr ⟨0, one_pos, rfl⟩
      exact (if_pos hmem).trans
        (hin.incoming_merge h hreach hpassed hd hi hx hvoid (k := 0) one_pos)
  · refine if_neg fun hmem => ?_
    obtain ⟨k, -, rfl⟩ := h.mem_phis_after.mp hmem
    have hlt := f.hasInst_iff.mp hj
    dsimp only [Site.size] at hlt
    omega
  · simp only [State.enter, if_neg hne]
  · intro hhoisted a ha
    simp only [State.enter, if_neg hne]
    exact hhoisted a ha

lemma Inside.exists_enter
    (hscalar : ∀ i ∈ s.callee.liveInsts, ∀ ty, s.callee.instr i = .alloc ty → ty.isScalar)
    (hhoisted : Hoisted f s t) (he : e ∈ s.callee.liveBlocks)
    (hphis : ∀ j ∈ s.callee.phis e, (old.incoming s.callee vs d j).isSome) :
    (∀ u ∈ g.phis ((s.copy f).block e), (new.incoming g args ((s.copy f).block d) u).isSome) ∧
      ∃ new', Inside f s t (old.enter s.callee vs d e) new' ∧ new'.room = new.room ∧ ∀ o,
        Moves q calls g args ((s.copy f).block e)
          (((s.callee.body e).filter fun i => !isSlot s.callee i).map (s.copy f).copied) new' o →
        Moves q calls g args ((s.copy f).block e) (g.body ((s.copy f).block e))
          (new.enter g args ((s.copy f).block d) ((s.copy f).block e)) o := by
  obtain ⟨hphis', hregs, hfr⟩ := hin.enter h hreach hpassed he hphis
  refine ⟨hphis', ?_⟩
  by_cases hent : e = ⟨0⟩
  · subst hent
    exact h.exists_inside q calls args hscalar hregs (fun _ => rfl) hin.world hfr (hfr.hoisted hhoisted)
  · refine ⟨_, ⟨hregs, ?_, ?_, hin.world, hfr⟩, rfl, fun o ho => ?_⟩
    · simp only [State.enter, if_neg hent, if_neg (Copy.block_ne_entry f s e)]
      exact hin.slots
    · simp only [State.enter, if_neg hent]
      exact hin.slotted
    · rw [h.body_copy he, if_neg hent]
      exact ho

lemma Inside.target (hi : i ∈ s.callee.liveInsts)
    (htgt : (s.callee.instr i).target? (old.eval vs) = some e) :
    (g.instr ((s.copy f).copied i)).target? (new.eval args) = some ((s.copy f).block e) := by
  rw [h.instr_copied_of_reachable hreach hi]
  rcases (s.copy f).instr_cases (s.callee.instr i) with ⟨v, hret, -⟩ | ⟨-, heq⟩
  · rw [hret] at htgt
    cases htgt
  · rw [heq, target?_mapBlocks, target?_mapOperands
      (fun v hv x hx => hin.eval hpassed (h.fits.stands hi hv) hx) htgt]
    rfl

omit hpassed hin in
lemma Replaced.target?_of_result? (hi : i ∈ s.callee.liveInsts)
    {eval eval' : Operand → Option Value} (hx : (s.callee.instr i).result? eval = some x) :
    (g.instr ((s.copy f).copied i)).target? eval' = some f.nextBlock := by
  rw [h.instr_copied_of_reachable hreach hi]
  rcases (s.copy f).instr_cases (s.callee.instr i) with ⟨v, -, heq⟩ | ⟨hne, -⟩
  · rw [heq]
    rfl
  · cases hk : s.callee.instr i with
    | ret v => exact absurd hk (hne v)
    | _ =>
      rw [hk] at hx
      cases hx

lemma Inside.moves
    (hscalar : ∀ i ∈ s.callee.liveInsts, ∀ ty, s.callee.instr i = .alloc ty → ty.isScalar)
    (hhoisted : Hoisted f s t) (hcalls : calls.Within k calls') (hstrs : q.strings = p.strings)
    {before is : List InstId} {o o' : Outcome} (hmoves : Moves p calls s.callee vs d is old o)
    (hat : At s.callee d before is) (hroom : old.room + k * o.steps ≤ new.room)
    (hafter : ∀ t', Untouched f s t t' → t'.world = o.world →
      (∀ v, value = some v → t'.eval args v = some o.value) →
      Moves q calls' g args f.nextBlock (g.body f.nextBlock) t' o') :
    Moves q calls' g args ((s.copy f).block d)
      ((is.filter fun i => !isSlot s.callee i).map (s.copy f).copied) new (o'.after o.steps) := by
  have hform := h.fits.callee.formed
  have hlive {d : BlockId} {before is : List InstId} {i : InstId}
    (hat : At s.callee d before (i :: is)) :
      i ∈ s.callee.liveInsts := mem_flatMap.mpr ⟨d, hat.live, hat.mem⟩
  have hkept {i : InstId} {is : List InstId} (hi : isSlot s.callee i = false) :
      ((i :: is).filter fun i => !isSlot s.callee i).map (s.copy f).copied =
        (s.copy f).copied i :: (is.filter fun i => !isSlot s.callee i).map (s.copy f).copied := by
    rw [filter_cons_of_pos (by simp [hi]), map_cons]
  have hterm {i : InstId} (hi : (s.callee.instr i).isTerminator) : isSlot s.callee i = false := by
    cases hslot : isSlot s.callee i with
    | true =>
      rw [(isPhi_of_isSlot hslot).2] at hi
      cases hi
    | false => rfl
  induction hmoves generalizing before new with
  | @next d i is old old' n o hstep _ ih =>
    cases hslot : isSlot s.callee i with
    | true =>
      obtain ⟨ty, hk⟩ := isSlot_iff.mp hslot
      rw [hk] at hstep
      cases hstep with
      | yield hy => cases hy with | compute hv => cases hv
      | alloc _ hfree =>
        rw [filter_cons_of_neg (by simp [hslot])]
        refine ih (hin.reserve (hlive hat) hk hfree) hat.next ?_ hafter
        exact Nat.le_trans (Nat.add_le_add_right (Nat.sub_le _ 1) _) hroom
    | false =>
      obtain ⟨new', hstep', hin', hroom'⟩ := hin.advances h hreach hpassed hcalls hstrs (hlive hat)
        hslot hstep hroom
      have hrest := Moves.next hstep' (ih hin' hat.next hroom' hafter)
      rw [Outcome.after_after] at hrest
      rw [hkept hslot]
      exact hrest
  | @jump d e i is old o htgt _ hphis _ ih =>
    have he := (h.fits.callee.edge_of_target hat.live hat.mem (target?_mem_targets htgt)).2
    obtain ⟨hphis', new', hin', hroom', henter⟩ :=
      hin.exists_enter h hreach hpassed hscalar hhoisted he hphis
    have hleft : old.room + k * o.steps ≤ new'.room := by
      rw [hroom']
      exact Nat.le_trans (Nat.add_le_add_left (Nat.mul_le_mul_left k (Nat.le_add_right _ 1)) _) hroom
    have hblk := (h.consistent.mem_liveBlocks.mp (h.mem_liveBlocks_of_live he)).1
    have hsteps : o'.after (o.after 1).steps = (o'.after o.steps).after 1 :=
      (Outcome.after_after _ _ _).symm
    rw [hkept (hterm (isTerminator_of_target? htgt))]
    exact .jump (hin.target h hreach hpassed (hlive hat) htgt) hblk hphis'
      (henter _ (ih hin' (.start hform he) hleft hafter))
  | @ret d i is old v hv =>
    obtain ⟨hphis, hval, hfr⟩ := hin.leave h hreach hpassed hat.live hat.mem hv
    rw [hkept (hterm (isTerminator_of_result? hv))]
    exact .jump (h.target?_of_result? hreach (hlive hat) hv)
      (h.consistent.mem_liveBlocks.mp h.mem_liveBlocks_after).1 hphis (hafter _ hfr hin.world hval)

end Copied

/-! ## Through the caller -/

/-- What is left of a list of the caller, of which an instruction other than the call is next. -/
lemma ite_upTo_cons {call i : InstId} (hi : i ≠ call) (before is : List InstId) :
    (if call ∈ before then i :: is else upTo call (i :: is)) =
      i :: if call ∈ before then is else upTo call is := by
  rw [upTo_cons_of_ne hi]
  split <;> rfl

lemma Agree.of_onlySlots {before slots : List InstId} {new' : State}
    (hA : Agree f s value args b before old new) (honly : OnlySlots slots new new')
    (hslots : ∀ i ∈ slots, f.hasInst i = false) : Agree f s value args b before old new' where
  regs i hi hne := by
    rw [honly.regs]
    exact hA.regs i hi hne
  result v hv hav x hx := by
    rw [honly.eval]
    exact hA.result v hv hav x hx
  slots i hi := by
    rw [honly.other i fun hmem => by simp [hslots i hmem] at hi]
    exact hA.slots i hi
  unslotted := hA.unslotted
  world := honly.world.trans hA.world

lemma Agree.resume {before : List InstId} (hA : Agree f s value args b before old new)
    (hfr : Untouched f s new t) {x : Value}
    (hval : ∀ v, value = some v → t.eval args v = some x) :
    Agree f s value args b (before ++ [s.call]) (old.yield s.call x t.world) t where
  regs i hi hne := by
    rw [hfr.regs i hi, hA.regs i hi hne]
    exact (Function.update_of_ne hne _ _).symm
  result v hv _ y hy := by
    rw [hval v hv]
    exact (Function.update_self s.call _ old.regs).symm.trans hy
  slots i hi := (hfr.slots i hi).trans (hA.slots i hi)
  unslotted := hA.unslotted
  world := rfl

section Caller

variable {before is : List InstId} {o : Outcome}

variable (h : Replaced f s n memset pre post clears merge value m g)
  (hscalar : ∀ i ∈ s.callee.liveInsts, ∀ ty, s.callee.instr i = .alloc ty → ty.isScalar)

include h hscalar

/-- Entering a block of the caller, where the slots of the copy are allocated at the entry. -/
lemma Agree.exists_start (hslots : (s.copy f).slots.length ≤ k) {c : BlockId}
    (hc : c ∈ f.liveBlocks)
    (hA : Agree f s value args c (f.phis c) old new) (hfree : c = ⟨0⟩ → ∀ a, new.slots a = none)
    (hhoisted : c ≠ ⟨0⟩ → Hoisted f s new) {left : Nat} (hroom : old.room + k * (left + 1) ≤ new.room) :
    ∃ new', Agree f s value args c (f.phis c) old new' ∧ Hoisted f s new' ∧
      old.room + k * left ≤ new'.room ∧ ∀ o,
        Moves q calls g args c (upTo s.call (f.body c)) new' o →
        Moves q calls g args c (g.body c) new o := by
  rw [mul_succ] at hroom
  rw [h.body_old hc]
  by_cases hent : c = ⟨0⟩
  · obtain ⟨new', honly, hroom', hhoisted', hmoves⟩ := h.moves_slots hscalar
      (fun a _ => hfree hent a) (by omega)
    refine ⟨new', hA.of_onlySlots honly fun i hi => ?_, hhoisted', by omega, fun o ho => ?_⟩
    · obtain ⟨j, -, -, -, -, rfl⟩ := h.exists_of_mem_slots hscalar hi
      exact not_hasInst_copied
    · rw [if_pos hent]
      exact hmoves c _ o ho
  · grind

omit hscalar in
lemma Agree.passed (hat : At f b before (s.call :: is))
    (hreach : f.Reachable b) (hA : Agree f s value args b before old new)
    (hvs : s.args.mapM (old.eval args) = some vs) : Passed f s args vs new := by
  have hargs {v : Operand} (hv : v ∈ s.args) : v ∈ (f.instr s.call).operands :=
    h.fits.operands_call.symm ▸ hv
  obtain rfl : (f.inst s.call).block = b := h.fits.consistent.block_of_mem hat.mem
  refine ⟨fun v hv i hi => ?_, fun j v hv x hx => ?_⟩
  · exact h.fits.hasInst_of_operand h.fits.call (hi ▸ hargs hv)
  · have hmem := mem_of_getElem? hv
    have hsame := substResult_of_ne (h.ne_call_of_mem_args hreach hmem) value
    rw [← hsame]
    exact hA.eval_at h hat hreach v (hargs hmem) x (eval_of_mapM hvs hv hx)

variable (hstrs : q.strings = p.strings) {callee : FuncId}
  (hinstr : f.instr s.call = .call callee s.args none)
  (hcallee : ∀ vs w room o, calls callee vs w room o → ∃ n inner, o.steps = n + 1 ∧
    inner.Within k calls' ∧ Completes p inner s.callee vs w room { o with steps := n })

include hstrs hinstr hcallee

lemma Agree.moves_call (hat : At f b before (s.call :: is))
    (hreach : f.Reachable b) (hA : Agree f s value args b before old new)
    (hhoisted : Hoisted f s new) {ty : Ty} {steps : Nat} {old' : State}
    (hstep : Advances p calls args s.call ty old (f.instr s.call) steps old')
    (hroom : old.room + k * (o.steps + steps) ≤ new.room)
    (hrest : ∀ new', Agree f s value args b (before ++ [s.call]) old' new' → Hoisted f s new' →
      old'.room + k * o.steps ≤ new'.room → Moves q calls' g args f.nextBlock is new' o) :
    Moves q calls' g args b [s.call] new (o.after steps) := by
  obtain rfl : (f.inst s.call).block = b := h.fits.consistent.block_of_mem hat.mem
  obtain ⟨rfl, rfl⟩ := h.eq_of_split hat.split
  rw [hinstr] at hstep
  cases hstep with
  | yield hy =>
    cases hy with
    | compute hv => cases hv
    | @call _ _ vs oc hvs hoc =>
      obtain ⟨n, inner, hn, hinner, -, hphis, hmoves⟩ := hcallee vs _ _ oc hoc
      have hpassed := hA.passed h hat hreach hvs
      have hnone (u : InstId) : u ∉ g.phis ((s.copy f).block ⟨0⟩) := by
        intro hu
        obtain ⟨i, hi, -⟩ := (h.mem_phis_copy h.fits.entry).mp hu
        rw [hphis] at hi
        cases hi
      have hne := Copy.block_ne_entry f s ⟨0⟩
      have hfr : Untouched f s new
          (new.enter g args (f.inst s.call).block ((s.copy f).block ⟨0⟩)) := by
        refine ⟨fun i _ => if_neg (hnone i), fun i _ => ?_, fun hhoisted a ha => ?_, rfl⟩
        · simp only [State.enter, if_neg hne]
        · simp only [State.enter, if_neg hne]
          exact hhoisted a ha
      have hworld : (new.enter g args (f.inst s.call).block ((s.copy f).block ⟨0⟩)).world =
          (State.init old.world old.room).world := hA.world
      obtain ⟨new', hin, hroom', henter⟩ := h.exists_inside q calls' args hscalar
        (fun _ _ _ hx => by cases hx) (fun _ => rfl) hworld hfr (hfr.hoisted hhoisted)
      have hleft : old.room + k * n ≤ new'.room := by
        rw [hroom']
        exact Nat.le_trans (Nat.add_le_add_left (Nat.mul_le_mul_left k (by omega)) _) hroom
      have hrun := hin.moves h hreach hpassed hscalar hhoisted hinner hstrs hmoves
        (.start h.fits.callee.formed h.fits.entry) hleft fun t' hframe' hworld hval => by
          rw [h.body_after]
          refine hrest t' (hworld ▸ hA.resume hframe' hval) (hframe'.hoisted hhoisted) ?_
          rw [hframe'.room]
          exact Nat.le_trans (Nat.add_le_add_left (Nat.mul_le_mul_left k (Nat.le_add_right _ _)) _)
            hroom
      have hmoves' : Moves q calls' g args (f.inst s.call).block [s.call] new
          ((o.after n).after 1) := by
        refine .jump ?_ (h.consistent.mem_liveBlocks.mp (h.mem_liveBlocks_of_live h.fits.entry)).1
          (fun u hu => absurd hu (hnone u)) (henter _ hrun)
        rw [h.instr_call]
        rfl
      rw [Outcome.after_after, ← hn] at hmoves'
      exact hmoves'

variable (hslots : (s.copy f).slots.length ≤ k) (hcalls : calls.Within k calls')

include hslots hcalls

lemma Agree.moves
    (hmoves : Moves p calls f args b is old o) (hat : At f b before is) (hreach : f.Reachable b)
    (hA : Agree f s value args b before old new) (hhoisted : Hoisted f s new)
    (hroom : old.room + k * o.steps ≤ new.room) :
    Moves q calls' g args (if s.call ∈ before then f.nextBlock else b)
      (if s.call ∈ before then is else upTo s.call is) new o := by
  have hssa := h.fits.caller
  induction hmoves generalizing before new with
  | @next b i is old old' steps o hstep _ ih =>
    by_cases hi : i = s.call
    · subst hi
      have hnot : s.call ∉ before := by
        have hnd := hssa.consistent.nodup b
        rw [hat.split, nodup_append] at hnd
        exact fun hmem => hnd.2.2 _ hmem _ (.head _) rfl
      rw [if_neg hnot, if_neg hnot, upTo_cons_self]
      refine hA.moves_call h hscalar hstrs hinstr hcallee hat hreach hhoisted hstep hroom
        fun new' hA' hhoisted' hroom' => ?_
      have hrest := ih hat.next hreach hA' hhoisted' hroom'
      have hmem : s.call ∈ before ++ [s.call] := mem_append_right _ (.head _)
      rwa [if_pos hmem, if_pos hmem] at hrest
    · obtain ⟨new', hstep', hA', hroom'⟩ := hA.advances h hcalls hstrs hat hreach hi hstep hroom
      have hrest := ih hat.next hreach hA' (fun a ha => hstep'.isSome_slots (hhoisted a ha)) hroom'
      have hiff : s.call ∈ before ++ [i] ↔ s.call ∈ before := by simp [Ne.symm hi]
      rw [if_congr hiff rfl rfl, if_congr hiff rfl rfl] at hrest
      rw [ite_upTo_cons hi]
      exact .next hstep' hrest
  | @jump b c i is old o htgt hblk hphis _ ih =>
    have hterm := isTerminator_of_target? htgt
    have hi := h.fits.ne_call_of_isTerminator hterm
    obtain ⟨hedge, hc⟩ := hssa.edge_of_target hat.live hat.mem (target?_mem_targets htgt)
    obtain ⟨hphis', hA'⟩ := hA.enter h hat hreach hterm hedge hphis
    obtain ⟨new', hA'', hhoisted', hroom', hstart⟩ := hA'.exists_start h hscalar hslots hc
      (fun hzero a => by simp only [State.enter, if_pos hzero])
      (fun hzero a ha => by
        simp only [State.enter, if_neg hzero]
        exact hhoisted a ha) hroom
    have hrest := ih (.start hssa.formed hc) (hreach.tail hedge) hA'' hhoisted' hroom'
    have hnot := h.fits.call_notMem_phis c
    rw [if_neg hnot, if_neg hnot] at hrest
    rw [ite_upTo_cons hi]
    refine .jump ?_ (h.consistent.mem_liveBlocks.mp (h.mem_liveBlocks_of_old hc)).1 hphis'
      (hstart _ hrest)
    rw [h.instr_at hat hi]
    exact target?_mapOperands (hA.eval_at h hat hreach) htgt
  | @ret b i is old v hv =>
    have hi := h.fits.ne_call_of_isTerminator (isTerminator_of_result? hv)
    rw [ite_upTo_cons hi, ← hA.world]
    refine .ret ?_
    rw [h.instr_at hat hi]
    exact result?_mapOperands (hA.eval_at h hat hreach) hv

/-- With additional cells for each move, the caller with a copy returns what the caller returns. -/
lemma Replaced.completes (hent : ⟨0⟩ ∈ f.liveBlocks) {w : World} {room room' : Nat}
    (hcompletes : Completes p calls f args w room o) (hroom : room + k * (o.steps + 1) ≤ room') :
    Completes q calls' g args w room' o := by
  obtain ⟨-, hphis, hmoves⟩ := hcompletes
  have hA : Agree f s value args ⟨0⟩ (f.phis ⟨0⟩) (.init w room) (.init w room') :=
    ⟨fun _ _ _ => rfl, fun _ _ _ _ hx => (by cases hx), fun _ _ => rfl, rfl, rfl⟩
  obtain ⟨new, hA', hhoisted, hroom', hstart⟩ := hA.exists_start h hscalar hslots hent
    (fun _ _ => rfl) (fun hne => absurd rfl hne) hroom
  have hrest := hA'.moves h hscalar hstrs hinstr hcallee hslots hcalls hmoves
    (.start h.fits.formed hent) .refl hhoisted hroom'
  rw [hphis] at hrest
  refine ⟨(h.consistent.mem_liveBlocks.mp (h.mem_liveBlocks_of_old hent)).1, ?_, hstart _ hrest⟩
  refine eq_nil_iff_forall_not_mem.mpr fun i hi => ?_
  rw [h.mem_phis_old hent, hphis] at hi
  cases hi

end Caller

end Inlining

end MiddleEnd
