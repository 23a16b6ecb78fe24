import MiddleEnd.Proofs.Folding
import MiddleEnd.Proofs.Machine.Local

/-!
# Functions with fewer instructions

A function is simplified by leaving out instructions that are folded, putting their literals where
they were read, by leaving out phis that nothing reads, and by changing what control does not get to.
Whatever the function returns, the simplified one returns as well, in no more steps.

Folding needs no dominance: an instruction with literal operands yields the same value each time, so
its register never holds another one.
-/

namespace MiddleEnd

open List Option Operand Instr Value Nat Function

variable {f g : Func} {v : Value} {c : Constant} {k : Instr} {b : BlockId} {id : FuncId}
  {look : Operand → Option Value} {p : Program} {ty : Ty}

/-! ## Folding -/

lemma BinaryOp.apply_eq_ok {op : BinaryOp} {name : String} {a b : Value}
    (h : op.apply name a b = .ok v) : Value.compute op.name op.fold? a b = .ok v := by
  simp only [apply, bind, Except.bind] at h
  split at h
  · grind
  · exact h

lemma Instr.compute?_of_fold? (hc : k.fold? ty = some c) {s : Local.State}
    {args : List Value} (h : k.compute? ty (s.eval args) = some v) : v = .ofConstant c := by
  unfold fold? at hc
  split at hc
  · next op a b => exact (op.yields_apply "" a b).eq_ofConstant hc h
  · next cond a b => exact (cond.yields_applyInt a b).eq_ofConstant hc h
  · next cond a b => exact (cond.yields_applyFloat a b).eq_ofConstant hc h
  · next op a => exact (op.yields_apply a ty).eq_ofConstant hc h
  · cases hc

/-- Puts literals in the place of instructions. -/
def Operand.fill (lit : InstId → Option Constant) : Operand → Operand
  | .inst i => (lit i).elim (.inst i) .const
  | v => v

/-! ## Simplified functions -/

/-- The function `g` is `f` with the instructions in `kept` only, in the blocks in `runs`, which are
all that control gets to.  Where `lit` gives a literal for an instruction, it is what the instruction
folds to, and it has taken its place. -/
structure Func.Simplifies (f g : Func) (runs : BlockId → Prop) (kept : InstId → Bool)
    (lit : InstId → Option Constant) : Prop where
  entry : runs ⟨0⟩
  closed : ∀ b, runs b → ∀ i ∈ f.body b, ∀ c ∈ (f.instr i).targets, f.hasBlock c → runs c
  hasBlock : ∀ b, runs b → f.hasBlock b → g.hasBlock b
  phis : ∀ b, runs b → g.phis b = (f.phis b).filter kept
  body : ∀ b, runs b → g.body b = (f.body b).filter kept
  ty : ∀ b, runs b → ∀ i ∈ f.body b, kept i → (g.inst i).ty = (f.inst i).ty
  instr : ∀ b, runs b → ∀ i ∈ f.body b, kept i →
    g.instr i = (f.instr i).mapOperands (fill lit)
  phi : ∀ b, runs b → ∀ i ∈ f.phis b, kept i → ∀ p, runs p →
    (g.instr i).operandFrom? (some p) = ((f.instr i).operandFrom? (some p)).map (fill lit)
  folds : ∀ i c, lit i = some c → kept i = false ∧ (f.instr i).fold? (f.inst i).ty = some c
  dropped : ∀ b, runs b → ∀ i ∈ f.body b, kept i = false → (lit i).isSome
  reads : ∀ b, runs b → ∀ i ∈ f.instsOf b, kept i → ∀ j, .inst j ∈ (f.instr i).operands →
    kept j ∨ (lit j).isSome

lemma Operand.fill_none (v : Operand) : v.fill (fun _ => none) = v := by
  cases v <;> rfl

lemma Func.Simplifies.refl (f : Func) :
    f.Simplifies f (fun _ => True) (fun _ => true) fun _ => none := by
  have hfill := funext fill_none
  constructor
  all_goals simp [hfill, mapOperands_id]

lemma Func.Simplifies.lit_eq_none {runs : BlockId → Prop} {kept : InstId → Bool}
    {lit : InstId → Option Constant} (h : f.Simplifies g runs kept lit) {i : InstId}
    (hi : kept i) : lit i = none := by
  rw [eq_none_iff_forall_ne_some]
  intro c hc
  rw [(h.folds i c hc).1] at hi
  cases hi

lemma Instr.target?_mem_targets {c : BlockId}
    (h : k.target? look = some c) : c ∈ k.targets := by
  cases k with
  | branch cond t e =>
    obtain ⟨x, -, h⟩ := bind_eq_some_iff.mp h
    obtain ⟨taken, -, h⟩ := bind_eq_some_iff.mp h
    obtain rfl := Option.some.inj h
    cases taken <;> simp [targets]
  | jump t =>
    obtain rfl : t = some c := h
    simp [targets]
  | _ => cases h

lemma Instr.isTerminator_of_target? {c : BlockId}
    (h : k.target? look = some c) : k.isTerminator := by
  cases k <;> first | rfl | cases h

lemma Instr.isTerminator_of_result? (h : k.result? look = some v) :
    k.isTerminator := by
  cases k <;> first | rfl | cases h

lemma Func.Simplifies.kept_of_terminator {runs : BlockId → Prop} {kept : InstId → Bool}
    {lit : InstId → Option Constant} (h : f.Simplifies g runs kept lit) (hb : runs b)
    {i : InstId} (hi : i ∈ f.body b) (hk : (f.instr i).isTerminator) : kept i := by
  cases hkept : kept i with
  | true => rfl
  | false =>
    obtain ⟨c, hc⟩ := isSome_iff_exists.mp (h.dropped b hb i hi hkept)
    have hfold := (h.folds i c hc).2
    cases hinstr : f.instr i <;> rw [hinstr] at hfold hk <;> first | cases hfold | cases hk

namespace Local

variable {runs : BlockId → Prop} {kept : InstId → Bool} {lit : InstId → Option Constant}

/-- The states of a function and of the simplified one at the same place. -/
structure Agree (kept : InstId → Bool) (lit : InstId → Option Constant) (s t : State) : Prop where
  regs : ∀ i, kept i → t.regs i = s.regs i
  literal : ∀ i c, lit i = some c → ∀ x, s.regs i = some x → x = .ofConstant c
  slots : t.slots = s.slots
  unslotted : ∀ i c, lit i = some c → s.slots i = none
  world : t.world = s.world
  room : s.room ≤ t.room

namespace Agree

variable {i : InstId}

variable {kept : InstId → Bool} {lit : InstId → Option Constant} {s t : State} {args : List Value}

section

variable (h : Agree kept lit s t)
include h

variable {a : InstId} {x : Value}

lemma eval {v : Operand} (hv : ∀ j, v = .inst j → kept j ∨ (lit j).isSome)
    (hx : s.eval args v = some x) : t.eval args (v.fill lit) = some x := by
  cases v with
  | inst j =>
    cases hlit : lit j with
    | none =>
      have hkept := (hv j rfl).resolve_right (by simp [hlit])
      simp only [fill, hlit, elim_none, State.eval, h.regs j hkept]
      exact hx
    | some c =>
      obtain rfl := h.literal j c hlit x hx
      simp [fill, hlit, State.eval]
  | arg n => exact hx
  | const c => exact hx
  | global g => exact hx

lemma fill_of_read {v : Operand} (hv : (s.read v).isSome) : v.fill lit = v := by
  cases v with
  | inst j =>
    cases hlit : lit j with
    | none => simp [fill, hlit]
    | some c =>
      rw [State.read, h.unslotted j c hlit] at hv
      cases hv
  | _ => rfl

lemma read {v : Operand} (hx : s.read v = some x) : t.read (v.fill lit) = some x := by
  rw [h.fill_of_read (by rw [hx]; rfl), ← hx]
  cases v with
  | inst j => exact congrFun h.slots j
  | global g => exact congrFun (congrArg World.globals h.world) g
  | _ => rfl

lemma yield (hlit : lit i = none) (v : Value) (w : World) :
    Agree kept lit (s.yield i v w) (t.yield i v w) where
  regs j hj := by
    by_cases heq : j = i
    · simp [State.yield, heq]
    · simp [State.yield, heq, h.regs j hj]
  literal j c hj x hx := by
    have hne : j ≠ i := fun heq => by simp [heq, hlit] at hj
    simp only [State.yield, update_of_ne hne] at hx
    exact h.literal j c hj x hx
  slots := h.slots
  unslotted := h.unslotted
  world := rfl
  room := h.room

lemma yield_dropped (hi : kept i = false) (hlit : lit i = some c) :
    Agree kept lit (s.yield i (.ofConstant c) s.world) t where
  regs j hj := by
    have hne : j ≠ i := fun heq => by simp [heq, hi] at hj
    simp only [State.yield, update_of_ne hne, h.regs j hj]
  literal j d hj x hx := by
    by_cases heq : j = i
    · subst heq
      obtain rfl := Option.some.inj (hlit.symm.trans hj)
      simpa [State.yield] using hx.symm
    · simp only [State.yield, update_of_ne heq] at hx
      exact h.literal j d hj x hx
  slots := h.slots
  unslotted := h.unslotted
  world := h.world
  room := h.room

lemma setSlot (hlit : lit a = none) (v : Value) :
    Agree kept lit (s.setSlot a v) (t.setSlot a v) where
  regs := h.regs
  literal := h.literal
  slots := by simp only [State.setSlot, h.slots]
  unslotted j c hj := by
    have hne : j ≠ a := fun heq => by simp [heq, hlit] at hj
    simp only [State.setSlot, update_of_ne hne, h.unslotted j c hj]
  world := h.world
  room := h.room

lemma reserve (hlit : lit a = none) (ty : Ty) :
    Agree kept lit (s.reserve a ty) (t.reserve a ty) :=
  { h.setSlot hlit (.initial ty) with room := Nat.sub_le_sub_right h.room 1 }

lemma write {ptr : Operand} (hptr : (s.read ptr).isSome) (v : Value) :
    Agree kept lit (s.write ptr v) (t.write ptr v) := by
  cases ptr with
  | inst a =>
    refine h.setSlot (eq_none_iff_forall_ne_some.mpr fun c hc => ?_) v
    rw [State.read, h.unslotted a c hc] at hptr
    cases hptr
  | global g =>
    exact { h with world := by simp only [State.write, State.setGlobal, h.world] }
  | _ => exact h

end

lemma advances {q : Program} {calls calls' : CallSem} (hcalls : calls.RefinedBy calls')
    (hstrs : q.strings = p.strings) (h : Agree kept lit s t)
    (hreads : ∀ j, .inst j ∈ k.operands → kept j ∨ (lit j).isSome)
    (hlit : lit i = none) {n : Nat} {s' : State} (hs : Advances p calls args i ty s k n s') :
    ∃ n' ≤ n, ∃ t', Advances q calls' args i ty t (k.mapOperands (fill lit)) n' t' ∧
      Agree kept lit s' t' := by
  cases hs with
  | @yield _ _ v w hy =>
    obtain ⟨n', hn', hy⟩ := hy.mapOperands hcalls hstrs h.world h.room
      (fun u hu x hx => h.eval (fun j hj => hreads j (hj ▸ hu)) hx) (fun u _ x hx => h.read hx)
    exact ⟨n', hn', _, .yield hy, h.yield hlit v w⟩
  | alloc hcells hfree hroom =>
    refine ⟨0, le_refl _, _, .alloc hcells ?_ (lt_of_lt_of_le hroom h.room), h.reserve hlit _⟩
    rw [h.slots]
    exact hfree
  | @store value ptr v hv hptr =>
    refine ⟨0, le_refl _, _, .store (h.eval (fun j hj => hreads j (hj ▸ (.head _))) hv) ?_, ?_⟩
    · obtain ⟨x, hx⟩ := isSome_iff_exists.mp hptr
      rw [h.read hx]
      rfl
    · rw [h.fill_of_read hptr]
      exact h.write hptr v

end Agree

lemma Agree.enter {s t : State} {args : List Value}
    (hfg : f.Simplifies g runs kept lit) (h : Agree kept lit s t) {c : BlockId} (hb : runs b)
    (hc : runs c) (hphis : ∀ j ∈ f.phis c, (s.incoming f args b j).isSome) :
    (∀ j ∈ g.phis c, (t.incoming g args b j).isSome) ∧
      Agree kept lit (s.enter f args b c) (t.enter g args b c) := by
  have hmem {j : InstId} : j ∈ g.phis c ↔ j ∈ f.phis c ∧ kept j := by
    rw [hfg.phis c hc, mem_filter]
  have hincoming {j : InstId} (hj : j ∈ f.phis c) (hkept : kept j) :
      t.incoming g args b j = s.incoming f args b j := by
    obtain ⟨x, hx⟩ := isSome_iff_exists.mp (hphis j hj)
    obtain ⟨v, hv, hvx⟩ := bind_eq_some_iff.mp hx
    rw [hx, State.incoming, hfg.phi c hc j hj hkept b hb, hv]
    refine h.eval (fun i hi => ?_) hvx
    refine hfg.reads c hc j ((takeWhile_sublist _).subset hj) hkept i ?_
    exact hi ▸ mem_operands_of_operandFrom? hv
  refine ⟨fun j hj => ?_, ⟨fun j hj => ?_, fun j d hd x hx => ?_, ?_, fun j d hd => ?_, h.world,
    h.room⟩⟩
  · grind
  · by_cases hin : j ∈ f.phis c
    · simp only [State.enter, if_pos hin, if_pos (hmem.mpr ⟨hin, hj⟩), hincoming hin hj]
    · simp only [State.enter, if_neg hin, if_neg fun h => hin (hmem.mp h).1, h.regs j hj]
  · have hin : j ∉ f.phis c := fun hin => by
      have hphi := f.isPhi_of_mem_phis hin
      have hfold := (hfg.folds j d hd).2
      cases hk : f.instr j with
      | phi es =>
        rw [hk] at hfold
        cases hfold
      | _ =>
        rw [hk] at hphi
        cases hphi
    simp only [State.enter, if_neg hin] at hx
    exact h.literal j d hd x hx
  · simp only [State.enter, h.slots]
  · simp only [State.enter]
    split
    · rfl
    · exact h.unslotted j d hd

lemma Runs.simplify {q : Program} {calls calls' : CallSem} (hcalls : calls.RefinedBy calls')
    (hstrs : q.strings = p.strings) (hfg : f.Simplifies g runs kept lit)
    {args : List Value} {is : List InstId} {s : State} {fuel : Nat} {o : Outcome}
    (h : Runs p calls f args b is s fuel o) (hb : runs b) (his : is ⊆ f.body b) {t : State}
    (ht : Agree kept lit s t) :
    ∃ n ≤ o.steps, Runs q calls' g args b (is.filter kept) t fuel { o with steps := n } := by
  induction h generalizing t with
  | @next b i is s s' n fuel o hstep _ ih =>
    have hi := his (.head _)
    have his' := List.Subset.trans (subset_cons_self i is) his
    cases hkept : kept i with
    | false =>
      -- a folded instruction has no effect but its literal
      obtain ⟨c, hc⟩ := isSome_iff_exists.mp (hfg.dropped b hb i hi hkept)
      have hfold := (hfg.folds i c hc).2
      obtain rfl : s' = s.yield i (.ofConstant c) s.world := by
        generalize f.instr i = k at hstep hfold
        cases hstep with
        | yield hy =>
          cases hy with
          | compute hv => rw [compute?_of_fold? hfold hv]
          | load => cases hfold
          | call => cases hfold
          | print => cases hfold
        | alloc => cases hfold
        | store => cases hfold
      obtain ⟨m, hm, hrun⟩ := ih hb his' (ht.yield_dropped hkept hc)
      rw [filter_cons_of_neg (by simp [hkept])]
      exact ⟨m, le_trans hm (le_add_right _ _), hrun⟩
    | true =>
      have hlit := hfg.lit_eq_none hkept
      obtain ⟨n', hn', t', hstep', ht'⟩ := ht.advances hcalls hstrs
        (hfg.reads b hb i (mem_filter.mp hi).1 hkept) hlit hstep
      obtain ⟨m, hm, hrun⟩ := ih hb his' ht'
      rw [filter_cons_of_pos hkept]
      rw [← hfg.instr b hb i hi hkept, ← hfg.ty b hb i hi hkept] at hstep'
      exact ⟨m + (n' + 1), Nat.add_le_add hm (succ_le_succ hn'), .next hstep' hrun⟩
  | @jump b c i is s fuel o htgt hc hphis _ ih =>
    have hi := his (.head _)
    have hkept := hfg.kept_of_terminator hb hi (isTerminator_of_target? htgt)
    have hreads := hfg.reads b hb i (mem_filter.mp hi).1 hkept
    have hruns := hfg.closed b hb i hi c (target?_mem_targets htgt) hc
    obtain ⟨hphis', ht'⟩ := ht.enter hfg hb hruns hphis
    obtain ⟨m, hm, hrun⟩ := ih hruns (List.Subset.refl _) ht'
    rw [filter_cons_of_pos hkept]
    rw [← hfg.body c hruns] at hrun
    refine ⟨m + 1, succ_le_succ hm, .jump ?_ (hfg.hasBlock c hruns hc) hphis' hrun⟩
    rw [hfg.instr b hb i hi hkept]
    exact target?_mapOperands (fun u hu x hx => ht.eval (fun j hj => hreads j (hj ▸ hu)) hx) htgt
  | @ret b i is s fuel v hv =>
    have hi := his (.head _)
    have hkept := hfg.kept_of_terminator hb hi (isTerminator_of_result? hv)
    have hreads := hfg.reads b hb i (mem_filter.mp hi).1 hkept
    rw [filter_cons_of_pos hkept, ← ht.world]
    refine ⟨1, le_refl _, .ret ?_⟩
    rw [hfg.instr b hb i hi hkept]
    exact result?_mapOperands (fun u hu x hx => ht.eval (fun j hj => hreads j (hj ▸ hu)) hx) hv

end Local

lemma Func.Simplifies.simulatedBy {runs : BlockId → Prop} {kept : InstId → Bool}
    {lit : InstId → Option Constant} (h : f.Simplifies g runs kept lit) :
    Local.SimulatedBy f g := by
  rintro p q calls calls' hstrs hcalls fuel args w room o ⟨hblk, hphis, hrun⟩ room' hroom
  have hagree : Local.Agree kept lit (.init w room) (.init w room') :=
    ⟨fun _ _ => rfl, fun _ _ _ _ hx => (by cases hx), rfl, fun _ _ _ => rfl, rfl, hroom⟩
  obtain ⟨n, hn, hrun'⟩ := hrun.simplify hcalls hstrs h h.entry (List.Subset.refl _) hagree
  refine ⟨n, hn, h.hasBlock _ h.entry hblk, ?_, ?_⟩
  · rw [h.phis _ h.entry, hphis]
    rfl
  · rwa [h.body _ h.entry]

/-- All functions keep their heads when one is replaced by a function with the same head. -/
lemma Func.SameHead.setFunc (h : (p.func id).SameHead g)
    (id' : FuncId) : (p.func id').SameHead ((p.setFunc id g).func id') := by
  rw [p.func_setFunc]
  split
  · next heq => rwa [heq.1]
  · exact .refl _

lemma Local.calls_setFunc (hhead : (p.func id).SameHead g)
    (h : SimulatedBy (p.func id) g) (fuel depth : Nat) :
    CallSem.RefinedBy (Calls p fuel depth) (Calls (p.setFunc id g) fuel depth) := by
  refine calls_refinedBy (p := p) (q := p.setFunc id g) rfl (by simp [Program.setFunc]) hhead.setFunc
    (fun id' _ => ?_) fuel depth
  rw [p.func_setFunc]
  split
  · next heq => rwa [heq.1]
  · exact (Func.Simplifies.refl _).simulatedBy

end MiddleEnd
