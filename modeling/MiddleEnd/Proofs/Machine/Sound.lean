import MiddleEnd.Proofs.Machine.Frame

/-!
# Runs without addresses on the machine

What has an outcome without addresses does the same on the machine, provided that the limits allow for
the resources.  No condition is put on the program: an outcome exists only if memory is reached
through names.

The proof follows a run from its end.  Each of its steps is one of the machine, and the rest of the
block with everything after it is run by `Image.resume`.
-/

namespace MiddleEnd

open Exec Image List

/-! ## The interpreter -/

variable {name : String}

namespace Image

variable (e : Image) (call : FuncId → List Value → Exec Value) (f : Func) (args : List Value)

variable {i : InstId}

/-- Goes on after the block `b` with at most `fuel` more blocks. -/
def resume (fuel : Nat) (b : BlockId) : Leave → Exec Value
  | .jump target regs => e.runBlocks call f args fuel (some b) target regs
  | .ret v => pure v

/-- Executes the rest of the block `b` and what follows. -/
def runFrom (fuel : Nat) (b : BlockId) (regs : Registers) (is : List InstId) : Exec Value :=
  e.runInsts call f args b regs is >>= e.resume call f args fuel b

lemma runBlocks_succ (fuel : Nat) (pred : Option BlockId) {b : BlockId} (hb : f.hasBlock b)
    (regs : Registers) : e.runBlocks call f args (fuel + 1) pred b regs =
      e.evalPhis f args regs b pred (f.phis b) >>= fun values =>
        e.runFrom call f args fuel b (regs.insertMany values) (f.instsOf b) := by
  rw [runBlocks, runBlock]
  simp only [hb, Bool.not_true, Bool.false_eq_true, if_false, bind_assoc, runFrom]
  rfl

variable {f}

variable (fuel : Nat) (b : BlockId) (regs : Registers) (is : List InstId)

lemma runFrom_phi (hi : (f.instr i).isPhi) :
    e.runFrom call f args fuel b regs (i :: is) = e.runFrom call f args fuel b regs is := by
  rw [runFrom, runInsts_phi _ _ _ _ _ _ hi]
  rfl

lemma runFrom_step (hi : (f.instr i).isPhi = false) :
    e.runFrom call f args fuel b regs (i :: is) = (do
      .tick e.limits.instructions.toNat
      match ← e.step call f args regs i with
      | .next regs => e.runFrom call f args fuel b regs is
      | .jump target => e.runBlocks call f args fuel (some b) target regs
      | .ret v => pure v) := by
  rw [runFrom, runInsts_step _ _ _ _ _ _ hi]
  simp only [bind_assoc]
  congr 1
  funext _
  congr 1
  funext flow
  cases flow <;> rfl

lemma runFrom_filter :
    e.runFrom call f args fuel b regs is =
      e.runFrom call f args fuel b regs (is.filter fun i => !(f.instr i).isPhi) := by
  induction is generalizing regs with
  | nil => rfl
  | cons i is ih =>
    cases hi : (f.instr i).isPhi with
    | true => rw [runFrom_phi _ _ _ _ _ _ _ hi, filter_cons_of_neg (by simp [hi]), ih]
    | false =>
      rw [filter_cons_of_pos (by simp [hi]), runFrom_step _ _ _ _ _ _ _ hi,
        runFrom_step _ _ _ _ _ _ _ hi]
      congr 1
      funext _
      congr 1
      funext flow
      cases flow with
      | next regs => exact ih regs
      | jump target => rfl
      | ret v => rfl

lemma runBlocks_entry (hb : f.hasBlock b) (hphis : f.phis b = []) :
    e.runBlocks call f args (fuel + 1) none b ∅ = e.runFrom call f args fuel b ∅ (f.body b) := by
  have hnil : e.evalPhis f args ∅ b none [] = pure [] := rfl
  rw [runBlocks_succ _ _ _ _ _ _ hb, hphis, hnil, pure_bind, runFrom_filter]
  rfl

end Image

lemma BinaryOp.apply_name {op : BinaryOp} {a b v : Value}
    (h : op.apply name a b = .ok v) (name' : String) : op.apply name' a b = .ok v := by
  simp only [apply, bind, Except.bind] at h ⊢
  split at h
  · next hop =>
    rw [if_pos hop]
    cases hb : b.asInt op.name with
    | error e => rw [hb] at h; cases h
    | ok y =>
      rw [hb] at h
      dsimp only at h ⊢
      split at h
      · cases h
      · next hy =>
        rw [if_neg hy]
        exact h
  · next hop =>
    rw [if_neg hop]
    exact h

namespace Local

variable {i : InstId} {e : Image} {call : FuncId → List Value → Exec Value} {calls : CallSem}
  {n : Nat} {f : Func} {args : List Value} {m₀ m : Machine} {regs : Registers} {s : State}
  {b : BlockId} {is : List InstId}

/-- The machine can count so many more instructions. -/
def Allows (e : Image) (m : Machine) (steps : Nat) : Prop :=
  e.limits.instructions.toNat ≠ 0 → m.steps + steps ≤ e.limits.instructions.toNat

/-- Calls with an outcome do the same on the machine. -/
def CallSound (e : Image) (n : Nat) (call : FuncId → List Value → Exec Value) (calls : CallSem) :
    Prop :=
  ∀ callee args room o m, n ≤ m.memory.size → m.memory.size + room = m.memory.limit →
    Allows e m o.steps → calls callee args (world n m) room o →
    ∃ m', call callee args m = .ok o.value m' ∧ Kept n m m' ∧ world n m' = o.world ∧
      m'.steps = m.steps + o.steps

section

variable (h : Holds n f m₀ regs m s)
include h

variable {v : Value}

lemma Holds.evalAll (e : Image) {ops : List Operand} {vs : List Value}
    (hvs : ops.mapM (s.eval args) = some vs) : e.evalAll args regs ops = pure vs := by
  induction ops generalizing vs with
  | nil =>
    obtain rfl : [] = vs := by simpa using hvs
    rfl
  | cons v ops ih =>
    rw [mapM_cons] at hvs
    obtain ⟨x, hx, hvs⟩ := Option.bind_eq_some_iff.mp hvs
    obtain ⟨xs, hxs, hvs⟩ := Option.bind_eq_some_iff.mp hvs
    obtain rfl := Option.some.inj hvs
    rw [Image.evalAll, h.eval e hx, ih hxs]
    rfl

lemma Holds.step_compute (e : Image) (call : FuncId → List Value → Exec Value)
    (hv : (f.instr i).compute? (f.inst i).ty (s.eval args) = some v) :
    (f.instr i).isAlloc = false ∧ e.step call f args regs i m = .ok (.next (regs.insert i v)) m := by
  cases hk : f.instr i with
  | binary op l r =>
    rw [hk] at hv
    obtain ⟨x, hx, hv⟩ := Option.bind_eq_some_iff.mp hv
    obtain ⟨y, hy, hv⟩ := Option.bind_eq_some_iff.mp hv
    refine ⟨rfl, ?_⟩
    simp only [step, hk, h.eval e hx, h.eval e hy, pure_bind,
      BinaryOp.apply_name (toOption_eq_some.mp hv) f.name]
    rfl
  | icmp c l r | fcmp c l r =>
    rw [hk] at hv
    obtain ⟨x, hx, hv⟩ := Option.bind_eq_some_iff.mp hv
    obtain ⟨y, hy, hv⟩ := Option.bind_eq_some_iff.mp hv
    refine ⟨rfl, ?_⟩
    simp only [step, hk, h.eval e hx, h.eval e hy, pure_bind, toOption_eq_some.mp hv]
    rfl
  | cast op u =>
    rw [hk] at hv
    obtain ⟨x, hx, hv⟩ := Option.bind_eq_some_iff.mp hv
    refine ⟨rfl, ?_⟩
    simp only [step, hk, h.eval e hx, pure_bind, toOption_eq_some.mp hv]
    rfl
  | _ =>
    rw [hk] at hv
    cases hv

lemma Holds.step_of_advances (he : ∀ k < n, e.globals[k]? = some k)
    (hcall : CallSound e n call calls) {k : Nat} {s' : State}
    (hs : Advances e.program calls args i (f.inst i).ty s (f.instr i) k s') (hlim : Allows e m k) :
    ∃ regs' m', e.step call f args regs i m = .ok (.next regs') m' ∧ Holds n f m₀ regs' m' s' ∧
      m'.steps = m.steps + k := by
  generalize hk : f.instr i = instr at hs
  cases hs with
  | @yield _ _ v w hy =>
    cases hy with
    | compute hv =>
      rw [← hk] at hv
      obtain ⟨hi, hstep⟩ := h.step_compute e call hv
      exact ⟨_, m, hstep, h.world ▸ h.yield (.of_memory_eq rfl) hi v, rfl⟩
    | @load ptr _ hx hty =>
      obtain ⟨a, ha, hcell, -⟩ := h.address he args hx
      refine ⟨regs.insert i v, m, ?_, h.world ▸ h.yield (.of_memory_eq rfl) (by rw [hk]; rfl) v, rfl⟩
      simp only [step, hk, ha, pure_bind, Value.asPtr]
      refine bind_eq_ok (lift_eq_ok_iff.mpr ⟨rfl, rfl⟩) ?_
      refine bind_eq_ok (load_eq_ok_iff.mpr ⟨hcell, rfl⟩) ?_
      rw [hty]
      rfl
    | @call callee ops vs o hvs ho =>
      rw [h.world] at ho
      obtain ⟨m', hm', hkept, hworld, hsteps⟩ := hcall callee vs s.room o m
        (Nat.le_trans h.globals h.size) h.room hlim ho
      refine ⟨regs.insert i o.value, m', ?_, hworld ▸ h.yield hkept (by rw [hk]; rfl) o.value, hsteps⟩
      simp only [step, hk, h.evalAll e hvs, pure_bind]
      exact bind_eq_ok hm' rfl
    | @print callee ops vs str _ hvs hstr hw =>
      rw [h.world, run_world_iff (.printFormatted _ _)] at hw
      obtain ⟨m', hm', rfl⟩ := hw
      obtain ⟨hmemory, hsteps⟩ := (Worldly.printFormatted _ _).kept hm'
      refine ⟨regs.insert i .void, m', ?_, h.yield (.of_memory_eq hmemory) (by rw [hk]; rfl) .void,
        hsteps⟩
      simp only [Image.step, hk, h.evalAll e hvs, pure_bind, hstr, Bool.not_true, Bool.false_eq_true,
        if_false]
      exact bind_eq_ok hm' rfl
  | @alloc t hcells hfree hroom =>
    refine ⟨_, _, ?_, h.reserve hk hroom, rfl⟩
    simp only [step, hk]
    refine bind_eq_ok (allocate_eq_ok_iff.mpr ⟨?_, rfl, by rw [hcells]⟩) rfl
    have := h.room
    omega
  | @store value ptr v hv hptr =>
    obtain ⟨x, hx⟩ := Option.isSome_iff_exists.mp hptr
    obtain ⟨a, ha, hcell, hset⟩ := h.address he args hx
    refine ⟨regs, _, ?_, hset v, rfl⟩
    simp only [step, hk, h.eval e hv, ha, pure_bind, Value.asPtr]
    refine bind_eq_ok (lift_eq_ok_iff.mpr ⟨rfl, rfl⟩) ?_
    exact bind_eq_ok (store_eq_ok_iff.mpr ⟨(Array.getElem?_eq_some_iff.mp hcell).1, rfl⟩) rfl

lemma Holds.step_of_target (e : Image) (call : FuncId → List Value → Exec Value) {c : BlockId}
    (hc : (f.instr i).target? (s.eval args) = some c) :
    e.step call f args regs i m = .ok (.jump c) m := by
  cases hk : f.instr i with
  | branch cond t e' =>
    rw [hk] at hc
    obtain ⟨x, hx, hc⟩ := Option.bind_eq_some_iff.mp hc
    obtain ⟨taken, htaken, hc⟩ := Option.bind_eq_some_iff.mp hc
    obtain rfl := Option.some.inj hc
    simp only [step, hk, h.eval e hx, pure_bind, toOption_eq_some.mp htaken]
    rfl
  | jump t =>
    rw [hk] at hc
    obtain rfl : t = some c := hc
    simp only [step, hk]
    rfl
  | _ =>
    rw [hk] at hc
    cases hc

lemma Holds.step_of_result (e : Image) (call : FuncId → List Value → Exec Value)
    (hv : (f.instr i).result? (s.eval args) = some v) :
    e.step call f args regs i m = .ok (.ret v) m := by
  cases hk : f.instr i with
  | ret u =>
    rw [hk] at hv
    cases u with
    | none =>
      obtain rfl := Option.some.inj hv
      simp only [step, hk]
      rfl
    | some u =>
      simp only [step, hk, h.eval e (show s.eval args u = some v from hv), pure_bind]
      rfl
  | _ =>
    rw [hk] at hv
    cases hv

lemma Holds.evalPhis (e : Image) (c : BlockId)
    (his : ∀ j ∈ is, (s.incoming f args b j).isSome) :
    ∃ values, e.evalPhis f args regs c (some b) is = pure values ∧ values.map Prod.fst = is ∧
      ∀ p ∈ values, s.incoming f args b p.1 = some p.2 := by
  induction is with
  | nil => exact ⟨[], rfl, rfl, nofun⟩
  | cons i is ih =>
    obtain ⟨values, hvals, hkeys, hincoming⟩ := ih fun j hj => his j (.tail i hj)
    obtain ⟨x, hx⟩ := Option.isSome_iff_exists.mp (his i (.head _))
    obtain ⟨v, hv, hvx⟩ := Option.bind_eq_some_iff.mp hx
    refine ⟨(i, x) :: values, ?_, by rw [map_cons, hkeys], ?_⟩
    · rw [evalPhis_cons, hv]
      simp only [h.eval e hvx, hvals, pure_bind]
    · grind

end

lemma Runs.runFrom (he : ∀ k < n, e.globals[k]? = some k) (hcall : CallSound e n call calls)
    {fuel : Nat} {o : Outcome}
    (h : Runs e.program calls f args b is s fuel o) (hs : Holds n f m₀ regs m s)
    (hphis : ∀ i ∈ is, (f.instr i).isPhi = false) (hlim : Allows e m o.steps) :
    ∃ regs' m' s', e.runFrom call f args fuel b regs is m = .ok o.value m' ∧
      Holds n f m₀ regs' m' s' ∧ s'.world = o.world ∧ m'.steps = m.steps + o.steps := by
  induction h generalizing regs m with
  | @next b i is s t k fuel o hstep _ ih =>
    have hsteps : (o.after (k + 1)).steps = o.steps + (k + 1) := rfl
    obtain ⟨regs₁, m₁, hm₁, hs₁, hsteps₁⟩ := hs.tick.step_of_advances he hcall hstep
      fun h0 => by have := hlim h0; simp only at this ⊢; omega
    simp only at hsteps₁
    obtain ⟨regs', m', s', hm', hs', hworld, hsteps'⟩ := ih hs₁
      (fun j hj => hphis j (.tail i hj)) fun h0 => by have := hlim h0; omega
    refine ⟨regs', m', s', ?_, hs', hworld, by omega⟩
    rw [runFrom_step _ _ _ _ _ _ _ (hphis i (.head _))]
    refine bind_eq_ok (tick_eq_ok_iff.mpr ⟨fun h0 => ?_, rfl⟩) (bind_eq_ok hm₁ hm')
    have := hlim h0
    omega
  | @jump b c i is s fuel o htgt hc hincoming _ ih =>
    have hsteps : (o.after 1).steps = o.steps + 1 := rfl
    obtain ⟨values, hvals, hkeys, hval⟩ := hs.tick.evalPhis e c hincoming
    obtain ⟨regs', m', s', hm', hs', hworld, hsteps'⟩ := ih (hs.tick.enter hkeys hval)
      (fun j hj => by simpa using (mem_filter.mp hj).2) fun h0 => by
        have := hlim h0; simp only at this ⊢; omega
    simp only at hsteps'
    refine ⟨regs', m', s', ?_, hs', hworld, by omega⟩
    rw [runFrom_step _ _ _ _ _ _ _ (hphis i (.head _))]
    refine bind_eq_ok (tick_eq_ok_iff.mpr ⟨fun h0 => ?_, rfl⟩)
      (bind_eq_ok (hs.tick.step_of_target e call htgt) ?_)
    · have := hlim h0
      omega
    · dsimp only
      rw [runBlocks_succ _ _ _ _ _ _ hc, hvals, pure_bind, runFrom_filter]
      exact hm'
  | @ret b i is s fuel v hv =>
    refine ⟨regs, _, s, ?_, hs.tick, rfl, rfl⟩
    rw [runFrom_step _ _ _ _ _ _ _ (hphis i (.head _))]
    exact bind_eq_ok (tick_eq_ok_iff.mpr ⟨hlim, rfl⟩)
      (bind_eq_ok (hs.tick.step_of_result e call hv) rfl)

end Local

/-! ## Calls -/

namespace Image

variable {e : Image} {callee : FuncId} {args : List Value} {depth : Nat} {m m' : Machine} {v : Value}

lemma call_eq_ok_iff : e.call depth callee args m = .ok v m' ↔
    e.program.hasFunc callee ∧ (e.program.func callee).deleted = false ∧
      args.length = (e.program.func callee).params.size ∧
      ((e.program.func callee).external → ∃ b,
        Builtin.ofName? (e.program.func callee).name = some b ∧ Exec.builtin b args m = .ok v m') ∧
      ((e.program.func callee).external = false → ∃ d, depth = d + 1 ∧
        (e.program.func callee).hasBlock ⟨0⟩ ∧
        Exec.withFrame (e.runBlocks (e.call d) (e.program.func callee) args e.fuel none ⟨0⟩ ∅) m =
          .ok v m') := by
  unfold call
  dsimp only
  cases e.program.hasFunc callee with
  | false =>
    refine ⟨fun h => ?_, fun h => by cases h.1⟩
    obtain ⟨a, t, ha, -⟩ := Exec.bind_ok h
    exact absurd ha Exec.throw_ne_ok
  | true =>
    cases (e.program.func callee).deleted with
    | true =>
      refine ⟨fun h => ?_, fun h => by cases h.2.1⟩
      obtain ⟨a, t, ha, -⟩ := Exec.bind_ok h
      exact absurd ha Exec.throw_ne_ok
    | false =>
      by_cases hargs : args.length ≠ (e.program.func callee).params.size
      · simp only [if_pos hargs]
        refine ⟨fun h => ?_, fun h => absurd h.2.2.1 hargs⟩
        obtain ⟨a, t, ha, -⟩ := Exec.bind_ok h
        exact absurd ha Exec.throw_ne_ok
      · simp only [not_not.mp hargs, true_and]
        cases (e.program.func callee).external with
        | true =>
          cases Builtin.ofName? (e.program.func callee).name with
          | none => simpa using Exec.fail_ne_ok
          | some b => simp
        | false =>
          cases depth with
          | zero => simpa using Exec.fail_ne_ok
          | succ d =>
            rw [Func.entry_eq]
            cases (e.program.func callee).hasBlock ⟨0⟩ with
            | false => simpa using Exec.fail_ne_ok
            | true => simp

end Image

lemma Exec.withFrame_eq_ok_iff {α : Type} {x : Exec α} {m m' : Machine} {a : α} :
    withFrame x m = .ok a m' ↔
      ∃ t, x m = .ok a t ∧ m' = { t with memory := t.memory.release m.memory.size } := by
  unfold withFrame
  cases x m with
  | ok b t => simp [eq_comm]
  | error e t => simp

namespace Local

variable {e : Image} {n fuel : Nat}

lemma callSound (he : ∀ k < n, e.globals[k]? = some k) (hfuel : e.fuel = fuel + 1) (depth : Nat) :
    CallSound e n (e.call depth) (Calls e.program fuel depth) := by
  induction depth using Nat.strongRecOn with
  | ind depth ih =>
    intro callee args room o m hglob hroom hlim ho
    obtain ⟨hfunc, hlive, hargs, hbuiltin, hdef⟩ := calls_iff.mp ho
    cases hext : (e.program.func callee).external with
    | true =>
      obtain ⟨b, hb, hscalar, hsteps, hrun⟩ := hbuiltin hext
      obtain ⟨m', hm', hworld⟩ := (run_world_iff (.builtin hscalar args)).mp hrun
      obtain ⟨hmemory, hsteps'⟩ := (Worldly.builtin hscalar args).kept hm'
      refine ⟨m', call_eq_ok_iff.mpr ⟨hfunc, hlive, hargs, fun _ => ⟨b, hb, hm'⟩,
        fun h => by simp [hext] at h⟩, .of_memory_eq hmemory, hworld.symm, by rw [hsteps', hsteps]; rfl⟩
    | false =>
      obtain ⟨d, rfl, hblk, hphis, hrun⟩ := hdef hext
      obtain ⟨regs', m', s', hm', hs', hworld, hsteps⟩ := hrun.runFrom he (ih d (Nat.lt_succ_self d))
        (.init hglob hroom) (fun j hj => by simpa using (mem_filter.mp hj).2) hlim
      obtain ⟨hkept, hreleased⟩ := hs'.release
      refine ⟨{ m' with memory := m'.memory.release m.memory.size }, ?_, hkept,
        hreleased.trans hworld, hsteps⟩
      refine call_eq_ok_iff.mpr ⟨hfunc, hlive, hargs, fun h => by simp [hext] at h,
        fun _ => ⟨d, rfl, hblk, withFrame_eq_ok_iff.mpr ⟨m', ?_, rfl⟩⟩⟩
      rw [hfuel, runBlocks_entry _ _ _ _ _ hblk hphis]
      exact hm'

/-! ## Evaluation -/

section Evaluation

variable (p : Program) (calls : FuncId → List Value → World → Nat → Option Outcome) (f : Func)
  (args : List Value)

variable {o : Outcome}

/-- Executes an instruction that leads to the next one and prints nothing. -/
def advance? (i : InstId) (ty : Ty) (s : State) : Instr → Option (Nat × State)
  | .alloc t => if t.cells = 1 ∧ (s.slots i).isNone ∧ 0 < s.room then some (0, s.reserve i t) else none
  | .store value ptr => do
    let v ← s.eval args value
    if (s.read ptr).isSome then some (0, s.write ptr v) else none
  | .load ptr => do
    let v ← s.read ptr
    if v.readAs ty = v then some (0, s.yield i v s.world) else none
  | .call callee ops none => do
    let o ← calls callee (← ops.mapM (s.eval args)) s.world s.room
    return (o.steps, s.yield i o.value o.world)
  | k => (k.compute? ty (s.eval args)).map fun v => (0, s.yield i v s.world)

def exec? : Nat → BlockId → List InstId → State → Option Outcome
  | n + 1, b, i :: is, s =>
    match (f.instr i).result? (s.eval args), (f.instr i).target? (s.eval args) with
    | some v, _ => some ⟨v, s.world, 1⟩
    | none, some c =>
      if f.hasBlock c ∧ ∀ j ∈ f.phis c, (s.incoming f args b j).isSome then
        (exec? n c (f.body c) (s.enter f args b c)).map (·.after 1)
      else none
    | none, none => do
      let (m, t) ← advance? calls args i (f.inst i).ty s (f.instr i)
      return (← exec? n b is t).after (m + 1)
  | _, _, _, _ => none

/-- Calls a function, each call for at most `n` instructions. -/
def call? (n : Nat) : Nat → FuncId → List Value → World → Nat → Option Outcome
  | depth + 1, callee, args, w, room =>
    if p.hasFunc callee ∧ (p.func callee).isDefined ∧ args.length = (p.func callee).params.size ∧
      (p.func callee).hasBlock ⟨0⟩ ∧ (p.func callee).phis ⟨0⟩ = [] then
      exec? (call? n depth) (p.func callee) args n ⟨0⟩ ((p.func callee).body ⟨0⟩) (.init w room)
    else none
  | 0, _, _, _, _ => none

variable {p calls f args} {sem : CallSem}

lemma advances_of_advance? (hcalls : ∀ callee vs w room o, calls callee vs w room = some o →
      sem callee vs w room o) {i : InstId} {ty : Ty} {s t : State} {k : Instr} {m : Nat}
    (h : advance? calls args i ty s k = some (m, t)) : Advances p sem args i ty s k m t := by
  cases k with
  | alloc t' =>
    obtain ⟨⟨hcells, hnone, hroom⟩, rfl, rfl⟩ := by simpa [advance?] using h
    exact .alloc hcells hnone hroom
  | store value ptr =>
    obtain ⟨v, hv, hsome, rfl, rfl⟩ := by simpa [advance?, Option.bind_eq_some_iff] using h
    exact .store hv hsome
  | load ptr =>
    obtain ⟨v, hv, hread, rfl, rfl⟩ := by simpa [advance?, Option.bind_eq_some_iff] using h
    exact .yield (.load hv hread)
  | call callee ops format =>
    cases format with
    | some str => simp [advance?, Instr.compute?] at h
    | none =>
      obtain ⟨vs, hvs, o, ho, rfl, rfl⟩ := by simpa [advance?, Option.bind_eq_some_iff] using h
      exact .yield (.call hvs (hcalls _ _ _ _ _ ho))
  | _ =>
    obtain ⟨v, hv, rfl, rfl⟩ := by simpa [advance?] using h
    exact .yield (.compute hv)

lemma runs_of_exec? (hcalls : ∀ callee vs w room o, calls callee vs w room = some o →
      sem callee vs w room o) {b : BlockId} {is : List InstId} {s : State}
    (h : exec? calls f args n b is s = some o) (hfuel : n ≤ fuel) :
    Runs p sem f args b is s fuel o := by
  induction n generalizing b is s o fuel with
  | zero => cases h
  | succ n ih =>
    cases is with
    | nil => cases h
    | cons i is =>
      rw [exec?] at h
      split at h
      · next hv =>
        obtain rfl := Option.some.inj h
        exact .ret hv
      · next c _ htgt =>
        split at h
        · next hc =>
          obtain ⟨o, ho, rfl⟩ := Option.map_eq_some_iff.mp h
          obtain ⟨fuel, rfl⟩ := Nat.exists_eq_add_one.mpr (Nat.lt_of_lt_of_le n.succ_pos hfuel)
          exact .jump htgt hc.1 hc.2 (ih ho (Nat.le_of_succ_le_succ hfuel))
        · cases h
      · obtain ⟨m, t, ht, o, ho, rfl⟩ := by simpa [Option.bind_eq_some_iff] using h
        exact .next (advances_of_advance? hcalls ht) (ih ho (Nat.le_of_succ_le hfuel))

lemma calls_of_call? {depth : Nat} {callee : FuncId} {w : World} {room : Nat}
    (h : call? p n depth callee args w room = some o) : Calls p n depth callee args w room o := by
  induction depth generalizing callee args w room o with
  | zero => cases h
  | succ depth ih =>
    rw [call?] at h
    split at h
    · next hc =>
      obtain ⟨hfunc, hdef, hargs, hblk, hphis⟩ := hc
      obtain ⟨hext, hlive⟩ := by simpa [Func.isDefined] using hdef
      refine calls_iff.mpr ⟨hfunc, hlive, hargs, fun h => by simp [hext] at h, fun _ =>
        ⟨depth, rfl, hblk, hphis, runs_of_exec? (fun _ _ _ _ _ => ih) h (Nat.le_refl n)⟩⟩
    · cases h

lemma exists_run_of_call? {id : FuncId} {m : Machine} {room : Nat}
    {v : Value} (steps : Nat) (hfind : e.program.findFunc? name = some id) (hfuel : e.fuel = fuel + 1)
    (hroom : m.memory.size + room = m.memory.limit) (hsteps : Allows e m steps)
    (h : (call? e.program fuel e.limits.depth id args (world 0 m) room).map
      (fun o => (o.value, o.steps)) = some (v, steps)) : ∃ t, e.run name args m = .ok v t := by
  obtain ⟨o, ho, heq⟩ := Option.map_eq_some_iff.mp h
  obtain ⟨rfl, rfl⟩ := Prod.mk.inj heq
  obtain ⟨t, ht, -⟩ := callSound (fun k hk => absurd hk (Nat.not_lt_zero k)) hfuel _ id args
    room o m (Nat.zero_le _) hroom hsteps (calls_of_call? ho)
  refine ⟨t, ?_⟩
  rw [Image.run, hfind]
  exact ht

end Evaluation

end Local

end MiddleEnd
