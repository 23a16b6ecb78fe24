import MiddleEnd.Proofs.Machine.Reduction
import MiddleEnd.Proofs.Placement

/-!
# Runs without addresses

If a program reaches memory only through the names of its globals and of the slots of the call in
progress, addresses can be left out of its runs.  This module defines such runs.  A call sees the
contents of globals, and of its own slots, by name.  It consumes three resources: nested calls, cells
for slots, and jumps.  The number of instructions is a result.

A slot is there from its allocation to the next time control comes back to the entry, and a load
yields a value of the type that it asks for.  A run that does otherwise has no outcome here.

The order on call semantics, `CallSem.RefinedBy`, compares outcomes under the same resources: the same
value and the same world, in no more steps.
-/

namespace MiddleEnd

open Option Function Program Nat

/-! ## Operations -/

lemma toOption_eq_some {ε α : Type} {x : Except ε α} {a : α} : x.toOption = some a ↔ x = .ok a := by
  cases x <;> simp [Except.toOption]

/-- The result of an operation that only computes. -/
def Instr.compute? (k : Instr) (ty : Ty) (eval : Operand → Option Value) : Option Value :=
  match k with
  | .binary op l r => do (op.apply "" (← eval l) (← eval r)).toOption
  | .icmp c l r => do (c.applyInt (← eval l) (← eval r)).toOption
  | .fcmp c l r => do (c.applyFloat (← eval l) (← eval r)).toOption
  | .cast op v => do (op.apply (← eval v) ty).toOption
  | _ => none

def Instr.target? (k : Instr) (eval : Operand → Option Value) : Option BlockId :=
  match k with
  | .branch c t e => do return if ← ((← eval c).asBool "br").toOption then t else e
  | .jump t => t
  | _ => none

def Instr.result? (k : Instr) (eval : Operand → Option Value) : Option Value :=
  match k with
  | .ret none => some .void
  | .ret (some v) => eval v
  | _ => none

/-- The instructions of a block without its phis. -/
def Func.body (f : Func) (b : BlockId) : List InstId :=
  (f.instsOf b).filter fun i => !(f.instr i).isPhi

section Renamed

variable {k : Instr} {eval eval' : Operand → Option Value} {ρ : Operand → Operand} {v : Value}
  (h : ∀ u ∈ k.operands, ∀ x, eval u = some x → eval' (ρ u) = some x)

include h

lemma Instr.compute?_mapOperands {ty : Ty} (hv : k.compute? ty eval = some v) :
    (k.mapOperands ρ).compute? ty eval' = some v := by
  cases k with
  | binary op l r | icmp c l r | fcmp c l r =>
    obtain ⟨x, hx, hv⟩ := bind_eq_some_iff.mp hv
    obtain ⟨y, hy, hv⟩ := bind_eq_some_iff.mp hv
    refine bind_eq_some_iff.mpr ⟨x, h l (by simp [operands]) x hx, ?_⟩
    exact bind_eq_some_iff.mpr ⟨y, h r (by simp [operands]) y hy, hv⟩
  | cast op u =>
    obtain ⟨x, hx, hv⟩ := bind_eq_some_iff.mp hv
    exact bind_eq_some_iff.mpr ⟨x, h u (by simp [operands]) x hx, hv⟩
  | _ => cases hv

lemma Instr.target?_mapOperands {b : BlockId} (hb : k.target? eval = some b) :
    (k.mapOperands ρ).target? eval' = some b := by
  cases k with
  | branch c t e =>
    obtain ⟨x, hx, hb⟩ := bind_eq_some_iff.mp hb
    exact bind_eq_some_iff.mpr ⟨x, h c (by simp [operands]) x hx, hb⟩
  | jump t => exact hb
  | _ => cases hb

lemma Instr.result?_mapOperands (hv : k.result? eval = some v) :
    (k.mapOperands ρ).result? eval' = some v := by
  cases k with
  | ret u =>
    cases u with
    | none => exact hv
    | some u => exact h u (by simp [operands]) v hv
  | _ => cases hv

end Renamed

lemma mapM_eval_map {eval eval' : Operand → Option Value} {ρ : Operand → Operand}
    {ops : List Operand} (h : ∀ u ∈ ops, ∀ x, eval u = some x → eval' (ρ u) = some x)
    {vs : List Value} (hvs : ops.mapM eval = some vs) : (ops.map ρ).mapM eval' = some vs := by
  induction ops generalizing vs with
  | nil => exact hvs
  | cons u ops ih =>
    rw [List.mapM_cons] at hvs
    obtain ⟨x, hx, hvs⟩ := bind_eq_some_iff.mp hvs
    obtain ⟨xs, hxs, hvs⟩ := bind_eq_some_iff.mp hvs
    rw [List.map_cons, List.mapM_cons]
    refine bind_eq_some_iff.mpr ⟨x, h u (.head _) x hx, ?_⟩
    exact bind_eq_some_iff.mpr ⟨xs, ih (fun u' hu' => h u' (.tail u hu')) hxs, hvs⟩

namespace Local

variable {k : Instr} {n : Nat} {s t : State} {ty : Ty} {w : World} {ρ : Operand → Operand}
  {a : InstId} {v : Value} {p q : Program} {calls calls' : CallSem} {f g : Func}
  {args args' : List Value}

/-! ## States -/

structure World where
  globals : GlobalId → Option Value
  input : Input
  output : String

/-- Runs an action that does not look at memory. -/
def World.run {α : Type} (w : World) (x : Exec α) : Option (α × World) :=
  match x { memory := { limit := 0 }, input := w.input, output := w.output } with
  | .ok a t => some (a, { w with input := t.input, output := t.output })
  | .error _ _ => none

structure State where
  regs : InstId → Option Value
  slots : InstId → Option Value
  world : World
  /-- The number of cells that can still be reserved. -/
  room : Nat

structure Outcome where
  value : Value
  world : World
  /-- The number of instructions executed, those of nested calls included. -/
  steps : Nat

def Outcome.after (o : Outcome) (n : Nat) : Outcome :=
  { o with steps := o.steps + n }

/-- The outcomes of a call of a function with arguments, in a world and with room for slots. -/
abbrev CallSem := FuncId → List Value → World → Nat → Outcome → Prop

namespace State

def init (w : World) (room : Nat) : State :=
  { regs := fun _ => none, slots := fun _ => none, world := w, room }

/-- The value of an operand that is not an address. -/
def eval (s : State) (args : List Value) : Operand → Option Value
  | .inst i => s.regs i
  | .arg n => args[n]?
  | .const c => some (.ofConstant c)
  | .global _ => none

/-- The content of the slot or the global that a pointer names. -/
def read (s : State) : Operand → Option Value
  | .inst a => s.slots a
  | .global g => s.world.globals g
  | _ => none

def setSlot (s : State) (a : InstId) (v : Value) : State :=
  { s with slots := update s.slots a (some v) }

def setGlobal (s : State) (g : GlobalId) (v : Value) : State :=
  { s with world := { s.world with globals := update s.world.globals g (some v) } }

/-- Changes the content of the slot or the global that a pointer names. -/
def write (s : State) (ptr : Operand) (v : Value) : State :=
  match ptr with
  | .inst a => s.setSlot a v
  | .global g => s.setGlobal g v
  | _ => s

lemma room_write (s : State) (ptr : Operand) (v : Value) : (s.write ptr v).room = s.room := by
  cases ptr <;> rfl

lemma isSome_slots_write (h : (s.slots a).isSome) (ptr : Operand)
    (v : Value) : ((s.write ptr v).slots a).isSome := by
  cases ptr with
  | inst i =>
    by_cases hai : a = i
    · simp [write, setSlot, hai]
    · simpa [write, setSlot, hai] using h
  | _ => exact h

/-- The result of an instruction that leaves the world `w`. -/
def yield (s : State) (i : InstId) (v : Value) (w : World) : State :=
  { s with regs := update s.regs i (some v), world := w }

def reserve (s : State) (i : InstId) (t : Ty) : State :=
  { s.setSlot i (.initial t) with room := s.room - 1 }

/-- The value that a phi takes when control comes from `p`. -/
def incoming (s : State) (f : Func) (args : List Value) (p : BlockId) (i : InstId) : Option Value :=
  ((f.instr i).operandFrom? (some p)).bind (s.eval args)

def enter (s : State) (f : Func) (args : List Value) (p b : BlockId) : State :=
  { s with
    regs := fun i => if i ∈ f.phis b then s.incoming f args p i else s.regs i
    slots := if b = ⟨0⟩ then fun _ => none else s.slots }

end State

/-! ## Instructions -/

/-- An operation of type `ty` yields a value and a world.  Nested calls take `n` steps. -/
inductive Yields (p : Program) (calls : CallSem) (args : List Value) (ty : Ty) (s : State) :
    Instr → Nat → Value → World → Prop
  | compute {k : Instr} {v : Value} : k.compute? ty (s.eval args) = some v →
    Yields p calls args ty s k 0 v s.world
  | load {ptr : Operand} {v : Value} : s.read ptr = some v → v.readAs ty = v →
    Yields p calls args ty s (.load ptr) 0 v s.world
  | call {callee : FuncId} {ops : List Operand} {vs : List Value} {o : Outcome} :
    ops.mapM (s.eval args) = some vs → calls callee vs s.world s.room o →
    Yields p calls args ty s (.call callee ops none) o.steps o.value o.world
  | print {callee : FuncId} {ops : List Operand} {vs : List Value} {str : StrId} {w : World} :
    ops.mapM (s.eval args) = some vs → p.hasString str →
    s.world.run (.printFormatted (p.string str) vs) = some ((), w) →
    Yields p calls args ty s (.call callee ops (some str)) 0 .void w

/-- The operation of the instruction `i` leads to the next instruction. -/
inductive Advances (p : Program) (calls : CallSem) (args : List Value) (i : InstId) (ty : Ty)
    (s : State) : Instr → Nat → State → Prop
  | yield {k : Instr} {n : Nat} {v : Value} {w : World} : Yields p calls args ty s k n v w →
    Advances p calls args i ty s k n (s.yield i v w)
  | alloc {t : Ty} : t.cells = 1 → s.slots i = none → 0 < s.room →
    Advances p calls args i ty s (.alloc t) 0 (s.reserve i t)
  | store {value ptr : Operand} {v : Value} : s.eval args value = some v →
    (s.read ptr).isSome → Advances p calls args i ty s (.store value ptr) 0 (s.write ptr v)

lemma Advances.isSome_slots {i : InstId} (h : Advances p calls args i ty s k n t)
    (ha : (s.slots a).isSome) : (t.slots a).isSome := by
  cases h with
  | yield => exact ha
  | @alloc t => exact State.isSome_slots_write ha (.inst i) (.initial t)
  | @store _ ptr v => exact State.isSome_slots_write ha ptr v

/-- The function `f` returns, from the instructions of the block `b` that are left and with a number
of jumps. -/
inductive Runs (p : Program) (calls : CallSem) (f : Func) (args : List Value) :
    BlockId → List InstId → State → Nat → Outcome → Prop
  | next {b : BlockId} {i : InstId} {is : List InstId} {s t : State} {n fuel : Nat} {o : Outcome} :
    Advances p calls args i (f.inst i).ty s (f.instr i) n t → Runs p calls f args b is t fuel o →
    Runs p calls f args b (i :: is) s fuel (o.after (n + 1))
  | jump {b c : BlockId} {i : InstId} {is : List InstId} {s : State} {fuel : Nat} {o : Outcome} :
    (f.instr i).target? (s.eval args) = some c → f.hasBlock c →
    (∀ j ∈ f.phis c, (s.incoming f args b j).isSome) →
    Runs p calls f args c (f.body c) (s.enter f args b c) fuel o →
    Runs p calls f args b (i :: is) s (fuel + 1) (o.after 1)
  | ret {b : BlockId} {i : InstId} {is : List InstId} {s : State} {fuel : Nat} {v : Value} :
    (f.instr i).result? (s.eval args) = some v →
    Runs p calls f args b (i :: is) s fuel ⟨v, s.world, 1⟩

/-! ## Calls -/

def Returns (p : Program) (calls : CallSem) (fuel : Nat) (f : Func) (args : List Value) (w : World)
    (room : Nat) (o : Outcome) : Prop :=
  f.hasBlock ⟨0⟩ = true ∧ f.phis ⟨0⟩ = [] ∧
    Runs p calls f args ⟨0⟩ (f.body ⟨0⟩) (.init w room) fuel o

def Answers (f : Func) (args : List Value) (w : World) (o : Outcome) : Prop :=
  ∃ b, Builtin.ofName? f.name = some b ∧ b.isScalar ∧ o.steps = 0 ∧
    w.run (.builtin b args) = some (o.value, o.world)

/-- The outcomes of calls while at most `depth` of them are nested and each of them makes at most
`fuel` jumps. -/
def Calls (p : Program) (fuel : Nat) : Nat → CallSem
  | depth, callee, args, w, room, o =>
    p.hasFunc callee ∧ (p.func callee).deleted = false ∧
      args.length = (p.func callee).params.size ∧
      if (p.func callee).external then Answers (p.func callee) args w o
      else match depth with
        | 0 => False
        | depth + 1 => Returns p (Calls p fuel depth) fuel (p.func callee) args w room o

lemma calls_iff {fuel depth : Nat} {callee : FuncId} {room : Nat} {o : Outcome} :
    Calls p fuel depth callee args w room o ↔ p.hasFunc callee ∧
      (p.func callee).deleted = false ∧ args.length = (p.func callee).params.size ∧
      ((p.func callee).external → Answers (p.func callee) args w o) ∧
      ((p.func callee).external = false → ∃ d, depth = d + 1 ∧
        Returns p (Calls p fuel d) fuel (p.func callee) args w room o) := by
  cases depth with
  | zero | succ d => cases hext : (p.func callee).external <;> simp [Calls, hext]

/-! ## Order -/

/-- With at least as much room there is the same outcome, in no more steps. -/
def CallSem.RefinedBy (calls calls' : CallSem) : Prop :=
  ∀ callee args w room o, calls callee args w room o → ∀ room', room ≤ room' →
    ∃ n ≤ o.steps, calls' callee args w room' { o with steps := n }

lemma CallSem.RefinedBy.trans {calls'' : CallSem} (h : calls.RefinedBy calls')
    (h' : calls'.RefinedBy calls'') : calls.RefinedBy calls'' := by
  intro callee args w room o ho room' hroom
  obtain ⟨n, hn, ho⟩ := h callee args w room o ho room' hroom
  obtain ⟨n', hn', ho⟩ := h' callee args w room' _ ho room' (le_refl _)
  exact ⟨n', le_trans hn' hn, ho⟩

/-- An operation with other names for its operands yields the same, if these have the same values.  The
steps of nested calls are related as those of the calls. -/
lemma Yields.rename {R : Nat → Nat → Prop} (hzero : R 0 0) (hstrs : q.strings = p.strings)
    (hworld : t.world = s.world)
    (heval : ∀ u ∈ k.operands, ∀ x, s.eval args u = some x → t.eval args' (ρ u) = some x)
    (hread : ∀ u ∈ k.operands, ∀ x, s.read u = some x → t.read (ρ u) = some x)
    (h : Yields p calls args ty s k n v w)
    (hcalls : ∀ callee vs o, o.steps = n → calls callee vs s.world s.room o →
      ∃ m, R n m ∧ calls' callee vs s.world t.room { o with steps := m }) :
    ∃ m, R n m ∧ Yields q calls' args' ty t (k.mapOperands ρ) m v w := by
  cases h with
  | compute hv =>
    rw [← hworld]
    exact ⟨0, hzero, .compute (Instr.compute?_mapOperands heval hv)⟩
  | load hv hty =>
    rw [← hworld]
    exact ⟨0, hzero, .load (hread _ (.head _) v hv) hty⟩
  | @call callee ops vs o hvs ho =>
    obtain ⟨m, hm, ho⟩ := hcalls callee vs o rfl ho
    rw [← hworld] at ho
    exact ⟨m, hm, .call (mapM_eval_map heval hvs) ho⟩
  | @print callee ops vs str _ hvs hstr hw =>
    refine ⟨0, hzero, .print (mapM_eval_map heval hvs) ?_ ?_⟩
    · rwa [hasString, hstrs]
    · rwa [hworld, string, hstrs]

lemma Yields.mapOperands (hcalls : calls.RefinedBy calls') (hstrs : q.strings = p.strings)
    (hworld : t.world = s.world) (hroom : s.room ≤ t.room)
    (heval : ∀ u ∈ k.operands, ∀ x, s.eval args u = some x → t.eval args' (ρ u) = some x)
    (hread : ∀ u ∈ k.operands, ∀ x, s.read u = some x → t.read (ρ u) = some x)
    (h : Yields p calls args ty s k n v w) :
    ∃ n' ≤ n, Yields q calls' args' ty t (k.mapOperands ρ) n' v w := by
  refine Yields.rename (R := fun n m => m ≤ n) (le_refl 0) hstrs hworld heval hread h ?_
  rintro callee vs o rfl ho
  exact hcalls callee vs s.world s.room o ho t.room hroom

/-- Whatever `f` returns, `g` returns as well, if calls do, with at least as much room and in no more
steps. -/
def SimulatedBy (f g : Func) : Prop :=
  ∀ p q calls calls', q.strings = p.strings → calls.RefinedBy calls' → ∀ fuel args w room o,
    Returns p calls fuel f args w room o → ∀ room', room ≤ room' →
      ∃ n ≤ o.steps, Returns q calls' fuel g args w room' { o with steps := n }

lemma calls_refinedBy (hstrs : q.strings = p.strings) (hsize : q.funcs.size = p.funcs.size)
    (hhead : ∀ id, (p.func id).SameHead (q.func id))
    (hbody : ∀ id, (p.func id).external = false → SimulatedBy (p.func id) (q.func id))
    (fuel depth : Nat) : CallSem.RefinedBy (Calls p fuel depth) (Calls q fuel depth) := by
  induction depth using Nat.strongRecOn with
  | ind depth ih =>
    intro callee args w room o h room' hroom
    have head := hhead callee
    obtain ⟨hfunc, hlive, hargs, hbuiltin, hdef⟩ := calls_iff.mp h
    have hfunc' : q.hasFunc callee := by rwa [hasFunc, hsize]
    have hlive' := head.deleted.trans hlive
    have hargs' : args.length = (q.func callee).params.size := by rw [head.params_size, hargs]
    cases hext : (p.func callee).external with
    | true =>
      have hanswers : Answers (q.func callee) args w o := by
        rw [Answers, head.name]
        exact hbuiltin hext
      exact ⟨o.steps, le_refl _, calls_iff.mpr ⟨hfunc', hlive', hargs', fun _ => hanswers,
        fun h => by simp [head.external, hext] at h⟩⟩
    | false =>
      obtain ⟨d, rfl, hreturns⟩ := hdef hext
      obtain ⟨n, hn, hreturns'⟩ := hbody callee hext p q _ _ hstrs (ih d (lt_succ_self d)) fuel
        args w room o hreturns room' hroom
      exact ⟨n, hn, calls_iff.mpr ⟨hfunc', hlive', hargs', fun h => by simp [head.external, hext] at h,
        fun _ => ⟨d, rfl, hreturns'⟩⟩⟩

end Local

end MiddleEnd
