import MiddleEnd.Proofs.Machine.Loading
import MiddleEnd.Proofs.Machine.Refines
import MiddleEnd.Proofs.Program

/-!
# Functions that do the same in fewer steps

A function is reduced by leaving out instructions that nothing reads, by turning branches into jumps
if the other target is a block without instructions, and by dropping phi entries for blocks that
control does not come from.  Every successful run of the original function, with any calls nested in
it, is then a run of the reduced one that counts no more instructions.

The relation between the two runs is carried through the interpreter layer by layer: operands,
instructions, phis, blocks, calls.  It holds for a whole program in which each function is reduced.
-/

namespace MiddleEnd

open List Image Instr Program Exec

variable {i : InstId} {v : Operand}

/-- What can become of an operation, given the blocks that control gets to. -/
inductive Instr.ReducesTo (f : Func) (runs : BlockId → Prop) : Instr → Instr → Prop
  | same (k : Instr) : ReducesTo f runs k k
  | entries (es : List PhiEntry) (keep : BlockId → Bool) (hkeep : ∀ b, runs b → keep b) :
    ReducesTo f runs (.phi es) (.phi (es.filter fun e => keep e.block))
  | onFalse (c : Operand) (x y : BlockId) (hx : f.instsOf x = []) :
    ReducesTo f runs (.branch c x y) (.jump (some y))
  | onTrue (c : Operand) (x y : BlockId) (hy : f.instsOf y = []) :
    ReducesTo f runs (.branch c x y) (.jump (some x))

def Instr.isSilent : Instr → Bool
  | .alloc _ => false
  | k => !k.hasSideEffects

/-- The operand of a phi when control comes from `pred`. -/
def Instr.operandFrom? (k : Instr) (pred : Option BlockId) : Option Operand :=
  (k.entries.find? fun e => pred = some e.block).bind PhiEntry.value

lemma Instr.mem_operands_of_operandFrom? {k : Instr} {pred : Option BlockId}
    (h : k.operandFrom? pred = some v) : v ∈ k.operands := by
  obtain ⟨entry, hfind, hv⟩ := Option.bind_eq_some_iff.mp h
  have hmem := mem_of_find?_eq_some hfind
  cases k with
  | phi es => exact mem_filterMap.mpr ⟨entry, hmem, hv⟩
  | _ => simp [entries] at hmem

namespace Instr.ReducesTo

variable {f : Func} {runs : BlockId → Prop} {k k' : Instr}

lemma isPhi (h : ReducesTo f runs k k') : k'.isPhi = k.isPhi := by
  cases h <;> rfl

lemma operandFrom? (h : ReducesTo f runs k k') {pred : Option BlockId}
    (hpred : ∀ p, pred = some p → runs p) : k'.operandFrom? pred = k.operandFrom? pred := by
  cases h with
  | same => rfl
  | onFalse => rfl
  | onTrue => rfl
  | entries es keep hkeep =>
    simp only [Instr.operandFrom?, Instr.entries, List.find?_filter]
    congr 2
    funext entry
    cases hent : decide (pred = some entry.block) with
    | false => simp
    | true => simp [hkeep entry.block (hpred _ (of_decide_eq_true hent))]

end Instr.ReducesTo

/-- `g` is `f` reduced to the instructions `kept`; control only gets to the blocks `runs`, or to a
block without instructions, where it stops. -/
structure Func.Reduction (f g : Func) (runs : BlockId → Prop) (kept : InstId → Bool) : Prop where
  name : g.name = f.name
  external : g.external = f.external
  deleted : g.deleted = f.deleted
  params : g.params.map Param.ty = f.params.map Param.ty
  blocks : g.blocks.size = f.blocks.size
  ty : ∀ i, (g.inst i).ty = (f.inst i).ty
  entry : runs ⟨0⟩ ∨ f.instsOf ⟨0⟩ = []
  phis : ∀ b, runs b → g.phis b = (f.phis b).filter kept
  insts : ∀ b, runs b → g.instsOf b = (f.instsOf b).filter kept
  instr : ∀ b, runs b → ∀ i ∈ f.instsOf b, kept i →
    ReducesTo f runs (f.instr i) (g.instr i)
  operands : ∀ b, runs b → ∀ i ∈ f.instsOf b, kept i →
    ∀ j, .inst j ∈ (g.instr i).operands → kept j
  targets : ∀ b, runs b → ∀ i ∈ f.instsOf b, ∀ c ∈ (f.instr i).targets, runs c ∨ f.instsOf c = []
  dropped : ∀ b, runs b → ∀ i ∈ f.instsOf b, kept i = false → (f.instr i).isSilent

namespace Func.Reduction

lemma refl (f : Func) : f.Reduction f (fun _ => True) fun _ => true := by
  have hall (l : List InstId) : l.filter (fun _ => true) = l := filter_eq_self.mpr (by simp)
  constructor <;> simp [ReducesTo.same, hall]

variable {f g : Func} {runs : BlockId → Prop} {kept : InstId → Bool}

variable (h : f.Reduction g runs kept)
include h

lemma hasBlock (b : BlockId) : g.hasBlock b = f.hasBlock b := by
  rw [Func.hasBlock, Func.hasBlock, h.blocks]

lemma entry? : g.entry? = f.entry? := by
  unfold Func.entry?
  simp only [Array.isEmpty_iff_size_eq_zero, h.blocks]

lemma params_size : g.params.size = f.params.size := by
  simpa using congrArg Array.size h.params

lemma typeOf? (v : Operand) : g.typeOf? v = f.typeOf? v := by
  cases v with
  | inst i => simp only [Func.typeOf?, h.ty]
  | arg n =>
    have hparam := congrArg (fun tys : Array Ty => tys[n]?) h.params
    simpa [Func.typeOf?] using hparam
  | const c => rfl
  | global c => rfl

end Func.Reduction

/-- Two programs in memory, the second with reduced functions. -/
structure Image.Reduction (e e' : Image) : Prop where
  limits : e'.limits = e.limits
  addresses : e'.globals = e.globals
  globals : e'.program.globals = e.program.globals
  strings : e'.program.strings = e.program.strings
  funcs : e'.program.funcs.size = e.program.funcs.size
  func : ∀ id, ∃ runs kept, (e.program.func id).Reduction (e'.program.func id) runs kept

/-! ## Registers and operands -/

/-- The second registers hold what the first ones hold for the instructions that are kept. -/
def Registers.Agree (kept : InstId → Bool) (regs regs' : Registers) : Prop :=
  ∀ i, kept i → ∀ v, regs[i]? = some v → regs'[i]? = some v

namespace Registers.Agree

variable {kept : InstId → Bool} {regs regs' : Registers}

lemma insert (h : Agree kept regs regs') (i : InstId) (v : Value) :
    Agree kept (regs.insert i v) (regs'.insert i v) := by
  intro j hj w hw
  rw [Std.HashMap.getElem?_insert] at hw ⊢
  split
  · next hij => rwa [if_pos hij] at hw
  · next hij =>
    rw [if_neg hij] at hw
    exact h j hj w hw

lemma insert_dropped (h : Agree kept regs regs') (hi : kept i = false) (v : Value) :
    Agree kept (regs.insert i v) regs' := by
  intro j hj w hw
  have hij : (i == j) = false := by
    rw [beq_eq_false_iff_ne]
    rintro rfl
    rw [hi] at hj
    exact Bool.false_ne_true hj
  rw [Std.HashMap.getElem?_insert, hij] at hw
  exact h j hj w hw

lemma insertMany (h : Agree kept regs regs') (values : List (InstId × Value)) :
    Agree kept (regs.insertMany values) (regs'.insertMany (values.filter fun p => kept p.1)) := by
  induction values generalizing regs regs' with
  | nil => exact h
  | cons p values ih =>
    obtain ⟨i, v⟩ := p
    rw [Std.HashMap.insertMany_cons]
    cases hi : kept i with
    | true =>
      rw [filter_cons_of_pos (by exact hi), Std.HashMap.insertMany_cons]
      exact ih (h.insert i v)
    | false =>
      rw [filter_cons_of_neg (by simp [hi])]
      exact ih (h.insert_dropped hi v)

end Registers.Agree

namespace Image.Reduction

open Exec

variable {e e' : Image} {kept : InstId → Bool} {regs regs' : Registers}

lemma eval (he : e.Reduction e') (hregs : regs.Agree kept regs') (args : List Value)
    (hv : ∀ j, v = .inst j → kept j) :
    Refines Eq (e.eval args regs v) (e'.eval args regs' v) := by
  cases v with
  | inst j =>
    simp only [Image.eval]
    cases hj : regs[j]? with
    | none => exact .fail
    | some w =>
      rw [hregs j (hv j rfl) w hj]
      exact .pure rfl
  | arg n =>
    simp only [Image.eval]
    split
    · exact .pure rfl
    · exact .fail
  | const c => exact .pure rfl
  | global g =>
    simp only [Image.eval, he.addresses]
    split
    · exact .pure rfl
    · exact .stuck

lemma typeOf (he : e.Reduction e') {f g : Func} {runs : BlockId → Prop}
    (h : f.Reduction g runs kept) (v : Operand) :
    e'.program.typeOf g v = e.program.typeOf f v := by
  cases v with
  | global c => simp only [Program.typeOf, Program.global, he.globals]
  | _ => simp only [Program.typeOf, h.typeOf?]

end Image.Reduction

/-! ## Instructions -/

/-- What follows an instruction of `f` and the reduced one.  In a block without instructions the run
of `f` fails. -/
def Flow.Related (f : Func) (runs : BlockId → Prop) (kept : InstId → Bool) : Flow → Flow → Prop
  | .next regs, .next regs' => regs.Agree kept regs'
  | .jump t, .jump t' => (t' = t ∧ runs t) ∨ f.instsOf t = []
  | .ret v, .ret v' => v = v'
  | _, _ => False

/-- What follows a block of `f` and the reduced block. -/
def Leave.Related (f : Func) (runs : BlockId → Prop) (kept : InstId → Bool) :
    Leave → Leave → Prop
  | .jump t regs, .jump t' regs' =>
    Flow.Related f runs kept (.jump t) (.jump t') ∧ regs.Agree kept regs'
  | .ret v, .ret v' => v = v'
  | _, _ => False

lemma Image.evalPhis_cons (e : Image) (f : Func) (args : List Value) (regs : Registers)
    (b : BlockId) (pred : Option BlockId) (i : InstId) (is : List InstId) :
    e.evalPhis f args regs b pred (i :: is) =
      match (f.instr i).operandFrom? pred with
      | none => .fail (.noPhiEntry (f.block b).label)
      | some v => do return (i, ← e.eval args regs v) :: (← e.evalPhis f args regs b pred is) :=
  rfl

lemma Image.runInsts_phi (e : Image) (call : FuncId → List Value → Exec Value) {f : Func}
    (args : List Value) (b : BlockId) (regs : Registers) (is : List InstId)
    (hi : (f.instr i).isPhi) :
    e.runInsts call f args b regs (i :: is) = e.runInsts call f args b regs is :=
  if_pos hi

lemma Image.runInsts_step (e : Image) (call : FuncId → List Value → Exec Value) {f : Func}
    (args : List Value) (b : BlockId) (regs : Registers) (is : List InstId)
    (hi : (f.instr i).isPhi = false) :
    e.runInsts call f args b regs (i :: is) = (do
      .tick e.limits.instructions.toNat
      match ← e.step call f args regs i with
      | .next regs => e.runInsts call f args b regs is
      | .jump target => return .jump target regs
      | .ret v => return .ret v) :=
  if_neg (by simp [hi])

lemma Image.still_eval (e : Image) (args : List Value) (regs : Registers) (v : Operand) :
    Still (e.eval args regs v) fun _ => True := by
  cases v with
  | inst i | arg n =>
    simp only [eval]
    split
    · exact .pure trivial
    · exact .fail
  | const c => exact .pure trivial
  | global c =>
    simp only [eval]
    split
    · exact .pure trivial
    · exact .stuck

lemma Image.still_evalOffsets (e : Image) (args : List Value) (regs : Registers)
    (vs : List Operand) : Still (e.evalOffsets args regs vs) fun _ => True := by
  induction vs with
  | nil => exact .pure trivial
  | cons v vs ih =>
    exact (e.still_eval args regs v).bind fun _ _ => (Still.lift _).bind fun _ _ =>
      ih.bind fun _ _ => .pure trivial

lemma Image.still_step (e : Image) (call : FuncId → List Value → Exec Value) (f : Func)
    (args : List Value) (regs : Registers) (hi : (f.instr i).isSilent)
    (hphi : (f.instr i).isPhi = false) :
    Still (e.step call f args regs i) fun flow => ∃ v, flow = .next (regs.insert i v) := by
  have heval := e.still_eval args regs
  cases hk : f.instr i with
  | load ptr =>
    simp only [step, hk]
    exact (heval ptr).bind fun _ _ => (Still.lift _).bind fun _ _ =>
      (Still.load _).bind fun _ _ => .pure ⟨_, rfl⟩
  | element base offsets =>
    simp only [step, hk]
    exact (heval base).bind fun _ _ => (Still.lift _).bind fun _ _ =>
      (e.still_evalOffsets args regs offsets).bind fun _ _ =>
        (Still.lift _).bind fun _ _ => .pure ⟨_, rfl⟩
  | binary op lhs rhs | icmp c lhs rhs | fcmp c lhs rhs =>
    simp only [step, hk]
    exact (heval lhs).bind fun _ _ => (heval rhs).bind fun _ _ =>
      (Still.lift _).bind fun _ _ => .pure ⟨_, rfl⟩
  | cast op value =>
    simp only [step, hk]
    exact (heval value).bind fun _ _ => (Still.lift _).bind fun _ _ => .pure ⟨_, rfl⟩
  | phi es => simp [hk, isPhi] at hphi
  | _ => simp [hk, isSilent, hasSideEffects, isTerminator] at hi

namespace Image.Reduction

open Exec

section

variable {b : BlockId} {e e' : Image} {f g : Func} {runs : BlockId → Prop} {kept : InstId → Bool}
  {call call' : FuncId → List Value → Exec Value} {regs regs' : Registers}

lemma runBlocks_of_instsOf_eq_nil (e : Image) (hb : f.instsOf b = []) (args : List Value)
    (fuel : Nat) (pred : Option BlockId) (regs : Registers) {y : Exec Value} :
    Refines Eq (e.runBlocks call f args fuel pred b regs) y := by
  refine .of_error fun s v t h => ?_
  cases fuel with
  | zero => cases h
  | succ fuel =>
    obtain ⟨leave, u, hleave, -⟩ := bind_ok h
    rw [Image.runBlock, Func.phis, hb] at hleave
    cases hhas : f.hasBlock b with
    | false | true =>
      rw [hhas] at hleave
      cases hleave

variable (he : e.Reduction e') (h : f.Reduction g runs kept)
  (hcall : ∀ id vs, Refines Eq (call id vs) (call' id vs)) (hregs : regs.Agree kept regs')
  (args : List Value) {pred : Option BlockId} {is : List InstId}
include he h hregs

section

include hcall

lemma step_same (hsame : g.instr i = f.instr i)
    (hops : ∀ j, .inst j ∈ (f.instr i).operands → kept j)
    (hjump : ∀ t ∈ (f.instr i).targets, Flow.Related f runs kept (.jump t) (.jump t)) :
    Refines (Flow.Related f runs kept) (e.step call f args regs i)
      (e'.step call' g args regs' i) := by
  refine rel_step Refines.congruence
    (fun hx hk => hx.bind fun a _ ha => ha ▸ hk a) hsame h.name (h.ty i) (he.typeOf h) he.strings
    Refines.allocate (fun v hv => he.eval hregs args fun j hj => hops j (hj ▸ hv)) hcall
    (fun _ v => .pure (hregs.insert i v)) (fun _ _ _ => .pure hregs) (fun t ht => .pure (hjump t ht))
    (fun hk => ?_) (fun _ => .pure rfl) fun _ _ => .pure hregs
  simp only [step, hsame, hk]
  exact .fail

lemma step (hb : runs b) (hi : i ∈ f.instsOf b) (hkept : kept i) :
    Refines (Flow.Related f runs kept) (e.step call f args regs i)
      (e'.step call' g args regs' i) := by
  have hjump (t : BlockId) (ht : t ∈ (f.instr i).targets) :
      Flow.Related f runs kept (.jump t) (.jump t) := by
    rcases h.targets b hb i hi t ht with hruns | hempty
    · exact Or.inl ⟨rfl, hruns⟩
    · exact Or.inr hempty
  have hops := h.operands b hb i hi hkept
  have hred := h.instr b hb i hi hkept
  generalize hk : f.instr i = k at hred
  generalize hk' : g.instr i = k' at hred
  cases hred with
  | same =>
    have hsame := hk'.trans hk.symm
    exact he.step_same h hcall hregs args hsame (hsame ▸ hops) hjump
  | entries es keep hkeep =>
    simp only [Image.step, hk, hk']
    exact .pure hregs
  | onFalse c x y hx =>
    simp only [Image.step, hk, hk']
    refine .skip (e.still_eval args regs c) fun _ _ => .skip (Still.lift _) fun taken _ => .pure ?_
    cases taken with
    | true => exact Or.inr hx
    | false => exact hjump y (by simp [hk, targets])
  | onTrue c x y hy =>
    simp only [Image.step, hk, hk']
    refine .skip (e.still_eval args regs c) fun _ _ => .skip (Still.lift _) fun taken _ => .pure ?_
    cases taken with
    | true => exact hjump x (by simp [hk, targets])
    | false => exact Or.inr hy

end

/-! ## Blocks -/

lemma evalPhis (hb : runs b)
    (hpred : ∀ p, pred = some p → runs p) (his : ∀ i ∈ is, i ∈ f.instsOf b) :
    Refines (fun values values' => values' = values.filter fun p => kept p.1)
      (e.evalPhis f args regs b pred is) (e'.evalPhis g args regs' b pred (is.filter kept)) := by
  induction is with
  | nil => exact .pure rfl
  | cons i is ih =>
    have hi : i ∈ f.instsOf b := his i (.head _)
    have hrest := ih fun j hj => his j (.tail i hj)
    rw [evalPhis_cons]
    cases hkept : kept i with
    | false =>
      rw [filter_cons_of_neg (by simp [hkept])]
      cases (f.instr i).operandFrom? pred with
      | none => exact .fail
      | some v =>
        refine .skip (e.still_eval args regs v) fun a _ => ?_
        rw [← bind_pure (e'.evalPhis g args regs' b pred (is.filter kept))]
        exact hrest.bind fun values values' hvals => .pure (by simp [hkept, hvals])
    | true =>
      have hred := h.instr b hb i hi hkept
      rw [filter_cons_of_pos hkept, evalPhis_cons, hred.operandFrom? hpred]
      cases hv : (f.instr i).operandFrom? pred with
      | none => exact .fail
      | some v =>
        have hmem := mem_operands_of_operandFrom? ((hred.operandFrom? hpred).trans hv)
        have heval := he.eval hregs args fun j hj => h.operands b hb i hi hkept j (hj ▸ hmem)
        refine heval.bind fun a _ ha => ha ▸ ?_
        exact hrest.bind fun values values' hvals => .pure (by simp [hkept, hvals])

include hcall

lemma runInsts (hb : runs b) (his : ∀ i ∈ is, i ∈ f.instsOf b) :
    Refines (Leave.Related f runs kept) (e.runInsts call f args b regs is)
      (e'.runInsts call' g args b regs' (is.filter kept)) := by
  induction is generalizing regs regs' with
  | nil => exact .fail
  | cons i is ih =>
    have hi : i ∈ f.instsOf b := his i (.head _)
    have hrest {regs regs' : Registers} (hregs : regs.Agree kept regs') :=
      ih hregs fun j hj => his j (.tail i hj)
    cases hkept : kept i with
    | false =>
      rw [filter_cons_of_neg (by simp [hkept])]
      cases hphi : (f.instr i).isPhi with
      | true =>
        rw [e.runInsts_phi call args b regs is hphi]
        exact hrest hregs
      | false =>
        rw [e.runInsts_step call args b regs is hphi]
        have hsilent := h.dropped b hb i hi hkept
        refine .skip_tick (.skip (e.still_step call f args regs hsilent hphi) ?_)
        rintro _ ⟨v, rfl⟩
        exact hrest (hregs.insert_dropped hkept v)
    | true =>
      rw [filter_cons_of_pos hkept]
      have hphi' := (h.instr b hb i hi hkept).isPhi
      cases hphi : (f.instr i).isPhi with
      | true =>
        rw [e.runInsts_phi call args b regs is hphi,
          e'.runInsts_phi call' args b regs' _ (hphi'.trans hphi)]
        exact hrest hregs
      | false =>
        rw [e.runInsts_step call args b regs is hphi,
          e'.runInsts_step call' args b regs' _ (hphi'.trans hphi), he.limits]
        refine (Refines.tick _).bind fun _ _ _ => ?_
        refine (he.step h hcall hregs args hb hi hkept).bind fun flow flow' hflow => ?_
        match flow, flow', hflow with
        | .next _, .next _, hflow => exact hrest hflow
        | .jump _, .jump _, hflow => exact .pure ⟨hflow, hregs⟩
        | .ret _, .ret _, hflow => exact .pure hflow

lemma runBlock (hb : runs b) (hpred : ∀ p, pred = some p → runs p) :
    Refines (Leave.Related f runs kept) (e.runBlock call f args pred b regs)
      (e'.runBlock call' g args pred b regs') := by
  unfold Image.runBlock
  rw [h.hasBlock, h.phis b hb, h.insts b hb]
  cases f.hasBlock b with
  | false => exact .stuck_bind
  | true =>
    have hphis : ∀ i ∈ f.phis b, i ∈ f.instsOf b := fun i hi => (takeWhile_sublist _).subset hi
    refine (he.evalPhis h hregs args hb hpred hphis).bind fun values values' hvals => ?_
    rw [hvals]
    exact he.runInsts h hcall (hregs.insertMany values) args hb fun i hi => hi

lemma runBlocks (fuel : Nat) (hb : runs b ∨ f.instsOf b = [])
    (hpred : ∀ p, pred = some p → runs p) :
    Refines Eq (e.runBlocks call f args fuel pred b regs)
      (e'.runBlocks call' g args fuel pred b regs') := by
  induction fuel generalizing pred b regs regs' with
  | zero => exact .throw
  | succ fuel ih =>
    rcases hb with hb | hb
    · refine (he.runBlock h hcall hregs args hb hpred).bind fun leave leave' hleave => ?_
      match leave, leave', hleave with
      | .jump _ regs, .jump _ _, ⟨.inl ⟨rfl, ht⟩, hregs⟩ =>
        exact ih hregs (Or.inl ht) fun p hp => Option.some.inj hp ▸ hb
      | .jump _ regs, .jump _ _, ⟨.inr ht, _⟩ =>
        exact runBlocks_of_instsOf_eq_nil e ht args fuel (some b) regs
      | .ret _, .ret _, hleave => exact .pure hleave
    · exact runBlocks_of_instsOf_eq_nil e hb args (fuel + 1) pred regs

end

/-! ## Calls -/

variable {e e' : Image} (he : e.Reduction e')
include he

lemma call (depth : Nat) (callee : FuncId) (args : List Value) :
    Refines Eq (e.call depth callee args) (e'.call depth callee args) := by
  have hfuel : e'.fuel = e.fuel := by
    simp only [fuel, he.limits]
  induction depth using Nat.strongRecOn generalizing callee args with
  | ind depth ih =>
    obtain ⟨runs, kept, h⟩ := he.func callee
    have hhas : e'.program.hasFunc callee = e.program.hasFunc callee := by
      simp only [hasFunc, he.funcs]
    refine rel_call Refines.congruence hhas h.name h.deleted h.external h.params_size fun _ _ _ => ?_
    cases depth with
    | zero => exact .fail
    | succ depth =>
      rw [enter, enter, h.entry?, hfuel]
      cases hent : Func.entry? (e.program.func callee) with
      | none => exact .fail
      | some entry =>
        obtain rfl : (⟨0⟩ : BlockId) = entry := by simp_all [ Func.entry?]
        have hempty : Registers.Agree kept ∅ ∅ := fun i _ v hv => hv
        refine .withFrame ?_
        exact he.runBlocks h (ih depth (Nat.lt_succ_self depth)) hempty args _ h.entry (by simp)

lemma findFunc? (name : String) : e'.program.findFunc? name = e.program.findFunc? name := by
  refine findFunc?_congr he.funcs (fun id => ?_) name
  obtain ⟨runs, kept, h⟩ := he.func id
  exact h.name

lemma run (name : String) (args : List Value) :
    Refines Eq (e.run name args) (e'.run name args) := by
  unfold Image.run
  rw [he.findFunc?, he.limits]
  split
  · exact .throw
  · exact he.call _ _ args

end Image.Reduction

/-! ## Programs -/

/-- Every successful run of `p` is one of `q`, with the same effects and in no more steps. -/
def Program.RefinedBy (p q : Program) : Prop :=
  ∀ limits input name args e s v t, p.load limits input = .ok (e, s) → e.run name args s = .ok v t →
    ∃ e' t', q.load limits input = .ok (e', s) ∧ e'.run name args s = .ok v t' ∧ t.Ahead t'

namespace Program

lemma RefinedBy.refl (p : Program) : p.RefinedBy p :=
  fun _ _ _ _ e _ _ t hload hrun => ⟨e, t, hload, hrun, .refl t⟩

lemma RefinedBy.trans {p q r : Program} (hpq : p.RefinedBy q) (hqr : q.RefinedBy r) :
    p.RefinedBy r := by
  intro limits input name args e s v t hload hrun
  obtain ⟨e', t', hload', hrun', ht⟩ := hpq limits input name args e s v t hload hrun
  obtain ⟨e'', t'', hload'', hrun'', ht'⟩ := hqr limits input name args e' s v t' hload' hrun'
  exact ⟨e'', t'', hload'', hrun'', ht.trans ht'⟩

end Program

/-- In any program, `f` can be replaced by `g`. -/
def Func.RefinedBy (f g : Func) : Prop :=
  ∀ (p : Program) (id : FuncId), p.func id = f → p.hasFunc id → p.RefinedBy (p.setFunc id g)

namespace Func.RefinedBy

lemma trans {f g h : Func} (hfg : f.RefinedBy g) (hgh : g.RefinedBy h) : f.RefinedBy h := by
  intro p id hf hid
  have hg : (p.setFunc id g).func id = g := by rw [p.func_setFunc, if_pos ⟨rfl, hid⟩]
  have hstep := hgh (p.setFunc id g) id hg (by rw [p.hasFunc_setFunc, hid])
  rw [p.setFunc_setFunc] at hstep
  exact (hfg p id hf hid).trans hstep

lemma of_reduction {f g : Func} {runs : BlockId → Prop} {kept : InstId → Bool}
    (h : f.Reduction g runs kept) : f.RefinedBy g := by
  intro p id hf hid limits input name args e s v t hload hrun
  have hload' := load_congr (q := p.setFunc id g) hload rfl
  have hprog := (of_load hload).1
  have he : e.Reduction { e with program := p.setFunc id g } := by
    constructor
    · rfl
    · rfl
    · rw [hprog]; rfl
    · rw [hprog]; rfl
    · rw [hprog]; simp [setFunc]
    · intro id'
      rw [hprog, p.func_setFunc]
      split
      · grind
      · exact ⟨_, _, .refl _⟩
  obtain ⟨v', t', hrun', ht, rfl⟩ := he.run name args s s v t (.refl s) hrun
  exact ⟨_, t', hload', hrun', ht⟩

lemma refl (f : Func) : f.RefinedBy f :=
  of_reduction (.refl f)

end Func.RefinedBy

end MiddleEnd
