import MiddleEnd.Proofs.Machine.Curtailed
import MiddleEnd.Proofs.Machine.Structure
import MiddleEnd.Proofs.Machine.Transfer

/-!
# Runs under larger limits

A program is loaded twice, under limits of which the second allow all that the first allow.
Instruction by instruction, block by block and call by call, the first run curtails the second.  So
a run that is not stopped by a limit is the same under the larger limits, and one that is stopped
has printed a part of what is printed under the larger limits.
-/

namespace MiddleEnd

open Image Nat

/-- Whatever the limits `l` allow, the limits `m` allow. -/
structure Limits.Within (l m : Limits) : Prop where
  instructions : m.instructions = 0 ∨ l.instructions ≠ 0 ∧ l.instructions ≤ m.instructions
  depth : l.depth ≤ m.depth
  cells : l.cells ≤ m.cells

lemma Limits.Within.refl (l : Limits) : l.Within l :=
  ⟨(Decidable.em (l.instructions = 0)).imp_right fun h => ⟨h, UInt64.le_refl _⟩, le_refl _,
    le_refl _⟩

/-- The same program in memory, under limits of which the second allow more. -/
structure Image.Within (e e' : Image) : Prop where
  program : e'.program = e.program
  globals : e'.globals = e.globals
  limits : e.limits.Within e'.limits

lemma Image.Within.refl (e : Image) : e.Within e :=
  ⟨rfl, rfl, .refl _⟩

namespace Image.Within

open Exec

variable {e e' : Image} {reserves : Bool}

/-! ## Operands -/

lemma eval (he : e.Within e') (args : List Value) (regs : Registers) (v : Operand) :
    Curtails reserves (e.eval args regs v) (e'.eval args regs v) := by
  cases v with
  | inst i | arg n =>
    simp only [Image.eval]
    split
    · exact .pure _
    · exact .fail _
  | const c => exact .pure _
  | global g =>
    simp only [Image.eval, he.globals]
    split
    · exact .pure _
    · exact .stuck

section Body

variable {call call' : FuncId → List Value → Exec Value} {f : Func}

/-! ## Instructions -/

variable (he : e.Within e')
include he

lemma step (hcall : ∀ id vs, Curtails true (call id vs) (call' id vs)) (args : List Value)
    (regs : Registers) (i : InstId) :
    Curtails true (e.step call f args regs i) (e'.step call' f args regs i) := by
  refine rel_step Curtails.congruence .bind rfl rfl rfl
    (fun v => by rw [he.program]) (by rw [he.program]) Curtails.allocate
    (fun v _ => he.eval args regs v) hcall (fun _ _ => .pure _) (fun _ _ _ => .pure _)
    (fun _ _ => .pure _) (fun hk => ?_) (fun _ => .pure _) fun _ _ => .pure _
  simp only [Image.step, hk]
  exact .fail _

/-! ## Blocks -/

lemma evalPhis (args : List Value) (regs : Registers) (b : BlockId) (pred : Option BlockId)
    (is : List InstId) :
    Curtails reserves (e.evalPhis f args regs b pred is) (e'.evalPhis f args regs b pred is) := by
  induction is with
  | nil => exact .pure _
  | cons i is ih =>
    simp only [Image.evalPhis]
    split
    · exact .fail _
    · exact (he.eval args regs _).bind fun x => ih.bind fun values => .pure _

lemma tick :
    Curtails reserves (Exec.tick e.limits.instructions.toNat)
      (Exec.tick e'.limits.instructions.toNat) := by
  refine .tick ?_
  rcases he.limits.instructions with h | ⟨hne, hle⟩
  · exact Or.inl (by rw [h]; rfl)
  · exact Or.inr ⟨fun h => hne (UInt64.toNat_inj.mp h), UInt64.le_iff_toNat_le.mp hle⟩

variable (hcall : ∀ id vs, Curtails true (call id vs) (call' id vs)) (args : List Value)
include hcall

lemma runInsts (b : BlockId) (regs : Registers) (is : List InstId) :
    Curtails true (e.runInsts call f args b regs is) (e'.runInsts call' f args b regs is) := by
  induction is generalizing regs with
  | nil => exact .fail _
  | cons i is ih =>
    simp only [Image.runInsts]
    split
    · exact ih regs
    · refine he.tick.bind fun _ => (he.step hcall args regs i).bind fun flow => ?_
      cases flow with
      | next regs' => exact ih regs'
      | jump target => exact .pure _
      | ret v => exact .pure _

lemma runBlock (pred : Option BlockId) (b : BlockId) (regs : Registers) :
    Curtails true (e.runBlock call f args pred b regs) (e'.runBlock call' f args pred b regs) := by
  unfold Image.runBlock
  split
  · exact .stuck_bind
  · exact (he.evalPhis args regs b pred _).bind fun values => he.runInsts hcall args b _ _

lemma runBlocks {fuel fuel' : Nat} (hfuel : fuel ≤ fuel') (pred : Option BlockId) (b : BlockId)
    (regs : Registers) :
    Curtails true (e.runBlocks call f args fuel pred b regs)
      (e'.runBlocks call' f args fuel' pred b regs) := by
  induction fuel' generalizing fuel pred b regs with
  | zero =>
    obtain rfl := le_zero.mp hfuel
    exact .throw _
  | succ fuel' ih =>
    have hsucc {fuel : Nat} (hle : fuel ≤ fuel') :
        Curtails true (e.runBlocks call f args (fuel + 1) pred b regs)
          (e'.runBlocks call' f args (fuel' + 1) pred b regs) := by
      refine (he.runBlock hcall args pred b regs).bind fun leave => ?_
      cases leave with
      | jump target regs' => exact ih hle _ target regs'
      | ret v => exact .pure _
    cases fuel with
    | zero => exact (hsucc (le_refl fuel')).of_cut fun s => ⟨.outOfFuel, rfl, rfl⟩
    | succ fuel => exact hsucc (le_of_succ_le_succ hfuel)

end Body

/-! ## Calls -/

lemma fuel_le (he : e.Within e') : e.fuel ≤ e'.fuel := by
  unfold fuel
  have hlt := e.limits.instructions.toNat_lt
  rcases he.limits.instructions with h | ⟨hne, hle⟩
  · split <;> omega
  · have hle' := UInt64.le_iff_toNat_le.mp hle
    rw [if_neg hne]
    split <;> omega

lemma enter (he : e.Within e') {depth depth' : Nat} (hdepth : depth ≤ depth')
    (hcall : ∀ d d', d ≤ d' → depth' = d' + 1 → ∀ callee args,
      Curtails false (e.call d callee args) (e'.call d' callee args))
    (f : Func) (args : List Value) :
    Curtails false (e.enter depth f args) (e'.enter depth' f args) := by
  cases depth' with
  | zero =>
    obtain rfl := le_zero.mp hdepth
    exact Curtails.of_cut (.fail _) fun s => ⟨_, rfl, rfl⟩
  | succ depth' =>
    have hsucc {d : Nat} (hd : d ≤ depth') :
        Curtails false (e.enter (d + 1) f args) (e'.enter (depth' + 1) f args) := by
      unfold Image.enter
      cases Func.entry? f with
      | none => exact .fail _
      | some entry =>
        have hcalls (id : FuncId) (vs : List Value) :
            Curtails true (e.call d id vs) (e'.call depth' id vs) :=
          (hcall d depth' hd rfl id vs).of_false
        exact .withFrame (he.runBlocks hcalls args he.fuel_le none entry ∅)
    cases depth with
    | zero => exact (hsucc (le_refl depth')).of_cut fun s => ⟨_, rfl, rfl⟩
    | succ depth => exact hsucc (le_of_succ_le_succ hdepth)

lemma call (he : e.Within e') {depth depth' : Nat} (hdepth : depth ≤ depth') (callee : FuncId)
    (args : List Value) :
    Curtails false (e.call depth callee args) (e'.call depth' callee args) := by
  induction depth' using Nat.strongRecOn generalizing depth callee args with
  | ind depth' ih =>
    have hfunc : e'.program.func callee = e.program.func callee := by rw [he.program]
    refine rel_call Curtails.congruence (by rw [he.program]) (by rw [hfunc]) (by rw [hfunc])
      (by rw [hfunc]) (by rw [hfunc]) fun _ _ _ => ?_
    rw [hfunc]
    refine he.enter hdepth (fun d d' hd h callee args => ?_) _ args
    exact ih d' (h ▸ lt_succ_self d') hd callee args

lemma run (he : e.Within e') (name : String) (args : List Value) :
    Curtails false (e.run name args) (e'.run name args) := by
  unfold Image.run
  rw [he.program]
  split
  · exact .throw _
  · exact he.call he.limits.depth _ args

end Image.Within

/-! ## Programs -/

/-- Two runs have printed, read and counted the same, and left the same values in the globals. -/
structure SameEffects (e e' : Image) (t t' : Machine) : Prop where
  output : t'.output = t.output
  steps : t'.steps = t.steps
  input : t'.input = t.input
  globals : ∀ name, e'.globalValue? t'.memory name = e.globalValue? t.memory name

lemma Image.Within.sameEffects {e e' : Image} (he : e.Within e') (t : Machine) (limit : Nat) :
    SameEffects e e' t (t.relimit limit) where
  output := rfl
  steps := rfl
  input := rfl
  globals name := by
    simp only [globalValue?, he.program, he.globals]
    rfl

/-- Limits only cut runs short.  A run that succeeds, or fails for another reason, does the same
under larger limits, and of a run that is cut short the output is the beginning of what is printed
under larger limits, however that run ends. -/
theorem Program.run_extends_of_within {p : Program} {l m : Limits} {input : String} {e e' : Image}
    {s s' : Machine} (hlimits : l.Within m) (hload : p.load l input = .ok (e, s))
    (hload' : p.load m input = .ok (e', s')) (name : String) (args : List Value) :
    (∀ v t, e.run name args s = .ok v t →
      ∃ t', e'.run name args s' = .ok v t' ∧ SameEffects e e' t t') ∧
    (∀ halt t, e.run name args s = .error halt t → halt.isCut = false →
      ∃ t', e'.run name args s' = .error halt t' ∧ SameEffects e e' t t') ∧
    ∀ halt t, e.run name args s = .error halt t → halt.isCut = true →
      ∃ text, ((e'.run name args).after s').output = t.output ++ text := by
  obtain ⟨hprogram, hl, hcells⟩ := Program.of_load hload
  rw [Program.load_of_le hload rfl hlimits.cells] at hload'
  cases hload'
  have he : e.Within { e with program := p, limits := m } := ⟨hprogram.symm, rfl, hl ▸ hlimits⟩
  have hcut := (he.run name args).cut s m.cells (hcells ▸ hlimits.cells)
  refine ⟨fun v t hrun => ?_, fun halt t hrun hhalt => ?_, fun halt t hrun hhalt => ?_⟩
  · rw [hrun] at hcut
    exact ⟨_, hcut.eq_ok, he.sameEffects t m.cells⟩
  · rw [hrun] at hcut
    exact ⟨_, hcut.eq_error hhalt, he.sameEffects t m.cells⟩
  · rw [hrun] at hcut
    exact hcut.output

def echoing : Program where
  globals := #[{ name := "g", ty := .array 3 .i32, init := .zero }]
  funcs := #[
    Edit.applyAll (.new "f" .void [])
      [.addBlock "entry",
        .append ⟨0⟩ (.alloc .i32) (.pointer .i32),
        .append ⟨0⟩ (.call ⟨1⟩ [.int 7] none) .void,
        .append ⟨0⟩ (.call ⟨2⟩ [] none) .i32,
        .append ⟨0⟩ (.call ⟨0⟩ [] none) .void,
        .append ⟨0⟩ (.ret none) .void],
    { Func.new "putint" .void [.i32] with external := true },
    { Func.new "getint" .i32 [] with external := true }]

def echoingImage (depth : Nat) : Image :=
  { program := echoing, limits := { depth }, globals := #[0] }

def echoingMachine : Machine :=
  { memory := { cells := #[.int 0, .int 0, .int 0], limit := 16777216 }, input := .ofText "5 6" }

lemma load_echoing (depth : Nat) :
    echoing.load { depth } "5 6" = .ok (echoingImage depth, echoingMachine) :=
  rfl

/-- With two nested calls the run is cut short.  With three it gets to the end of the input, and
more calls change nothing. -/
theorem run_extends_echoing :
    (∃ t, (echoingImage 2).run "f" [] echoingMachine = .error (.fault (.depthLimit 2)) t ∧
      ∃ text, (((echoingImage 3).run "f" []).after echoingMachine).output = t.output ++ text) ∧
    ∃ t t',
      (echoingImage 3).run "f" [] echoingMachine = .error (.fault (.inputExhausted "getint")) t ∧
      (echoingImage 9).run "f" [] echoingMachine = .error (.fault (.inputExhausted "getint")) t' ∧
      SameEffects (echoingImage 3) (echoingImage 9) t t' := by
  constructor
  · have hlimits : ({ depth := 2 } : Limits).Within { depth := 3 } :=
      ⟨by decide, by decide, Nat.le_refl _⟩
    have hfault : ((echoingImage 2).run "f" []).fault? echoingMachine = some (.depthLimit 2) := by
      decide +kernel
    obtain ⟨t, hrun⟩ := Exec.fault?_eq_some hfault
    obtain ⟨-, -, hcut⟩ :=
      Program.run_extends_of_within hlimits (load_echoing 2) (load_echoing 3) "f" []
    exact ⟨t, hrun, hcut _ t hrun rfl⟩
  · have hlimits : ({ depth := 3 } : Limits).Within { depth := 9 } :=
      ⟨by decide, by decide, Nat.le_refl _⟩
    have hfault : ((echoingImage 3).run "f" []).fault? echoingMachine =
        some (.inputExhausted "getint") := by
      decide +kernel
    obtain ⟨t, hrun⟩ := Exec.fault?_eq_some hfault
    obtain ⟨-, hsame, -⟩ :=
      Program.run_extends_of_within hlimits (load_echoing 3) (load_echoing 9) "f" []
    obtain ⟨t', hrun', heffects⟩ := hsame _ t hrun rfl
    exact ⟨t, t', hrun, hrun', heffects⟩

end MiddleEnd
