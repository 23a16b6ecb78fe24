import Mathlib.Data.List.Infix
import MiddleEnd.Machine.Run

/-!
# Relations that actions respect

Built-in functions and instructions are put together from a few primitive actions.  A relation
between actions that holds of each primitive action and itself, and that is kept when actions are put
together, holds of all of them.

Operations on values, memory accesses and built-in functions have no structural faults, so a relation
may ask for that.  A structural fault says that the running function has not the shape that it should
have: a value is read before it has been computed, an argument or a phi entry is missing, a block does
not end, or a jump leads nowhere.
-/

namespace MiddleEnd

open List Exec Instr

/-- Does the fault show that a function is malformed? -/
def Fault.isStructural : Fault → Bool
  | noTerminator .. | noPhiEntry _ | uncomputed _ | noArgument _ | pendingJump .. => true
  | _ => false

def Halt.isStructural : Halt → Bool
  | fault f => f.isStructural
  | _ => false

/-! ## Operations on values -/

def Fault.Plain {α : Type} (x : Except Fault α) : Prop :=
  ∀ f, x = .error f → f.isStructural = false

namespace Fault.Plain

variable {α β : Type}

lemma ok (a : α) : Plain (.ok a) :=
  fun _ h => nomatch h

lemma error {f : Fault} (hf : f.isStructural = false) : Plain (.error f : Except Fault α) :=
  fun _ h => Except.error.inj h ▸ hf

lemma bind {x : Except Fault α} {k : α → Except Fault β} (hx : Plain x) (hk : ∀ a, Plain (k a)) :
    Plain (x >>= k) := by
  cases x with
  | ok a => exact hk a
  | error f => exact error (hx f rfl)

section

variable (v : Value) (operation : String)

lemma asConstant : Plain (v.asConstant operation) := by
  unfold Value.asConstant
  split
  · exact ok _
  · exact error rfl

lemma asInt : Plain (v.asInt operation) := by
  unfold Value.asInt
  split
  · exact ok _
  · exact ok _
  · exact error rfl

lemma asFloat : Plain (v.asFloat operation) := by
  unfold Value.asFloat
  split
  · exact ok _
  · exact error rfl

lemma asBool : Plain (v.asBool operation) := by
  unfold Value.asBool
  have hint := asInt v operation
  generalize v.asInt operation = x at hint
  cases x with
  | ok n => exact ok _
  | error f => exact error (hint f rfl)

lemma asPtr : Plain (v.asPtr operation) := by
  unfold Value.asPtr
  split
  · exact ok _
  · exact error rfl
  · exact error rfl

end

lemma compute (operation : String) (fold? : Constant → Constant → Option Constant) (a b : Value) :
    Plain (Value.compute operation fold? a b) := by
  refine (asConstant a operation).bind fun x => (asConstant b operation).bind fun y => ?_
  split
  · exact ok _
  · exact error rfl

lemma binary (op : BinaryOp) (func : String) (a b : Value) : Plain (op.apply func a b) := by
  unfold BinaryOp.apply
  split
  · refine (asInt b op.name).bind fun n => ?_
    split
    · exact error rfl
    · exact compute _ _ a b
  · exact compute _ _ a b

lemma cast (op : CastOp) (v : Value) (ty : Ty) : Plain (op.apply v ty) := by
  unfold CastOp.apply
  split
  · exact ok _
  · exact ok _
  · refine (asConstant v op.name).bind fun c => ?_
    split
    · exact ok _
    · exact error rfl

lemma elementAddress (a : Nat) (t : Ty) (offsets : List Int32) :
    Plain (MiddleEnd.elementAddress a t offsets) := by
  unfold MiddleEnd.elementAddress
  split
  · exact error rfl
  · split
    · exact error rfl
    · cases offsets with
      | nil =>
        dsimp only
        split
        · exact error rfl
        · exact ok _
      | cons n ns =>
        dsimp only
        split
        · exact error rfl
        · split
          · exact error rfl
          · exact ok _

lemma load (m : Memory) (a : Nat) : Plain (m.load a) := by
  unfold Memory.load
  split
  · exact ok _
  · exact error rfl

lemma loadAll (m : Memory) (a count : Nat) : Plain (m.loadAll a count) := by
  induction count generalizing a with
  | zero => exact ok _
  | succ n ih => exact (load m a).bind fun v => (ih (a + 1)).bind fun vs => ok _

end Fault.Plain

/-! ## Reading input -/

namespace Input

lemma skipBlanks_suffix (input : Input) : input.skipBlanks <:+ input :=
  dropWhile_suffix _

lemma readInt_suffix (input : Input) : (readInt input).2 <:+ input := by
  have hblanks := input.skipBlanks_suffix
  unfold readInt
  dsimp only
  generalize input.skipBlanks = rest at hblanks
  have hdigits (value? : Option Int32) {body : Input} (hbody : body <:+ rest) :
      (if (body.takeWhile isDigit).isEmpty then (none, rest)
        else (value?, body.dropWhile isDigit)).2 <:+ input := by
    split
    · exact hblanks
    · exact (dropWhile_suffix _).trans (hbody.trans hblanks)
  split
  · exact hdigits _ (suffix_cons ..)
  · exact hdigits _ (suffix_cons ..)
  · exact hdigits _ (suffix_refl _)

lemma readFloat_suffix (input : Input) : (readFloat input).2 <:+ input :=
  (dropWhile_suffix _).trans input.skipBlanks_suffix

lemma readByte_suffix (input : Input) : (readByte input).2 <:+ input := by
  cases input with
  | nil => exact suffix_refl _
  | cons b rest => exact suffix_cons b rest

end Input

/-! ## Results of primitive actions -/

namespace Exec

lemma tick_eq (limit : Nat) (s : Machine) : tick limit s =
    if limit ≠ 0 ∧ limit < s.steps + 1 then
      .error (.fault (.stepLimit limit)) { s with steps := s.steps + 1 }
    else .ok () { s with steps := s.steps + 1 } := by
  change (if limit ≠ 0 ∧ limit < s.steps + 1 then fail (.stepLimit limit) else pure () : Exec Unit)
    { s with steps := s.steps + 1 } = _
  split <;> rfl

lemma allocate_eq (count : Nat) (init : Value) (s : Machine) : allocate count init s =
    if s.memory.size + count ≤ s.memory.limit then
      .ok s.memory.size { s with memory := s.memory.grow count init }
    else .error (.fault (.memoryLimit s.memory.size s.memory.limit)) s := by
  have hget : (get : Exec Machine) s = .ok s s := rfl
  simp only [allocate, bind, EStateM.bind, hget]
  by_cases hroom : s.memory.size + count ≤ s.memory.limit
  · have hif : s.memory.hasRoom count := decide_eq_true hroom
    rw [hif, if_pos hroom]
    rfl
  · have hif : s.memory.hasRoom count = false := decide_eq_false hroom
    rw [hif, if_neg hroom]
    rfl

lemma read_eq {α : Type} (func : String) (reader : Input → Option α × Input) (s : Machine) :
    read func reader s = match (reader s.input).1 with
      | some v => .ok v { s with input := (reader s.input).2 }
      | none => .error (.fault (.inputExhausted func)) { s with input := (reader s.input).2 } := by
  have hget : (get : Exec Machine) s = .ok s s := rfl
  simp only [read, bind, EStateM.bind, hget]
  cases (reader s.input).1 <;> rfl

end Exec

/-! ## Built-in functions -/

/-- Functions that take and return scalars only. -/
def Builtin.isScalar : Builtin → Bool
  | getint | getch | getfloat | putint | putch | putfloat | starttime | stoptime => true
  | _ => false

namespace Exec

/-- A relation between actions that do not look at memory. -/
structure Congruence (R : {α : Type} → Exec α → Exec α → Prop) : Prop where
  pure : ∀ {α : Type} (a : α), R (Pure.pure a) (Pure.pure a)
  bind : ∀ {α β : Type} {x y : Exec α} {k l : α → Exec β}, R x y → (∀ a, R (k a) (l a)) →
    R (x >>= k) (y >>= l)
  fail : ∀ {α : Type} {f : Fault}, f.isStructural = false → R (fail f : Exec α) (fail f)
  stuck : ∀ {α : Type}, R (stuck : Exec α) stuck
  print : ∀ text, R (print text) (print text)
  read : ∀ {α : Type} (func : String) {reader : Input → Option α × Input},
    (∀ input, (reader input).2 <:+ input) → R (read func reader) (read func reader)

/-- A relation between actions that may look at memory, but reserve no cells. -/
structure MemoryCongruence (R : {α : Type} → Exec α → Exec α → Prop) : Prop
    extends Congruence R where
  load : ∀ a, R (load a) (load a)
  loadAll : ∀ a count, R (loadAll a count) (loadAll a count)
  store : ∀ a v, R (store a v) (store a v)
  fill : ∀ a count v, R (fill a count v) (fill a count v)
  cells : ∀ {α : Type} {k : Array Value → Exec α}, (∀ cells, R (k cells) (k cells)) →
    R (do k (← MonadState.get).memory.cells) (do k (← MonadState.get).memory.cells)

namespace Congruence

variable {R : {α : Type} → Exec α → Exec α → Prop} (h : Congruence R) {α β : Type}

include h

lemma lift {x : Except Fault α} (hx : Fault.Plain x) : R (lift x) (lift x) := by
  cases x with
  | ok a => exact h.pure a
  | error f => exact h.fail (hx f rfl)

lemma map {x y : Exec α} (g : α → β) (hx : R x y) : R (g <$> x) (g <$> y) := by
  exact h.bind hx fun a => h.pure (g a)

lemma argument (args : List Value) (n : Nat) : R (argument args n) (argument args n) := by
  unfold Exec.argument
  split
  · exact h.pure _
  · exact h.stuck

lemma intArgument (b : Builtin) (args : List Value) (n : Nat) :
    R (intArgument b args n) (intArgument b args n) :=
  h.bind (h.argument args n) fun v => h.lift (.asInt v b.name)

lemma ptrArgument (b : Builtin) (args : List Value) (n : Nat) :
    R (ptrArgument b args n) (ptrArgument b args n) :=
  h.bind (h.argument args n) fun v => h.lift (.asPtr v b.name)

lemma printArguments (args : List Value) (pieces : List String) :
    R (printArguments args pieces) (printArguments args pieces) := by
  induction args generalizing pieces with
  | nil => cases pieces <;> exact h.pure ()
  | cons v args ih =>
    cases pieces with
    | nil => exact h.pure ()
    | cons piece pieces =>
      refine h.bind (h.lift (.asInt v _)) fun n => h.bind (h.print _) fun _ => ?_
      exact h.bind (h.print _) fun _ => ih pieces

lemma printFormatted (format : String) (args : List Value) :
    R (printFormatted format args) (printFormatted format args) := by
  unfold Exec.printFormatted
  cases Format.pieces format with
  | nil =>
    dsimp only
    split
    · exact h.bind (h.fail rfl) fun _ => h.pure ()
    · exact h.pure ()
  | cons first rest =>
    have hprint := h.bind (h.print first) fun _ => h.printArguments args rest
    dsimp only
    split
    · exact h.bind (h.fail rfl) fun _ => hprint
    · exact hprint

lemma readInt (b : Builtin) : R (readInt b) (readInt b) :=
  h.map _ (h.read _ Input.readInt_suffix)

lemma readFloat (b : Builtin) : R (readFloat b) (readFloat b) :=
  h.map _ (h.read _ Input.readFloat_suffix)

lemma builtin_of_isScalar {b : Builtin} (hb : b.isScalar) (args : List Value) :
    R (builtin b args) (builtin b args) := by
  cases b with
  | getint => exact h.readInt _
  | getch => exact h.map _ (h.read _ Input.readByte_suffix)
  | getfloat => exact h.readFloat _
  | putint | putch =>
    exact h.bind (h.intArgument _ args 0) fun n => h.bind (h.print _) fun _ => h.pure _
  | putfloat =>
    refine h.bind (h.argument args 0) fun v => h.bind (h.lift (.asFloat v _)) fun x => ?_
    exact h.bind (h.print _) fun _ => h.pure _
  | starttime | stoptime => exact h.pure _
  | _ => cases hb

end Congruence

namespace MemoryCongruence

variable {R : {α : Type} → Exec α → Exec α → Prop} (h : MemoryCongruence R)

include h

lemma readInto {value : Exec Value} (hval : R value value) (a n : Nat) :
    R (readInto value a n) (readInto value a n) := by
  induction n generalizing a with
  | zero => exact h.pure ()
  | succ n ih => exact h.bind hval fun v => h.bind (h.store a v) fun _ => ih (a + 1)

lemma printCells (a : Nat) (cells : List Value) :
    R (printCells a cells) (printCells a cells) := by
  induction cells generalizing a with
  | nil => exact h.fail rfl
  | cons v cells ih =>
    refine h.bind (h.lift (.asInt v _)) fun n => ?_
    split
    · exact h.bind (h.print _) fun _ => ih (a + 1)
    · exact h.pure ()

lemma readArray (b : Builtin) {element : Exec Value} (helement : R element element)
    (args : List Value) : R (readArray b element args) (readArray b element args) := by
  refine h.bind (h.ptrArgument b args 0) fun a => ?_
  refine h.bind (h.read b.name Input.readInt_suffix) fun n => ?_
  exact h.bind (h.readInto helement a _) fun _ => h.pure _

lemma printArray (b : Builtin) (args : List Value) :
    R (printArray b args) (printArray b args) := by
  refine h.bind (h.intArgument b args 0) fun n => h.bind (h.ptrArgument b args 1) fun a => ?_
  exact h.bind (h.loadAll a _) fun vs => h.bind (h.print _) fun _ => h.pure _

lemma builtin (b : Builtin) (args : List Value) : R (builtin b args) (builtin b args) := by
  cases b with
  | getarray => exact h.readArray _ (h.readInt _) args
  | getfarray => exact h.readArray _ (h.readFloat _) args
  | putarray | putfarray => exact h.printArray _ args
  | putstr =>
    refine h.bind (h.ptrArgument _ args 0) fun a => ?_
    exact h.cells (k := fun cells => do Exec.printCells a (cells.toList.drop a); return Value.void)
      fun cells => h.bind (h.printCells a _) fun _ => h.pure _
  | memset =>
    refine h.bind (h.ptrArgument _ args 0) fun a => h.bind (h.intArgument _ args 1) fun v => ?_
    exact h.bind (h.intArgument _ args 2) fun n => h.bind (h.fill a _ _) fun _ => h.pure _
  | printf => exact h.fail rfl
  | _ => exact h.builtin_of_isScalar rfl args

end MemoryCongruence

end Exec

/-! ## Instructions -/

namespace Image

open Exec

variable {R : {α : Type} → Exec α → Exec α → Prop} (h : MemoryCongruence R) {e e' : Image}
  {args : List Value} {regs regs' : Registers}

include h

variable {vs : List Operand}

lemma rel_evalAll
    (hvs : ∀ v ∈ vs, R (e.eval args regs v) (e'.eval args regs' v)) :
    R (e.evalAll args regs vs) (e'.evalAll args regs' vs) := by
  induction vs with
  | nil => exact h.pure []
  | cons v vs ih =>
    obtain ⟨hv, hvs⟩ := forall_mem_cons.mp hvs
    exact h.bind hv fun x => h.bind (ih hvs) fun xs => h.pure _

lemma rel_evalOffsets
    (hvs : ∀ v ∈ vs, R (e.eval args regs v) (e'.eval args regs' v)) :
    R (e.evalOffsets args regs vs) (e'.evalOffsets args regs' vs) := by
  induction vs with
  | nil => exact h.pure []
  | cons v vs ih =>
    obtain ⟨hv, hvs⟩ := forall_mem_cons.mp hvs
    refine h.bind hv fun x => h.bind (h.lift (.asInt x _)) fun n => ?_
    exact h.bind (ih hvs) fun ns => h.pure _

lemma rel_step {S : Exec Flow → Exec Flow → Prop}
    {call call' : FuncId → List Value → Exec Value} {f g : Func} {i : InstId}
    (hbind : ∀ {α : Type} {x y : Exec α} {k l : α → Exec Flow}, R x y → (∀ a, S (k a) (l a)) →
      S (x >>= k) (y >>= l))
    (hinstr : g.instr i = f.instr i) (hname : g.name = f.name) (hty : (g.inst i).ty = (f.inst i).ty)
    (htype : ∀ v, e'.program.typeOf g v = e.program.typeOf f v)
    (hstrs : e'.program.strings = e.program.strings)
    (hallocate : ∀ count init, R (allocate count init) (allocate count init))
    (heval : ∀ v ∈ (f.instr i).operands, R (e.eval args regs v) (e'.eval args regs' v))
    (hcall : ∀ id vs, R (call id vs) (call' id vs))
    (hres : (f.instr i).isTerminator = false →
      ∀ v, S (pure (.next (regs.insert i v))) (pure (.next (regs'.insert i v))))
    (hstore : ∀ v p, f.instr i = .store v p → S (pure (.next regs)) (pure (.next regs')))
    (hjump : ∀ t ∈ (f.instr i).targets, S (pure (.jump t)) (pure (.jump t)))
    (hpend : f.instr i = .jump none → S (e.step call f args regs i) (e'.step call' g args regs' i))
    (hret : ∀ v, S (pure (.ret v)) (pure (.ret v)))
    (hphi : ∀ es, f.instr i = .phi es → S (pure (.next regs)) (pure (.next regs'))) :
    S (e.step call f args regs i) (e'.step call' g args regs' i) := by
  cases hk : f.instr i with
  | jump target =>
    cases target with
    | none => exact hpend hk
    | some t =>
      simp only [step, hinstr, hk]
      exact hjump t (by simp [hk, targets])
  | alloc t =>
    simp only [step, hinstr, hk]
    exact hbind (hallocate _ _) fun a => hres (by rw [hk]; rfl) _
  | load ptr =>
    rw [hk] at heval
    simp only [step, hinstr, hk, hty]
    refine hbind (heval ptr (by simp [operands])) fun x => hbind (h.lift (.asPtr x _)) fun a => ?_
    exact hbind (h.load a) fun v => hres (by rw [hk]; rfl) _
  | store value ptr =>
    rw [hk] at heval
    simp only [step, hinstr, hk]
    refine hbind (heval value (by simp [operands])) fun v => ?_
    refine hbind (heval ptr (by simp [operands])) fun x => hbind (h.lift (.asPtr x _)) fun a => ?_
    exact hbind (h.store a v) fun _ => hstore value ptr hk
  | element base offsets =>
    rw [hk] at heval
    simp only [step, hinstr, hk, htype]
    refine hbind (heval base (by simp [operands])) fun x => hbind (h.lift (.asPtr x _)) fun a => ?_
    refine hbind (rel_evalOffsets h fun v hv => heval v (.tail base hv)) fun ns => ?_
    exact hbind (h.lift (.elementAddress _ _ _)) fun a => hres (by rw [hk]; rfl) _
  | binary op l r =>
    rw [hk] at heval
    simp only [step, hinstr, hk, hname]
    refine hbind (heval l (by simp [operands])) fun x => ?_
    refine hbind (heval r (by simp [operands])) fun y => ?_
    exact hbind (h.lift (.binary op _ x y)) fun v => hres (by rw [hk]; rfl) _
  | icmp c l r | fcmp c l r =>
    rw [hk] at heval
    simp only [step, hinstr, hk]
    refine hbind (heval l (by simp [operands])) fun x => ?_
    refine hbind (heval r (by simp [operands])) fun y => ?_
    exact hbind (h.lift (.compute _ _ x y)) fun v => hres (by rw [hk]; rfl) _
  | cast op value =>
    rw [hk] at heval
    simp only [step, hinstr, hk, hty]
    refine hbind (heval value (by simp [operands])) fun x => ?_
    exact hbind (h.lift (.cast op x _)) fun v => hres (by rw [hk]; rfl) _
  | call callee ops format =>
    rw [hk] at heval
    simp only [step, hinstr, hk]
    refine hbind (rel_evalAll h heval) fun vs => ?_
    cases format with
    | none => exact hbind (hcall callee vs) fun v => hres (by rw [hk]; rfl) _
    | some s =>
      have hhas : e'.program.hasString s = e.program.hasString s := by
        simp only [Program.hasString, hstrs]
      have htext : e'.program.string s = e.program.string s := by
        simp only [Program.string, hstrs]
      have hprint := hbind (h.printFormatted (e.program.string s) vs) fun _ =>
        hres (by rw [hk]; rfl) .void
      dsimp only
      rw [hhas, htext]
      cases e.program.hasString s with
      | false => exact hbind h.stuck fun _ => hprint
      | true => exact hprint
  | branch cond onTrue onFalse =>
    rw [hk] at heval hjump
    simp only [step, hinstr, hk]
    refine hbind (heval cond (by simp [operands])) fun x => ?_
    refine hbind (h.lift (.asBool x _)) fun taken => hjump _ ?_
    cases taken <;> simp [targets]
  | ret value =>
    rw [hk] at heval
    cases value with
    | none =>
      simp only [step, hinstr, hk]
      exact hret .void
    | some v =>
      simp only [step, hinstr, hk]
      exact hbind (heval v (by simp [operands])) fun x => hret x
  | phi es =>
    simp only [step, hinstr, hk]
    exact hphi es hk

/-! ## Calls -/

/-- A call of a function that has a body, while at most `depth` more calls can be nested. -/
def enter (e : Image) (depth : Nat) (f : Func) (args : List Value) : Exec Value :=
  match depth with
  | 0 => .fail (.depthLimit e.limits.depth)
  | depth + 1 =>
    match f.entry? with
    | none => .fail (.noBody f.name)
    | some entry => .withFrame (e.runBlocks (e.call depth) f args e.fuel none entry ∅)

/-- A call of two functions with the same head.  Only what is done with the body is left. -/
lemma rel_call {depth depth' : Nat} {callee : FuncId}
    (hhas : e'.program.hasFunc callee = e.program.hasFunc callee)
    (hname : (e'.program.func callee).name = (e.program.func callee).name)
    (hdeleted : (e'.program.func callee).deleted = (e.program.func callee).deleted)
    (hexternal : (e'.program.func callee).external = (e.program.func callee).external)
    (hparams : (e'.program.func callee).params.size = (e.program.func callee).params.size)
    (henter : e.program.hasFunc callee → (e.program.func callee).isDefined →
      args.length = (e.program.func callee).params.size →
      R (e.enter depth (e.program.func callee) args) (e'.enter depth' (e'.program.func callee) args)) :
    R (e.call depth callee args) (e'.call depth' callee args) := by
  unfold call
  dsimp only
  rw [hhas, hname, hdeleted, hexternal, hparams]
  cases hcallee : e.program.hasFunc callee with
  | false => exact h.stuck
  | true =>
    cases hdel : (e.program.func callee).deleted with
    | true => exact h.fail rfl
    | false =>
      by_cases hargs : args.length ≠ (e.program.func callee).params.size
      · simp only [if_pos hargs]
        exact h.fail rfl
      · simp only [if_neg hargs]
        cases hext : (e.program.func callee).external with
        | true =>
          cases Builtin.ofName? (e.program.func callee).name with
          | none => exact h.fail rfl
          | some b => exact h.builtin b args
        | false =>
          have hbody := henter hcallee (by simp [Func.isDefined, hdel, hext]) (not_not.mp hargs)
          unfold enter at hbody
          rw [hname] at hbody
          exact hbody

end Image

end MiddleEnd
