import Std.Data.HashMap
import MiddleEnd.Machine.Builtin
import MiddleEnd.Machine.Operation
import MiddleEnd.Program

/-!
# Running a program

Functions are executed block by block.  The phis of a block are evaluated together when it is
entered, for the block that control came from.  Slots live until their call returns.

The recursion is on the calls that may still be nested and, within a call, on the blocks that may
still be entered.  Each block that is left counts at least one instruction, so a limit on
instructions is a limit on blocks as well.
-/

namespace MiddleEnd

/-- How far a run can go. -/
structure Limits where
  /-- The number of instructions; zero stands for any number. -/
  instructions : UInt64 := 10000000
  /-- The nesting of calls. -/
  depth : Nat := 512
  /-- The memory cells of globals and slots together. -/
  cells : Nat := 16777216
deriving DecidableEq, Inhabited

/-- A program in memory, with the address of each global. -/
structure Image where
  program : Program
  limits : Limits := {}
  globals : Array Nat := #[]
deriving Inhabited

/-- The values computed so far in a call. -/
abbrev Registers := Std.HashMap InstId Value

/-- What follows an instruction. -/
inductive Flow
  | next (registers : Registers)
  | jump (target : BlockId)
  | ret (value : Value)

/-- What follows a block. -/
inductive Leave
  | jump (target : BlockId) (registers : Registers)
  | ret (value : Value)

/-! ## Loading -/

/-- The literals that are stored in the first cells of a global. -/
def Global.stored (g : Global) : List Value :=
  match g.init with
  | .scalar c => [.ofConstant c]
  | .array values => (values.take g.ty.cells).map .ofConstant
  | .zero => []

def Memory.loadGlobal (m : Memory) (g : Global) : Except Fault (Nat × Memory) := do
  let (a, m) ← m.allocate g.ty.cells (.initial g.ty)
  return (a, ← m.storeAll a g.stored)

/-- Loads globals one after the other. -/
def Memory.loadGlobals (m : Memory) : List Global → Except Fault (List Nat × Memory)
  | [] => .ok ([], m)
  | g :: gs => do
    let (a, m) ← m.loadGlobal g
    let (as, m) ← m.loadGlobals gs
    return (a :: as, m)

/-- Loads a program, ready to run on the given input. -/
def Program.load (p : Program) (limits : Limits) (input : String) :
    Except Fault (Image × Machine) := do
  let (globals, memory) ← Memory.loadGlobals { limit := limits.cells } p.globals.toList
  return ({ program := p, limits, globals := globals.toArray },
    { memory, input := .ofText input })

namespace Image

/-- The value in the first cell of a global. -/
def globalValue? (e : Image) (m : Memory) (name : String) : Option Value := do
  let g ← e.program.findGlobal? name
  let a ← e.globals[g.idx]?
  m.cells[a]?

/-! ## Instructions -/

def eval (e : Image) (args : List Value) (regs : Registers) : Operand → Exec Value
  | .inst i =>
    match regs[i]? with
    | some v => pure v
    | none => .fail (.uncomputed i)
  | .arg n =>
    match args[n]? with
    | some v => pure v
    | none => .fail (.noArgument n)
  | .const c => pure (.ofConstant c)
  | .global g =>
    match e.globals[g.idx]? with
    | some a => pure (.ptr a)
    | none => .stuck

def evalAll (e : Image) (args : List Value) (regs : Registers) : List Operand → Exec (List Value)
  | [] => pure []
  | v :: vs => do return (← e.eval args regs v) :: (← e.evalAll args regs vs)

/-- Evaluates array indices, each of which has to be an integer. -/
def evalOffsets (e : Image) (args : List Value) (regs : Registers) :
    List Operand → Exec (List Int32)
  | [] => pure []
  | v :: vs => do
    let n ← .lift ((← e.eval args regs v).asInt "getelementptr")
    return n :: (← e.evalOffsets args regs vs)

/-- Executes an instruction of the function `f`.  Functions are called with `call`. -/
def step (e : Image) (call : FuncId → List Value → Exec Value) (f : Func) (args : List Value)
    (regs : Registers) (i : InstId) : Exec Flow := do
  let eval := e.eval args regs
  let result v := Flow.next (regs.insert i v)
  match f.instr i with
  | .alloc t => return result (.ptr (← .allocate t.cells (.initial t)))
  | .load ptr =>
    let a ← .lift ((← eval ptr).asPtr "load")
    return result ((← .load a).readAs (f.inst i).ty)
  | .store value ptr =>
    let v ← eval value
    let a ← .lift ((← eval ptr).asPtr "store")
    .store a v
    return .next regs
  | .element base offsets =>
    let a ← .lift ((← eval base).asPtr "getelementptr")
    let offsets ← e.evalOffsets args regs offsets
    return result (.ptr (← .lift (elementAddress a (e.program.typeOf f base) offsets)))
  | .binary op lhs rhs =>
    let a ← eval lhs
    let b ← eval rhs
    return result (← .lift (op.apply f.name a b))
  | .icmp c lhs rhs =>
    let a ← eval lhs
    let b ← eval rhs
    return result (← .lift (c.applyInt a b))
  | .fcmp c lhs rhs =>
    let a ← eval lhs
    let b ← eval rhs
    return result (← .lift (c.applyFloat a b))
  | .cast op value => return result (← .lift (op.apply (← eval value) (f.inst i).ty))
  | .call callee operands format =>
    let values ← e.evalAll args regs operands
    match format with
    | none => return result (← call callee values)
    | some s =>
      if !e.program.hasString s then .stuck
      .printFormatted (e.program.string s) values
      return result .void
  | .branch cond onTrue onFalse =>
    let taken ← .lift ((← eval cond).asBool "br")
    return .jump (if taken then onTrue else onFalse)
  | .jump (some target) => return .jump target
  | .jump none => .fail (.pendingJump (f.labelOf i) f.name)
  | .ret none => return .ret .void
  | .ret (some value) => return .ret (← eval value)
  | .phi _ => return .next regs

/-! ## Blocks -/

/-- The values that the phis of a block take when control comes from `pred`. -/
def evalPhis (e : Image) (f : Func) (args : List Value) (regs : Registers) (b : BlockId)
    (pred : Option BlockId) : List InstId → Exec (List (InstId × Value))
  | [] => pure []
  | i :: is => do
    let entry? := (f.instr i).entries.find? fun entry => pred = some entry.block
    match entry?.bind PhiEntry.value with
    | none => .fail (.noPhiEntry (f.block b).label)
    | some v => return (i, ← e.eval args regs v) :: (← e.evalPhis f args regs b pred is)

/-- Executes instructions until one leaves the block `b`.  Phis have been evaluated already. -/
def runInsts (e : Image) (call : FuncId → List Value → Exec Value) (f : Func) (args : List Value)
    (b : BlockId) (regs : Registers) : List InstId → Exec Leave
  | [] => .fail (.noTerminator (f.block b).label f.name)
  | i :: is => do
    if (f.instr i).isPhi then e.runInsts call f args b regs is
    else
      .tick e.limits.instructions.toNat
      match ← e.step call f args regs i with
      | .next regs => e.runInsts call f args b regs is
      | .jump target => return .jump target regs
      | .ret v => return .ret v

/-- Enters the block `b` from `pred` and executes it. -/
def runBlock (e : Image) (call : FuncId → List Value → Exec Value) (f : Func) (args : List Value)
    (pred : Option BlockId) (b : BlockId) (regs : Registers) : Exec Leave := do
  if !f.hasBlock b then .stuck
  let values ← e.evalPhis f args regs b pred (f.phis b)
  e.runInsts call f args b (regs.insertMany values) (f.instsOf b)

/-- Executes at most `fuel` blocks, until the function returns. -/
def runBlocks (e : Image) (call : FuncId → List Value → Exec Value) (f : Func) (args : List Value) :
    Nat → Option BlockId → BlockId → Registers → Exec Value
  | 0, _, _, _ => throw .outOfFuel
  | fuel + 1, pred, b, regs => do
    match ← e.runBlock call f args pred b regs with
    | .jump target regs => e.runBlocks call f args fuel (some b) target regs
    | .ret v => return v

/-! ## Calls -/

/-- The number of blocks that a call can enter. -/
def fuel (e : Image) : Nat :=
  if e.limits.instructions = 0 then 0x10000000000000000 else e.limits.instructions.toNat + 1

/-- Calls a function while at most `depth` more calls can be nested. -/
def call (e : Image) (depth : Nat) (callee : FuncId) (args : List Value) : Exec Value := do
  if !e.program.hasFunc callee then .stuck
  let f := e.program.func callee
  if f.deleted then .fail (.noBody f.name)
  if args.length ≠ f.params.size then
    .fail (.argumentCount f.name f.params.size args.length)
  if f.external then
    match Builtin.ofName? f.name with
    | none => .fail (.noBody f.name)
    | some b => .builtin b args
  else
    match depth with
    | 0 => .fail (.depthLimit e.limits.depth)
    | depth + 1 =>
      match f.entry? with
      | none => .fail (.noBody f.name)
      | some entry => .withFrame (e.runBlocks (e.call depth) f args e.fuel none entry ∅)

/-- Calls the function of the given name. -/
def run (e : Image) (name : String) (args : List Value) : Exec Value := do
  match e.program.findFunc? name with
  | none => throw (.error (.unknownFunction name))
  | some f => e.call e.limits.depth f args

end Image

end MiddleEnd
