import MiddleEnd.Constant.Fold
import MiddleEnd.Context
import MiddleEnd.Func.Edit

/-!
# Building function bodies

A builder appends instructions to one function.  It keeps the conventions that the passes rely on:

* stack slots are placed at the front of the entry block;
* operations on literals are folded and add no instruction;
* what follows a terminator goes to a fresh block, which nothing reaches;
* a jump whose target is not known yet is pending until it is resolved;
* finishing ends every open block with a return and refuses pending jumps.
-/

namespace MiddleEnd

structure Builder where
  session : Session
  func : FuncId
  /-- The block that receives instructions. -/
  current : BlockId
  /-- The jumps of this builder that have not been resolved, oldest first. -/
  pending : List InstId := []

/-- A step of construction; a step that fails changes nothing. -/
abbrev Build := StateT Builder (Except Error)

/-- What is returned where control falls off the end of a function. -/
def defaultReturn (ret : Ty) : Option Operand :=
  (Constant.zero? ret).map .const

namespace Builder

def body (b : Builder) : Func :=
  b.session.program.func b.func

def setBody (b : Builder) (f : Func) : Builder :=
  { b with session := b.session.setFunc b.func f }

def intern (b : Builder) (t : Ty) : Builder :=
  { b with session := { b.session with program := b.session.program.intern t } }

/-- Opens a builder at the entry of a function, which is created if there is none. -/
def start (s : Session) (f : FuncId) : Except Error Builder :=
  let body := s.program.func f
  if !s.program.hasFunc f then .error .outOfRange
  else if body.external then .error (.builder (.externalBody body.name))
  else match body.entry? with
    | some entry => .ok { session := s, func := f, current := entry }
    | none =>
      let (label, s) := s.freshLabel f
      .ok { session := s.setFunc f (body.addBlock label), func := f, current := body.nextBlock }

end Builder

namespace Build

def require (condition : Bool) : Build Unit :=
  if condition then pure () else throw .outOfRange

/-! ## Blocks -/

/-- Adds a block without switching to it. -/
def createBlock : Build BlockId := do
  let b ← get
  let (label, s) := b.session.freshLabel b.func
  set ({ b with session := s }.setBody (b.body.addBlock label))
  return b.body.nextBlock

def switchTo (block : BlockId) : Build Unit :=
  modify fun b => { b with current := block }

/-- Does the current block end in a terminator? -/
def isTerminated : Build Bool := do
  let b ← get
  require (b.body.hasBlock b.current)
  return (b.body.terminator? b.current).isSome

/-! ## Instructions -/

/-- Adds an instruction at the end of the current block, or in a fresh block after a terminator. -/
def emitInst (instr : Instr) (ty : Ty) : Build InstId := do
  if ← isTerminated then
    switchTo (← createBlock)
  let b ← get
  require (instr.operands.all b.body.admitsNew)
  set (b.setBody (b.body.append b.current instr ty))
  return b.body.nextInst

def emit (instr : Instr) (ty : Ty) : Build Operand :=
  return .inst (← emitInst instr ty)

def typeOf (v : Operand) : Build Ty := do
  let b ← get
  require (b.session.program.admits b.body v)
  return b.session.program.typeOf b.body v

def pointeeOf (ptr : Operand) : Build Ty := do
  let t ← typeOf ptr
  match t.pointee? with
  | some s => return s
  | none => throw (.builder (.notAPointer t))

/-- Reserves a stack slot. -/
def alloc (ty : Ty) : Build Operand := do
  modify (·.intern (.pointer ty))
  let b ← get
  let entry := b.body.entry?.getD b.current
  set (b.setBody (b.body.prepend entry (.alloc ty) (.pointer ty)))
  return .inst b.body.nextInst

def load (ptr : Operand) : Build Operand := do
  emit (.load ptr) (← pointeeOf ptr)

def store (value ptr : Operand) : Build Unit := do
  let _ ← pointeeOf ptr
  let _ ← emit (.store value ptr) .void

/-- Stores every argument into a slot of its own, and gives the slots. -/
def spillArguments : Build (List Operand) := do
  let params := (← get).body.params.toList
  params.zipIdx.mapM fun (p, n) => do
    let slot ← alloc p.ty
    store (.arg n) slot
    return slot

/-- The type reached from `t` by `n` array indices. -/
def indexed? (t : Ty) : Nat → Option Ty
  | 0 => some t
  | n + 1 => t.arrayParts?.bind fun (_, elem) => indexed? elem n

/-- The address of an element. -/
def element (base : Operand) (offsets : List Operand) : Build Operand := do
  let t ← pointeeOf base
  match indexed? t (offsets.length - 1) with
  | none => throw (.builder .indexesNonArray)
  | some elem =>
    modify (·.intern (.pointer elem))
    emit (.element base offsets) (.pointer elem)

/-- Adds an instruction unless it can be folded. -/
def emitFolded (instr : Instr) (ty : Ty) : Build Operand :=
  match instr.fold? ty with
  | some c => return .const c
  | none => emit instr ty

def binary (op : BinaryOp) (lhs rhs : Operand) : Build Operand :=
  emitFolded (.binary op lhs rhs) (if op.isFloat then .float else .i32)

def icmp (cond : Cond) (lhs rhs : Operand) : Build Operand :=
  emitFolded (.icmp cond lhs rhs) .i1

def fcmp (cond : Cond) (lhs rhs : Operand) : Build Operand :=
  emitFolded (.fcmp cond lhs rhs) .i1

def cast (op : CastOp) (value : Operand) (ty : Ty) : Build Operand :=
  emitFolded (.cast op value) ty

/-! ## Calls -/

def call (callee : FuncId) (args : List Operand) : Build Operand := do
  let program := (← get).session.program
  require (program.hasFunc callee)
  emit (.call callee args none) (program.func callee).ret

def builtin (f : Builtin) : Build FuncId := do
  let b ← get
  let (id, s) := b.session.builtin f
  set { b with session := s }
  return id

def callBuiltin (f : Builtin) (args : List Operand) : Build Operand := do
  call (← builtin f) args

/-- A formatted print. -/
def print (format : String) (args : List Operand) : Build Operand := do
  let callee ← builtin .printf
  let b ← get
  let (id, program) := b.session.program.addString format
  set { b with session := { b.session with program } }
  emit (.call callee args (some id)) .void

/-- Fills the object behind a pointer with zeros. -/
def zeroFill (ptr : Operand) : Build Unit := do
  let bytes := (← pointeeOf ptr).cells * 4
  if 0x80000000 ≤ bytes then throw (.builder .tooLargeToFill)
  modify (·.intern (.pointer .i32))
  let raw ← cast .bitcast ptr (.pointer .i32)
  let _ ← callBuiltin .memset [raw, .int 0, .int (.ofNat bytes)]

/-! ## Terminators -/

def jump (target : BlockId) : Build Unit := do
  let _ ← emit (.jump (some target)) .void

/-- A branch; on a literal it is a jump to the side that is taken. -/
def branch (cond : Operand) (onTrue onFalse : BlockId) : Build Unit :=
  match cond.const? with
  | some c => jump (if c.isZero then onFalse else onTrue)
  | none => do
    let _ ← emit (.branch cond onTrue onFalse) .void

/-- A jump whose target is given later. -/
def pendingJump : Build InstId := do
  let i ← emitInst (.jump none) .void
  modify fun b => { b with pending := b.pending ++ [i] }
  return i

/-- Gives a pending jump its target. -/
def resolve (i : InstId) (target : BlockId) : Build Unit := do
  let b ← get
  require (b.body.hasInst i)
  if (b.body.instr i).isPendingJump then
    set { b.setBody (b.body.replaceInstr i (.jump (some target))) with
      pending := b.pending.filter (· ≠ i) }
  else throw (.builder (.notPending i))

def ret (value : Option Operand) : Build Unit := do
  let _ ← emit (.ret value) .void

/-- Ends every open block with a return.  The oldest pending jump is an error. -/
def finish : Build Unit := do
  let b ← get
  let f := b.body
  match b.pending with
  | i :: _ => throw (.pendingJump f.name (f.labelOf i))
  | [] =>
    let opened := f.liveBlocks.filter fun c => (f.terminator? c).isNone
    set (b.setBody (opened.foldl (fun f c => f.append c (.ret (defaultReturn f.ret)) .void) f))

end Build

end MiddleEnd
