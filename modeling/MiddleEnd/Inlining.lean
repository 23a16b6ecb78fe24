import MiddleEnd.CallGraph
import MiddleEnd.Transform

/-!
# Inlining

A call of a function that does not reach itself through calls is replaced by a copy of its body:

* the block of the call is split, and what follows the call goes to a new block;
* the blocks of the callee are copied between the two, arguments take the place of parameters, and
  returns become jumps to the new block;
* the slots of the copy move to the entry of the caller, and the copy starts by clearing them, so
  that each execution of it finds fresh slots;
* the returned values meet in a phi at the start of the new block.

Callers are treated after their callees.  A function that nothing calls any more after it has been
inlined is retired, except `main`.
-/

namespace MiddleEnd.Inlining

def name : String :=
  "inlining"

def description : String :=
  "Inlines calls to non-recursive functions and retires fully inlined ones"

/-! ## Copies -/

/-- A copy of a function within another one.  Its blocks and instructions are numbered in the order
in which the callee lists them. -/
structure Copy where
  callee : Func
  args : List Operand
  firstBlock : Nat
  firstInst : Nat
  /-- Where control goes when the callee returns. -/
  after : BlockId

namespace Copy

def block (c : Copy) (b : BlockId) : BlockId :=
  ⟨c.firstBlock + c.callee.layout.idxOf b⟩

/-- The copy of an instruction, unless it is not listed in a live block. -/
def inst? (c : Copy) (i : InstId) : Option InstId :=
  (c.callee.liveInsts.idxOf? i).map fun n => ⟨c.firstInst + n⟩

def operand (c : Copy) (v : Operand) : Operand :=
  match v with
  | .inst i => ((c.inst? i).map .inst).getD v
  | .arg n => (c.args[n]?).getD v
  | v => v

/-- The operation of a copied instruction. -/
def instr (c : Copy) (i : Instr) : Instr :=
  match (i.mapOperands c.operand).mapBlocks c.block with
  | .ret _ => .jump (some c.after)
  | i => i

/-- The listed instructions of the callee, each with its copy. -/
def insts (c : Copy) : List (InstId × InstId) :=
  (c.callee.liveInsts.zipIdx c.firstInst).map fun (i, n) => (i, ⟨n⟩)

/-- The copies of the slots of the callee. -/
def slots (c : Copy) : List InstId :=
  c.insts.filterMap fun (i, copy) => match c.callee.instr i with
    | .alloc _ => some copy
    | _ => none

/-- The values returned, each with the block where that happens. -/
def returned (c : Copy) : List PhiEntry :=
  c.callee.liveInsts.filterMap fun i => match c.callee.instr i with
    | .ret (some v) =>
      some { block := c.block (c.callee.inst i).block, value := some (c.operand v) }
    | _ => none

end Copy

/-! ## Splitting the caller -/

/-- Where control can go from the block of a call. -/
def targetsAfter (f : Func) (call : InstId) : List BlockId :=
  match (f.instsAfter call).getLast? with
  | some last => (f.instr last).targets
  | none => []

/-- Moves what follows a call to a new block. -/
def splitAtCall (f : Func) (call : InstId) (label : String) : Func :=
  (targetsAfter f call).foldl (fun g b => g.replacePred b (f.inst call).block f.nextBlock)
    ((f.addBlock label).splitAfter call f.nextBlock)

def copyLabel (caller callee : Func) (b : BlockId) (n : Nat) : String :=
  caller.name ++ "_" ++ callee.name ++ "_" ++ (callee.block b).label ++ "_" ++ toString n

/-- Adds an empty copy of each block of the callee, one after the other behind `prev`, and gives the
last block. -/
def addCopies (callee : Func) (f : Func) (n : Nat) (prev : BlockId) : List BlockId → BlockId × Func
  | [] => (prev, f)
  | b :: bs =>
    let copy := f.nextBlock
    let g := (f.addBlock (copyLabel f callee b n)).placeAfter copy prev
    addCopies callee (if (callee.block b).deleted then g.deleteBlock copy else g) (n + 1) copy bs

/-! ## Copying instructions -/

/-- Adds an instruction for each listed one of the callee.  Operands can name instructions that come
later, so the operations are filled in when all instructions are there. -/
def addPlaceholders (c : Copy) (f : Func) : Func :=
  c.callee.liveInsts.foldl (fun f i =>
    f.append (c.block (c.callee.inst i).block) (.phi []) (c.callee.inst i).ty) f

def fillPlaceholders (c : Copy) (f : Func) : Func :=
  c.insts.foldl (fun f (i, copy) => f.replaceInstr copy (c.instr (c.callee.instr i))) f

/-- Do all copied instructions name blocks of the callee and operands that exist in `f`? -/
def copiesInRange (c : Copy) (f : Func) : Bool :=
  c.callee.liveInsts.all fun i => (c.callee.instr i).blocks.all c.callee.hasBlock &&
    (c.instr (c.callee.instr i)).operands.all f.admits

/-- Moves the slots of the copy to the front of the caller. -/
def hoistSlots (c : Copy) (entry : BlockId) (f : Func) : Func :=
  c.slots.reverse.foldl (fun f slot => f.moveToFront slot entry) f

/-! ## Clearing slots -/

/-- The size of an object in bytes, if it is a 32-bit number. -/
def byteSize? (t : Ty) : Option Int32 :=
  if t.cells * 4 < 0x80000000 then some (.ofNat (t.cells * 4)) else none

/-- Clears a slot before the instruction `first`: a scalar by a store of its zero, an array with
`memset`. -/
def clearSlot (memset : Option FuncId) (first slot : InstId) : Transform Unit := do
  let f ← .func
  match f.instr slot with
  | .alloc t =>
    match Constant.zero? t, memset, byteSize? t with
    | some zero, _, _ => .edit (·.insertBefore first (.store (.const zero) (.inst slot)) .void)
    | none, none, _ => throw (.internal (.noFillDeclared slot f.name))
    | none, some _, none => throw (.internal (.slotTooLarge slot))
    | none, some memset, some size =>
      let raw := f.nextInst
      .edit (·.insertBefore first (.cast .bitcast (.inst slot)) (.pointer .i32))
      .edit (·.insertBefore first
        (.call memset [.inst raw, .int 0, .int size] none) .void)
  | _ => pure ()

/-- Clears slots at the start of a block. -/
def clearSlots (memset : Option FuncId) (slots : List InstId) (b : BlockId) : Transform Unit := do
  let f ← .func
  match (f.block b).first with
  | none => throw (.internal (.emptyInlinedEntry (f.block b).label f.name))
  | some first => slots.forM (clearSlot memset first)

/-! ## Results -/

/-- The value of the call, if the callee returns one.  Several returns meet in a phi. -/
def mergeReturns (c : Copy) : Transform (Option Operand) := do
  if c.callee.ret = .void then return none
  match c.returned with
  | [] => return (Constant.zero? c.callee.ret).map .const
  | [entry] => return entry.value
  | entries =>
    let f ← .func
    if !(Instr.phi entries).operands.all f.admitsNew then throw .outOfRange
    .setFunc (f.prepend c.after (.phi entries) c.callee.ret)
    return some (.inst f.nextInst)

/-- Makes the users of the call use its value. -/
def replaceResult (c : Copy) (call : InstId) (value : Option Operand) : Transform Unit := do
  let f ← .func
  match value with
  | some v =>
    if f.admits v then .setFunc (f.replaceUses (.inst call) v).2 else throw .outOfRange
  | none =>
    if !(f.inst call).users.isEmpty then
      throw (.internal (.usedVoidResult call f.name c.callee.name))

/-! ## Call sites -/

/-- A call that can be replaced by a copy of its callee. -/
structure Site where
  call : InstId
  args : List Operand
  callee : Func
  calleeEntry : BlockId
  callerEntry : BlockId

def site (caller : Func) (call : InstId) (callee : Func) : Except Defect Site :=
  match caller.instr call, callee.entry?, caller.entry? with
  | .call _ args _, some calleeEntry, some callerEntry =>
    .ok { call, args, callee, calleeEntry, callerEntry }
  | .call .., none, _ => .error (.inlinedDeclaration callee.name)
  | .call .., _, none => .error (.callerWithoutBody caller.name)
  | _, _, _ => .error (.notACall call caller.name)

/-- The number of labels that a copy of a function takes. -/
def labelCount (callee : Func) : Nat :=
  callee.layout.length + 1

/-- Replaces a call by a copy of its callee.  Its labels are numbered from `n` on. -/
def expand (s : Site) (n : Nat) (memset : Option FuncId) : Transform Unit := do
  let f ← .func
  let c : Copy :=
    { callee := s.callee, args := s.args, firstBlock := f.blocks.size + 1,
      firstInst := f.insts.size, after := f.nextBlock }
  let split := splitAtCall f s.call (blockLabel f.name n)
  if !(targetsAfter f s.call).all split.hasBlock then throw .outOfRange
  let (last, g) := addCopies s.callee split (n + 1) (f.inst s.call).block s.callee.layout
  let g := addPlaceholders c (g.placeAfter c.after last)
  if !copiesInRange c g then throw .outOfRange
  .setFunc (hoistSlots c s.callerEntry (fillPlaceholders c g))
  clearSlots memset c.slots (c.block s.calleeEntry)
  replaceResult c s.call (← mergeReturns c)
  .edit fun g =>
    (g.replaceInstr s.call (.jump (some (c.block s.calleeEntry)))).setType s.call .void

/-! ## The pass -/

def isInlinable (p : Program) (graph : CallGraph) (threshold : Option Nat) (caller callee : FuncId) :
    Bool :=
  let f := p.func callee
  callee ≠ caller && !graph.isRecursive callee && f.isDefined && f.entry?.isSome &&
    threshold.all (f.instCount ≤ ·)

/-- The calls of a function that are inlined, with their callees. -/
def candidates (p : Program) (graph : CallGraph) (threshold : Option Nat) (caller : FuncId) :
    List (InstId × FuncId) :=
  let f := p.func caller
  if f.isDefined then
    f.liveInsts.filterMap fun i => match f.instr i with
      | .call callee _ _ =>
        if isInlinable p graph threshold caller callee then some (i, callee) else none
      | _ => none
  else []

/-- A copy of a function without its unreachable blocks. -/
def reachablePart (f : Func) : Except Error Func :=
  match f.connect with
  | (.error e, _) => .error e
  | (.ok _, f) =>
    match f.prune with
    | (.error e, _) => .error e
    | (.ok _, f) => .ok f

/-- Has the function a slot that cannot be cleared with a store? -/
def needsFill (f : Func) : Bool :=
  f.liveInsts.any fun i => match f.instr i with
    | .alloc t => (Constant.zero? t).isNone
    | _ => false

/-- Declares `memset`. -/
def declareFill : Compile FuncId := do
  let (f, s) := (← get).builtin .memset
  set { s with program := s.program.intern (.pointer .i32) }
  return f

/-- The function that clears the slots of a copy, if a store cannot. -/
def fillFor (body : Func) : Compile (Option FuncId) :=
  if needsFill body then some <$> declareFill else pure none

/-- Reserves labels for a copy and gives the number of the first. -/
def reserveLabels (caller : FuncId) (count : Nat) : Compile Nat := do
  let n := (← get).context.labelNumber caller
  modify fun s => { s with context := s.context.setLabelNumber caller (n + count) }
  return n

def inlineCall (caller : FuncId) (call : InstId) (callee : FuncId) : Compile Unit := do
  let body ← .lift (reachablePart ((← .program).func callee))
  let memset ← fillFor body
  let f := (← .program).func caller
  let s ← .lift ((site f call body).mapError .internal)
  let n ← reserveLabels caller (labelCount body)
  .transform caller (expand s n memset)
  .record (f.instEvent name .functionInlined call
    (body.name ++ " (" ++ toString body.instCount ++ " instructions)"))
  modify fun s => { s with context := s.context.markInlined callee }

/-- Inlines the calls of a function, and gives the functions called. -/
def inlineInto (graph : CallGraph) (threshold : Option Nat) (caller : FuncId) :
    Compile (List FuncId) := do
  let calls := candidates (← .program) graph threshold caller
  calls.forM fun (call, callee) => inlineCall caller call callee
  return calls.map Prod.snd

/-- Is the function called from a function that is in use? -/
def isCalled (p : Program) (f : FuncId) : Bool :=
  p.funcs.any fun g => g.isDefined && g.calls.contains f

def retire (f : FuncId) : Compile Unit := do
  let func := (← .program).func f
  modify fun s => { s.setFunc f { func with deleted := true } with
    context := s.context.markRetired f }
  .record { kind := .functionMarkedDead, func := some func.name, pass := some name,
            message := "every call site was inlined" }

/-- Inlines every call that can be, of callees with at most `threshold` instructions, and gives the
functions called. -/
def inlineAll (threshold : Option Nat) : Compile (List FuncId) := do
  let graph ← .lift (CallGraph.ofProgram (← .program))
  graph.bottomUp.flatMapM (inlineInto graph threshold)

/-- Inlines every call that can be and retires the functions that nothing calls any more.  Tells
whether there was such a call. -/
def run (threshold : Option Nat) : Compile Bool := do
  let inlined ← inlineAll threshold
  let p ← .program
  let unused := p.funcIds.filter fun f =>
    inlined.contains f && !isCalled p f && (p.func f).name ≠ "main"
  unused.forM retire
  return !inlined.isEmpty

end MiddleEnd.Inlining
