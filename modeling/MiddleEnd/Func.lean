import MiddleEnd.BitSet
import MiddleEnd.Instr

/-!
# Functions

A function owns its instructions and blocks in arrays.  Neither is ever taken out: a removed
instruction is marked dead and a removed block deleted, so handles stay valid.  Each instruction
and parameter lists the instructions that use it, once per operand that names it.

The instructions of a block form a chain: the block knows the first and the last of them, and each
instruction knows its neighbours.  The edges and dominance facts of a block are derived data: they
are those of the last analysis, and editing a function does not update them.
-/

namespace MiddleEnd

structure InstRecord where
  instr : Instr
  /-- The type of the result, `void` without one. -/
  ty : Ty
  /-- The block that the instruction belongs to, or last belonged to. -/
  block : BlockId
  /-- The instruction before this one in its chain. -/
  prev : Option InstId := none
  /-- The instruction after this one in its chain. -/
  next : Option InstId := none
  users : List InstId := []
  live : Bool := true
deriving DecidableEq

instance : Inhabited InstRecord :=
  ⟨{ instr := .jump none, ty := .void, block := ⟨0⟩, live := false }⟩

structure Param where
  ty : Ty
  users : List InstId := []
deriving DecidableEq, Inhabited

/-- What the last dominance analysis found out about a block. -/
structure DominanceFacts where
  idom : Option BlockId := none
  dominators : BitSet := .empty 0
  frontier : List BlockId := []
  children : List BlockId := []
deriving DecidableEq, Inhabited

structure Block where
  label : String
  first : Option InstId := none
  last : Option InstId := none
  /-- The number of instructions put into the block less the number taken out of it. -/
  length : Nat := 0
  deleted : Bool := false
  preds : List BlockId := []
  succs : List BlockId := []
  dominance : DominanceFacts := {}
deriving DecidableEq, Inhabited

structure Func where
  name : String
  ret : Ty
  params : Array Param
  /-- Declared only. -/
  external : Bool := false
  /-- Retired: no longer listed, optimized or run. -/
  deleted : Bool := false
  insts : Array InstRecord := #[]
  blocks : Array Block := #[]
  /-- The blocks in the order in which they are listed, deleted ones included. -/
  layout : List BlockId := []
deriving DecidableEq, Inhabited

def Block.isDominatedBy (b : Block) (a : BlockId) : Bool :=
  b.dominance.dominators.contains a.idx

namespace Func

/-- A function without blocks. -/
def new (name : String) (ret : Ty) (params : List Ty) : Func :=
  { name, ret, params := (params.map fun t => { ty := t }).toArray }

def signature (f : Func) : Ty :=
  .function f.ret (f.params.toList.map Param.ty)

/-- A function with a body that passes work on. -/
def isDefined (f : Func) : Bool :=
  !f.external && !f.deleted

/-! ## Blocks and instructions -/

def hasInst (f : Func) (i : InstId) : Bool :=
  i.idx < f.insts.size

def hasBlock (f : Func) (b : BlockId) : Bool :=
  b.idx < f.blocks.size

def inst (f : Func) (i : InstId) : InstRecord :=
  f.insts.getD i.idx default

def instr (f : Func) (i : InstId) : Instr :=
  (f.inst i).instr

def block (f : Func) (b : BlockId) : Block :=
  f.blocks.getD b.idx default

/-- The label of the block of an instruction. -/
def labelOf (f : Func) (i : InstId) : String :=
  (f.block (f.inst i).block).label

/-- The first block created is the entry. -/
def entry? (f : Func) : Option BlockId :=
  if f.blocks.isEmpty then none else some ⟨0⟩

/-- The handle of the next instruction. -/
def nextInst (f : Func) : InstId :=
  ⟨f.insts.size⟩

/-- The handle of the next block. -/
def nextBlock (f : Func) : BlockId :=
  ⟨f.blocks.size⟩

/-- The instructions from `i` on, each followed by its `next`, at most as many as the number given
first. -/
def chainFrom (f : Func) : Nat → Option InstId → List InstId
  | 0, _ => []
  | _ + 1, none => []
  | fuel + 1, some i => i :: f.chainFrom fuel (f.inst i).next

/-- The instructions from `i` on in its chain.  A chain holds no instruction twice, so it is not
longer than the number of instructions. -/
def chain (f : Func) (i : Option InstId) : List InstId :=
  f.chainFrom f.insts.size i

/-- The instructions of a block in order. -/
def instsOf (f : Func) (b : BlockId) : List InstId :=
  f.chain (f.block b).first

/-- The instructions after `i` in its block. -/
def instsAfter (f : Func) (i : InstId) : List InstId :=
  f.chain (f.inst i).next

def liveBlocks (f : Func) : List BlockId :=
  f.layout.filter fun b => !(f.block b).deleted

/-- The instructions of the live blocks, in layout order. -/
def liveInsts (f : Func) : List InstId :=
  f.liveBlocks.flatMap f.instsOf

/-- The number of instructions that have not been removed. -/
def instCount (f : Func) : Nat :=
  f.insts.toList.countP InstRecord.live

/-- The last instruction of a block, if it is a terminator. -/
def terminator? (f : Func) (b : BlockId) : Option InstId :=
  (f.block b).last.filter fun i => (f.instr i).isTerminator

/-- The phis at the start of a block. -/
def phis (f : Func) (b : BlockId) : List InstId :=
  (f.instsOf b).takeWhile fun i => (f.instr i).isPhi

/-! ## Values -/

/-- The type of a value; that of a global is known to the program only. -/
def typeOf? (f : Func) : Operand → Option Ty
  | .inst i => some (f.inst i).ty
  | .arg n => f.params[n]?.map Param.ty
  | .const c => some c.ty
  | .global _ => none

/-- Are the uses of the value recorded?  Those of literals and globals are not. -/
def tracks (f : Func) : Operand → Bool
  | .inst i => f.hasInst i
  | .arg n => n < f.params.size
  | _ => false

def users (f : Func) : Operand → List InstId
  | .inst i => (f.inst i).users
  | .arg n => (f.params.getD n default).users
  | _ => []

/-- Does the operand name an instruction only if there is one? -/
def admits (f : Func) : Operand → Bool
  | .inst i => f.hasInst i
  | _ => true

/-- Can a new instruction have the operand?  It may use its own result. -/
def admitsNew (f : Func) : Operand → Bool
  | .inst i => i.idx ≤ f.insts.size
  | _ => true

end Func

end MiddleEnd
