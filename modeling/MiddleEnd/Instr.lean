import MiddleEnd.Constant
import MiddleEnd.Handle

/-!
# Instructions

An instruction is an operation together with its operands.  Which of its fields are operands and
which name blocks is decided here once, so that use-lists, passes, the listing and the interpreter
agree on it.
-/

namespace MiddleEnd

/-- Two-operand arithmetic. -/
inductive BinaryOp
  | add
  | sub
  | mul
  | sdiv
  | srem
  | fadd
  | fsub
  | fmul
  | fdiv
  | frem
deriving DecidableEq

namespace BinaryOp

def all : List BinaryOp :=
  [add, sub, mul, sdiv, srem, fadd, fsub, fmul, fdiv, frem]

def isFloat : BinaryOp → Bool
  | fadd | fsub | fmul | fdiv | frem => true
  | _ => false

def name : BinaryOp → String
  | add => "add"
  | sub => "sub"
  | mul => "mul"
  | sdiv => "sdiv"
  | srem => "srem"
  | fadd => "fadd"
  | fsub => "fsub"
  | fmul => "fmul"
  | fdiv => "fdiv"
  | frem => "frem"

end BinaryOp

/-- The condition of a comparison: signed on integers, ordered on floats. -/
inductive Cond
  | eq
  | ne
  | gt
  | ge
  | lt
  | le
deriving DecidableEq

namespace Cond

def all : List Cond :=
  [eq, ne, gt, ge, lt, le]

def name : Cond → String
  | eq => "eq"
  | ne => "ne"
  | gt => "gt"
  | ge => "ge"
  | lt => "lt"
  | le => "le"

/-- The condition in an integer comparison. -/
def signedName : Cond → String
  | eq => "eq"
  | ne => "ne"
  | gt => "sgt"
  | ge => "sge"
  | lt => "slt"
  | le => "sle"

/-- The condition in a float comparison. -/
def orderedName (c : Cond) : String :=
  "o" ++ c.name

/-- No condition holds between operands without an order, not even inequality. -/
def holds : Cond → Option Ordering → Bool
  | _, none => false
  | eq, some o => o.isEq
  | ne, some o => o.isNe
  | gt, some o => o.isGT
  | ge, some o => o.isGE
  | lt, some o => o.isLT
  | le, some o => o.isLE

end Cond

/-- Conversions. -/
inductive CastOp
  | sitofp
  | fptosi
  | zext
  | trunc
  | bitcast
deriving DecidableEq

namespace CastOp

def all : List CastOp :=
  [sitofp, fptosi, zext, trunc, bitcast]

def name : CastOp → String
  | sitofp => "sitofp"
  | fptosi => "fptosi"
  | zext => "zext"
  | trunc => "trunc"
  | bitcast => "bitcast"

end CastOp

/-- What an instruction can read: the result of an instruction of its function, a parameter by
position, a literal, or the address of a global. -/
inductive Operand
  | inst (id : InstId)
  | arg (index : Nat)
  | const (value : Constant)
  | global (id : GlobalId)
deriving DecidableEq, Inhabited

namespace Operand

def int (v : Int32) : Operand :=
  const (.int v)

def inst? : Operand → Option InstId
  | inst i => some i
  | _ => none

def const? : Operand → Option Constant
  | const c => some c
  | _ => none

def isGlobal : Operand → Bool
  | global _ => true
  | _ => false

end Operand

/-- The value that flows into a phi from one predecessor; it is open until the predecessor has been
renamed. -/
structure PhiEntry where
  block : BlockId
  value : Option Operand
deriving DecidableEq

inductive Instr
  /-- Reserves a stack slot; the result is its address. -/
  | alloc (ty : Ty)
  | load (ptr : Operand)
  | store (value ptr : Operand)
  /-- Address arithmetic: the first offset steps over whole objects, each further one indexes one
  array dimension. -/
  | element (base : Operand) (offsets : List Operand)
  | binary (op : BinaryOp) (lhs rhs : Operand)
  | icmp (cond : Cond) (lhs rhs : Operand)
  | fcmp (cond : Cond) (lhs rhs : Operand)
  | cast (op : CastOp) (value : Operand)
  /-- A call; with a format it prints the format with the arguments in place of its directives. -/
  | call (callee : FuncId) (args : List Operand) (format : Option StrId)
  | branch (cond : Operand) (onTrue onFalse : BlockId)
  /-- A jump whose target is still open is pending. -/
  | jump (target : Option BlockId)
  | ret (value : Option Operand)
  | phi (incoming : List PhiEntry)
deriving DecidableEq

instance : Inhabited Instr := ⟨.jump none⟩

namespace Instr

/-- The operands in reading order; open phi entries have none. -/
def operands : Instr → List Operand
  | alloc _ => []
  | load p => [p]
  | store v p => [v, p]
  | element b os => b :: os
  | binary _ l r => [l, r]
  | icmp _ l r => [l, r]
  | fcmp _ l r => [l, r]
  | cast _ v => [v]
  | call _ as _ => as
  | branch c _ _ => [c]
  | jump _ => []
  | ret v => v.toList
  | phi es => es.filterMap PhiEntry.value

/-- Changes the operands in reading order. -/
def mapOperandsM {m : Type → Type} [Monad m] (f : Operand → m Operand) : Instr → m Instr
  | alloc t => pure (alloc t)
  | load p => return load (← f p)
  | store v p => return store (← f v) (← f p)
  | element b os => return element (← f b) (← os.mapM f)
  | binary o l r => return binary o (← f l) (← f r)
  | icmp c l r => return icmp c (← f l) (← f r)
  | fcmp c l r => return fcmp c (← f l) (← f r)
  | cast o v => return cast o (← f v)
  | call g as s => return call g (← as.mapM f) s
  | branch c t e => return branch (← f c) t e
  | jump t => pure (jump t)
  | ret v => return ret (← v.mapM f)
  | phi es => return phi (← es.mapM fun e => return { e with value := ← e.value.mapM f })

def mapOperands (f : Operand → Operand) : Instr → Instr
  | alloc t => alloc t
  | load p => load (f p)
  | store v p => store (f v) (f p)
  | element b os => element (f b) (os.map f)
  | binary o l r => binary o (f l) (f r)
  | icmp c l r => icmp c (f l) (f r)
  | fcmp c l r => fcmp c (f l) (f r)
  | cast o v => cast o (f v)
  | call g as s => call g (as.map f) s
  | branch c t e => branch (f c) t e
  | jump t => jump t
  | ret v => ret (v.map f)
  | phi es => phi (es.map fun e => { e with value := e.value.map f })

/-- Where a terminator can go; a pending jump goes nowhere. -/
def targets : Instr → List BlockId
  | branch _ t e => [t, e]
  | jump t => t.toList
  | _ => []

/-- The entries of a phi. -/
def entries : Instr → List PhiEntry
  | phi es => es
  | _ => []

/-- Every block named: the targets of a terminator and the predecessors of a phi. -/
def blocks : Instr → List BlockId
  | phi es => es.map PhiEntry.block
  | i => i.targets

def mapBlocks (f : BlockId → BlockId) : Instr → Instr
  | branch c t e => branch c (f t) (f e)
  | jump t => jump (t.map f)
  | phi es => phi (es.map fun e => { e with block := f e.block })
  | i => i

def isTerminator : Instr → Bool
  | branch .. | jump _ | ret _ => true
  | _ => false

def isPhi : Instr → Bool
  | phi _ => true
  | _ => false

def isPendingJump : Instr → Bool
  | jump none => true
  | _ => false

/-- Instructions that stay even if nothing reads their result. -/
def hasSideEffects : Instr → Bool
  | call .. | store .. => true
  | i => i.isTerminator

def mnemonic : Instr → String
  | alloc _ => "alloca"
  | load _ => "load"
  | store .. => "store"
  | element .. => "getelementptr"
  | binary o .. => o.name
  | icmp .. => "icmp"
  | fcmp .. => "fcmp"
  | cast o _ => o.name
  | call .. => "call"
  | branch .. => "br"
  | jump _ => "br"
  | ret _ => "ret"
  | phi _ => "phi"

end Instr

end MiddleEnd
