import MiddleEnd.Func

/-!
# Instruction chains

An instruction is put into the chain of a block, or taken out of it, by changing its neighbours; at
an end of the chain the block takes the place of the missing neighbour.  The rest of the chain is
not looked at.  So an instruction without neighbours counts as the only one of its block, and
taking it out leaves the block without a first and a last instruction.
-/

namespace MiddleEnd.Func

def modifyInst (f : Func) (i : InstId) (g : InstRecord → InstRecord) : Func :=
  { f with insts := f.insts.modify i.idx g }

def modifyBlock (f : Func) (b : BlockId) (g : Block → Block) : Func :=
  { f with blocks := f.blocks.modify b.idx g }

/-- What comes after `prev` in the block, which is the first instruction without a `prev`. -/
def successor (f : Func) (b : BlockId) (prev : Option InstId) : Option InstId :=
  match prev with
  | some p => (f.inst p).next
  | none => (f.block b).first

/-- Makes `next` come after `prev`; without a `prev` it is the first instruction of the block. -/
def setNext (f : Func) (b : BlockId) (prev next : Option InstId) : Func :=
  match prev with
  | some p => f.modifyInst p fun r => { r with next }
  | none => f.modifyBlock b fun d => { d with first := next }

/-- Makes `prev` come before `next`; without a `next` it is the last instruction of the block. -/
def setPrev (f : Func) (b : BlockId) (prev next : Option InstId) : Func :=
  match next with
  | some n => f.modifyInst n fun r => { r with prev }
  | none => f.modifyBlock b fun d => { d with last := prev }

/-- Puts an instruction without neighbours into a block, directly after `prev`, or at the start
without one. -/
def link (f : Func) (b : BlockId) (prev : Option InstId) (i : InstId) : Func :=
  let next := f.successor b prev
  let f := f.modifyInst i fun r => { r with block := b, prev, next }
  let f := (f.setNext b prev (some i)).setPrev b (some i) next
  f.modifyBlock b fun d => { d with length := d.length + 1 }

/-- Takes an instruction out of its block; its neighbours become neighbours. -/
def unlink (f : Func) (i : InstId) : Func :=
  let r := f.inst i
  let f := (f.setNext r.block r.prev r.next).setPrev r.block r.prev r.next
  let f := f.modifyBlock r.block fun d => { d with length := d.length - 1 }
  f.modifyInst i fun r => { r with prev := none, next := none }

/-- Puts an instruction at the end of a block. -/
def linkLast (f : Func) (b : BlockId) (i : InstId) : Func :=
  f.link b (f.block b).last i

/-- Moves an instruction to the start of a block. -/
def moveToFront (f : Func) (i : InstId) (b : BlockId) : Func :=
  (f.unlink i).link b none i

/-- Moves an instruction to the end of a block. -/
def moveToBack (f : Func) (i : InstId) (b : BlockId) : Func :=
  (f.unlink i).linkLast b i

/-- Moves all instructions after `i` to the end of a block, one by one. -/
def splitAfter (f : Func) (i : InstId) (into : BlockId) : Func :=
  (f.instsAfter i).foldl (fun f j => f.moveToBack j into) f

end MiddleEnd.Func
