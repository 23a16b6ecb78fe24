import MiddleEnd.Func.Edit

/-!
# Edit histories

The edits that can be made to a function from outside, as data, and what each of them answers.  An
edit is refused if it names an instruction or block that the function does not have.
-/

namespace MiddleEnd

inductive Edit
  | addBlock (label : String)
  | append (block : BlockId) (instr : Instr) (ty : Ty)
  | prepend (block : BlockId) (instr : Instr) (ty : Ty)
  | insertBefore (before : InstId) (instr : Instr) (ty : Ty)
  | remove (inst : InstId)
  | replaceInstr (inst : InstId) (instr : Instr)
  | replaceUses (old new : Operand)
  | fillPhi (phi : InstId) (pred : BlockId) (value : Operand)
  | retainEntries (phi : InstId) (keep : List BlockId)
  | replacePred (block old new : BlockId)
  | splitAfter (inst : InstId) (into : BlockId)
  | moveToFront (inst : InstId) (block : BlockId)
  | deleteBlock (block : BlockId)

inductive Reply
  | done
  | block (id : BlockId)
  | inst (id : InstId)
  | count (n : Nat)
  | flag (b : Bool)
  | insts (ids : List InstId)

namespace Edit

/-- Do the handles of an edit name something?  A new instruction may use itself, and the block that
takes the rest of another one is looked at only if there is a rest. -/
def inRange (f : Func) : Edit → Bool
  | addBlock _ => true
  | append b i _ => f.hasBlock b && i.operands.all f.admitsNew
  | prepend b i _ => f.hasBlock b && i.operands.all f.admitsNew
  | insertBefore j i _ => f.hasInst j && i.operands.all f.admitsNew
  | remove i => f.hasInst i
  | replaceInstr j i => f.hasInst j && i.operands.all f.admits
  | replaceUses old new => old = new || (f.admits old && f.admits new)
  | fillPhi p b v => f.hasInst p && (f.admits v || !(f.fillPhi p b v).1)
  | retainEntries p _ => f.hasInst p
  | replacePred b _ _ => f.hasBlock b
  | splitAfter i b => f.hasInst i && (f.hasBlock b || (f.instsAfter i).isEmpty)
  | moveToFront i b => f.hasInst i && f.hasBlock b
  | deleteBlock b => f.hasBlock b

/-- Makes the edit and answers it. -/
def apply (f : Func) : Edit → Reply × Func
  | addBlock l => (.block f.nextBlock, f.addBlock l)
  | append b i t => (.inst f.nextInst, f.append b i t)
  | prepend b i t => (.inst f.nextInst, f.prepend b i t)
  | insertBefore j i t => (.inst f.nextInst, f.insertBefore j i t)
  | remove i => (.done, f.remove i)
  | replaceInstr j i => (.done, f.replaceInstr j i)
  | replaceUses old new =>
    let (n, f) := f.replaceUses old new
    (.count n, f)
  | fillPhi p b v =>
    let (filled, f) := f.fillPhi p b v
    (.flag filled, f)
  | retainEntries p keep =>
    let (n, f) := f.retainEntries p keep.contains
    (.count n, f)
  | replacePred b old new => (.done, f.replacePred b old new)
  | splitAfter i b => (.insts (f.instsAfter i), f.splitAfter i b)
  | moveToFront i b => (.done, f.moveToFront i b)
  | deleteBlock b => (.done, f.deleteBlock b)

def perform (f : Func) (e : Edit) : Except Error (Reply × Func) :=
  if e.inRange f then .ok (e.apply f) else .error .outOfRange

end Edit

end MiddleEnd
