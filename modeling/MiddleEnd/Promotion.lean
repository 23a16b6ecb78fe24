import MiddleEnd.Constant.Fold
import MiddleEnd.Flow.Dominance
import MiddleEnd.Transform

/-!
# Promotion of stack slots

A slot that holds a scalar and is only loaded from and stored to need not be in memory.  Its
promotion

* puts an open phi at the start of each block of the iterated dominance frontier of its stores;
* walks the dominator tree with the current value of each slot: a store sets the value, a load is
  replaced by it, and a block fills its entry in the phis of its successors;
* removes the slot, the phis that no other instruction depends on, and the instructions that can
  be folded now.
-/

namespace MiddleEnd.Promotion

def name : String :=
  "mem2reg"

def description : String :=
  "Promotes non-escaping stack slots to SSA values with phis"

/-! ## Slots -/

structure Slot where
  alloc : InstId
  ty : Ty
  /-- What a load gives if no store comes before it. -/
  zero : Constant
deriving DecidableEq

/-- Is the instruction a load from the slot, or a store of another value to it? -/
def isAccess (slot : InstId) : Instr → Bool
  | .load ptr => ptr = .inst slot
  | .store value ptr => ptr = .inst slot ∧ value ≠ .inst slot
  | _ => false

/-- The type of the slot that an instruction allocates, if the slot can be promoted. -/
def promotable? (f : Func) (i : InstId) : Option Ty :=
  match f.instr i with
  | .alloc t =>
    if !t.isArray && (f.inst i).users.all fun u => isAccess i (f.instr u) then some t else none
  | _ => none

def slotOf (f : Func) (i : InstId) (t : Ty) : Except Error Slot :=
  match Constant.zero? t with
  | some zero => .ok { alloc := i, ty := t, zero }
  | none => .error (.internal (.slotWithoutZero i f.name t))

/-- The slots that can be promoted, in layout order. -/
def slots (f : Func) : Except Error (List Slot) :=
  (f.liveInsts.filterMap fun i => (promotable? f i).map (i, ·)).mapM fun (i, t) => slotOf f i t

/-! ## Phis -/

/-- Which slot each inserted phi stands for, in the order of insertion. -/
abbrev SlotPhis := List (InstId × InstId)

def isStore : Instr → Bool
  | .store .. => true
  | _ => false

/-- The blocks that store to a slot. -/
def storingBlocks (f : Func) (slot : InstId) : List Nat :=
  ((f.inst slot).users.filter fun u => isStore (f.instr u)).map fun u => (f.inst u).block.idx

/-- The blocks where a slot needs a phi. -/
def phiBlocks (f : Func) (slot : InstId) : List BlockId :=
  let frontiers := f.blocks.map fun b => b.dominance.frontier.map BlockId.idx
  (Graph.iteratedFrontier frontiers (storingBlocks f slot)).toList.map .mk

/-- A phi with an open entry for each predecessor. -/
def openPhi (f : Func) (b : BlockId) : Instr :=
  .phi ((f.block b).preds.map fun pred => { block := pred, value := none })

def insertPhi (slot : Slot) (b : BlockId) : Transform (InstId × InstId) := do
  let f ← .func
  let phi := f.nextInst
  .setFunc (f.prepend b (openPhi f b) slot.ty)
  .record (f.event name .phiInserted b (phi.text ++ " for slot " ++ slot.alloc.text))
  return (phi, slot.alloc)

def insertPhis (slots : List Slot) : Transform SlotPhis :=
  slots.flatMapM fun slot => do
    (phiBlocks (← .func) slot.alloc).mapM (insertPhi slot)

/-! ## Renaming -/

/-- The current value of each slot; an earlier entry hides later ones. -/
abbrev Values := List (InstId × Operand)

/-- The current value of the slot that a pointer is the address of. -/
def Values.at? (values : Values) : Operand → Option (InstId × Operand)
  | .inst i => (values.lookup i).map (i, ·)
  | _ => none

/-- The state in the middle of a block: the function, the current values, and the instructions that
have a new literal operand. -/
structure Renaming where
  func : Func
  values : Values
  foldable : List InstId := []

def Renaming.set (r : Renaming) (slot : InstId) (v : Operand) : Renaming :=
  { r with values := (slot, v) :: r.values }

/-- Replaces a load by the value loaded. -/
def Renaming.replaceLoad (r : Renaming) (i : InstId) (v : Operand) : Renaming :=
  { r with
    func := (r.func.replaceUses (.inst i) v).2.remove i
    foldable := if v.const?.isSome then r.foldable ++ (r.func.inst i).users else r.foldable }

/-- Removes an instruction. -/
def Renaming.drop (r : Renaming) (i : InstId) : Renaming :=
  { r with func := r.func.remove i }

/-- Renames one instruction. -/
def Renaming.step (phis : SlotPhis) (r : Renaming) (i : InstId) : Renaming :=
  match phis.lookup i with
  | some slot => r.set slot (.inst i)
  | none =>
    match r.func.instr i with
    | .load ptr =>
      match r.values.at? ptr with
      | some (_, v) => r.replaceLoad i v
      | none => r
    | .store value ptr =>
      match r.values.at? ptr with
      | some (slot, _) => (r.set slot value).drop i
      | none => r
    | _ => r

/-- Fills the entry for `b` in a phi of its successor `succ`. -/
def fillPhi (phis : SlotPhis) (values : Values) (b succ : BlockId) (phi : InstId) :
    Transform Unit := do
  match (phis.lookup phi).bind fun slot => values.lookup slot with
  | none => pure ()
  | some v =>
    let f ← .func
    let (filled, g) := f.fillPhi phi b v
    .setFunc g
    if !filled then
      throw (.internal (.noOpenEntry phi (f.block succ).label (f.block b).label))

/-- Renames one block: its instructions, then its entries in the phis of its successors.  Gives the
values at its end and the instructions with a new literal operand. -/
def renameBlock (phis : SlotPhis) (values : Values) (b : BlockId) :
    Transform (Values × List InstId) := do
  let f ← .func
  let r := (f.instsOf b).foldl (Renaming.step phis) { func := f, values }
  .setFunc r.func
  (r.func.block b).succs.forM fun succ => do
    ((← .func).phis succ).forM (fillPhi phis r.values b succ)
  return (r.values, r.foldable)

/-- Renames the part of the dominator tree below `b`, whose height is less than the number given
first. -/
def renameTree (phis : SlotPhis) : Nat → Values → BlockId → Transform (List InstId)
  | 0, _, _ => return []
  | n + 1, values, b => do
    let (values, foldable) ← renameBlock phis values b
    let below ← ((← .func).block b).dominance.children.flatMapM (renameTree phis n values)
    return foldable ++ below

/-- Renames the whole function. -/
def rename (slots : List Slot) (phis : SlotPhis) : Transform (List InstId) := do
  let f ← .func
  let zeros := slots.map fun s => (s.alloc, Operand.const s.zero)
  match f.entry? with
  | none => return []
  | some entry => renameTree phis f.blocks.size zeros entry

/-! ## Cleaning up -/

/-- Removes a slot, which nothing uses any more. -/
def removeSlot (slot : Slot) : Transform Unit := do
  let f ← .func
  if !(f.inst slot.alloc).users.isEmpty then
    throw (.internal (.slotStillUsed slot.alloc f.name))
  .record { kind := .slotPromoted, func := some f.name, pass := some name,
            message := slot.alloc.text ++ " (" ++ slot.ty.text ++ ")" }
  .edit (·.remove slot.alloc)

def hasOpenEntry (f : Func) (phi : InstId) : Bool :=
  (f.instr phi).entries.any fun e => e.value.isNone

/-- Every inserted phi has to have a value for each predecessor. -/
def checkFilled (phis : List InstId) : Transform Unit := do
  let f ← .func
  match phis.find? (hasOpenEntry f) with
  | some phi => throw (.internal (.unfilledPhi phi (f.labelOf phi)))
  | none => pure ()

/-- Is the phi used by an instruction that is not one of `phis`? -/
def hasOtherUser (f : Func) (phis : List InstId) (phi : InstId) : Bool :=
  (f.inst phi).users.any fun u => !phis.contains u

/-- Is the phi an operand of one of `phis`? -/
def feeds (f : Func) (phis : List InstId) (phi : InstId) : Bool :=
  phis.any fun p => (f.instr p).operands.contains (.inst phi)

/-- Adds the phis that `kept` ones depend on, step by step. -/
def keepOperands (f : Func) (phis : List InstId) : Nat → List InstId → List InstId
  | 0, kept => kept
  | n + 1, kept =>
    keepOperands f phis n (phis.filter fun p => kept.contains p || feeds f kept p)

/-- The phis that an instruction other than themselves depends on. -/
def neededPhis (f : Func) (phis : List InstId) : List InstId :=
  keepOperands f phis phis.length (phis.filter (hasOtherUser f phis))

/-- Removes the phis that are not needed, by ascending handle. -/
def sweepPhis (phis : List InstId) : Transform Unit := do
  let f ← .func
  let needed := neededPhis f phis
  let unneeded := phis.filter fun p => !needed.contains p
  .recordAll (unneeded.map fun p => f.instEvent name .phiRemoved p p.text)
  .setFunc (unneeded.foldl Func.remove f)

/-- Replaces an instruction by a literal. -/
def replaceByConstant (i : InstId) (c : Constant) : Transform Unit := do
  let f ← .func
  .record (f.instEvent name .constantFolded i (i.text ++ " = " ++ c.text))
  .setFunc ((f.replaceUses (.inst i) (.const c)).2.remove i)

def foldable? (f : Func) (i : InstId) : Option Constant :=
  if (f.inst i).live then (f.instr i).fold? (f.inst i).ty else none

/-- Folds instructions of a stack and, before what is left of it, the users of each folded one, the
last user first. -/
def foldStack : Nat → List InstId → Transform Unit
  | 0, _ => return
  | _, [] => return
  | n + 1, i :: stack => do
    let f ← .func
    match foldable? f i with
    | none => foldStack n stack
    | some c =>
      replaceByConstant i c
      foldStack n ((f.inst i).users.reverse ++ stack)

/-- The number of uses of instruction results.  Folding an instruction puts its uses on the stack
and ends them, so the stack never has more entries to come than this. -/
def useCount (f : Func) : Nat :=
  (f.insts.toList.flatMap InstRecord.users).length

/-- Folds the given instructions, the last one first, and what can be folded as a consequence. -/
def foldConstants (candidates : List InstId) : Transform Unit := do
  foldStack (candidates.length + useCount (← .func)) candidates.reverse

/-! ## The pass -/

/-- Recomputes dominance. -/
def dominance : Transform Unit :=
  .analyze fun f =>
    match f.computeDominance with
    | .ok g => (.ok (), g)
    | .error e => (.error e, f)

/-- Promotes the given slots. -/
def promote (slots : List Slot) : Transform Unit := do
  let slotPhis ← insertPhis slots
  let foldable ← rename slots slotPhis
  slots.forM removeSlot
  let phis := slotPhis.map Prod.fst
  checkFilled phis
  sweepPhis phis
  foldConstants foldable

/-- Promotes every slot that can be promoted.  Tells whether there was one. -/
def run : Transform Bool := do
  discard .connect
  discard .prune
  dominance
  match slots (← .func) with
  | .error e => throw e
  | .ok [] => return false
  | .ok slots =>
    promote slots
    return true

end MiddleEnd.Promotion
