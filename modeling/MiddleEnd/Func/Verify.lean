import MiddleEnd.Func

/-!
# Well-formed functions

The structural invariants of a function with a body: every live block counts its instructions and
ends in its only terminator, phis come first, operands are live instructions, and the use-lists are
exactly the uses that the instructions of live blocks make.
-/

namespace MiddleEnd

def UseKey.of? : Operand → Option UseKey
  | .inst i => some (.inst i)
  | .arg n => some (.arg n)
  | _ => none

def UseKey.operand : UseKey → Operand
  | inst i => .inst i
  | arg n => .arg n

def sortInsts (is : List InstId) : List InstId :=
  is.mergeSort fun a b => a.idx ≤ b.idx

namespace Func

/-- The uses that the instructions of live blocks make. -/
def uses (f : Func) : List (UseKey × InstId) :=
  f.liveInsts.flatMap fun i => ((f.instr i).operands.filterMap UseKey.of?).map (·, i)

/-- The last operand of `i` that has been removed. -/
def removedOperand? (f : Func) (i : InstId) : Option InstId :=
  ((f.instr i).operands.filterMap Operand.inst?).reverse.find? fun d => !(f.inst d).live

/-- Checks the instructions of a block in order; `inPhis` says that only phis have come so far. -/
def checkInsts (f : Func) (b : BlockId) (last : InstId) : Bool → List InstId → Except Defect Unit
  | _, [] => .ok ()
  | inPhis, i :: is =>
    let r := f.inst i
    let label := (f.block b).label
    if r.live = false ∨ r.block ≠ b then .error (.foreignInst i label)
    else if r.instr.isTerminator ≠ decide (i = last) then .error (.misplacedTerminator label i)
    else if r.instr.isPhi && !inPhis then .error (.misplacedPhi i label)
    else match f.removedOperand? i with
      | some d => .error (.removedOperand i d)
      | none => f.checkInsts b last (inPhis && r.instr.isPhi) is

def checkBlock (f : Func) (b : BlockId) : Except Defect Unit :=
  let d := f.block b
  let is := f.instsOf b
  if is.length ≠ d.length then .error (.wrongLength d.label d.length is.length)
  else match is.getLast? with
    | none => .error (.emptyBlock d.label)
    | some last => f.checkInsts b last true is

/-- The values whose use-lists are checked: the live instructions and the parameters. -/
def trackedKeys (f : Func) : List UseKey :=
  ((List.range f.insts.size).filter fun n => (f.inst ⟨n⟩).live).map (.inst ⟨·⟩) ++
    (List.range f.params.size).map .arg

def checkUsers (f : Func) (uses : List (UseKey × InstId)) (key : UseKey) : Except Defect Unit :=
  let tracked := sortInsts (f.users key.operand)
  let actual := sortInsts (uses.filterMap fun (k, i) => if k = key then some i else none)
  if tracked = actual then .ok () else .error (.wrongUsers key tracked actual)

/-- Checks the invariants and reports the first one broken. -/
def verify (f : Func) : Except Defect Unit := do
  f.liveBlocks.forM f.checkBlock
  let uses := f.uses
  f.trackedKeys.forM (f.checkUsers uses)
  match uses.find? fun (k, _) => !f.tracks k.operand with
  | some (k, _) => .error (.untrackedUse k)
  | none => .ok ()

end Func

end MiddleEnd
