import MiddleEnd.Func.Link

/-!
# Editing functions

Every change of a function goes through the operations of this module, which keep the use-lists in
step with the operands.  A new use is added at the end of a use-list; when a use is dropped, the
last entry takes its place.
-/

namespace MiddleEnd

/-- Removes the first occurrence of `a`; the last element moves to its place. -/
def eraseSwap {α : Type} [DecidableEq α] (a : α) (xs : List α) : List α :=
  match xs.idxOf? a, xs.getLast? with
  | some n, some last => (xs.set n last).dropLast
  | _, _ => xs

namespace Func

def modifyParam (f : Func) (n : Nat) (g : Param → Param) : Func :=
  { f with params := f.params.modify n g }

/-! ## Use-lists -/

def modifyUsers (f : Func) (v : Operand) (g : List InstId → List InstId) : Func :=
  match v with
  | .inst i => f.modifyInst i fun r => { r with users := g r.users }
  | .arg n => f.modifyParam n fun p => { p with users := g p.users }
  | _ => f

/-- Records every use that `i` makes. -/
def register (f : Func) (i : InstId) : Func :=
  (f.instr i).operands.foldl (fun f v => f.modifyUsers v (· ++ [i])) f

/-- Drops every use that `i` makes. -/
def unregister (f : Func) (i : InstId) : Func :=
  (f.instr i).operands.foldl (fun f v => f.modifyUsers v (eraseSwap i)) f

/-! ## Blocks -/

/-- Adds an empty block at the end of the layout; its handle is `f.nextBlock`. -/
def addBlock (f : Func) (label : String) : Func :=
  { f with blocks := f.blocks.push { label }, layout := f.layout ++ [f.nextBlock] }

/-- Moves a block directly after another one in the layout. -/
def placeAfter (f : Func) (b after : BlockId) : Func :=
  let rest := f.layout.filter (· ≠ b)
  let upTo := rest.takeWhile (· ≠ after)
  { f with layout := upTo ++ (rest.drop upTo.length).take 1 ++ b :: rest.drop (upTo.length + 1) }

/-! ## Instructions -/

/-- Adds an instruction without placing it in its block; its handle is `f.nextInst`. -/
def create (f : Func) (b : BlockId) (instr : Instr) (ty : Ty) : Func :=
  ({ f with insts := f.insts.push { instr, ty, block := b } } : Func).register f.nextInst

/-- Adds an instruction at the end of a block. -/
def append (f : Func) (b : BlockId) (instr : Instr) (ty : Ty) : Func :=
  (f.create b instr ty).linkLast b f.nextInst

/-- Adds an instruction at the start of a block. -/
def prepend (f : Func) (b : BlockId) (instr : Instr) (ty : Ty) : Func :=
  (f.create b instr ty).link b none f.nextInst

/-- Adds an instruction directly before another one, at the start of its block if nothing comes
before that one. -/
def insertBefore (f : Func) (before : InstId) (instr : Instr) (ty : Ty) : Func :=
  let r := f.inst before
  (f.create r.block instr ty).link r.block r.prev f.nextInst

/-- Takes an instruction out of its block and drops its uses.  It keeps its record, and nothing
happens if it has been removed before. -/
def remove (f : Func) (i : InstId) : Func :=
  if (f.inst i).live then
    ((f.unlink i).unregister i).modifyInst i fun r => { r with live := false }
  else f

/-- Deletes a block with all its instructions, and forgets what is known about it. -/
def deleteBlock (f : Func) (b : BlockId) : Func :=
  ((f.instsOf b).foldl remove f).modifyBlock b fun d =>
    { d with deleted := true, preds := [], succs := [], dominance := {} }

/-- Puts another operation in the place of an instruction. -/
def replaceInstr (f : Func) (i : InstId) (instr : Instr) : Func :=
  ((f.unregister i).modifyInst i fun r => { r with instr }).register i

def setType (f : Func) (i : InstId) (ty : Ty) : Func :=
  f.modifyInst i fun r => { r with ty }

/-- Makes every user of `old` use `new`, and gives their number. -/
def replaceUses (f : Func) (old new : Operand) : Nat × Func :=
  if old = new ∨ f.tracks old = false then (0, f)
  else
    let users := f.users old
    let f := f.modifyUsers old fun _ => []
    let f := users.foldl (fun f u => f.modifyInst u fun r =>
      { r with instr := r.instr.mapOperands fun v => if v = old then new else v }) f
    (users.length, f.modifyUsers new (· ++ users))

/-- Fills the first open entry for a predecessor, if there is one. -/
def fillEntry (pred : BlockId) (value : Operand) : List PhiEntry → Option (List PhiEntry)
  | [] => none
  | e :: es =>
    if e.block = pred ∧ e.value = none then some ({ e with value := some value } :: es)
    else (fillEntry pred value es).map (e :: ·)

/-- Fills the first open entry of a phi for a predecessor; false if there is none. -/
def fillPhi (f : Func) (phi : InstId) (pred : BlockId) (value : Operand) : Bool × Func :=
  match f.instr phi with
  | .phi es =>
    match fillEntry pred value es with
    | some es =>
      (true, (f.modifyInst phi fun r => { r with instr := .phi es }).modifyUsers value
        (· ++ [phi]))
    | none => (false, f)
  | _ => (false, f)

/-- Keeps the entries of a phi whose predecessor passes, and gives the number of the others. -/
def retainEntries (f : Func) (phi : InstId) (keep : BlockId → Bool) : Nat × Func :=
  match f.instr phi with
  | .phi es =>
    let kept := es.filter fun e => keep e.block
    if kept.length = es.length then (0, f)
    else (es.length - kept.length, f.replaceInstr phi (.phi kept))
  | _ => (0, f)

/-- Renames a predecessor in the phis of a block. -/
def replacePred (f : Func) (b old new : BlockId) : Func :=
  (f.phis b).foldl (fun f p => f.modifyInst p fun r =>
    { r with instr := r.instr.mapBlocks fun c => if c = old then new else c }) f

end Func

end MiddleEnd
