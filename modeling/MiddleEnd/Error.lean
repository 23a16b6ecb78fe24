import MiddleEnd.Handle
import MiddleEnd.Ty

/-!
# Errors

Everything that can go wrong outside a running program, as causes with their wording in one place.
A `Defect` is a broken invariant of a function or program; the other errors come from wrong use of
an operation.
-/

namespace MiddleEnd

/-- A value whose uses are tracked. -/
inductive UseKey
  | inst (id : InstId)
  | arg (index : Nat)
deriving DecidableEq

def UseKey.text : UseKey → String
  | inst i => "Inst(" ++ i.text ++ ")"
  | arg n => "Arg(" ++ toString n ++ ")"

/-- A broken invariant.  Functions and blocks are given by name and label. -/
inductive Defect
  | wrongLength (block : String) (stored listed : Nat)
  | emptyBlock (block : String)
  | foreignInst (inst : InstId) (block : String)
  | misplacedTerminator (block : String) (inst : InstId)
  | misplacedPhi (inst : InstId) (block : String)
  | removedOperand (inst operand : InstId)
  | wrongUsers (key : UseKey) (tracked actual : List InstId)
  | untrackedUse (key : UseKey)
  | bothTargetsDeleted (block : String)
  | dominanceOfDeclaration (func : String)
  | entryHasPredecessors (block func : String)
  | unreachableBlock (block func : String)
  | slotWithoutZero (slot : InstId) (func : String) (ty : Ty)
  | noOpenEntry (phi : InstId) (block pred : String)
  | slotStillUsed (slot : InstId) (func : String)
  | unfilledPhi (phi : InstId) (block : String)
  | notACall (inst : InstId) (func : String)
  | inlinedDeclaration (func : String)
  | callerWithoutBody (func : String)
  | emptyInlinedEntry (block func : String)
  | noFillDeclared (slot : InstId) (func : String)
  | slotTooLarge (slot : InstId)
  | usedVoidResult (call : InstId) (caller callee : String)
  | pendingJumpListed (inst : InstId) (func : String)
deriving DecidableEq

def instListText (is : List InstId) : String :=
  "[" ++ ", ".intercalate (is.map InstId.text) ++ "]"

def Defect.message : Defect → String
  | wrongLength b stored listed =>
    "block " ++ b ++ " length " ++ toString stored ++ " disagrees with its list of " ++
      toString listed
  | emptyBlock b => "block " ++ b ++ " is empty"
  | foreignInst i b =>
    "instruction " ++ i.text ++ " is listed in " ++ b ++ " but is dead or owned elsewhere"
  | misplacedTerminator b i =>
    "block " ++ b ++ " has a misplaced or missing terminator at " ++ i.text
  | misplacedPhi i b => "phi " ++ i.text ++ " in " ++ b ++ " follows a non-phi instruction"
  | removedOperand i d => i.text ++ " uses removed instruction " ++ d.text
  | wrongUsers k tracked actual =>
    "use-list of " ++ k.text ++ " is " ++ instListText tracked ++ ", operands say " ++
      instListText actual
  | untrackedUse k => k.text ++ " is used but not tracked"
  | bothTargetsDeleted b => "both targets of the branch in " ++ b ++ " are deleted"
  | dominanceOfDeclaration f => "dominance requested for declaration " ++ f
  | entryHasPredecessors b f => "entry block " ++ b ++ " of " ++ f ++ " has predecessors"
  | unreachableBlock b f =>
    "block " ++ b ++ " of " ++ f ++ " is unreachable; prune before dominance"
  | slotWithoutZero s f t =>
    "slot " ++ s.text ++ " of " ++ f ++ " has no zero value for type " ++ t.text
  | noOpenEntry p b q => "phi " ++ p.text ++ " in " ++ b ++ " has no open entry for " ++ q
  | slotStillUsed s f => "slot " ++ s.text ++ " of " ++ f ++ " still has users after renaming"
  | unfilledPhi p b => "phi " ++ p.text ++ " in " ++ b ++ " was left with an unfilled entry"
  | notACall i f => i.text ++ " in " ++ f ++ " is not a call"
  | inlinedDeclaration f => "cannot inline declaration " ++ f
  | callerWithoutBody f => "caller " ++ f ++ " has no body"
  | emptyInlinedEntry b f => "inlined entry " ++ b ++ " of " ++ f ++ " is empty"
  | noFillDeclared s f => "no memset declared for array slot " ++ s.text ++ " in " ++ f
  | slotTooLarge s => "array slot " ++ s.text ++ " too large to reset"
  | usedVoidResult c f g =>
    "result of " ++ c.text ++ " in " ++ f ++ " is used but " ++ g ++ " returns nothing"
  | pendingJumpListed i f => "pending jump " ++ i.text ++ " in " ++ f ++ " reached emission"

/-- Wrong use of the construction operations. -/
inductive BuildFault
  | externalBody (func : String)
  | notAPointer (ty : Ty)
  | indexesNonArray
  | tooLargeToFill
  | notPending (inst : InstId)
deriving DecidableEq

def BuildFault.message : BuildFault → String
  | externalBody f => "cannot add a body to external function '" ++ f ++ "'"
  | notAPointer t => "expected a pointer, found " ++ t.text
  | indexesNonArray => "getelementptr indexes a non-array"
  | tooLargeToFill => "array too large to zero-fill"
  | notPending i => i.text ++ " is not a pending jump"

/-- An edge or entry that names a node outside the graph. -/
inductive GraphFault
  | source (node size : Nat)
  | target (node size : Nat)
  | entry (node : Nat)
deriving DecidableEq

def GraphFault.message : GraphFault → String
  | source n size =>
    "source node n" ++ toString n ++ " does not exist in graph with " ++ toString size ++ " nodes"
  | target n size =>
    "target node n" ++ toString n ++ " does not exist in graph with " ++ toString size ++ " nodes"
  | entry n => "entry node n" ++ toString n ++ " does not exist"

inductive Error
  | internal (defect : Defect)
  | pendingJump (func block : String)
  | unterminated (func block : String)
  | duplicateDefinition (name : String)
  | unknownFunction (name : String)
  | builder (fault : BuildFault)
  | graph (fault : GraphFault)
  /-- The sink of a listing is full. -/
  | sinkFull
  /-- A handle or an index names nothing, or two sets have different capacities. -/
  | outOfRange
deriving DecidableEq

def Error.message : Error → String
  | internal d => d.message
  | pendingJump f b => "Unresolved pending jump in block '" ++ b ++ "' of function '" ++ f ++ "'"
  | unterminated f b => "Block '" ++ b ++ "' of function '" ++ f ++ "' is not terminated"
  | duplicateDefinition n => "Duplicate definition of '" ++ n ++ "'"
  | unknownFunction n => "Unknown function '" ++ n ++ "'"
  | builder e => "Builder - " ++ e.message
  | graph e => e.message
  | sinkFull => "sink full"
  | outOfRange => "out of range"

end MiddleEnd
