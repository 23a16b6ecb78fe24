/-!
# Events

What the passes did, in order.  Statistics are counted from the events.
-/

namespace MiddleEnd

inductive EventKind
  | instructionRemoved
  | blockRemoved
  | functionInlined
  | functionMarkedDead
  | phiInserted
  | phiRemoved
  | slotPromoted
  | branchSimplified
  | constantFolded
  | passStarted
  | passCompleted
  | info
  | warning
  | error
deriving DecidableEq

namespace EventKind

def all : List EventKind :=
  [instructionRemoved, blockRemoved, functionInlined, functionMarkedDead, phiInserted, phiRemoved,
    slotPromoted, branchSimplified, constantFolded, passStarted, passCompleted, info, warning,
    error]

def description : EventKind → String
  | instructionRemoved => "instruction removed"
  | blockRemoved => "block removed"
  | functionInlined => "function inlined"
  | functionMarkedDead => "function marked dead"
  | phiInserted => "phi inserted"
  | phiRemoved => "phi removed"
  | slotPromoted => "slot promoted"
  | branchSimplified => "branch simplified"
  | constantFolded => "constant folded"
  | passStarted => "pass started"
  | passCompleted => "pass completed"
  | info => "info"
  | warning => "warning"
  | error => "error"

/-- Events that record a change of the program. -/
def isTransformation : EventKind → Bool
  | passStarted | passCompleted | info | warning | error => false
  | _ => true

def isDiagnostic : EventKind → Bool
  | info | warning | error => true
  | _ => false

end EventKind

/-- An event; function and block are given by name and label. -/
structure Event where
  kind : EventKind
  func : Option String := none
  block : Option String := none
  /-- The description of the kind, unless something more is said. -/
  message : String := kind.description
  pass : Option String := none
deriving DecidableEq

/-- The kind in brackets, the place if there is one, and the message. -/
def Event.text (e : Event) : String :=
  let place := match e.func, e.block with
    | some f, some b => "@" ++ f ++ ":" ++ b ++ " "
    | some f, none => "@" ++ f ++ " "
    | none, _ => ""
  "[" ++ e.kind.description ++ "] " ++ place ++ e.message

abbrev EventLog := List Event

namespace EventLog

def ofKind (log : EventLog) (k : EventKind) : List Event :=
  log.filter fun e => e.kind = k

def ofFunc (log : EventLog) (name : String) : List Event :=
  log.filter fun e => e.func = some name

def transformations (log : EventLog) : List Event :=
  log.filter fun e => e.kind.isTransformation

/-- The kinds that occur, with the number of their events. -/
def counts (log : EventLog) : List (EventKind × Nat) :=
  (EventKind.all.map fun k => (k, (log.ofKind k).length)).filter fun (_, n) => n ≠ 0

/-- Text comes first if its code points do. -/
def textLe (s t : String) : Bool :=
  !(t < s)

/-- The number of changes of each kind, in alphabetical order of the text. -/
def summary (log : EventLog) : String :=
  if log.isEmpty then "no events"
  else
    let parts := (log.counts.filter fun (k, _) => k.isTransformation).map fun (k, n) =>
      toString n ++ " " ++ k.description
    if parts.isEmpty then toString log.length ++ " events"
    else ", ".intercalate (parts.mergeSort textLe)

end EventLog

end MiddleEnd
