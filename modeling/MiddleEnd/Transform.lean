import MiddleEnd.Context
import MiddleEnd.Flow

/-!
# Transforming functions

An optimization works on one function, or on the whole program, and records what it did.  If it
fails, what it did up to then stays done and stays recorded.
-/

namespace MiddleEnd

/-- A function under optimization, with the events so far. -/
structure Work where
  func : Func
  events : List Event := []

abbrev Transform := EStateM Error Work

namespace Transform

def func : Transform Func := do
  return (← get).func

def setFunc (f : Func) : Transform Unit :=
  modify fun w => { w with func := f }

def edit (g : Func → Func) : Transform Unit :=
  modify fun w => { w with func := g w.func }

def record (e : Event) : Transform Unit :=
  modify fun w => { w with events := w.events ++ [e] }

def recordAll (es : List Event) : Transform Unit :=
  modify fun w => { w with events := w.events ++ es }

/-- An analysis that may change the function, and may do so before it fails. -/
def analyze {α : Type} (g : Func → Except Error α × Func) : Transform α := fun w =>
  match g w.func with
  | (.ok a, f) => .ok a { w with func := f }
  | (.error e, f) => .error e { w with func := f }

/-- Recomputes the edges, and gives the blocks where a branch was folded. -/
def connect : Transform (List BlockId) :=
  analyze Func.connect

/-- Deletes the unreachable blocks and gives them. -/
def prune : Transform (List BlockId) :=
  analyze Func.prune

end Transform

/-- An event of a pass in a block of a function. -/
def Func.event (f : Func) (pass : String) (kind : EventKind) (b : BlockId)
    (message : String := kind.description) : Event :=
  { kind, func := some f.name, block := some (f.block b).label, message, pass := some pass }

/-- An event of a pass in the block of an instruction. -/
def Func.instEvent (f : Func) (pass : String) (kind : EventKind) (i : InstId) (message : String) :
    Event :=
  f.event pass kind (f.inst i).block message

/-! ## Whole programs -/

abbrev Compile := EStateM Error Session

namespace Compile

def program : Compile Program := do
  return (← get).program

def record (e : Event) : Compile Unit :=
  modify (·.record e)

def lift {α : Type} : Except Error α → Compile α
  | .ok a => pure a
  | .error e => throw e

/-- Transforms a function of the program. -/
def transform {α : Type} (id : FuncId) (x : Transform α) : Compile α := fun s =>
  let finish (w : Work) : Session :=
    { program := s.program.setFunc id w.func, context := s.context.recordAll w.events }
  match x { func := s.program.func id } with
  | .ok a w => .ok a (finish w)
  | .error e w => .error e (finish w)

end Compile

end MiddleEnd
