import MiddleEnd.Event
import MiddleEnd.Program
import Std.Data.HashMap

/-!
# Compilation context

What construction and passes share besides the program: the numbers of fresh block labels, the
built-in functions declared so far, which functions have been inlined or retired, and the event
log.
-/

namespace MiddleEnd

structure Context where
  events : EventLog := []
  /-- The number of the next fresh label of each function. -/
  labels : Std.HashMap FuncId Nat := ∅
  builtins : List (Builtin × FuncId) := []
  inlined : List FuncId := []
  retired : List FuncId := []

/-- A program under construction and its context. -/
structure Session where
  program : Program := {}
  context : Context := {}

namespace Context

def record (c : Context) (e : Event) : Context :=
  { c with events := c.events ++ [e] }

def recordAll (c : Context) (es : List Event) : Context :=
  { c with events := c.events ++ es }

/-- The number of the next fresh label of a function. -/
def labelNumber (c : Context) (f : FuncId) : Nat :=
  c.labels.getD f 0

def setLabelNumber (c : Context) (f : FuncId) (n : Nat) : Context :=
  { c with labels := c.labels.insert f n }

def builtin? (c : Context) (b : Builtin) : Option FuncId :=
  c.builtins.lookup b

/-- The built-in functions declared so far, in their own order. -/
def declaredBuiltins (c : Context) : List Builtin :=
  Builtin.all.filter fun b => (c.builtin? b).isSome

def markInlined (c : Context) (f : FuncId) : Context :=
  if f ∈ c.inlined then c else { c with inlined := c.inlined ++ [f] }

def markRetired (c : Context) (f : FuncId) : Context :=
  if f ∈ c.retired then c else { c with retired := c.retired ++ [f] }

end Context

/-- The `n`-th label of a function. -/
def blockLabel (func : String) (n : Nat) : String :=
  func ++ "_BB" ++ toString n

namespace Session

/-- A fresh label of a function. -/
def freshLabel (s : Session) (f : FuncId) : String × Session :=
  let n := s.context.labelNumber f
  (blockLabel (s.program.func f).name n,
    { s with context := s.context.setLabelNumber f (n + 1) })

/-- The declaration of a built-in function, added to the program on first use. -/
def builtin (s : Session) (b : Builtin) : FuncId × Session :=
  match s.context.builtin? b with
  | some f => (f, s)
  | none =>
    let (f, program) := s.program.declareBuiltin b
    (f, { program, context := { s.context with builtins := s.context.builtins ++ [(b, f)] } })

def setFunc (s : Session) (f : FuncId) (func : Func) : Session :=
  { s with program := s.program.setFunc f func }

def record (s : Session) (e : Event) : Session :=
  { s with context := s.context.record e }

end Session

end MiddleEnd
