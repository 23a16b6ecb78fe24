import MiddleEnd.Error
import MiddleEnd.Machine.Input
import MiddleEnd.Machine.Memory

/-!
# Machine state

What running a program changes: memory, the input that is left, the output so far and the number of
instructions executed.  An action on the state can stop the machine; what it did before that
stays done.
-/

namespace MiddleEnd

structure Machine where
  memory : Memory
  input : Input := []
  output : String := ""
  steps : Nat := 0
deriving Inhabited

/-- Why the machine stopped before the program was done. -/
inductive Halt
  | fault (fault : Fault)
  | error (error : Error)
  /-- More blocks were entered than the step counter can count. -/
  | outOfFuel
deriving DecidableEq

abbrev Exec := EStateM Halt Machine

namespace Exec

def fail {α : Type} (f : Fault) : Exec α :=
  throw (.fault f)

/-- The machine stops because a handle or an index names nothing. -/
def stuck {α : Type} : Exec α :=
  throw (.error .outOfRange)

def lift {α : Type} : Except Fault α → Exec α
  | .ok a => pure a
  | .error f => fail f

/-- Counts an instruction.  A limit of zero allows any number of them. -/
def tick (limit : Nat) : Exec Unit := do
  modify fun s => { s with steps := s.steps + 1 }
  if limit ≠ 0 ∧ limit < (← get).steps then fail (.stepLimit limit)

def print (text : String) : Exec Unit :=
  modify fun s => { s with output := s.output ++ text }

/-- Reads with `reader`, on behalf of the function named `func`. -/
def read {α : Type} (func : String) (reader : Input → Option α × Input) : Exec α := do
  let (value?, rest) := reader (← get).input
  modify fun s => { s with input := rest }
  match value? with
  | some v => pure v
  | none => fail (.inputExhausted func)

/-! ## Memory -/

def allocate (count : Nat) (init : Value) : Exec Nat := do
  let address := (← get).memory.size
  if !(← get).memory.hasRoom count then fail (.memoryLimit address (← get).memory.limit)
  modify fun s => { s with memory := s.memory.grow count init }
  return address

def load (a : Nat) : Exec Value := do
  lift ((← get).memory.load a)

def loadAll (a count : Nat) : Exec (List Value) := do
  lift ((← get).memory.loadAll a count)

def store (a : Nat) (v : Value) : Exec Unit := do
  if (← get).memory.size ≤ a then fail (.invalidAddress a)
  modify fun s => { s with memory := s.memory.set a v }

def fill (a count : Nat) (v : Value) : Exec Unit := do
  if !(← get).memory.covers a count then fail (.invalidAddress (a + count - 1))
  modify fun s => { s with memory := s.memory.setRange a count v }

/-- Releases what an action reserves, also if it fails. -/
def withFrame {α : Type} (x : Exec α) : Exec α := fun s =>
  let mark := s.memory.size
  match x s with
  | .ok a t => .ok a { t with memory := t.memory.release mark }
  | .error e t => .error e { t with memory := t.memory.release mark }

end Exec

end MiddleEnd
