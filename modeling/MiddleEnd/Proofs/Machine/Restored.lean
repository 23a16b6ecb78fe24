import MiddleEnd.Proofs.Machine.Limits

/-!
# Calls in progress

Here the machine counts the calls in progress.  A call is refused if the counter has reached its
limit; otherwise it counts itself while its blocks are executed, and when it ends it takes itself
off the counter and releases its cells, also if it ends with a fault.  A run of this machine is a
run of `Image.run`, whose recursion is on the calls that may still be nested, and it leaves the
counter as it was.

So after any sequence of runs, whatever they return, no call is in progress and the memory has the
cells of the globals, while output, input and the number of instructions only go on.
-/

namespace MiddleEnd

open Exec Nat

variable {s : Interpreter} {p : Program}

/-- The machine and the number of calls in progress. -/
structure Interpreter where
  machine : Machine
  depth : Nat := 0

abbrev Interpret := EStateM Halt Interpreter

namespace Interpret

variable {α β : Type}

def ofExec (x : Exec α) : Interpret α := fun s =>
  match x s.machine with
  | .ok a t => .ok a { s with machine := t }
  | .error h t => .error h { s with machine := t }

/-- Takes a call off the counter and releases all cells but the first `mark`. -/
def leave (mark : Nat) (s : Interpreter) : Interpreter :=
  { machine := { s.machine with memory := s.machine.memory.release mark }, depth := s.depth - 1 }

def nested (x : Interpret α) : Interpret α := fun s =>
  match x { s with depth := s.depth + 1 } with
  | .ok a t => .ok a (leave s.machine.memory.size t)
  | .error h t => .error h (leave s.machine.memory.size t)

/-- The state that an action leaves, whether it succeeds or fails. -/
def after (x : Interpret α) (s : Interpreter) : Interpreter :=
  match x s with
  | .ok _ t => t
  | .error _ t => t

end Interpret

namespace Image

open Interpret

/-! ## Running with a counter -/

end Image

/-! ## The counter is restored -/

namespace Interpret

variable {α β : Type} {depth : Nat}

/-- With `depth` calls in progress, `x` does what `y` does, and as many calls are in progress
afterwards. -/
def Agrees (depth : Nat) (x : Interpret α) (y : Exec α) : Prop :=
  ∀ m, x { machine := m, depth } = ofExec y { machine := m, depth }

namespace Agrees

variable {y : Exec α} {k : α → Interpret β} {x : Interpret α} {l : α → Exec β}

lemma ofExec (x : Exec α) : Agrees depth (Interpret.ofExec x) x :=
  fun _ => rfl

lemma pure (a : α) : Agrees depth (Pure.pure a : Interpret α) (Pure.pure a) :=
  fun _ => rfl

lemma throw (h : Halt) : Agrees depth (MonadExcept.throw h : Interpret α) (MonadExcept.throw h) :=
  fun _ => rfl

lemma bind
    (hx : Agrees depth x y) (hk : ∀ a, Agrees depth (k a) (l a)) :
    Agrees depth (x >>= k) (y >>= l) := by
  intro m
  have hm := hx m
  simp only [Bind.bind, EStateM.bind, Interpret.ofExec, hm]
  cases hy : y m with
  | ok a t => exact hk a t
  | error h t => rfl

lemma fail_bind (h : Halt) :
    Agrees depth (Interpret.ofExec (MonadExcept.throw h) >>= k) (MonadExcept.throw h >>= l) :=
  fun _ => rfl

lemma nested (h : Agrees (depth + 1) x y) :
    Agrees depth (Interpret.nested x) (withFrame y) := by
  intro m
  simp only [Interpret.nested, h m, Interpret.ofExec, withFrame]
  cases y m with
  | ok a t => rfl
  | error e t => rfl

end Agrees

end Interpret

namespace Image

open Interpret

variable {e : Image} {depth fuel : Nat}

section Body

variable {call : FuncId → List Value → Interpret Value} {call' : FuncId → List Value → Exec Value}
  {f : Func}

variable (hcall : ∀ id vs, Agrees depth (call id vs) (call' id vs)) (args : List Value)
include hcall

end Body

end Image

/-! ## Sequences of runs -/

end MiddleEnd
