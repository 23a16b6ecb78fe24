import MiddleEnd.Machine.Value

/-!
# Memory

A stack of cells.  Globals are at the bottom; a call reserves its slots above them and releases
them when it returns.
-/

namespace MiddleEnd

structure Memory where
  cells : Array Value := #[]
  /-- The number of cells that can be in use. -/
  limit : Nat
deriving Inhabited

namespace Memory

def size (m : Memory) : Nat :=
  m.cells.size

/-! ## Reservation -/

/-- Can `count` more cells be reserved? -/
def hasRoom (m : Memory) (count : Nat) : Bool :=
  m.size + count ≤ m.limit

/-- Adds `count` cells that hold `init`. -/
def grow (m : Memory) (count : Nat) (init : Value) : Memory :=
  { m with cells := m.cells ++ Array.replicate count init }

/-- Reserves `count` cells that hold `init`, and gives the address of the first. -/
def allocate (m : Memory) (count : Nat) (init : Value) : Except Fault (Nat × Memory) :=
  if m.hasRoom count then .ok (m.size, m.grow count init)
  else .error (.memoryLimit m.size m.limit)

/-- Releases all cells but the first `mark`. -/
def release (m : Memory) (mark : Nat) : Memory :=
  { m with cells := m.cells.take mark }

/-! ## Access -/

def load (m : Memory) (a : Nat) : Except Fault Value :=
  match m.cells[a]? with
  | some v => .ok v
  | none => .error (.invalidAddress a)

/-- The values of `count` cells from `a` on. -/
def loadAll (m : Memory) (a : Nat) : Nat → Except Fault (List Value)
  | 0 => .ok []
  | n + 1 => do
    let v ← m.load a
    return v :: (← m.loadAll (a + 1) n)

def set (m : Memory) (a : Nat) (v : Value) : Memory :=
  { m with cells := m.cells.setIfInBounds a v }

def store (m : Memory) (a : Nat) (v : Value) : Except Fault Memory :=
  if a < m.size then .ok (m.set a v) else .error (.invalidAddress a)

/-- Stores values in consecutive cells. -/
def storeAll (m : Memory) (a : Nat) : List Value → Except Fault Memory
  | [] => .ok m
  | v :: vs => do (← m.store a v).storeAll (a + 1) vs

/-- Are `count` cells from `a` on in use? -/
def covers (m : Memory) (a count : Nat) : Bool :=
  a + count ≤ m.size

def setRange (m : Memory) (a count : Nat) (v : Value) : Memory :=
  { m with cells := m.cells.mapIdx fun n c => if a ≤ n ∧ n < a + count then v else c }

/-- Sets `count` cells from `a` on. -/
def fill (m : Memory) (a count : Nat) (v : Value) : Except Fault Memory :=
  if m.covers a count then .ok (m.setRange a count v)
  else .error (.invalidAddress (a + count - 1))

end Memory

end MiddleEnd
