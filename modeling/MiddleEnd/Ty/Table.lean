import MiddleEnd.Ty

/-!
# Type tables

A table lists the types that a program has used, each once and in order of first use; the position
of a type is its number.  A type enters the table after its parts, so every part has a smaller
number than the whole.
-/

namespace MiddleEnd

structure TypeTable where
  entries : Array Ty
deriving Inhabited

namespace TypeTable

/-- A fresh table knows the types without parts. -/
def new : TypeTable :=
  ⟨#[.void, .label, .i1, .i8, .i32, .float]⟩

def size (table : TypeTable) : Nat :=
  table.entries.size

def get? (table : TypeTable) (id : Nat) : Option Ty :=
  table.entries[id]?

/-- Enters one type whose parts are known. -/
def enter (table : TypeTable) (t : Ty) : TypeTable :=
  if t ∈ table.entries then table else ⟨table.entries.push t⟩

/-- Enters a type after its parts, those of a signature from left to right. -/
def intern (table : TypeTable) (t : Ty) : TypeTable :=
  match t with
  | .pointer s => (table.intern s).enter t
  | .array _ s => (table.intern s).enter t
  | .function r ps => (ps.foldl (fun table p => table.intern p) (table.intern r)).enter t
  | t => table.enter t

end TypeTable

end MiddleEnd
