import MiddleEnd.Listing
import MiddleEnd.Proofs.Listing.Text
import MiddleEnd.Proofs.Machine.Loading
import MiddleEnd.Proofs.Widening

/-!
# Initializers of globals

The initializer of a global is a nested literal.  Reading it gives a value for each cell of the
object, where `zeroinitializer` stands for cells that all hold the zero of their type.  These are
the values that the machine stores for the global, with two exceptions: a row whose cells are all
zero is listed as `zeroinitializer`, so that its negative zeros become positive, and what is not a
number is listed with its quiet bit set.
-/

namespace MiddleEnd

open List Constant Value Option

/-! ## Reading an initializer -/

namespace Reader

end Reader

/-! ## Listed constants -/

namespace Constant

/-- Is the constant a literal for a cell of the type? -/
def fits (t : Ty) (c : Constant) : Bool :=
  match t, c with
  | .i32, int _ | .i8, int _ | .i1, bool _ | .float, float _ => true
  | .pointer t, null u => u = .pointer t
  | _, _ => false

open Reader

end Constant

/-! ## Listed objects -/

namespace Listing

open Reader

variable {α β : Type} {t : Ty} {count size : Nat} {cells : List α} {parts : List (List Constant)}

end Listing

namespace Binary32

def negativeZero : Binary32 := ⟨0x80000000⟩

lemma isZero_iff {x : Binary32} : x.isZero ↔ x = zero ∨ x = negativeZero := by
  have hbits (y : Binary32) : x = y ↔ x.bits.toNat = y.bits.toNat := by
    cases x
    cases y
    simp [UInt32.toNat_inj]
  have hlt := x.bits.toNat_lt
  rw [hbits zero, hbits negativeZero, isZero, decide_eq_true_iff]
  change x.bits.toNat % 0x80000000 = 0 ↔ x.bits.toNat = 0 ∨ x.bits.toNat = 0x80000000
  omega

end Binary32

namespace Constant

variable {t : Ty} {c : Constant}

end Constant

namespace Listing

/-- A row is listed with the values of its cells if none of them is signaling, and a negative zero
is not among zeros only. -/
def Exact (row : List Value) : Prop :=
  (∀ x, .float x ∈ row → x.isSignaling = false) ∧
    (.float .negativeZero ∈ row → ∃ x, .float x ∈ row ∧ x.isZero = false)

end Listing

/-! ## Globals -/

namespace Global

open Listing

variable {g : Global} {zero : Constant}

section

variable (hzero : zero? g.ty.scalar = some zero)
include hzero

end

end Global

end MiddleEnd
