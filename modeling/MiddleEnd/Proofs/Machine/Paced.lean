import MiddleEnd.Proofs.Machine.Curtailed
import MiddleEnd.Proofs.Machine.Structure

/-!
# Runs under a limit on instructions

Phis are not counted, and neither are the rounds of a built-in function, but a block is left by an
instruction that is.  So with a limit on instructions there is a limit on the blocks that can be
entered, and the bound on blocks by which the execution of a function recurses is out of reach.  Calls
recurse on their nesting.
-/

namespace MiddleEnd

open Exec Image

/-! ## Paced actions -/

namespace Exec

variable {α β : Type} {n k l : Nat} {s : Machine} {x : Exec α} {y : α → Exec β}

/-- From `s`, success takes at least `k` instructions and stays within the limit `n`, and a failure
comes with the first instruction beyond it at the latest.  The bound on blocks is not the reason. -/
def PacedFrom (n k : Nat) (s : Machine) : EStateM.Result Halt Machine α → Prop
  | .ok _ t => s.steps + k ≤ t.steps ∧ t.steps ≤ max n s.steps
  | .error h t => h ≠ .outOfFuel ∧ t.steps ≤ max n s.steps + 1

def Paced (n k : Nat) (x : Exec α) : Prop :=
  ∀ s, PacedFrom n k s (x s)

lemma PacedFrom.bind (hx : PacedFrom n k s (x s))
    (hy : ∀ a t, s.steps + k ≤ t.steps → t.steps ≤ max n s.steps → PacedFrom n l t (y a t)) :
    PacedFrom n (k + l) s ((x >>= y) s) := by
  simp only [Bind.bind, EStateM.bind]
  cases hxs : x s with
  | error h t =>
    rw [hxs] at hx
    exact hx
  | ok a t =>
    rw [hxs] at hx
    obtain ⟨hmore, hle⟩ := hx
    have ht := hy a t hmore hle
    dsimp only
    generalize y a t = r at ht
    cases r with
    | ok b u => exact ⟨by have := ht.1; omega, by have := ht.2; omega⟩
    | error h u => exact ⟨ht.1, by have := ht.2; omega⟩

namespace Paced

lemma pure (a : α) : Paced n 0 (Pure.pure a) :=
  fun _ => ⟨Nat.le_refl _, Nat.le_max_right ..⟩

lemma throw {h : Halt} (hh : h ≠ .outOfFuel) : Paced n k (MonadExcept.throw h : Exec α) :=
  fun _ => ⟨hh, Nat.le_succ_of_le (Nat.le_max_right ..)⟩

lemma bind (hx : Paced n k x) (hy : ∀ a, Paced n l (y a)) :
    Paced n (k + l) (x >>= y) :=
  fun s => (hx s).bind fun a t _ _ => hy a t

lemma of_quiet (hx : Quiet x) : Paced n 0 x := by
  intro s
  have hs := hx s
  generalize x s = r at hs
  cases r with
  | ok a t => exact ⟨Nat.le_of_eq hs.symm, hs ▸ Nat.le_max_right ..⟩
  | error h t => exact ⟨hs.2.2, hs.1 ▸ Nat.le_succ_of_le (Nat.le_max_right ..)⟩

lemma tick (hn : n ≠ 0) : Paced n 1 (tick n) := by
  intro s
  rw [tick_eq]
  by_cases hlim : n ≠ 0 ∧ n < s.steps + 1
  · rw [if_pos hlim]
    exact ⟨nofun, Nat.succ_le_succ (Nat.le_max_right ..)⟩
  · rw [if_neg hlim]
    exact ⟨Nat.le_refl _, Nat.le_trans (by simpa [hn] using hlim) (Nat.le_max_left ..)⟩

lemma withFrame (hx : Paced n k x) : Paced n k (withFrame x) := by
  intro s
  have hs := hx s
  unfold Exec.withFrame
  generalize x s = r at hs
  cases r with
  | ok a t => exact hs
  | error h t => exact hs

lemma congruence : MemoryCongruence fun x _ => Paced n 0 x where
  pure := pure
  bind := bind
  fail _ := throw nofun
  stuck := throw nofun
  print text := of_quiet (.print text)
  read func _ _ := of_quiet (.read func _)
  load a := of_quiet (.load a)
  loadAll a count := of_quiet (.loadAll a count)
  store a v := of_quiet (.store a v)
  fill a count v := of_quiet (.fill a count v)
  cells hk s := hk s.memory.cells s

end Paced

end Exec

/-! ## Blocks -/

namespace Image

variable {e : Image} {call : FuncId → List Value → Exec Value} {f : Func} {args : List Value}
  {n : Nat}

variable (hlimit : e.limits.instructions ≠ 0)
include hlimit

section

variable (hcall : ∀ id vs, Paced e.limits.instructions.toNat 0 (call id vs))
include hcall

end

/-! ## Calls -/

end Image

end MiddleEnd
