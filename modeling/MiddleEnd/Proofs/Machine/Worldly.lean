import MiddleEnd.Proofs.Machine.Local

/-!
# Actions that do not look at memory

Printing, and the built-in functions on scalars, read input and write output.  They do the same
whatever is in memory, so they can be seen as actions on the world that a program shares with its
environment.
-/

namespace MiddleEnd

open Machine Exec

/-- The machine after input has been read and output has been written. -/
def Machine.exchange (m t : Machine) : Machine :=
  { m with input := t.input, output := t.output }

namespace Exec

variable {α β : Type}

/-- On machines with the same input and output the action does the same, and nothing to memory. -/
def Worldly (x : Exec α) : Prop :=
  ∀ m m', m'.input = m.input → m'.output = m.output → ∀ a t, x m = .ok a t →
    x m' = .ok a (m'.exchange t)

namespace Worldly

variable {x : Exec α}

lemma pure (a : α) : Worldly (Pure.pure a : Exec α) := by
  intro m m' hinput houtput a' t h
  obtain ⟨rfl, rfl⟩ : a = a' ∧ m = t := by simpa [Pure.pure, EStateM.pure] using h
  rw [exchange, ← hinput, ← houtput]
  rfl

lemma bind {k : α → Exec β} (hx : Worldly x) (hk : ∀ a, Worldly (k a)) :
    Worldly (x >>= k) := by
  intro m m' hinput houtput c u h
  obtain ⟨a, t, ha, hc⟩ := bind_ok h
  refine (bind_eq_ok (hx m m' hinput houtput a t ha) ?_)
  exact hk a t (m'.exchange t) rfl rfl c u hc

lemma throw (e : Halt) : Worldly (MonadExcept.throw e : Exec α) := by
  intro m m' _ _ a t h
  cases h

lemma print (text : String) : Worldly (print text) := by
  intro m m' hinput houtput a t h
  cases h
  change EStateM.Result.ok () { m' with output := m'.output ++ text } = _
  simp only [exchange, ← hinput, houtput]

lemma read (func : String) (reader : Input → Option α × Input) : Worldly (read func reader) := by
  intro m m' hinput houtput a t h
  rw [read_eq] at h ⊢
  rw [hinput]
  cases hval : (reader m.input).1 with
  | none =>
    rw [hval] at h
    cases h
  | some v =>
    rw [hval] at h
    cases h
    simp only [exchange, houtput]

lemma congruence : Congruence fun x _ => Worldly x :=
  ⟨pure, bind, fun _ => throw _, throw _, print, fun func _ _ => read func _⟩

lemma printFormatted (format : String) (args : List Value) :
    Worldly (printFormatted format args) :=
  congruence.printFormatted format args

lemma builtin {b : Builtin} (hb : b.isScalar) (args : List Value) : Worldly (builtin b args) :=
  congruence.builtin_of_isScalar hb args

lemma kept (hx : Worldly x) {m t : Machine} {a : α} (h : x m = .ok a t) :
    t.memory = m.memory ∧ t.steps = m.steps := by
  obtain ⟨-, heq⟩ := EStateM.Result.ok.inj (h.symm.trans (hx m m rfl rfl a t h))
  have hmemory := congrArg memory heq
  have hsteps := congrArg steps heq
  exact ⟨hmemory, hsteps⟩

end Worldly

end Exec

namespace Local

/-- What a program sees of a machine with `n` globals that take one cell each. -/
def world (n : Nat) (m : Machine) : World :=
  { globals := fun g => if g.idx < n then m.memory.cells[g.idx]? else none
    input := m.input
    output := m.output }

lemma world_memory {n : Nat} (m : Machine) {memory : Memory}
    (h : ∀ k < n, memory.cells[k]? = m.memory.cells[k]?) : world n { m with memory } = world n m := by
  simp only [world, World.mk.injEq, and_true]
  funext g
  split
  · next hg => exact h g.idx hg
  · rfl

lemma run_world_iff {α : Type} {x : Exec α} (hx : x.Worldly) {n : Nat} {m : Machine} {a : α}
    {w : World} : (world n m).run x = some (a, w) ↔ ∃ m', x m = .ok a m' ∧ w = world n m' := by
  let m₀ : Machine :=
    { memory := { limit := 0 }, input := (world n m).input, output := (world n m).output }
  rw [World.run]
  constructor
  · intro h
    split at h
    · next b t ht =>
      obtain ⟨rfl, rfl⟩ := Prod.mk.inj (Option.some.inj h)
      exact ⟨m.exchange t, hx m₀ m rfl rfl b t ht, rfl⟩
    · cases h
  · rintro ⟨m', hm', rfl⟩
    have hmemory := (hx.kept hm').1
    have hrun := hx m m₀ rfl rfl a m' hm'
    rw [hrun]
    simp only [world, hmemory, exchange]

end Local

end MiddleEnd
