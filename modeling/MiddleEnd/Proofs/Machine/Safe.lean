import MiddleEnd.Proofs.Machine.Congruence

/-!
# Actions without structural faults

An action is quiet if it counts no instruction and stops the machine for no reason but a fault that is
not structural or a handle that names nothing.  All primitive actions but counting are quiet.  An
action is safe if it has no structural fault, and an action made of safe ones is safe.
-/

namespace MiddleEnd

open Exec

namespace Exec

variable {α β : Type} {x : Exec α} {k : α → Exec β}

/-! ## Quiet actions -/

/-- No instruction is counted, and the machine is stopped for a plain reason only. -/
def Quiet (x : Exec α) : Prop :=
  ∀ s, match x s with
    | .ok _ t => t.steps = s.steps
    | .error h t => t.steps = s.steps ∧ h.isStructural = false ∧ h ≠ .outOfFuel

namespace Quiet

lemma pure (a : α) : Quiet (Pure.pure a) :=
  fun _ => rfl

lemma fail {f : Fault} (hf : f.isStructural = false) : Quiet (fail f : Exec α) :=
  fun _ => ⟨rfl, hf, nofun⟩

lemma stuck : Quiet (stuck : Exec α) :=
  fun _ => ⟨rfl, rfl, nofun⟩

lemma get_bind {k : Machine → Exec α} (hk : ∀ s, Quiet (k s)) : Quiet (MonadState.get >>= k) :=
  fun s => hk s s

lemma update {g : Machine → Machine} (hg : ∀ s, (g s).steps = s.steps) :
    Quiet (modify g : Exec Unit) :=
  hg

lemma lift {x : Except Fault α} (hx : Fault.Plain x) : Quiet (lift x) := by
  cases x with
  | ok a => exact .pure a
  | error f => exact .fail (hx f rfl)

lemma print (text : String) : Quiet (print text) :=
  update fun _ => rfl

lemma read (func : String) (reader : Input → Option α × Input) : Quiet (read func reader) := by
  intro s
  rw [read_eq]
  cases (reader s.input).1 with
  | some v => rfl
  | none => exact ⟨rfl, rfl, nofun⟩

lemma load (a : Nat) : Quiet (load a) :=
  get_bind fun s => lift (.load s.memory a)

lemma loadAll (a count : Nat) : Quiet (loadAll a count) :=
  get_bind fun s => lift (.loadAll s.memory a count)

lemma allocate (count : Nat) (init : Value) : Quiet (allocate count init) := by
  refine get_bind fun s => get_bind fun t => ?_
  split
  · exact get_bind fun _ => .fail rfl
  · exact fun _ => rfl

lemma store (a : Nat) (v : Value) : Quiet (Exec.store a v) := by
  refine get_bind fun s => ?_
  split
  · exact .fail rfl
  · exact update fun _ => rfl

lemma fill (a count : Nat) (v : Value) : Quiet (Exec.fill a count v) := by
  refine get_bind fun s => ?_
  split
  · exact .fail rfl
  · exact update fun _ => rfl

end Quiet

/-! ## Safe actions -/

/-- Whatever the machine is, a result of the action passes, and it has no structural fault. -/
def Safe (x : Exec α) (holds : α → Prop) : Prop :=
  ∀ s, match x s with
    | .ok a _ => holds a
    | .error h _ => h.isStructural = false

lemma Quiet.safe (hx : Quiet x) : Safe x fun _ => True := by
  intro s
  have hs := hx s
  cases hxs : x s with
  | ok a t => trivial
  | error h t =>
    rw [hxs] at hs
    exact hs.2.1

namespace Safe

variable {holds : α → Prop} {holds' : β → Prop}

lemma pure {a : α} (h : holds a) : Safe (Pure.pure a) holds :=
  fun _ => h

lemma bind (hx : Safe x holds)
    (hk : ∀ a, holds a → Safe (k a) holds') : Safe (x >>= k) holds' := by
  intro s
  have hs := hx s
  simp only [Bind.bind, EStateM.bind]
  cases hxs : x s with
  | ok a t =>
    rw [hxs] at hs
    exact hk a hs t
  | error h t =>
    rw [hxs] at hs
    exact hs

lemma throw {h : Halt} (hh : h.isStructural = false) : Safe (MonadExcept.throw h : Exec α) holds :=
  fun _ => hh

lemma tick (limit : Nat) : Safe (tick limit) fun _ => True := by
  intro s
  rw [tick_eq]
  by_cases hlim : limit ≠ 0 ∧ limit < s.steps + 1
  · rw [if_pos hlim]
    rfl
  · rw [if_neg hlim]
    trivial

lemma withFrame (hx : Safe x holds) : Safe (withFrame x) holds := by
  intro s
  have hs := hx s
  unfold Exec.withFrame
  cases hxs : x s with
  | ok a t =>
    rw [hxs] at hs
    exact hs
  | error h t =>
    rw [hxs] at hs
    exact hs

lemma congruence : MemoryCongruence fun x _ => Safe x fun _ => True where
  pure _ := .pure True.intro
  bind hx hk := hx.bind fun a _ => hk a
  fail hf := (Quiet.fail hf).safe
  stuck := Quiet.stuck.safe
  print text := (Quiet.print text).safe
  read func _ _ := (Quiet.read func _).safe
  load a := (Quiet.load a).safe
  loadAll a count := (Quiet.loadAll a count).safe
  store a v := (Quiet.store a v).safe
  fill a count v := (Quiet.fill a count v).safe
  cells hk s := hk s.memory.cells s

end Safe

end Exec

end MiddleEnd
