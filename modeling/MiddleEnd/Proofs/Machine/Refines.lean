import MiddleEnd.Proofs.Machine.Congruence

/-!
# Actions that do the same in fewer steps

An action refines another one if, whenever the other succeeds, it succeeds with a related result and
leaves the machine as the other does, except that it may have counted fewer instructions.  The rules
of this module follow the way actions are put together.  Since no primitive action but counting
looks at the number of instructions, every primitive action refines itself.
-/

namespace MiddleEnd

open Exec Nat

/-- The two machines differ in the number of instructions only, and the second has counted no more
of them. -/
structure Machine.Ahead (s t : Machine) : Prop where
  memory : t.memory = s.memory
  input : t.input = s.input
  output : t.output = s.output
  steps : t.steps ≤ s.steps

lemma Machine.Ahead.refl (s : Machine) : s.Ahead s :=
  ⟨rfl, rfl, rfl, le_refl _⟩

lemma Machine.Ahead.trans {s t u : Machine} (hst : s.Ahead t) (htu : t.Ahead u) : s.Ahead u :=
  ⟨htu.memory.trans hst.memory, htu.input.trans hst.input, htu.output.trans hst.output,
    le_trans htu.steps hst.steps⟩

namespace Exec

variable {α β γ δ : Type} {x : Exec α} {k : α → Exec γ} {a : α} {c : γ}

/-- Whatever `x` does, `y` does as well, in no more steps and with a related result. -/
def Refines (related : α → β → Prop) (x : Exec α) (y : Exec β) : Prop :=
  ∀ s s' a t, s.Ahead s' → x s = .ok a t → ∃ b t', y s' = .ok b t' ∧ t.Ahead t' ∧ related a b

/-- If `x` succeeds it leaves the machine as it is, and its result has a property. -/
def Still (x : Exec α) (holds : α → Prop) : Prop :=
  ∀ s a t, x s = .ok a t → t = s ∧ holds a

lemma bind_ok {s u : Machine}
    (h : (x >>= k) s = .ok c u) : ∃ a t, x s = .ok a t ∧ k a t = .ok c u := by
  cases hx : x s with
  | ok a t =>
    simpa [bind, EStateM.bind, hx] using h
  | error e t => simp [bind, EStateM.bind, hx] at h

lemma bind_eq_ok {s t u : Machine}
    (hx : x s = .ok a t) (hk : k a t = .ok c u) : (x >>= k) s = .ok c u := by
  simp [bind, EStateM.bind, hx, hk]

def answer? (x : Exec α) (s : Machine) : Option α :=
  match x s with
  | .ok a _ => some a
  | .error _ _ => none

lemma answer?_eq_some {s : Machine} : x.answer? s = some a ↔ ∃ t, x s = .ok a t := by
  unfold answer?
  cases x s with
  | ok b t => simp
  | error e t => simp

/-! ## Rules -/

namespace Refines

variable {related : α → β → Prop} {related' : γ → δ → Prop} {f : Fault}

variable {x : Exec α} {y : Exec β} {k : α → Exec γ}

lemma pure {b : β} (h : related a b) :
    Refines related (Pure.pure a : Exec α) (Pure.pure b) := by
  intro s s' a' t hs hx
  obtain ⟨rfl, rfl⟩ : a = a' ∧ s = t := by simpa [Pure.pure, EStateM.pure] using hx
  exact ⟨b, s', rfl, hs, h⟩

lemma bind {l : β → Exec δ}
    (hx : Refines related x y) (hk : ∀ a b, related a b → Refines related' (k a) (l b)) :
    Refines related' (x >>= k) (y >>= l) := by
  intro s s' c u hs h
  obtain ⟨a, t, ha, hc⟩ := bind_ok h
  obtain ⟨b, t', hb, ht, hab⟩ := hx s s' a t hs ha
  obtain ⟨d, u', hd, hu, hcd⟩ := hk a b hab t t' c u ht hc
  exact ⟨d, u', bind_eq_ok hb hd, hu, hcd⟩

lemma of_error (h : ∀ s a t, x s ≠ .ok a t) : Refines related x y :=
  fun s _ a t _ hx => absurd hx (h s a t)

lemma skip {y : Exec δ} {holds : α → Prop} (hx : Still x holds)
    (hk : ∀ a, holds a → Refines related' (k a) y) : Refines related' (x >>= k) y := by
  intro s s' c u hs h
  obtain ⟨a, t, ha, hc⟩ := bind_ok h
  obtain ⟨rfl, hholds⟩ := hx s a t ha
  exact hk a hholds t s' c u hs hc

lemma state : Refines Machine.Ahead (MonadState.get : Exec Machine) MonadState.get := by
  intro s s' a t hs h
  cases h
  exact ⟨s', s', rfl, hs, hs⟩

lemma update {g g' : Machine → Machine} (hg : ∀ s s', s.Ahead s' → (g s).Ahead (g' s')) :
    Refines Eq (modify g : Exec Unit) (modify g') := by
  intro s s' a t hs h
  cases h
  exact ⟨(), g' s', rfl, hg s s' hs, rfl⟩

lemma update_memory (g : Memory → Memory) :
    Refines Eq (modify fun s => { s with memory := g s.memory } : Exec Unit)
      (modify fun s => { s with memory := g s.memory }) :=
  update fun _ _ hs => ⟨by rw [hs.memory], hs.input, hs.output, hs.steps⟩

/-! ## Primitive actions -/

lemma throw {e : Halt} : Refines related (MonadExcept.throw e : Exec α) y :=
  .of_error fun s a t h => by cases h

lemma fail : Refines related (fail f : Exec α) y :=
  .throw

lemma stuck : Refines related (stuck : Exec α) y :=
  .throw

lemma fail_bind {y : Exec δ} : Refines related' (Exec.fail f >>= k) y := by
  exact .throw

lemma stuck_bind {y : Exec δ} : Refines related' (Exec.stuck >>= k) y := by
  exact .throw

lemma lift (x : Except Fault α) : Refines Eq (lift x) (lift x) := by
  cases x with
  | ok a => exact .pure rfl
  | error f => exact .fail

lemma lift_memory (x : Memory → Except Fault α) :
    Refines Eq (do Exec.lift (x (← MonadState.get).memory) : Exec α)
      (do Exec.lift (x (← MonadState.get).memory)) :=
  state.bind fun _ _ hs => hs.memory ▸ .lift _

lemma tick (limit : Nat) : Refines Eq (tick limit) (tick limit) := by
  refine (update fun s s' hs => ?_).bind fun _ _ _ => state.bind fun s s' hs => ?_
  · exact ⟨hs.memory, hs.input, hs.output, succ_le_succ hs.steps⟩
  · by_cases hlim : limit ≠ 0 ∧ limit < s.steps
    · rw [if_pos hlim]
      exact .fail
    · have hlimit' : ¬ (limit ≠ 0 ∧ limit < s'.steps) := fun h =>
        hlim ⟨h.1, lt_of_lt_of_le h.2 hs.steps⟩
      rw [if_neg hlim, if_neg hlimit']
      exact .pure rfl

lemma skip_tick {limit : Nat} {k : Unit → Exec γ} {y : Exec δ} (hk : Refines related' (k ()) y) :
    Refines related' (Exec.tick limit >>= k) y := by
  intro s s' c u hs h
  obtain ⟨a, t, ha, hc⟩ := bind_ok h
  have ht : t = { s with steps := s.steps + 1 } := by
    rw [tick_eq] at ha
    split at ha
    · cases ha
    · cases ha
      rfl
  have hahead : t.Ahead s' := by
    rw [ht]
    exact ⟨hs.memory, hs.input, hs.output, le_succ_of_le hs.steps⟩
  exact hk t s' c u hahead hc

lemma print (text : String) : Refines Eq (print text) (print text) :=
  update fun _ _ hs => ⟨hs.memory, hs.input, by rw [hs.output], hs.steps⟩

lemma read (func : String) (reader : Input → Option α × Input) :
    Refines Eq (read func reader) (read func reader) := by
  refine state.bind fun s s' hs => ?_
  rw [hs.input]
  refine (update fun t t' ht => ?_).bind fun _ _ _ => ?_
  · exact ⟨ht.memory, rfl, ht.output, ht.steps⟩
  · split
    · exact .pure rfl
    · exact .fail

lemma load (a : Nat) : Refines Eq (load a) (load a) :=
  lift_memory fun m => m.load a

lemma loadAll (a count : Nat) : Refines Eq (loadAll a count) (loadAll a count) :=
  lift_memory fun m => m.loadAll a count

lemma allocate (count : Nat) (init : Value) :
    Refines Eq (allocate count init) (allocate count init) := by
  refine state.bind fun s s' hs => ?_
  rw [hs.memory]
  refine state.bind fun t t' ht => ?_
  rw [ht.memory]
  split
  · exact state.bind fun _ _ _ => .fail_bind
  · exact (update_memory fun m => m.grow count init).bind fun _ _ _ => .pure rfl

lemma store (a : Nat) (v : Value) : Refines Eq (store a v) (store a v) := by
  refine state.bind fun s s' hs => ?_
  rw [hs.memory]
  split
  · exact .fail_bind
  · exact update_memory fun m => m.set a v

lemma fill (a count : Nat) (v : Value) : Refines Eq (fill a count v) (fill a count v) := by
  refine state.bind fun s s' hs => ?_
  rw [hs.memory]
  split
  · exact .fail_bind
  · exact update_memory fun m => m.setRange a count v

lemma withFrame (h : Refines related x y) : Refines related (withFrame x) (withFrame y) := by
  intro s s' a t hs hx
  unfold Exec.withFrame at hx ⊢
  cases hxs : x s with
  | error e u => simp [hxs] at hx
  | ok b u =>
    rw [hxs] at hx
    obtain ⟨rfl, rfl⟩ : b = a ∧ { u with memory := u.memory.release s.memory.size } = t := by
      simpa using hx
    obtain ⟨c, u', hy, hu, hbc⟩ := h s s' b u hs hxs
    refine ⟨c, { u' with memory := u'.memory.release s'.memory.size }, by rw [hy], ?_, hbc⟩
    exact ⟨by rw [hs.memory, hu.memory], hu.input, hu.output, hu.steps⟩

lemma congruence : MemoryCongruence fun x y => Refines Eq x y where
  pure _ := .pure rfl
  bind hx hk := hx.bind fun a _ h => h ▸ hk a
  fail _ := .fail
  stuck := .stuck
  print := print
  read func _ _ := read func _
  load := load
  loadAll := loadAll
  store := store
  fill := fill
  cells hk := state.bind fun _ _ hs => hs.memory ▸ hk _

end Refines

/-! ## Actions without effect -/

namespace Still

variable {holds : α → Prop} {holds' : γ → Prop}

lemma pure (h : holds a) : Still (Pure.pure a : Exec α) holds := by
  intro s a' t hx
  obtain ⟨rfl, rfl⟩ : a = a' ∧ s = t := by simpa [Pure.pure, EStateM.pure] using hx
  exact ⟨rfl, h⟩

lemma bind (hx : Still x holds)
    (hk : ∀ a, holds a → Still (k a) holds') : Still (x >>= k) holds' := by
  intro s c u h
  obtain ⟨a, t, ha, hc⟩ := bind_ok h
  obtain ⟨rfl, hholds⟩ := hx s a t ha
  exact hk a hholds t c u hc

lemma fail {f : Fault} : Still (fail f : Exec α) holds := by
  intro s a t h
  cases h

lemma stuck : Still (stuck : Exec α) holds := by
  intro s a t h
  cases h

lemma lift (x : Except Fault α) : Still (lift x) fun _ => True := by
  cases x with
  | ok a => exact .pure trivial
  | error f => exact .fail

lemma load (a : Nat) : Still (load a) fun _ => True := by
  intro s v t h
  obtain ⟨m, u, hm, hv⟩ := bind_ok h
  cases hm
  exact lift _ s v t hv

end Still

end Exec

end MiddleEnd
