import MiddleEnd.Proofs.Machine.Congruence

/-!
# Actions that limits cut short

An action is curtailed by another one if both do the same on machines that differ in the size of
their memory at most, up to a point where the first may be stopped by a limit.  What the first has
printed by then, the other has printed as well.  For this the other action must never take output
back, whether it succeeds or fails: the machine that it leaves comes after the one that it finds.

No primitive action but counting and reserving looks at a limit, so every other one curtails itself.
-/

namespace MiddleEnd

open Exec Nat EStateM List

/-- Is the run cut short, by a limit or because the step counter can count no further? -/
def Halt.isCut : Halt → Bool
  | fault f => f.isLimit
  | error _ => false
  | outOfFuel => true

namespace Machine

/-- The machine `t` comes after `s` in a run: text has been printed behind the output, input has
been read from the front, and instructions have been counted.  Cells may have been added if
`reserves` is set. -/
structure Precedes (reserves : Bool) (s t : Machine) : Prop where
  output : ∃ text, t.output = s.output ++ text
  input : t.input <:+ s.input
  steps : s.steps ≤ t.steps
  size_le : s.memory.size ≤ t.memory.size
  size_eq : reserves = false → t.memory.size = s.memory.size

namespace Precedes

variable {reserves : Bool} {s t u : Machine}

lemma refl (reserves : Bool) (s : Machine) : s.Precedes reserves s :=
  ⟨⟨"", String.append_empty.symm⟩, suffix_refl _, le_refl _, le_refl _, fun _ => rfl⟩

lemma trans (hst : s.Precedes reserves t) (htu : t.Precedes reserves u) :
    s.Precedes reserves u where
  output := by
    obtain ⟨text, ht⟩ := hst.output
    obtain ⟨more, hu⟩ := htu.output
    exact ⟨text ++ more, by rw [hu, ht, String.append_assoc]⟩
  input := htu.input.trans hst.input
  steps := le_trans hst.steps htu.steps
  size_le := le_trans hst.size_le htu.size_le
  size_eq h := (htu.size_eq h).trans (hst.size_eq h)

lemma of_false (h : s.Precedes false t) : s.Precedes reserves t :=
  ⟨h.output, h.input, h.steps, h.size_le, fun _ => h.size_eq rfl⟩

lemma of_memory {memory : Memory} (h : memory.size = s.memory.size) :
    s.Precedes reserves { s with memory } :=
  ⟨(refl reserves s).output, suffix_refl _, le_refl _, le_of_eq h.symm, fun _ => h⟩

lemma release (h : s.Precedes reserves t) :
    s.Precedes false { t with memory := t.memory.release s.memory.size } := by
  have hsize : (t.memory.release s.memory.size).size = s.memory.size := by
    simp only [Memory.release, Memory.size, Array.take_eq_extract, Array.size_extract, Nat.sub_zero]
    exact min_eq_left h.size_le
  exact ⟨h.output, h.input, h.steps, le_of_eq hsize.symm, fun _ => hsize⟩

end Precedes

/-- The machine with another number of cells that can be in use. -/
def relimit (s : Machine) (limit : Nat) : Machine :=
  { s with memory := { s.memory with limit } }

end Machine

lemma Memory.loadAll_relimit (m : Memory) (limit a count : Nat) :
    ({ m with limit } : Memory).loadAll a count = m.loadAll a count := by
  induction count generalizing a with
  | zero => rfl
  | succ count ih =>
    rw [loadAll, ih]
    rfl

namespace Exec

variable {α β : Type}

def final : Result Halt Machine α → Machine
  | .ok _ t => t
  | .error _ t => t

/-- The machine that an action leaves, whether it succeeds or fails. -/
def after (x : Exec α) (s : Machine) : Machine :=
  final (x s)

/-- Both results are the same, on machines that differ in their limit, or the first one has been cut
short and the other one has printed more. -/
inductive Cut (limit : Nat) :
    Result Halt Machine α → Result Halt Machine α → Prop
  | ok {a : α} {t : Machine} (ht : t.memory.limit ≤ limit) :
    Cut limit (.ok a t) (.ok a (t.relimit limit))
  | error {h : Halt} {t : Machine} : Cut limit (.error h t) (.error h (t.relimit limit))
  | cut {h : Halt} {t : Machine} {r : Result Halt Machine α} (hh : h.isCut)
    (hr : ∃ text, (final r).output = t.output ++ text) : Cut limit (.error h t) r

namespace Cut

variable {limit : Nat} {t : Machine} {h : Halt} {r : Result Halt Machine α}

lemma eq_ok {a : α} (hr : Cut limit (.ok a t) r) : r = .ok a (t.relimit limit) := by
  cases hr with
  | ok => rfl

lemma eq_error (hr : Cut limit (.error h t) r) (hh : h.isCut = false) :
    r = .error h (t.relimit limit) := by
  cases hr with
  | error => rfl
  | cut hcut =>
    rw [hh] at hcut
    cases hcut

lemma output (hr : Cut limit (.error h t) r) : ∃ text, (final r).output = t.output ++ text := by
  cases hr with
  | error => exact ⟨"", String.append_empty.symm⟩
  | cut _ hr => exact hr

end Cut

/-- The action `x` does what `y` does in a memory that is not smaller, unless it is cut short. -/
structure Curtails (reserves : Bool) (x y : Exec α) : Prop where
  precedes : ∀ s : Machine, s.Precedes reserves (y.after s)
  cut : ∀ (s : Machine) (limit : Nat), s.memory.limit ≤ limit →
    Cut limit (x s) (y (s.relimit limit))

/-! ## Rules -/

namespace Curtails

variable {reserves : Bool}

lemma pure (a : α) : Curtails reserves (Pure.pure a : Exec α) (Pure.pure a) :=
  ⟨fun s => .refl reserves s, fun _ _ h => .ok h⟩

lemma bind {x y : Exec α} {k l : α → Exec β} (hx : Curtails reserves x y)
    (hk : ∀ a, Curtails reserves (k a) (l a)) : Curtails reserves (x >>= k) (y >>= l) where
  precedes s := by
    have hs := hx.precedes s
    simp only [after, Bind.bind, EStateM.bind] at hs ⊢
    cases hys : y s with
    | ok b t =>
      rw [hys] at hs
      exact hs.trans ((hk b).precedes t)
    | error h t =>
      rw [hys] at hs
      exact hs
  cut s limit hle := by
    have hs := hx.cut s limit hle
    simp only [Bind.bind, EStateM.bind]
    generalize x s = r at hs
    generalize y (s.relimit limit) = r' at hs
    cases hs with
    | @ok a t ht => exact (hk a).cut t limit ht
    | error => exact .error
    | @cut h t _ hh hr =>
      refine .cut hh ?_
      cases r' with
      | error h' t' => exact hr
      | ok b t' =>
        -- what follows in the longer run prints behind what has been printed so far
        obtain ⟨text, ht'⟩ := hr
        obtain ⟨more, hmore⟩ := ((hk b).precedes t').output
        exact ⟨text ++ more, hmore.trans (by rw [← String.append_assoc, ← ht']; rfl)⟩

lemma of_false {x y : Exec α} (h : Curtails false x y) : Curtails reserves x y :=
  ⟨fun s => (h.precedes s).of_false, h.cut⟩

/-- What is cut short before it does anything curtails every action of the same kind. -/
lemma of_cut {x x' y : Exec α} (hy : Curtails reserves x' y)
    (hx : ∀ s, ∃ h, h.isCut ∧ x s = .error h s) : Curtails reserves x y where
  precedes := hy.precedes
  cut s limit _ := by
    obtain ⟨h, hh, hs⟩ := hx s
    rw [hs]
    exact .cut hh (hy.precedes (s.relimit limit)).output

lemma throw (h : Halt) : Curtails reserves (MonadExcept.throw h : Exec α) (MonadExcept.throw h) :=
  ⟨fun s => .refl reserves s, fun _ _ _ => .error⟩

lemma fail (f : Fault) : Curtails reserves (fail f : Exec α) (fail f) :=
  throw _

lemma stuck : Curtails reserves (stuck : Exec α) stuck :=
  throw _

lemma fail_bind (f : Fault) {k l : α → Exec β} :
    Curtails reserves (Exec.fail f >>= k) (Exec.fail f >>= l) :=
  throw _

lemma stuck_bind {k l : α → Exec β} : Curtails reserves (Exec.stuck >>= k) (Exec.stuck >>= l) :=
  throw _

lemma get_bind {k l : Machine → Exec α}
    (h : ∀ s limit, s.memory.limit ≤ limit → Curtails reserves (k s) (l (s.relimit limit))) :
    Curtails reserves (MonadState.get >>= k) (MonadState.get >>= l) :=
  ⟨fun s => (h s s.memory.limit (le_refl _)).precedes s,
    fun s limit hle => (h s limit hle).cut s limit hle⟩

lemma update {g : Machine → Machine} (hprec : ∀ s : Machine, s.Precedes reserves (g s))
    (hlim : ∀ s, (g s).memory.limit = s.memory.limit)
    (hrelimit : ∀ s limit, g (s.relimit limit) = (g s).relimit limit) :
    Curtails reserves (modify g : Exec Unit) (modify g) where
  precedes := hprec
  cut s limit hle := by
    change Cut limit (.ok () (g s)) (.ok () (g (s.relimit limit)))
    rw [hrelimit]
    exact .ok (hlim s ▸ hle)

/-! ## Primitive actions -/

lemma lift (x : Except Fault α) : Curtails reserves (lift x) (lift x) := by
  cases x with
  | ok a => exact .pure a
  | error f => exact .fail f

lemma tick {limit limit' : Nat} (h : limit' = 0 ∨ limit ≠ 0 ∧ limit ≤ limit') :
    Curtails reserves (tick limit) (tick limit') where
  precedes s := by
    have hs : s.Precedes reserves { s with steps := s.steps + 1 } :=
      ⟨(Machine.Precedes.refl reserves s).output, suffix_refl _, le_succ _, le_refl _,
        fun _ => rfl⟩
    rw [after, tick_eq]
    split
    · exact hs
    · exact hs
  cut s cells hle := by
    rw [tick_eq, tick_eq]
    by_cases hcut : limit ≠ 0 ∧ limit < s.steps + 1
    · rw [if_pos hcut]
      refine .cut rfl ⟨"", ?_⟩
      split
      · exact String.append_empty.symm
      · exact String.append_empty.symm
    · have hgo : ¬ (limit' ≠ 0 ∧ limit' < (s.relimit cells).steps + 1) := by
        change ¬ (limit' ≠ 0 ∧ limit' < s.steps + 1)
        omega
      rw [if_neg hcut, if_neg hgo]
      exact .ok hle

lemma print (text : String) : Curtails reserves (print text) (print text) :=
  update (fun _ => ⟨⟨text, rfl⟩, suffix_refl _, le_refl _, le_refl _, fun _ => rfl⟩)
    (fun _ => rfl) fun _ _ => rfl

lemma read (func : String) {reader : Input → Option α × Input}
    (hreader : ∀ input, (reader input).2 <:+ input) :
    Curtails reserves (read func reader) (read func reader) where
  precedes s := by
    have hs : s.Precedes reserves { s with input := (reader s.input).2 } :=
      ⟨(Machine.Precedes.refl reserves s).output, hreader s.input, le_refl _, le_refl _,
        fun _ => rfl⟩
    rw [after, read_eq]
    split
    · exact hs
    · exact hs
  cut s limit hle := by
    have hinput : (s.relimit limit).input = s.input := rfl
    rw [read_eq, read_eq, hinput]
    cases (reader s.input).1 with
    | none => exact .error
    | some v => exact .ok hle

lemma load (a : Nat) : Curtails reserves (load a) (load a) :=
  get_bind fun s _ _ => lift (s.memory.load a)

lemma loadAll (a count : Nat) : Curtails reserves (loadAll a count) (loadAll a count) := by
  refine get_bind fun s limit _ => ?_
  have hsame : (s.relimit limit).memory.loadAll a count = s.memory.loadAll a count :=
    Memory.loadAll_relimit ..
  rw [hsame]
  exact lift (s.memory.loadAll a count)

lemma store (a : Nat) (v : Value) : Curtails reserves (store a v) (store a v) := by
  refine get_bind fun s limit _ => ?_
  change Curtails reserves (if s.memory.size ≤ a then _ else _) (if s.memory.size ≤ a then _ else _)
  split
  · exact .fail_bind _
  · exact update (fun t => .of_memory (Array.size_setIfInBounds ..)) (fun _ => rfl) fun _ _ => rfl

lemma fill (a count : Nat) (v : Value) : Curtails reserves (fill a count v) (fill a count v) := by
  refine get_bind fun s limit _ => ?_
  change Curtails reserves (if !s.memory.covers a count then _ else _)
    (if !s.memory.covers a count then _ else _)
  split
  · exact .fail_bind _
  · exact update (fun t => .of_memory Array.size_mapIdx) (fun _ => rfl) fun _ _ => rfl

lemma allocate (count : Nat) (init : Value) :
    Curtails true (allocate count init) (allocate count init) where
  precedes s := by
    rw [after, allocate_eq]
    split
    · refine ⟨(Machine.Precedes.refl true s).output, List.suffix_refl _, Nat.le_refl _, ?_, nofun⟩
      simp [final, Memory.size, Memory.grow]
    · exact .refl true s
  cut s limit hle := by
    rw [allocate_eq, allocate_eq]
    by_cases hroom : s.memory.size + count ≤ s.memory.limit
    · have hroom' : (s.relimit limit).memory.size + count ≤ (s.relimit limit).memory.limit :=
        le_trans hroom hle
      rw [if_pos hroom, if_pos hroom']
      exact .ok hle
    · rw [if_neg hroom]
      refine .cut rfl ⟨"", ?_⟩
      split
      · exact String.append_empty.symm
      · exact String.append_empty.symm

lemma withFrame {x y : Exec α} (h : Curtails true x y) :
    Curtails false (withFrame x) (withFrame y) where
  precedes s := by
    have hs := h.precedes s
    unfold after Exec.withFrame at *
    cases hys : y s with
    | ok b t | error e t =>
      rw [hys] at hs
      exact hs.release
  cut s limit hle := by
    have hs := h.cut s limit hle
    unfold Exec.withFrame
    generalize x s = r at hs
    generalize y (s.relimit limit) = r' at hs
    cases hs with
    | ok ht => exact .ok ht
    | error => exact .error
    | @cut h t _ hh hr =>
      refine .cut hh ?_
      cases r' with
      | ok b t' => exact hr
      | error e t' => exact hr

lemma congruence : MemoryCongruence fun x y => Curtails reserves x y where
  pure := pure
  bind := bind
  fail _ := fail _
  stuck := stuck
  print := print
  read func _ hreader := read func hreader
  load := load
  loadAll := loadAll
  store := store
  fill := fill
  cells hk := get_bind fun s _ _ => hk s.memory.cells

end Curtails

end Exec

end MiddleEnd
