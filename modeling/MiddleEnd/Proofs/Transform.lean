import MiddleEnd.Transform

/-!
# Steps of a transformation

A transformation succeeds if its steps do, one after the other.  An analysis succeeds if its result
is not an error; the function that it leaves is the next one to work on.
-/

namespace MiddleEnd

open EStateM

variable {ε σ α β : Type} {x : EStateM ε σ α} {k : α → EStateM ε σ β} {b : β}

theorem bind_eq_ok {s s' : σ}
    (h : (x >>= k) s = .ok b s') : ∃ a t, x s = .ok a t ∧ k a t = .ok b s' := by
  cases hx : x s with
  | ok a t =>
    refine ⟨a, t, rfl, ?_⟩
    simpa [bind, EStateM.bind, hx] using h
  | error e t => simp [bind, EStateM.bind, hx] at h

theorem bind_of_ok {s s' : σ} {a : α} (h : x s = .ok a s') : (x >>= k) s = k a s' := by
  simp [bind, EStateM.bind, h]

theorem map_eq_ok {s s' : σ} {k : α → β} (h : (k <$> x) s = .ok b s') :
    ∃ a, x s = .ok a s' ∧ k a = b := by
  change (EStateM.map k x) s = _ at h
  cases hx : x s with
  | ok a t =>
    rw [EStateM.map, hx] at h
    obtain ⟨rfl, rfl⟩ := Result.ok.inj h
    exact ⟨a, rfl, rfl⟩
  | error e t =>
    rw [EStateM.map, hx] at h
    cases h

/-- The state that is left, with a result or an error. -/
def left (x : EStateM ε σ α) (s : σ) : σ :=
  match x s with
  | .ok _ t => t
  | .error _ t => t

/-- What an optimization reports, if it succeeds. -/
def report? (x : EStateM ε σ Bool) (s : σ) : Option Bool :=
  match x s with
  | .ok changed _ => some changed
  | .error _ _ => none

theorem report?_eq_some {x : EStateM ε σ Bool} {s : σ} {changed : Bool}
    (h : report? x s = some changed) : ∃ t, x s = .ok changed t := by
  unfold report? at h
  split at h
  · next changed' t ht => exact ⟨t, Option.some.inj h ▸ ht⟩
  · cases h

namespace Transform

variable {w w' : Work}
variable {x : Transform α} {k : α → Transform β} {a : α} {g : Func → Except Error α × Func}

theorem bind_ok (h : (x >>= k) w = .ok b w') : ∃ a v, x w = .ok a v ∧ k a v = .ok b w' :=
  bind_eq_ok h

theorem bind_of_ok (h : x w = .ok a w') : (x >>= k) w = k a w' :=
  MiddleEnd.bind_of_ok h

theorem func_bind (k : Func → Transform β) : (Transform.func >>= k) w = k w.func w :=
  rfl

theorem forM_cons_of_ok {k : α → Transform Unit} {as : List α} (h : k a w = .ok () w') :
    (a :: as).forM k w = as.forM k w' :=
  bind_of_ok h

theorem discard_of_ok (h : x w = .ok a w') : discard x w = .ok () w' := by
  change (EStateM.map (fun _ => ()) x) w = _
  rw [EStateM.map, h]

theorem analyze_ok (h : analyze g w = .ok a w') :
    g w.func = (.ok a, w'.func) ∧ w'.events = w.events := by
  unfold analyze at h
  split at h
  · next a' f hg =>
    cases h
    exact ⟨hg, rfl⟩
  · cases h

theorem analyze_of_ok {f : Func}
    (h : g w.func = (.ok a, f)) : analyze g w = .ok a { w with func := f } := by
  simp [analyze, h]

end Transform

/-! ## Whole programs -/

namespace Compile

variable {s s' : Session} {x : Transform α} {a : α} {id : FuncId}

theorem program_bind (k : Program → Compile β) : (Compile.program >>= k) s = k s.program s :=
  rfl

theorem lift_eq_ok {x : Except Error α} (h : lift x s = .ok a s') : x = .ok a ∧ s' = s := by
  cases x with
  | ok b =>
    obtain ⟨rfl, rfl⟩ := Result.ok.inj h
    exact ⟨rfl, rfl⟩
  | error e => cases h

theorem lift_of_ok {x : Except Error α} (h : x = .ok a) (s : Session) : lift x s = .ok a s := by
  rw [h]
  rfl

theorem transform_of_ok {w : Work}
    (h : x { func := s.program.func id } = .ok a w) : transform id x s =
      .ok a { program := s.program.setFunc id w.func, context := s.context.recordAll w.events } := by
  simp [transform, h]

theorem transform_eq_ok (h : transform id x s = .ok a s') :
    ∃ w, x { func := s.program.func id } = .ok a w ∧
      s' = { program := s.program.setFunc id w.func, context := s.context.recordAll w.events } := by
  unfold transform at h
  dsimp only at h
  split at h
  · next b w hx =>
    obtain ⟨rfl, rfl⟩ := Result.ok.inj h
    exact ⟨w, hx, rfl⟩
  · cases h

end Compile

end MiddleEnd
