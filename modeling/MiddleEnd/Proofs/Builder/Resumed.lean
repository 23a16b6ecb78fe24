import MiddleEnd.Flow
import MiddleEnd.Proofs.Builder.Sessions

/-!
# Sessions that resume a function

A function can be built in several sessions, some of them dropped before they are finished.  A
session that ends well terminates every live block, whatever it has found.  It answers for its own
pending jumps only: a jump that an earlier session left pending stays so unless it is resolved, and
then control flow still cannot be followed.
-/

namespace MiddleEnd

open List Builder Option

variable {i : InstId}

def Func.Dangles (f : Func) (c : BlockId) (i : InstId) : Prop :=
  c ∈ f.liveBlocks ∧ f.terminator? c = some i ∧ (f.instr i).isPendingJump

lemma Func.Consistent.dangles_iff {f : Func} (hf : f.Consistent) {c : BlockId} :
    f.Dangles c i ↔ (f.block c).deleted = false ∧ f.hasInst i ∧ f.terminator? c = some i ∧
      (f.instr i).isPendingJump := by
  refine ⟨fun ⟨hc, hlast, hpend⟩ => ?_, fun ⟨hc, hi, hlast, hpend⟩ => ?_⟩
  all_goals
    have hmem : i ∈ f.instsOf c := by
      rw [hf.terminator?_eq, filter_eq_some_iff] at hlast
      exact mem_of_getLast? hlast.1
  · exact ⟨(hf.mem_liveBlocks.mp hc).2, hasInst_of_live (hf.live_of_mem hmem), hlast, hpend⟩
  · exact ⟨hf.mem_liveBlocks.mpr ⟨hf.hasBlock_of_mem hmem, hc⟩, hlast, hpend⟩

/-- A session on a function: its calls, and whether it is finished or dropped. -/
structure Visit where
  steps : List BuildStep
  finished : Bool

namespace Session

/-- What a session leaves.  Nothing happens if it cannot be opened, and its calls stay if it cannot
be finished. -/
def visit (s : Session) (f : FuncId) (v : Visit) : Session :=
  match start s f with
  | .error _ => s
  | .ok b =>
    let b := b.takeAll v.steps
    if v.finished then
      match Build.finish b with
      | .ok (_, b') => b'.session
      | .error _ => b.session
    else b.session

def visits (s : Session) (f : FuncId) (vs : List Visit) : Session :=
  vs.foldl (fun s v => s.visit f v) s

end Session

namespace Draft

variable {strict : Prop} {f : Func} {done : List BuildStep} {d d' : Draft}

/-- What a session with the calls `done` has made of the function `f`. -/
structure Follows (f : Func) (done : List BuildStep) (d : Draft) : Prop where
  consistent : d.body.Consistent
  hasInst : ∀ i, f.hasInst i → d.body.hasInst i
  deleted : ∀ c, (d.body.block c).deleted = (f.block c).deleted
  /-- A terminated block keeps its terminator, and no other old instruction becomes one. -/
  terminator : ∀ c i, f.hasInst i →
    (d.body.terminator? c = some i ↔ f.terminator? c = some i)
  pending_old : ∀ i, f.hasInst i → ((d.body.instr i).isPendingJump ↔
    (f.instr i).isPendingJump ∧ ∀ c, .resolve i c ∉ done)
  pending_new : ∀ i, f.hasInst i = false → d.body.hasInst i →
    (d.body.instr i).isPendingJump → i ∈ d.pending

namespace Follows

lemma refl (hf : f.Consistent) (current : BlockId) : Follows f [] ⟨f, current, []⟩ where
  consistent := hf
  hasInst _ hi := hi
  deleted _ := rfl
  terminator _ _ _ := .rfl
  pending_old _ _ := (and_iff_left fun _ => not_mem_nil).symm
  pending_new i hnew hi := by simp [hnew] at hi

variable (hd : Follows f done d)
include hd

lemma move (h : Move strict d d') : Follows f done d' where
  consistent := h.consistent hd.consistent
  hasInst i hi := h.grows.hasInst i (hd.hasInst i hi)
  deleted c := (h.grows.deleted c).trans (hd.deleted c)
  terminator c i hi := by
    rw [← hd.terminator c i hi]
    rcases h.terminator? hd.consistent c with hsame | ⟨hopen, hnew⟩
    · rw [hsame]
    · have hne := Func.ne_nextInst (hd.hasInst i hi)
      rw [hopen, hnew]
      simp [Ne.symm hne]
  pending_old i hi := by
    rw [h.grows.instr i (hd.hasInst i hi)]
    exact hd.pending_old i hi
  pending_new i hnew := h.mem_pending (hd.pending_new i hnew)

lemma moves (h : Moves strict d d') : Follows f done d' := by
  induction h with
  | refl => exact hd
  | tail _ hmove ih => exact ih.move hmove

lemma of_ne_resolve {s : BuildStep} (hs : ∀ i c, s ≠ .resolve i c) :
    Follows f (done ++ [s]) d where
  __ := hd
  pending_old i hi := by
    simp only [mem_append, mem_singleton, (hs i _).symm, or_false]
    exact hd.pending_old i hi

lemma resolved (hi : d.body.hasInst i)
    (hpend : (d.body.instr i).isPendingJump) (c : BlockId) :
    Follows f (done ++ [.resolve i c]) (d.resolved i c) where
  consistent := (d.samePlaces_resolved i c).consistent hd.consistent
  hasInst j hj := ((d.samePlaces_resolved i c).hasInst j).trans (hd.hasInst j hj)
  deleted b := ((d.samePlaces_resolved i c).blockDeleted b).trans (hd.deleted b)
  terminator b j hj := by
    rw [terminator?_resolved hi hpend]
    exact hd.terminator b j hj
  pending_old j hj := by
    by_cases hji : j = i
    · subst hji
      rw [instr_resolved_self hi]
      refine ⟨nofun, fun h => absurd (mem_append_right _ (.head _)) (h.2 c)⟩
    · rw [instr_resolved_of_ne hji, hd.pending_old j hj]
      simp [hji]
  pending_new j hnew := mem_pending_resolved hi (hd.pending_new j hnew)

lemma skip (hi : ¬ (d.body.hasInst i ∧ (d.body.instr i).isPendingJump))
    (c : BlockId) :
    Follows f (done ++ [.resolve i c]) d where
  __ := hd
  pending_old j hj := by
    by_cases hji : j = i
    · subst hji
      refine ⟨fun h => absurd ⟨hd.hasInst j hj, h⟩ hi, fun h => ?_⟩
      exact absurd (mem_append_right _ (.head _)) (h.2 c)
    · rw [hd.pending_old j hj]
      simp [hji]

/-- If no jump of the session is pending, the pending jumps are those that it has found and not
resolved. -/
lemma dangles_iff (hf : f.Consistent) (hpend : d.pending = []) (c : BlockId) (i : InstId) :
    d.body.Dangles c i ↔ f.Dangles c i ∧ ∀ target, .resolve i target ∉ done := by
  rw [hd.consistent.dangles_iff, hf.dangles_iff, hd.deleted]
  refine ⟨fun ⟨hc, hi, hlast, hjump⟩ => ?_, fun ⟨⟨hc, hi, hlast, hjump⟩, hdone⟩ => ?_⟩
  · by_cases hold : f.hasInst i
    · obtain ⟨hjump', hdone⟩ := (hd.pending_old i hold).mp hjump
      exact ⟨⟨hc, hold, (hd.terminator c i hold).mp hlast, hjump'⟩, hdone⟩
    · have hmem := hd.pending_new i (by simpa using hold) hi hjump
      rw [hpend] at hmem
      cases hmem
  · exact ⟨hc, hd.hasInst i hi, (hd.terminator c i hi).mpr hlast,
      (hd.pending_old i hi).mpr ⟨hjump, hdone⟩⟩

end Follows

end Draft

/-! ## One session -/

namespace Builder

variable {s : Session} {f : FuncId} {b b' : Builder} {steps : List BuildStep}

lemma follows_takeAll (hf : (s.program.func f).Consistent) (hstart : start s f = .ok b)
    (steps : List BuildStep) : (b.takeAll steps).func = f ∧ (b.takeAll steps).Ready ∧
      Draft.Follows (s.program.func f) steps (b.takeAll steps).draft := by
  obtain ⟨hfunc, hready, hmoves⟩ := start_eq_ok False hstart
  have hsession := takeAll_induction False
    (fun _ _ _ _ hs hmoves hd => (hd.of_ne_resolve hs).moves hmoves)
    (fun _ _ c _ hi hpend _ hd => hd.resolved hi hpend c)
    (fun _ _ c _ hi hd => hd.skip hi c) hready steps False.elim []
    ((Draft.Follows.refl hf b.current).moves hmoves)
  exact ⟨hsession.1.trans hfunc, hsession.2⟩

/-- What a session that ends well leaves: every live block is terminated, and the pending jumps are
those that it has found and not resolved. -/
lemma follows_finish (hf : (s.program.func f).Consistent) (hstart : start s f = .ok b)
    (hfinish : Build.finish (b.takeAll steps) = .ok ((), b')) :
    ∃ d : Draft, d.body = b'.session.program.func f ∧ d.pending = [] ∧
      Draft.Follows (s.program.func f) steps d ∧
      ∀ c ∈ d.body.liveBlocks, d.body.terminator? c ≠ none := by
  obtain ⟨hfunc, hready, hfollows⟩ := follows_takeAll hf hstart steps
  obtain ⟨hfunc', d, hmoves, hbody, hpend, hends⟩ :=
    Build.finish_eq_ok False hready hfollows.consistent hfinish
  rw [← hbody] at hends
  rw [body, hfunc', hfunc] at hbody
  exact ⟨d, hbody, hpend, hfollows.moves hmoves, hends⟩

end Builder

/-! ## Histories -/

namespace Session

variable {s : Session} {f : FuncId}

lemma consistent_visit (hf : (s.program.func f).Consistent) (v : Visit) :
    ((s.visit f v).program.func f).Consistent := by
  rw [visit]
  split
  · exact hf
  next b hstart =>
  obtain ⟨hfunc, -, hfollows⟩ := follows_takeAll hf hstart v.steps
  have hdropped : ((b.takeAll v.steps).session.program.func f).Consistent := by
    have hcons := hfollows.consistent
    change (b.takeAll v.steps).body.Consistent at hcons
    rwa [body, hfunc] at hcons
  dsimp only
  split
  · split
    · next b' hfinish =>
      obtain ⟨d, hbody, -, hd, -⟩ := follows_finish hf hstart hfinish
      exact hbody ▸ hd.consistent
    · exact hdropped
  · exact hdropped

lemma consistent_visits (hf : (s.program.func f).Consistent) (vs : List Visit) :
    ((s.visits f vs).program.func f).Consistent := by
  induction vs generalizing s with
  | nil => exact hf
  | cons v vs ih => exact ih (consistent_visit hf v)

end Session

/-! ## Following control flow -/

namespace Func

variable {f : Func} {c : BlockId} {name label : String}

lemma exists_flowError? {e : Error} (h : f.connect.1 = .error e) :
    ∃ c ∈ f.liveBlocks, f.flowError? c = some e := by
  rw [connect] at h
  split at h
  · cases h
  · next e' he =>
    cases h
    exact exists_of_findSome?_eq_some he

lemma terminator?_of_flowError? (h : f.flowError? c = some (.unterminated name label)) :
    f.terminator? c = none := by
  cases hlast : f.terminator? c with
  | none => rfl
  | some i =>
    rw [flowError?, hlast] at h
    grind

lemma isPendingJump_of_flowError? (h : f.flowError? c = some (.pendingJump name label)) :
    ∃ i, f.terminator? c = some i ∧ (f.instr i).isPendingJump := by
  cases hlast : f.terminator? c with
  | none =>
    rw [flowError?, hlast] at h
    cases h
  | some i =>
    refine ⟨i, rfl, ?_⟩
    rw [flowError?, hlast] at h
    split at h
    · cases h
    · next hjump => rw [some.inj hjump, Instr.isPendingJump]
    all_goals grind

end Func

/-- Whatever sessions a function has seen, one that ends well leaves no live block unterminated.  A
live block ends in a pending jump after it exactly if it did so before and the session has not
resolved that jump.  So control flow never breaks off at an open block, and not at a pending jump
either if the session has resolved those that it has found. -/
theorem Session.dangles_of_finish {s : Session} {f : FuncId} {history : List Visit}
    {b b' : Builder} {steps : List BuildStep} (hf : (s.program.func f).Consistent)
    (hstart : Builder.start (s.visits f history) f = .ok b)
    (hfinish : Build.finish (b.takeAll steps) = .ok ((), b')) :
    (∀ c ∈ (b'.session.program.func f).liveBlocks,
      (b'.session.program.func f).terminator? c ≠ none) ∧
    (∀ c i, (b'.session.program.func f).Dangles c i ↔
      ((s.visits f history).program.func f).Dangles c i ∧
        ∀ target, .resolve i target ∉ steps) ∧
    (∀ name label,
      (b'.session.program.func f).connect.1 ≠ .error (.unterminated name label)) ∧
    ((∀ c i, ((s.visits f history).program.func f).Dangles c i →
        ∃ target, .resolve i target ∈ steps) →
      ∀ name label,
        (b'.session.program.func f).connect.1 ≠ .error (.pendingJump name label)) := by
  have hconsistent := consistent_visits hf history
  obtain ⟨d, hbody, hpending, hd, hends⟩ := Builder.follows_finish hconsistent hstart hfinish
  have hdangles := hd.dangles_iff hconsistent hpending
  rw [← hbody]
  refine ⟨hends, hdangles, fun name label h => ?_, fun hresolved name label h => ?_⟩
  · obtain ⟨c, hc, herror⟩ := Func.exists_flowError? h
    exact hends c hc (Func.terminator?_of_flowError? herror)
  · obtain ⟨c, hc, herror⟩ := Func.exists_flowError? h
    obtain ⟨i, hlast, hjump⟩ := Func.isPendingJump_of_flowError? herror
    obtain ⟨hold, hdone⟩ := (hdangles c i).mp ⟨hc, hlast, hjump⟩
    obtain ⟨target, htarget⟩ := hresolved c i hold
    exact hdone target htarget

/-- A program with one function, which has no blocks. -/
def blank : Session where
  program := { funcs := #[.new "f" .void []] }
  context := {}

/-- A session that is dropped with a pending jump. -/
def droppedJump : Visit where
  steps := [.pendingJump]
  finished := false

theorem Session.dangles_of_finish_droppedJump :
    ∃ b b', (blank.program.func ⟨0⟩).Consistent ∧
      Builder.start (blank.visits ⟨0⟩ [droppedJump]) ⟨0⟩ = .ok b ∧
      Build.finish (b.takeAll [.createBlock, .resolve ⟨0⟩ ⟨1⟩]) = .ok ((), b') ∧
      ((blank.visits ⟨0⟩ [droppedJump]).program.func ⟨0⟩).Dangles ⟨0⟩ ⟨0⟩ ∧
      ∀ c i, ¬ (b'.session.program.func ⟨0⟩).Dangles c i := by
  have hconsistent : (blank.program.func ⟨0⟩).Consistent := by decide
  obtain ⟨b, hstart⟩ : ∃ b, Builder.start (blank.visits ⟨0⟩ [droppedJump]) ⟨0⟩ = .ok b := ⟨_, rfl⟩
  obtain ⟨b', hfinish⟩ : ∃ b', Build.finish (b.takeAll [.createBlock, .resolve ⟨0⟩ ⟨1⟩]) =
      .ok ((), b') := by
    cases hstart
    exact ⟨_, rfl⟩
  refine ⟨b, b', hconsistent, hstart, hfinish, ⟨by decide, rfl, rfl⟩, fun c i h => ?_⟩
  obtain ⟨⟨hc, hlast, -⟩, hresolved⟩ :=
    ((dangles_of_finish hconsistent hstart hfinish).2.1 c i).mp h
  have hentry : c = ⟨0⟩ := mem_singleton.mp hc
  subst hentry
  have hjump : i = ⟨0⟩ := (Option.some.inj hlast).symm
  subst hjump
  exact hresolved ⟨1⟩ (by simp)

/-- A session that ends well can leave a pending jump of an earlier one. -/
theorem Session.exists_finish_dangles :
    ∃ (s : Session) (f : FuncId) (history : List Visit) (b b' : Builder) (name label : String),
      (s.program.func f).Consistent ∧ Builder.start (s.visits f history) f = .ok b ∧
      Build.finish b = .ok ((), b') ∧
      (b'.session.program.func f).connect.1 = .error (.pendingJump name label) :=
  ⟨blank, ⟨0⟩, [droppedJump], _, _, _, _, by decide, rfl, rfl, rfl⟩

end MiddleEnd
