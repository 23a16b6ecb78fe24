import MiddleEnd.Proofs.Promotion.Cleanup

/-!
# Which phis are swept, and that folding ends

Sweeping and folding ask for exact use-lists only, not for SSA form.  A phi survives sweeping if and
only if a chain of readers leads from it, through the given phis, to an instruction that is not one
of them.  So a web of phis that read each other and are read by nothing else goes, cycles included.

Folding follows the users of what it folds.  `Folds` is the run of an unbounded stack.  A folded
instruction loses the users that are put on the stack, hence the number of uses bounds the run.
-/

namespace MiddleEnd.Promotion

open List Bool Relation Func

variable {f g : Func} {i p : InstId} {stack : List InstId}

/-! ## Folding and phis -/

lemma phi_foldAt {c : Constant} (hfold : foldable? f i = some c) (hlive : (f.inst p).live)
    (hphi : (f.instr p).isPhi) :
    ((foldAt f i c).inst p).live ∧ ((foldAt f i c).instr p).isPhi := by
  obtain ⟨hi, hval⟩ := foldable?_eq_some hfold
  have hne : p ≠ i := by
    rintro rfl
    rw [(not_isTerminator_of_fold? hval).2] at hphi
    exact false_ne_true hphi
  constructor
  · rw [foldAt, live_remove, (samePlaces_replaceUses _ _ _).live, hlive]
    simpa using hne
  · have hne : Operand.inst i ≠ .const c := by simp
    have hinstr := congrArg InstRecord.instr (bare_replaceUses hne (hasInst_of_live hi) p)
    rw [foldAt, instr_remove, instr, ← InstRecord.instr_bare, hinstr]
    split
    · exact (Instr.isPhi_mapOperands _ _).trans hphi
    · exact hphi

lemma Folds.phi (h : Folds f stack g) (hlive : (f.inst p).live) (hphi : (f.instr p).isPhi) :
    (g.inst p).live ∧ (g.instr p).isPhi := by
  induction h with
  | done => exact ⟨hlive, hphi⟩
  | skip _ _ ih => exact ih hlive hphi
  | fold hfold _ ih =>
    obtain ⟨hlive, hphi⟩ := phi_foldAt hfold hlive hphi
    exact ih hlive hphi

/-! ## Both in turn -/

/-- Sweeping keeps just the phis from which a chain of readers leads out of the given ones, leaves no
reader of a phi that goes, changes no other instruction and keeps the use-lists exact.  Folding
whatever is given then empties its stack and keeps every phi. -/
theorem sweepPhis_foldConstants {w : Work} {phis : List InstId} (hf : w.func.Exact)
    (hnodup : phis.Nodup)
    (hphis : ∀ p ∈ phis, (w.func.inst p).live = true ∧ (w.func.instr p).isPhi = true)
    (candidates : List InstId) :
    ∃ w₁ w₂, sweepPhis phis w = .ok () w₁ ∧ foldConstants candidates w₁ = .ok () w₂ ∧
      (∀ p ∈ phis, (w₁.func.inst p).live = true ↔
        ∃ q, ReflTransGen (fun a b => b ∈ phis ∧ .inst a ∈ (w.func.instr b).operands) p q ∧
          ∃ u, u ∉ phis ∧ (w.func.inst u).live = true ∧ .inst q ∈ (w.func.instr u).operands) ∧
      (∀ u, (w₁.func.inst u).live = true → ∀ p ∈ phis, .inst p ∈ (w₁.func.instr u).operands →
        (w₁.func.inst p).live = true) ∧
      (∀ u, w₁.func.instr u = w.func.instr u ∧ (w₁.func.inst u).ty = (w.func.inst u).ty ∧
        (w₁.func.inst u).block = (w.func.inst u).block ∧
        (u ∉ phis → (w₁.func.inst u).live = (w.func.inst u).live)) ∧
      w₁.func.Exact ∧
      Folds w₁.func candidates.reverse w₂.func ∧
      ∀ p, (w₁.func.inst p).live = true → (w₁.func.instr p).isPhi = true →
        (w₂.func.inst p).live = true ∧ (w₂.func.instr p).isPhi = true := by
  have huses p (hp : p ∈ phis) : w.func.UsesOf (fun u => (w.func.inst u).live) (.inst p) :=
    hf.uses _ (Func.hasInst_of_live (hphis p hp).1)
  obtain ⟨w₁, hsweep, hfunc⟩ := sweepPhis_eq_ok phis w
  obtain ⟨w₂, hfold, hfolds⟩ := foldStack_folds candidates.reverse w₁
    (n := candidates.length + useCount w₁.func) (by rw [length_reverse])
  have hlive (u : InstId) : (w₁.func.inst u).live = true ↔
      (w.func.inst u).live = true ∧ u ∉ unneededPhis w.func phis := by
    rw [hfunc, Func.Consistent.live_foldl_remove, and_eq_true, decide_eq_true_eq]
  have hrecord := Func.Consistent.record_foldl_remove (unneededPhis w.func phis) w.func
  refine ⟨w₁, w₂, hsweep, ?_, fun p hp => ?_, fun u hu p hp hread => ?_, fun u => ?_, ?_, hfolds,
    fun p => hfolds.phi⟩
  · rw [foldConstants, Transform.func_bind, hfold]
  · rw [hlive p, and_iff_right (hphis p hp).1]
    exact notMem_unneededPhis_iff hnodup huses hp
  · obtain ⟨hu, hkept⟩ := (hlive u).mp hu
    rw [hfunc, Func.instr, (hrecord u).1] at hread
    exact (hlive p).mpr ⟨(hphis p hp).1, fun h =>
      notMem_operands_of_unneeded hnodup huses hu hkept h hread⟩
  · have hkept (hu : u ∉ phis) : u ∉ unneededPhis w.func phis := fun h => hu (mem_filter.mp h).1
    have hsame := hrecord u
    rw [← hfunc] at hsame
    exact ⟨hsame.1, hsame.2.1, hsame.2.2, fun hu =>
      eq_iff_iff.mpr ((hlive u).trans (and_iff_left (hkept hu)))⟩
  · rw [hfunc]
    exact hf.foldl_remove _

/-- Two phis of a loop that read each other, and two more of which a sum reads the second. -/
def phiWebs : Func :=
  Edit.applyAll (.new "f" .i32 [.i32])
    [.addBlock "entry", .addBlock "loop",
      .append ⟨1⟩ (.phi [⟨⟨0⟩, some (.arg 0)⟩, ⟨⟨1⟩, none⟩]) .i32,
      .append ⟨1⟩ (.phi [⟨⟨0⟩, some (.arg 0)⟩, ⟨⟨1⟩, some (.inst ⟨0⟩)⟩]) .i32,
      .fillPhi ⟨0⟩ ⟨1⟩ (.inst ⟨1⟩),
      .append ⟨1⟩ (.phi [⟨⟨0⟩, some (.arg 0)⟩, ⟨⟨1⟩, none⟩]) .i32,
      .append ⟨1⟩ (.phi [⟨⟨0⟩, some (.inst ⟨2⟩)⟩, ⟨⟨1⟩, some (.int 1)⟩]) .i32,
      .fillPhi ⟨2⟩ ⟨1⟩ (.inst ⟨3⟩),
      .append ⟨1⟩ (.binary .add (.int 1) (.int 2)) .i32,
      .append ⟨1⟩ (.binary .add (.inst ⟨3⟩) (.inst ⟨4⟩)) .i32]

/-- The first of the phis that are read stays, because the second one reads it, and it is still there
when the sum of the literals has been folded. -/
theorem sweepPhis_foldConstants_phiWebs :
    phiWebs.Exact ∧
      (∀ p ∈ [⟨0⟩, ⟨1⟩, ⟨2⟩, ⟨3⟩], (phiWebs.inst p).live = true ∧ (phiWebs.instr p).isPhi = true) ∧
      ∃ w₁ w₂, sweepPhis [⟨0⟩, ⟨1⟩, ⟨2⟩, ⟨3⟩] { func := phiWebs } = .ok () w₁ ∧
        foldConstants [⟨4⟩] w₁ = .ok () w₂ ∧ (w₂.func.inst ⟨2⟩).live = true := by
  have hexact : phiWebs.Exact :=
    Func.Edited.exact (.applyAll (.empty rfl rfl rfl (by decide)) (by decide))
  have hphis : ∀ p ∈ [⟨0⟩, ⟨1⟩, ⟨2⟩, ⟨3⟩],
      (phiWebs.inst p).live = true ∧ (phiWebs.instr p).isPhi = true := by decide
  obtain ⟨w₁, w₂, hsweep, hfold, hlive, -, hsame, -, -, hkept⟩ :=
    sweepPhis_foldConstants (w := { func := phiWebs }) hexact (by decide) hphis [⟨4⟩]
  have hchain : (w₁.func.inst ⟨2⟩).live = true :=
    (hlive ⟨2⟩ (by decide)).mpr ⟨⟨3⟩, .single (by decide), ⟨5⟩, by decide⟩
  have hphi : (w₁.func.instr ⟨2⟩).isPhi = true := by
    rw [(hsame ⟨2⟩).1]
    exact (hphis ⟨2⟩ (by decide)).2
  exact ⟨hexact, hphis, w₁, w₂, hsweep, hfold, (hkept ⟨2⟩ hchain hphi).1⟩

end MiddleEnd.Promotion
