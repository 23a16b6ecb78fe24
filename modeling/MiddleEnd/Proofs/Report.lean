import MiddleEnd.Proofs.Connection
import MiddleEnd.Proofs.DeadCode
import MiddleEnd.Proofs.Inlining.Retire
import MiddleEnd.Proofs.Promotion.Slots

/-!
# Reported changes

An optimization tells whether it changed anything.  Inlining and dead code elimination leave all
code as it is if they report no change.  Promotion only tells whether there was a slot to promote:
before it looks for one, it may have folded branches to deleted blocks and deleted unreachable
blocks.
-/

namespace MiddleEnd

open List Transform EStateM

namespace Func

variable {f g h : Func}

/-! ## Code that stays -/

/-- The same live blocks with the same instructions, in a function that is retired or not as
before. -/
structure SameBody (f g : Func) : Prop where
  liveBlocks : g.liveBlocks = f.liveBlocks
  instsOf : ∀ b ∈ f.liveBlocks, g.instsOf b = f.instsOf b
  instr : ∀ b ∈ f.liveBlocks, ∀ i ∈ f.instsOf b, g.instr i = f.instr i
  deleted : g.deleted = f.deleted

lemma SameCode.sameBody (hfg : f.SameCode g) : f.SameBody g where
  liveBlocks := hfg.liveBlocks
  instsOf b _ := hfg.instsOf b
  instr _ _ i _ := hfg.instr i
  deleted := hfg.deleted

lemma SameCode.sameBody_iff (hgh : g.SameCode h) : f.SameBody h ↔ f.SameBody g := by
  constructor
  · intro hfh
    exact ⟨hgh.liveBlocks ▸ hfh.liveBlocks, fun b hb => hgh.instsOf b ▸ hfh.instsOf b hb,
      fun b hb i hi => hgh.instr i ▸ hfh.instr b hb i hi, hgh.deleted ▸ hfh.deleted⟩
  · intro hfg
    exact ⟨hgh.liveBlocks.trans hfg.liveBlocks, fun b hb => (hgh.instsOf b).trans (hfg.instsOf b hb),
      fun b hb i hi => (hgh.instr i).trans (hfg.instr b hb i hi), hgh.deleted.trans hfg.deleted⟩

lemma sameCode_of_connect (h : f.connect = (.ok [], g)) : f.SameCode g := by
  have hflow := connect_of_flow (flow_of_connect h)
  rw [h] at hflow
  obtain ⟨hfolded, rfl⟩ := Prod.mk.inj hflow
  rw [← Except.ok.inj hfolded]
  exact sameCode_setEdges f f.liveBlocks

lemma eq_of_prune (h : f.prune = (.ok [], g)) : g = f := by
  unfold prune at h
  dsimp only at h
  split at h
  · exact (Prod.mk.inj h).2.symm
  · grind

/-! ## Folded branches and deleted blocks -/

/-- Nothing is folded or deleted: no live block ends in a branch to a deleted block, and all are
reachable. -/
def Trimmed (f : Func) : Prop :=
  (∀ b t x, ¬ f.HalfDead b t x) ∧ ∀ b ∈ f.liveBlocks, f.Reachable b

/-- After a function has been connected and pruned its code is the same exactly if it was trimmed. -/
lemma Consistent.sameBody_iff_trimmed (hf : f.Consistent) {folded dead : List BlockId}
    (hconn : f.connect = (.ok folded, g)) (hprune : g.prune = (.ok dead, h)) :
    f.SameBody h ↔ f.Trimmed := by
  have hflow := flow_of_connect hconn
  obtain ⟨m, hconn', hfm, -, hinstr, hg⟩ := hf.exists_connect (P := fun _ => True) hflow
    (fun _ _ _ _ => trivial) trivial
  rw [hconn] at hconn'
  obtain ⟨hfolded, rfl⟩ := Prod.mk.inj hconn'
  obtain ⟨h', hprune', -, -, -, -, hwithout, hfilter, -⟩ :=
    hg.prune (P := fun _ => True) ⟨fun _ _ _ _ _ => trivial, fun _ _ _ _ => trivial⟩ trivial
  obtain rfl : h' = h := by
    rw [hprune] at hprune'
    exact (Prod.mk.inj hprune').2.symm
  constructor
  · intro hsame
    have hbranches : ∀ b t x, ¬ f.HalfDead b t x := by
      rintro b t x hdead
      -- the branch is a jump afterwards, and pruning keeps it one
      have hjump : (m.setEdges f.liveBlocks).instr t = .jump (some x) := by
        rw [(sameCode_setEdges m _).instr, hinstr, if_pos ⟨b, hdead.1, hdead.2.1⟩,
          hdead.foldInstr_eq]
      have hkept : h'.instr t = .jump (some x) := by
        rw [hfilter, hjump]
        exact ite_self _
      rw [hsame.instr b hdead.1 t (hf.mem_of_terminator? hdead.2.1).1] at hkept
      obtain ⟨-, -, -, c, y, -, hk | hk⟩ := hdead
      · rw [hk] at hkept
        cases hkept
      · rw [hk] at hkept
        cases hkept
    refine ⟨hbranches, fun b hb => ?_⟩
    have hcode : f.SameCode (m.setEdges f.liveBlocks) := by
      refine sameCode_of_connect (hconn.trans ?_)
      rw [hfolded, filter_eq_nil_iff.mpr fun b hb hdead => ?_]
      obtain ⟨t, x, h⟩ := (hasDeadBranch_iff hb (hflow b hb)).mp hdead
      exact hbranches b t x h
    rw [Reachable, ← hcode.edge]
    exact ((hg.mem_liveBlocks_of_without hwithout).mp (hsame.liveBlocks ▸ hb)).2
  · rintro ⟨hbranches, hreach⟩
    have hnone : folded = [] := by
      rw [Except.ok.inj hfolded]
      refine filter_eq_nil_iff.mpr fun b hb hdead => ?_
      obtain ⟨t, x, h⟩ := (hasDeadBranch_iff hb (hflow b hb)).mp hdead
      exact hbranches b t x h
    have hcode := sameCode_of_connect (hnone ▸ hconn)
    rw [hg.prune_eq_of_reachable fun b hb => ?_] at hprune
    · obtain ⟨-, rfl⟩ := Prod.mk.inj hprune
      exact hcode.sameBody
    · rw [Reachable, hcode.edge]
      exact hreach b (hcode.liveBlocks ▸ hb)

end Func

/-! ## Inlining -/

namespace Inlining

variable {s t : Session} {graph : CallGraph} {threshold : Option Nat}

lemma inlineInto_eq_ok_nil {caller : FuncId}
    (h : inlineInto graph threshold caller s = .ok [] t) : t = s := by
  obtain ⟨hnil, hcalls⟩ := inlineInto_eq_ok h
  rw [map_eq_nil_iff.mp hnil.symm] at hcalls
  exact (Result.ok.inj hcalls).2.symm

lemma flatMapM_inlineInto_eq_ok_nil {callers : List FuncId}
    (h : callers.flatMapM (inlineInto graph threshold) s = .ok [] t) : t = s := by
  induction callers generalizing s with
  | nil => exact (Result.ok.inj h).2.symm
  | cons caller callers ih =>
    rw [flatMapM_cons] at h
    obtain ⟨first, s₁, hfirst, h₁⟩ := bind_eq_ok h
    obtain ⟨others, t', hothers, h₂⟩ := bind_eq_ok h₁
    obtain ⟨happend, rfl⟩ := Result.ok.inj h₂
    obtain ⟨rfl, rfl⟩ := append_eq_nil_iff.mp happend
    rw [ih hothers, inlineInto_eq_ok_nil hfirst]

lemma run_eq_ok_false (h : run threshold s = .ok false t) : t = s := by
  obtain ⟨inlined, u, hinl, hchanged, hretire⟩ := run_eq_ok h
  obtain rfl : inlined = [] := by simpa using hchanged
  rw [inlineAll, Compile.program_bind] at hinl
  obtain ⟨graph, s', hlift, hcalls⟩ := bind_eq_ok hinl
  obtain ⟨-, rfl⟩ := Compile.lift_eq_ok hlift
  obtain rfl := flatMapM_inlineInto_eq_ok_nil hcalls
  -- only functions that calls were inlined of are retired
  rw [filter_eq_nil_iff.mpr fun f _ => by simp] at hretire
  exact (Result.ok.inj hretire).2.symm

end Inlining

/-! ## Dead code elimination -/

namespace DeadCode

variable {w w' : Work}

lemma removeUnused_eq_nil {f : Func} {is : List InstId} (h : (removeUnused f is).1 = []) :
    (removeUnused f is).2 = f := by
  fun_induction removeUnused f is with
  | case1 => rfl
  | case2 => cases h
  | case3 _ _ _ _ ih => exact ih h

lemma sweep_eq_ok_zero (h : sweep w = .ok 0 w') : w.func.SameCode w'.func := by
  obtain ⟨folded, dead, m, g, hconn, hprune, hlast, hcnt, -⟩ := sweep_ok h
  obtain rfl : folded = [] := eq_nil_of_length_eq_zero (by omega)
  obtain rfl : dead = [] := eq_nil_of_length_eq_zero (by omega)
  obtain rfl := Func.eq_of_prune hprune
  rw [hlast, removeUnused_eq_nil (eq_nil_of_length_eq_zero (by omega))]
  exact Func.sameCode_of_connect hconn

lemma sweeps_true {bound n : Nat} {changed : Bool} (h : sweeps bound true n w = .ok changed w') :
    changed := by
  induction n generalizing w with
  | zero =>
    cases h
    rfl
  | succ n ih =>
    obtain ⟨m, w₁, -, h⟩ := bind_ok h
    split at h
    · cases h
      rfl
    · exact ih h

/-- The last sweep changes nothing, and if it is the first one then nothing was changed. -/
lemma run_eq_ok_false {bound : Nat} (h : run bound w = .ok false w') :
    w.func.SameCode w'.func := by
  obtain ⟨n, hn⟩ : ∃ n, max 1 bound = n + 1 := ⟨max 1 bound - 1, by omega⟩
  rw [run, hn] at h
  obtain ⟨m, w₁, hsweep, h⟩ := bind_ok h
  split at h
  · next hzero =>
    cases h
    exact sweep_eq_ok_zero (hzero ▸ hsweep)
  · cases sweeps_true h

end DeadCode

/-! ## Promotion -/

namespace Promotion

lemma sameCode_computeDominance {f g : Func} (h : f.computeDominance = .ok g) : f.SameCode g := by
  unfold Func.computeDominance at h
  dsimp only at h
  split at h
  · cases h
  · cases h
    exact f.sameCode_withDominance

lemma run_eq_ok_false {w w' : Work} (h : run w = .ok false w') :
    ∃ folded dead m g, w.func.connect = (.ok folded, m) ∧ m.prune = (.ok dead, g) ∧
      g.SameCode w'.func := by
  obtain ⟨⟨⟩, w₁, hconn, h⟩ := bind_ok h
  obtain ⟨folded, hconn, -⟩ := map_eq_ok hconn
  obtain ⟨⟨⟩, w₂, hprune, h⟩ := bind_ok h
  obtain ⟨dead, hprune, -⟩ := map_eq_ok hprune
  obtain ⟨⟨⟩, w₃, hdominance, h⟩ := bind_ok h
  obtain ⟨hdominance, -⟩ := analyze_ok hdominance
  rw [func_bind] at h
  refine ⟨folded, dead, w₁.func, w₂.func, (analyze_ok hconn).1, (analyze_ok hprune).1, ?_⟩
  have hsame : w₂.func.SameCode w₃.func := by
    split at hdominance
    · next g hg =>
      obtain ⟨-, rfl⟩ := Prod.mk.inj hdominance
      exact sameCode_computeDominance hg
    · cases hdominance
  cases hslots : slots w₃.func with
  | error e =>
    rw [hslots] at h
    cases h
  | ok ss =>
    rw [hslots] at h
    cases ss with
    | nil =>
      cases h
      exact hsame
    | cons s ss =>
      obtain ⟨⟨⟩, w₄, -, h⟩ := bind_ok h
      cases h

end Promotion

/-! ## All optimizations -/

/-- If inlining or dead code elimination reports no change then all code is as before.  If promotion
does, this is so exactly if there was no branch to fold and no block to delete. -/
theorem sameBody_of_run_eq_false (threshold : Option Nat) (s t : Session) (bound : Nat)
    (w w' : Work) :
    (Inlining.run threshold s = .ok false t → t = s) ∧
    (DeadCode.run bound w = .ok false w' → w.func.SameBody w'.func) ∧
    (w.func.Consistent → Promotion.run w = .ok false w' →
      (w.func.SameBody w'.func ↔ w.func.Trimmed)) := by
  refine ⟨Inlining.run_eq_ok_false, fun h => (DeadCode.run_eq_ok_false h).sameBody, fun hf h => ?_⟩
  obtain ⟨folded, dead, m, g, hconnect, hprune, hcode⟩ := Promotion.run_eq_ok_false h
  rw [← hf.sameBody_iff_trimmed hconnect hprune]
  exact hcode.sameBody_iff

/-- A function that passes its slot on to itself. -/
def circling : Func :=
  Edit.applyAll (.new "f" .i32 [.pointer .i32])
    [.addBlock "entry", .addBlock "again",
      .append ⟨0⟩ (.alloc .i32) (.pointer .i32),
      .append ⟨0⟩ (.jump (some ⟨1⟩)) .void,
      .append ⟨1⟩ (.call ⟨0⟩ [.inst ⟨0⟩] none) .i32,
      .append ⟨1⟩ (.ret (some (.inst ⟨2⟩))) .void]

theorem sameBody_of_run_circling :
    (∃ t, Inlining.run none { program := { funcs := #[circling] } } = .ok false t ∧
      t = { program := { funcs := #[circling] } }) ∧
    (∃ w, DeadCode.run 4 { func := circling } = .ok false w ∧ circling.SameBody w.func) ∧
    ∃ w, Promotion.run { func := circling } = .ok false w ∧
      (circling.SameBody w.func ↔ circling.Trimmed) := by
  obtain ⟨t, ht⟩ : ∃ t, Inlining.run none { program := { funcs := #[circling] } } = .ok false t :=
    report?_eq_some (by decide +kernel)
  obtain ⟨w, hw⟩ : ∃ w, DeadCode.run 4 { func := circling } = .ok false w :=
    report?_eq_some (by decide +kernel)
  obtain ⟨w', hw'⟩ : ∃ w, Promotion.run { func := circling } = .ok false w :=
    report?_eq_some (by decide +kernel)
  obtain ⟨hinlining, hdeadCode, -⟩ :=
    sameBody_of_run_eq_false none { program := { funcs := #[circling] } } t 4 { func := circling } w
  obtain ⟨-, -, hpromotion⟩ :=
    sameBody_of_run_eq_false none { program := { funcs := #[circling] } } t 4 { func := circling } w'
  exact ⟨⟨t, ht, hinlining ht⟩, ⟨w, hw, hdeadCode hw⟩, ⟨w', hw', hpromotion (by decide) hw'⟩⟩

/-- A function without slots in which nothing leads to the second block. -/
def stranded : Func :=
  Edit.applyAll (.new "f" .i32 [.i32])
    [.addBlock "entry", .addBlock "stranded",
      .append ⟨0⟩ (.ret (some (.arg 0))) .void,
      .append ⟨1⟩ (.ret (some (.int 0))) .void]

/-- Promotion reports no change after it has deleted a block. -/
theorem exists_run_eq_false_not_sameBody :
    ∃ w w' : Work, w.func.Consistent ∧ Promotion.run w = .ok false w' ∧
      ¬ w.func.SameBody w'.func := by
  obtain ⟨w, hw⟩ : ∃ w, Promotion.run { func := stranded } = .ok false w :=
    report?_eq_some (by decide +kernel)
  have hblocks : (left Promotion.run { func := stranded }).func.liveBlocks = [⟨0⟩] := by
    decide +kernel
  rw [left, hw] at hblocks
  refine ⟨{ func := stranded }, w, by decide, hw, fun hsame => ?_⟩
  exact absurd (hsame.liveBlocks.symm.trans hblocks) (by decide)

end MiddleEnd
