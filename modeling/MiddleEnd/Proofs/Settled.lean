import MiddleEnd.Proofs.Report

/-!
# Settled functions

A sweep of dead code elimination that changes a function takes an instruction, a block or a branch
from it and adds none.  So the sweeps end before a bound above the number of these, and the function
that they leave is settled: another sweep finds nothing to do.
-/

namespace MiddleEnd

open List Transform

namespace Func

variable {f g h : Func} {folded dead : List BlockId}

/-! ## Parts of a function -/

def branches (f : Func) : List InstId :=
  f.liveInsts.filter fun i => (f.instr i) matches .branch ..

def bulk (f : Func) : Nat :=
  f.liveInsts.length + f.liveBlocks.length + f.branches.length

lemma mem_branches {i : InstId} :
    i ∈ f.branches ↔ i ∈ f.liveInsts ∧ ∃ c x y, f.instr i = .branch c x y := by
  rw [branches, mem_filter]
  cases f.instr i <;> simp

/-- All instructions, blocks and branches of `g` are in `f`. -/
structure Within (f g : Func) : Prop where
  insts : g.liveInsts ⊆ f.liveInsts
  blocks : g.liveBlocks ⊆ f.liveBlocks
  branches : g.branches ⊆ f.branches

lemma Within.trans (hfg : f.Within g) (hgh : g.Within h) : f.Within h :=
  ⟨fun _ hi => hfg.insts (hgh.insts hi), fun _ hb => hfg.blocks (hgh.blocks hb),
    fun _ hi => hfg.branches (hgh.branches hi)⟩

lemma subset_of_length_le {α : Type} {l l' : List α} (hl : l.Nodup) (h : l ⊆ l')
    (hlen : l'.length ≤ l.length) : l' ⊆ l :=
  ((hl.subperm h).perm_of_length_le hlen).symm.subset

lemma Within.bulk_lt (hg : g.Consistent) (hfg : f.Within g) (hlost : ¬ g.Within f) :
    g.bulk < f.bulk := by
  have hinsts := hg.nodup_liveInsts
  have hblks : g.liveBlocks.Nodup := hg.layout_nodup.filter _
  have hbranches : g.branches.Nodup := hinsts.filter _
  have h₁ := (hinsts.subperm hfg.insts).length_le
  have h₂ := (hblks.subperm hfg.blocks).length_le
  have h₃ := (hbranches.subperm hfg.branches).length_le
  by_contra hle
  unfold bulk at hle
  exact hlost ⟨subset_of_length_le hinsts hfg.insts (by omega),
    subset_of_length_le hblks hfg.blocks (by omega),
    subset_of_length_le hbranches hfg.branches (by omega)⟩

lemma within_of_instsOf (hblks : g.liveBlocks ⊆ f.liveBlocks)
    (hinsts : ∀ b ∈ g.liveBlocks, g.instsOf b ⊆ f.instsOf b)
    (hinstr : ∀ i c x y, g.instr i = .branch c x y → f.instr i = .branch c x y) : f.Within g := by
  have hsubset : g.liveInsts ⊆ f.liveInsts := by
    intro i hi
    obtain ⟨b, hb, hib⟩ := mem_flatMap.mp hi
    exact mem_flatMap.mpr ⟨b, hblks hb, hinsts b hb hib⟩
  refine ⟨hsubset, hblks, fun i hi => ?_⟩
  obtain ⟨hi, c, x, y, hk⟩ := mem_branches.mp hi
  exact mem_branches.mpr ⟨hsubset hi, c, x, y, hinstr i c x y hk⟩

/-! ## What a sweep takes away -/

lemma Consistent.within_connect (hf : f.Consistent) (hconn : f.connect = (.ok folded, g)) :
    f.Within g ∧ (g.Within f → folded = []) := by
  have hflow := flow_of_connect hconn
  obtain ⟨m, hconn', hfm, -, hinstr, -⟩ := hf.exists_connect (P := fun _ => True) hflow
    (fun _ _ _ _ => trivial) trivial
  rw [hconn] at hconn'
  obtain ⟨hfolded, rfl⟩ := Prod.mk.inj hconn'
  have hcode := sameCode_setEdges m f.liveBlocks
  constructor
  · refine within_of_instsOf (fun b hb => hcode.liveBlocks.trans hfm.liveBlocks ▸ hb)
      (fun b _ i hi => (hcode.instsOf b).trans (hfm.instsOf b) ▸ hi) fun i c x y hk => ?_
    rw [hcode.instr, hinstr] at hk
    unfold foldInstr at hk
    grind
  · intro hback
    rw [Except.ok.inj hfolded]
    refine filter_eq_nil_iff.mpr fun b hb hdead => ?_
    obtain ⟨t, x, hhalf⟩ := (hasDeadBranch_iff hb (hflow b hb)).mp hdead
    have hjump : (m.setEdges f.liveBlocks).instr t = .jump (some x) := by
      rw [hcode.instr, hinstr, if_pos ⟨b, hb, hhalf.2.1⟩, hhalf.foldInstr_eq]
    have ht : t ∈ f.branches := by
      obtain ⟨-, hterm, -, c, y, -, hk⟩ := hhalf
      have ht := mem_flatMap.mpr ⟨b, hb, (hf.mem_of_terminator? hterm).1⟩
      exact mem_branches.mpr ⟨ht, c, hk.elim (fun hk => ⟨x, y, hk⟩) fun hk => ⟨y, x, hk⟩⟩
    obtain ⟨-, c, y, z, hk⟩ := mem_branches.mp (hback.branches ht)
    rw [hjump] at hk
    cases hk

lemma Connected.within_prune (hf : f.Connected) (hprune : f.prune = (.ok dead, g)) :
    g.Connected ∧ (∀ b ∈ g.liveBlocks, g.Reachable b) ∧ f.Within g ∧ (g.Within f → dead = []) := by
  obtain ⟨g', hprune', -, -, -, hg, hwithout, hinstr, hreach⟩ :=
    hf.prune (P := fun _ => True) ⟨fun _ _ _ _ _ => trivial, fun _ _ _ _ => trivial⟩ trivial
  rw [hprune] at hprune'
  obtain ⟨hdead, rfl⟩ := Prod.mk.inj hprune'
  obtain rfl := Except.ok.inj hdead
  refine ⟨hg, hreach, within_of_instsOf (fun b hb => ?_) (fun b _ i hi => ?_) fun i c x y hk => ?_,
    fun hback => eq_nil_iff_forall_not_mem.mpr fun b hb => ?_⟩
  · exact ((hf.mem_liveBlocks_of_without hwithout).mp hb).1
  · rw [hwithout.instsOf] at hi
    split at hi
    · cases hi
    · exact hi
  · rw [hinstr] at hk
    split at hk
    · exact Instr.eq_of_filterEntries_eq hk rfl
    · exact hk
  · obtain ⟨hb, hnot⟩ := hf.mem_unreachable.mp hb
    exact hnot ((hf.mem_liveBlocks_of_without hwithout).mp (hback.blocks hb)).2

end Func

namespace DeadCode

open Func

variable {f : Func} {n bound : Nat} {w w' : Work}

lemma removeUnused_eq_foldl (f : Func) (is : List InstId) :
    (removeUnused f is).2 = (removeUnused f is).1.foldl Func.remove f ∧
      (removeUnused f is).1 ⊆ is := by
  fun_induction removeUnused f is with
  | case1 => exact ⟨rfl, List.Subset.refl _⟩
  | case2 f i is _ removed g heq ih =>
    rw [heq] at ih
    exact ⟨ih.1, cons_subset_cons i ih.2⟩
  | case3 f i is _ ih => exact ⟨ih.1, subset_cons_of_subset i ih.2⟩

lemma removeUnused_eq_nil_iff {is : List InstId} :
    (removeUnused f is).1 = [] ↔ ∀ i ∈ is, isUnused f i = false := by
  fun_induction removeUnused f is with
  | case1 => simp
  | case2 _ _ _ hunused => simp [hunused]
  | case3 _ _ _ hused ih => simp [ih, hused]

lemma mem_candidates {i : InstId} : i ∈ candidates f ↔ i ∈ f.liveInsts := by
  simp [candidates, liveInsts]

lemma within_removeUnused (hf : f.Consistent) :
    (removeUnused f (candidates f)).2.Consistent ∧ f.Within (removeUnused f (candidates f)).2 ∧
      ((removeUnused f (candidates f)).2.Within f → (removeUnused f (candidates f)).1 = []) := by
  obtain ⟨hlast, hsubset⟩ := removeUnused_eq_foldl f (candidates f)
  rw [hlast]
  generalize (removeUnused f (candidates f)).1 = removed at hsubset ⊢
  have hblks := (sameFrame_foldl sameFrame_remove removed f).liveBlocks
  refine ⟨hf.foldl_remove removed, within_of_instsOf (fun b hb => hblks ▸ hb)
    (fun b _ => ?_) fun i c x y hk => ?_, fun hback => ?_⟩
  · rw [hf.instsOf_foldl_remove]
    exact filter_subset_self _
  · rwa [instr, (Consistent.record_foldl_remove removed f i).1] at hk
  · refine eq_nil_iff_forall_not_mem.mpr fun i hi => ?_
    obtain ⟨b, -, hib⟩ := mem_flatMap.mp (hback.insts (mem_candidates.mp (hsubset hi)))
    rw [hf.instsOf_foldl_remove] at hib
    simp [hi] at hib

/-! ## Settled functions -/

/-- A sweep finds no branch to fold, no block to delete and no instruction to remove. -/
structure Settled (f : Func) : Prop where
  connected : f.Connected
  reachable : ∀ b ∈ f.liveBlocks, f.Reachable b
  used : ∀ i ∈ f.liveInsts, isUnused f i = false

lemma Settled.sweep_eq (hw : Settled w.func) : sweep w = .ok 0 w := by
  have hunused : removeUnused w.func (candidates w.func) = ([], w.func) := by
    have hnil := removeUnused_eq_nil_iff.mpr fun i hi => hw.used i (mem_candidates.mp hi)
    exact Prod.ext hnil (removeUnused_eq_nil hnil)
  have hconn : connect w = .ok [] w := analyze_of_ok hw.connected.connect_eq
  have hprune : prune w = .ok [] w :=
    analyze_of_ok (hw.connected.prune_eq_of_reachable hw.reachable)
  have hrec : recordAll [] w = .ok () w := by
    change EStateM.Result.ok () { w with events := w.events ++ [] } = _
    rw [append_nil]
  have hset : setFunc w.func w = .ok () w := rfl
  simp only [sweep, bind_of_ok hconn, func_bind, map_nil,
    bind_of_ok hrec, bind_of_ok hprune, hunused, bind_of_ok hset]
  rfl

lemma Settled.run_eq (hw : Settled w.func) (bound : Nat) : run bound w = .ok false w := by
  obtain ⟨n, hn⟩ : ∃ n, max 1 bound = n + 1 := ⟨max 1 bound - 1, by omega⟩
  rw [run, hn, sweeps, bind_of_ok hw.sweep_eq]
  rfl

lemma sweep_within (hf : w.func.Consistent) (h : sweep w = .ok n w') :
    w'.func.Consistent ∧ (n ≠ 0 → w'.func.bulk < w.func.bulk) ∧
      (n = 0 → Settled w'.func) ∧
      ∃ new, w'.events = w.events ++ new ∧ ∀ e ∈ new, e.kind ≠ .warning := by
  obtain ⟨folded, dead, m, g, hconn, hprune, hlast, hcnt, hevents⟩ := sweep_ok h
  have hm := hf.connected_of_connect hconn
  obtain ⟨hfm, hfolded⟩ := hf.within_connect hconn
  obtain ⟨hg, hreach, hmg, hdead⟩ := hm.within_prune hprune
  obtain ⟨hdone, hgh, hremoved⟩ := within_removeUnused hg.consistent
  rw [hlast]
  refine ⟨hdone, fun hn => ((hfm.trans hmg).trans hgh).bulk_lt hdone fun hback => hn ?_, fun hn => ?_,
    _, hevents, ?_⟩
  · -- nothing is lost on the way from `f` to the last function and back
    rw [hcnt, hfolded ((hmg.trans hgh).trans hback), hdead (hgh.trans (hback.trans hfm)),
      hremoved (hback.trans (hfm.trans hmg))]
    rfl
  · have hnil : (removeUnused g (candidates g)).1 = [] := eq_nil_of_length_eq_zero (by omega)
    rw [removeUnused_eq_nil hnil]
    exact ⟨hg, hreach, fun i hi => removeUnused_eq_nil_iff.mp hnil i (mem_candidates.mpr hi)⟩
  · simp only [mem_append, mem_map]
    rintro e ((⟨b, -, rfl⟩ | ⟨b, -, rfl⟩) | ⟨i, -, rfl⟩)
    all_goals nofun

/-- Either the sweeps settle the function or they warn that the bound is too small. -/
lemma sweeps_settled {changed changed' : Bool} (hf : w.func.Consistent)
    (h : sweeps bound changed n w = .ok changed' w') :
    ∃ new, w'.events = w.events ++ new ∧
      (((∀ e ∈ new, e.kind ≠ .warning) ∧ Settled w'.func) ∨
        (∃ e ∈ new, e.kind = .warning) ∧ n ≤ w.func.bulk) := by
  induction n generalizing changed w with
  | zero =>
    cases h
    exact ⟨_, rfl, .inr ⟨⟨_, .head _, rfl⟩, Nat.zero_le _⟩⟩
  | succ n ih =>
    obtain ⟨m, w₁, hsweep, h⟩ := bind_ok h
    obtain ⟨hf₁, hless, hsettled, first, hfirst, hquiet⟩ := sweep_within hf hsweep
    split at h
    · next hzero =>
      cases h
      exact ⟨first, hfirst, .inl ⟨hquiet, hsettled hzero⟩⟩
    · next hne =>
      obtain ⟨rest, hrest, hor⟩ := ih hf₁ h
      refine ⟨first ++ rest, by rw [hrest, hfirst, append_assoc], ?_⟩
      obtain ⟨hkinds, hdone⟩ | ⟨⟨e, he, hwarning⟩, hle⟩ := hor
      · exact .inl ⟨fun e he => (mem_append.mp he).elim (hquiet e) (hkinds e), hdone⟩
      · exact .inr ⟨⟨e, mem_append_right first he, hwarning⟩, by omega⟩

/-- With a bound above the number of instructions, blocks and branches there is no warning.  Without
a warning all live blocks are reachable, none ends in a branch to a deleted block, no instruction is
unused and free of side effects, and another run changes nothing, whatever its bound. -/
theorem run_settled {f : Func} {bound : Nat} {events : List Event} {changed : Bool} {w : Work}
    (hf : f.Consistent) (h : run bound { func := f, events } = .ok changed w) :
    ∃ new, w.events = events ++ new ∧
      (f.bulk < bound → ∀ e ∈ new, e.kind ≠ .warning) ∧
      ((∀ e ∈ new, e.kind ≠ .warning) →
        (∀ b ∈ w.func.liveBlocks, w.func.Reachable b) ∧
        (∀ b ∈ w.func.liveBlocks, ∀ t c x y, w.func.terminator? b = some t →
          w.func.instr t = .branch c x y →
          (w.func.block x).deleted = false ∧ (w.func.block y).deleted = false) ∧
        (∀ i ∈ w.func.liveInsts, (w.func.inst i).users = [] →
          (w.func.instr i).hasSideEffects = true) ∧
        ∀ bound' events', run bound' { func := w.func, events := events' } =
          .ok false { func := w.func, events := events' }) := by
  obtain ⟨new, hnew, hor⟩ := sweeps_settled hf h
  refine ⟨new, hnew, fun hbound => ?_, fun hquiet => ?_⟩
  · obtain ⟨hquiet, -⟩ | ⟨-, hle⟩ := hor
    · exact hquiet
    · exact absurd hbound (by dsimp only at hle; omega)
  · obtain ⟨-, hsettled⟩ | ⟨⟨e, he, hwarning⟩, -⟩ := hor
    · refine ⟨hsettled.reachable, fun b hb t c x y ht hk => ?_, fun i hi husers => ?_,
        fun bound' events' => Settled.run_eq (w := ⟨w.func, events'⟩) hsettled bound'⟩
      · have hdead := hsettled.connected.folded b hb
        simpa [hasDeadBranch, ht, hk] using hdead
      · have hlive := Formed.live_of_placed (hsettled.connected.mem_liveInsts.mp hi)
        simpa [isUnused, hlive, husers] using hsettled.used i hi
    · exact absurd hwarning (hquiet e he)

/-- The sum in the entry is only unused once the one in the exit is gone, which is swept later. -/
def lingering : Func :=
  Edit.applyAll (.new "f" .i32 [.i1])
    [.addBlock "entry", .addBlock "gone", .addBlock "exit", .addBlock "island",
      .append ⟨0⟩ (.binary .add (.int 1) (.int 2)) .i32,
      .append ⟨0⟩ (.branch (.arg 0) ⟨1⟩ ⟨2⟩) .void,
      .append ⟨2⟩ (.binary .add (.inst ⟨0⟩) (.int 3)) .i32,
      .append ⟨2⟩ (.ret (some (.int 0))) .void,
      .append ⟨3⟩ (.jump (some ⟨2⟩)) .void,
      .deleteBlock ⟨1⟩]

theorem run_settled_lingering :
    lingering.Consistent ∧ lingering.bulk < 10 ∧
      ∃ w, run 10 { func := lingering } = .ok true w ∧ (∀ e ∈ w.events, e.kind ≠ .warning) ∧
        (∀ b ∈ w.func.liveBlocks, w.func.Reachable b) ∧
        (∀ b ∈ w.func.liveBlocks, ∀ t c x y, w.func.terminator? b = some t →
          w.func.instr t = .branch c x y →
          (w.func.block x).deleted = false ∧ (w.func.block y).deleted = false) ∧
        (∀ i ∈ w.func.liveInsts, (w.func.inst i).users = [] →
          (w.func.instr i).hasSideEffects = true) ∧
        ∀ bound' events', run bound' { func := w.func, events := events' } =
          .ok false { func := w.func, events := events' } := by
  have hconsistent : lingering.Consistent := by decide
  have hbulk : lingering.bulk < 10 := by decide
  obtain ⟨w, hrun⟩ := report?_eq_some
    (show report? (run 10) { func := lingering } = some true by decide +kernel)
  obtain ⟨new, hnew, hquiet, hsettled⟩ := run_settled hconsistent hrun
  obtain rfl : w.events = new := hnew
  exact ⟨hconsistent, hbulk, w, hrun, hquiet hbulk, hsettled (hquiet hbulk)⟩

def stray : Func :=
  Edit.applyAll (new "f" .void [.i1]) strayHistory

/-- That a branch ends its block cannot be left out: no other branch is folded. -/
theorem exists_run_dead_branch :
    ∃ (f : Func) (w : Work) (i : InstId) (c : Operand) (x y : BlockId), f.Consistent ∧
      f.bulk < 10 ∧ run 10 { func := f } = .ok false w ∧ (∀ e ∈ w.events, e.kind ≠ .warning) ∧
      i ∈ w.func.liveInsts ∧ w.func.instr i = .branch c x y ∧ (w.func.block x).deleted = true ∧
      (w.func.block y).deleted = true := by
  obtain ⟨w, hrun⟩ := report?_eq_some
    (show report? (run 10) { func := stray } = some false by decide +kernel)
  have hsame := run_eq_ok_false hrun
  have hquiet : ∀ e ∈ w.events, e.kind ≠ .warning := by
    obtain ⟨new, hnew, ⟨hquiet, -⟩ | ⟨-, hle⟩⟩ := sweeps_settled (by decide) hrun
    · rwa [show w.events = new from hnew]
    · exact absurd hle (by decide)
  refine ⟨stray, w, ⟨0⟩, .arg 0, ⟨1⟩, ⟨2⟩, by decide, by decide, hrun, hquiet, ?_, ?_, ?_, ?_⟩
  · exact mem_flatMap.mpr ⟨⟨0⟩, by rw [hsame.liveBlocks]; decide, by rw [hsame.instsOf]; decide⟩
  · rw [hsame.instr]
    rfl
  · rw [hsame.blockDeleted]
    rfl
  · rw [hsame.blockDeleted]
    rfl

end DeadCode

end MiddleEnd
