import Mathlib
import MiddleEnd.DeadCode
import MiddleEnd.Proofs.History
import MiddleEnd.Proofs.Machine.Reduction
import MiddleEnd.Proofs.Prune
import MiddleEnd.Proofs.Transform

/-!
# Dead code elimination keeps every successful run

Each thing that a sweep does is a reduction of the function: folding a branch to a deleted block,
deleting the unreachable blocks, and removing an instruction whose use-list is empty.  For the first
one the deleted blocks have to be without instructions, as they are after `Func.deleteBlock`.
Removing a slot is the exception.  It moves the slots that are reserved later, so runs are kept
only if no slot of a reachable block goes.

`Func.Shrinks` says what is known between the steps of a sweep, and holds for all sweeps together.
-/

namespace MiddleEnd

open Transform Instr Bool

variable {k : Instr}

lemma Instr.not_isTerminator_of_not_hasSideEffects (hk : k.hasSideEffects = false) :
    k.isTerminator = false := by
  cases k with
  | branch | jump | ret => exact hk
  | _ => rfl

namespace Func

variable {i : InstId} {f g h : Func} {b : BlockId}

/-! ## Reductions -/

def DeletedEmpty (f : Func) : Prop :=
  ∀ b, (f.block b).deleted → f.instsOf b = []

instance (f : Func) : Decidable f.DeletedEmpty :=
  decidable_of_iff (∀ n < f.blocks.size, (f.block ⟨n⟩).deleted → f.instsOf ⟨n⟩ = []) <| by
    refine ⟨fun h b hb => ?_, fun h n _ => h ⟨n⟩⟩
    cases hhas : f.hasBlock b with
    | true => exact h b.idx ((hasBlock_iff f).mp hhas) hb
    | false => exact instsOf_of_first_eq_none (by rw [block_of_not_hasBlock f hhas]; rfl)

lemma Consistent.instsOf_eq_nil (hf : f.Consistent) (hempty : f.DeletedEmpty)
    (hb : b ∉ f.liveBlocks) : f.instsOf b = [] := by
  cases hdel : (f.block b).deleted with
  | true => exact hempty b hdel
  | false =>
    refine List.eq_nil_iff_forall_not_mem.mpr fun i hi => hb (hf.mem_liveBlocks.mpr ⟨?_, hdel⟩)
    exact hf.threaded.hasBlock_of_mem hi

lemma Consistent.live_or_empty (hf : f.Consistent) (hempty : f.DeletedEmpty) (b : BlockId) :
    b ∈ f.liveBlocks ∨ f.instsOf b = [] := by
  by_cases hb : b ∈ f.liveBlocks
  · exact Or.inl hb
  · exact Or.inr (hf.instsOf_eq_nil hempty hb)

lemma SameCode.refinedBy (hfg : f.SameCode g) : f.RefinedBy g := by
  have hred : f.Reduction g (fun _ => True) fun _ => true := by
    refine ⟨hfg.name, hfg.external, hfg.deleted, by rw [hfg.params], hfg.blocks,
      fun i => by rw [hfg.inst], Or.inl trivial, fun b _ => by rw [hfg.phis, List.filter_true],
      fun b _ => by rw [hfg.instsOf, List.filter_true], fun b _ i _ _ => ?_, fun _ _ _ _ _ _ _ => rfl,
      fun _ _ _ _ _ _ => Or.inl trivial, fun _ _ _ _ hi => absurd hi (by simp)⟩
    rw [hfg.instr]
    exact .same _
  exact .of_reduction hred

lemma Refolded.refinedBy (hf : f.Formed) (hempty : f.DeletedEmpty) (hfg : f.Refolded g)
    (hinstr : ∀ i, g.instr i = if f.placed i then f.foldInstr (f.instr i) else f.instr i) :
    f.RefinedBy g := by
  have hlive := hf.live_or_empty hempty
  have hinsts (b : BlockId) : g.instsOf b = f.instsOf b := hfg.instsOf b
  have hphi (i : InstId) : (g.instr i).isPhi = (f.instr i).isPhi := by
    rw [hinstr]
    split
    · exact foldInstr_isPhi f _
    · rfl
  have hfold (k : Instr) : ReducesTo f (· ∈ f.liveBlocks) k (f.foldInstr k) := by
    cases k with
    | branch c x y =>
      rw [foldInstr]
      split_ifs with hx hy
      · exact .onFalse c x y (hempty x hx)
      · exact .onTrue c x y (hempty y hy)
      · exact .same _
    | _ => exact .same _
  have hred : f.Reduction g (· ∈ f.liveBlocks) fun _ => true := by
    refine ⟨hfg.name, hfg.external, hfg.deleted,
      hfg.params, hfg.blocks, hfg.ty, hlive _, fun b _ => ?_,
      fun b _ => by rw [hinsts, List.filter_true], fun b hb i hi _ => ?_, fun _ _ _ _ _ _ _ => rfl,
      fun _ _ _ _ c _ => hlive c, fun _ _ _ _ hi => absurd hi (by simp)⟩
    · simp only [phis, hinsts, hphi, List.filter_true]
    · rw [hinstr, if_pos (hf.placed_of_mem hb hi)]
      exact hfold _
  exact .of_reduction hred

lemma Pruned.refinedBy (hf : f.Routed) (hempty : f.DeletedEmpty) (hfg : f.Pruned g)
    (hg : g.Formed) : f.RefinedBy g := by
  have hlive := hf.live_or_empty hempty
  have hmem (b : BlockId) : b ∈ g.liveBlocks ↔ b ∈ f.liveBlocks ∧ f.Reachable b :=
    hf.mem_liveBlocks_of_without hfg.without
  have hkeep (b : BlockId) (hb : b ∈ g.liveBlocks) : b ∉ f.unreachable := fun hnot =>
    (hf.mem_unreachable.mp hnot).2 ((hmem b).mp hb).2
  have hinsts (b : BlockId) (hb : b ∈ g.liveBlocks) : g.instsOf b = f.instsOf b := by
    rw [hfg.without.instsOf, if_neg (hkeep b hb)]
  have hinstr (b : BlockId) (hb : b ∈ g.liveBlocks) (i : InstId) (hi : i ∈ f.instsOf b) :
      g.instr i = (f.instr i).filterEntries fun c => !f.unreachable.contains c := by
    refine hfg.instr i ?_ (hf.placed_of_mem ((hmem b).mp hb).1 hi)
    rw [hfg.without.live, hf.live_of_mem hi, hf.block_of_mem hi]
    simpa using hkeep b hb
  have hred : f.Reduction g (· ∈ g.liveBlocks) fun _ => true := by
    refine ⟨hfg.without.name, hfg.without.external, hfg.without.deleted, hfg.without.params,
      hfg.without.blocks, hfg.without.ty, ?_, fun b hb => ?_,
      fun b hb => by rw [hinsts b hb, List.filter_true], fun b hb i hi _ => ?_, fun _ _ _ _ _ _ _ => rfl, fun b hb i hi c hc => ?_,
      fun _ _ _ _ hi => absurd hi (by simp)⟩
    · exact (hlive ⟨0⟩).imp_left fun hzero => (hmem _).mpr ⟨hzero, .refl⟩
    · rw [List.filter_true, hg.phis_eq hb, hf.phis_eq ((hmem b).mp hb).1, hinsts b hb]
      refine List.filter_congr fun i hi => ?_
      rw [hinstr b hb i hi, filterEntries_isPhi]
    · rw [hinstr b hb i hi]
      cases f.instr i with
      | phi es =>
        refine .entries es (fun c => !f.unreachable.contains c) fun c hc => ?_
        simpa using hkeep c hc
      | _ => exact .same _
    · refine (hlive c).imp_left fun hc' => ?_
      obtain ⟨hb', hreach⟩ := (hmem b).mp hb
      refine (hmem c).mpr ⟨hc', hreach.tail ⟨hb', mem_liveTargets.mpr ⟨?_, ?_⟩⟩⟩
      · exact (hf.mem_targets hb').mpr ⟨i, hi, hc⟩
      · exact (hf.mem_liveBlocks.mp hc').2
  exact .of_reduction hred

lemma Formed.refinedBy_remove (hf : f.Formed) (hempty : f.DeletedEmpty) (hi : f.placed i)
    (husers : (f.inst i).users = []) (hpure : (f.instr i).hasSideEffects = false)
    (hslot : ∀ t, f.instr i ≠ .alloc t) : f.RefinedBy (f.remove i) := by
  have hlive := hf.live_or_empty hempty
  have hfr := sameFrame_remove f i
  have hnone (j : InstId) (hj : f.placed j) : .inst i ∉ (f.instr j).operands := by
    have hilive : (f.inst i).live := live_of_placed hi
    have huses := hf.uses (.inst i) (hasInst_of_live hilive) hilive j
    rw [users, husers, if_pos hj] at huses
    exact List.count_eq_zero.mp huses.symm
  have hinsts (b : BlockId) :
      (f.remove i).instsOf b = (f.instsOf b).filter fun j => decide (j ≠ i) := by
    rw [hf.instsOf_remove, (hf.nodup b).erase_eq_filter]
    refine List.filter_congr fun j _ => ?_
    rw [decide_not, bne, beq_eq_decide]
  have hterm := Instr.not_isTerminator_of_not_hasSideEffects hpure
  have hsilent : (f.instr i).isSilent := by
    cases hk : f.instr i with
    | alloc t => exact absurd hk (hslot t)
    | _ => simpa [Instr.isSilent, hk] using hpure
  have hred : f.Reduction (f.remove i) (· ∈ f.liveBlocks) fun j => decide (j ≠ i) := by
    refine ⟨hfr.name, hfr.external, hfr.deleted, hfr.params, hfr.blocks,
      fun j => (record_remove f i j).2.1, hlive _, fun b hb => ?_, fun b _ => hinsts b,
      fun b _ j _ _ => ?_, fun b hb j hj _ k hk => ?_, fun _ _ _ _ c _ => hlive c,
      fun b _ j _ hj => ?_⟩
    · have hb' : b ∈ (f.remove i).liveBlocks := hfr.liveBlocks ▸ hb
      rw [(hf.remove (Formed.live_of_placed hi) hterm).phis_eq hb', hf.phis_eq hb, hinsts,
        List.filter_filter,
        List.filter_filter]
      simp only [instr_remove, Bool.and_comm]
    · rw [instr_remove]
      exact .same _
    · rw [instr_remove] at hk
      refine decide_eq_true fun hki => ?_
      exact hnone j (hf.placed_of_mem hb hj) (hki ▸ hk)
    · obtain rfl : j = i := by simpa using hj
      exact hsilent
  exact .of_reduction hred

/-! ## Steps of a sweep -/

/-- All slots of reachable blocks of `f` are live in `g`. -/
def KeepsSlots (f g : Func) : Prop :=
  ∀ i t, (f.inst i).live → f.instr i = .alloc t → f.Reachable (f.inst i).block →
    (g.inst i).live

/-- What steps of a sweep from `f` to `g` leave: instructions only go, and if no slot of a reachable
block does then runs are kept. -/
structure Shrinks (f g : Func) : Prop where
  live : ∀ i, (g.inst i).live → (f.inst i).live
  block : ∀ i, (g.inst i).block = (f.inst i).block
  alloc : ∀ i t, (g.inst i).live → g.instr i = .alloc t → f.instr i = .alloc t
  reachable : ∀ b, g.Reachable b → f.Reachable b
  refined : f.KeepsSlots g → f.RefinedBy g

lemma Shrinks.refl (f : Func) : f.Shrinks f :=
  ⟨fun _ h => h, fun _ => rfl, fun _ _ _ h => h, fun _ h => h, fun _ => .refl f⟩

lemma Shrinks.trans (hfg : f.Shrinks g) (hgh : g.Shrinks h) : f.Shrinks h where
  live i hi := hfg.live i (hgh.live i hi)
  block i := (hgh.block i).trans (hfg.block i)
  alloc i t hi hk := hfg.alloc i t (hgh.live i hi) (hgh.alloc i t hi hk)
  reachable b hb := hfg.reachable b (hgh.reachable b hb)
  refined hkeeps := by
    have hfirst : f.KeepsSlots g := fun i t hi hk hb => hgh.live i (hkeeps i t hi hk hb)
    have hsecond : g.KeepsSlots h := fun i t hi hk hb =>
      hkeeps i t (hfg.live i hi) (hfg.alloc i t hi hk) (hfg.block i ▸ hfg.reachable _ hb)
    exact (hfg.refined hfirst).trans (hgh.refined hsecond)

lemma Formed.reachable_of_targets (hf : f.Formed) (hg : g.Formed)
    (hblks : ∀ b ∈ g.liveBlocks, b ∈ f.liveBlocks)
    (hinsts : ∀ b ∈ g.liveBlocks, ∀ i ∈ g.instsOf b, i ∈ f.instsOf b)
    (htgts : ∀ b ∈ g.liveBlocks, ∀ i ∈ g.instsOf b, ∀ c ∈ (g.instr i).targets,
      c ∈ (f.instr i).targets)
    (hdel : ∀ c, (g.block c).deleted = false → (f.block c).deleted = false)
    (hb : g.Reachable b) : f.Reachable b := by
  refine Relation.ReflTransGen.mono (fun b c hedge => ?_) _ _ hb
  obtain ⟨hlive, htgt⟩ := hedge
  obtain ⟨hc, hnot⟩ := mem_liveTargets.mp htgt
  obtain ⟨i, hi, hci⟩ := (hg.mem_targets hlive).mp hc
  have hc' := (hf.mem_targets (hblks b hlive)).mpr
    ⟨i, hinsts b hlive i hi, htgts b hlive i hi c hci⟩
  exact ⟨hblks b hlive, mem_liveTargets.mpr ⟨hc', hdel c hnot⟩⟩

lemma mem_targets_of_foldInstr {c : BlockId} (hc : c ∈ (f.foldInstr k).targets) :
    c ∈ k.targets := by
  cases k with
  | branch v x y =>
    rw [foldInstr] at hc
    split_ifs at hc <;> simp_all [Instr.targets]
  | _ => exact hc

lemma Formed.shrinks_connect (hf : f.Formed) (hempty : f.DeletedEmpty) {folded : List BlockId}
    (hconn : f.connect = (.ok folded, g)) : g.Routed ∧ g.DeletedEmpty ∧ f.Shrinks g := by
  obtain ⟨m, g', hconn', hm, hinstr, hsame, hrouted⟩ := hf.connect (flow_of_connect hconn)
  obtain rfl : g' = g := by
    rw [hconn'] at hconn
    exact congrArg Prod.snd hconn
  have hcases (i : InstId) : m.instr i = f.foldInstr (f.instr i) ∨ m.instr i = f.instr i := by
    rw [hinstr]
    split
    · exact Or.inl rfl
    · exact Or.inr rfl
  refine ⟨hrouted, fun b hb => ?_, fun i hi => ?_, fun i => ?_, fun i t _ hk => ?_, fun b hb => ?_,
    fun _ => (hm.refinedBy hf hempty hinstr).trans hsame.refinedBy⟩
  · rw [hsame.instsOf, hm.instsOf]
    exact hempty b (by rw [← hm.blockDeleted, ← hsame.blockDeleted, hb])
  · rw [← hm.live, ← hsame.inst, hi]
  · rw [hsame.inst, hm.block]
  · rw [hsame.instr] at hk
    rcases hcases i with hfold | heq
    · cases hki : f.instr i with
      | branch c x y =>
        rw [hfold, hki, foldInstr] at hk
        split_ifs at hk
      | _ => rw [← hk, hfold, hki]; rfl
    · rw [← heq, hk]
  · refine hf.reachable_of_targets hrouted.formed (fun c hc => ?_) (fun c _ i hi => ?_)
      (fun c _ i _ d hd => ?_) (fun c hc => ?_) hb
    · rwa [hsame.liveBlocks, hm.liveBlocks] at hc
    · rwa [hsame.instsOf, hm.instsOf] at hi
    · rw [hsame.instr] at hd
      rcases hcases i with hfold | heq
      · exact mem_targets_of_foldInstr (hfold ▸ hd)
      · exact heq ▸ hd
    · rwa [hsame.blockDeleted, hm.blockDeleted] at hc

lemma Routed.shrinks_prune (hf : f.Routed) (hempty : f.DeletedEmpty) (hfg : f.Pruned g)
    (hg : g.Routed) : g.DeletedEmpty ∧ f.Shrinks g := by
  have hlive (i : InstId) (hi : (g.inst i).live) : (f.inst i).live := by
    rw [hfg.without.live, and_eq_true] at hi
    exact hi.1
  have hinstr (i : InstId) (hi : (g.inst i).live) :
      ∃ keep, g.instr i = (f.instr i).filterEntries keep := by
    cases hpl : f.placed i with
    | true => exact ⟨_, hfg.instr i hi hpl⟩
    | false => exact ⟨fun _ => true, by
        rw [hfg.other i hpl, filterEntries_of_forall fun _ => rfl]⟩
  refine ⟨fun b hb => ?_, hlive, hfg.without.block, fun i t hi hk => ?_, fun b hb => ?_,
    fun _ => hfg.refinedBy hf hempty hg.formed⟩
  · rw [hfg.without.instsOf]
    split
    · rfl
    · next hnot =>
      rw [hfg.without.blockDeleted, decide_eq_false hnot, Bool.or_false] at hb
      exact hempty b hb
  · obtain ⟨keep, hkeep⟩ := hinstr i hi
    rw [hkeep] at hk
    cases hki : f.instr i with
    | phi es => rw [hki] at hk; cases hk
    | _ => rw [hki] at hk; exact hk
  · refine hf.reachable_of_targets hg.formed (fun c hc => ?_) (fun c _ i hi => ?_)
      (fun c _ i hi d hd => ?_) (fun c hc => ?_) hb
    · exact ((hf.mem_liveBlocks_of_without hfg.without).mp hc).1
    · rw [hfg.without.instsOf] at hi
      split at hi
      · cases hi
      · exact hi
    · obtain ⟨keep, hkeep⟩ := hinstr i (hg.live_of_mem hi)
      rw [hkeep] at hd
      cases hki : f.instr i with
      | phi es => rw [hki] at hd; cases hd
      | _ => rw [hki] at hd; exact hd
    · rw [hfg.without.blockDeleted, or_eq_false_iff] at hc
      exact hc.1

lemma Formed.edge_remove (hf : f.Formed) (hi : f.placed i)
    (hterm : (f.instr i).isTerminator = false) : (f.remove i).Edge = f.Edge := by
  have hfr := sameFrame_remove f i
  funext b c
  refine propext ?_
  rw [Edge, hfr.liveBlocks]
  refine and_congr_right fun hb => ?_
  have hb' : b ∈ (f.remove i).liveBlocks := hfr.liveBlocks ▸ hb
  rw [mem_liveTargets, mem_liveTargets, hfr.blockDeleted,
    (hf.remove (Formed.live_of_placed hi) hterm).mem_targets hb',
    hf.mem_targets hb, hf.instsOf_remove]
  refine and_congr_left fun _ => ⟨?_, ?_⟩
  · rintro ⟨j, hj, hc⟩
    exact ⟨j, List.mem_of_mem_erase hj, instr_remove f i j ▸ hc⟩
  · rintro ⟨j, hj, hc⟩
    have hne : j ≠ i := by
      rintro rfl
      rw [targets_of_not_isTerminator hterm] at hc
      exact List.not_mem_nil hc
    exact ⟨j, (List.mem_erase_of_ne hne).mpr hj, (instr_remove f i j).symm ▸ hc⟩

lemma Formed.shrinks_remove (hf : f.Formed) (hempty : f.DeletedEmpty) (hi : f.placed i)
    (hreach : f.Reachable (f.inst i).block) (husers : (f.inst i).users = [])
    (hpure : (f.instr i).hasSideEffects = false) : f.Shrinks (f.remove i) := by
  have hterm := not_isTerminator_of_not_hasSideEffects hpure
  refine ⟨fun j hj => ?_, fun j => (record_remove f i j).2.2, fun j t _ hk => ?_, fun b hb => ?_,
    fun hkeeps => hf.refinedBy_remove hempty hi husers hpure fun t hk => ?_⟩
  · rw [live_remove, and_eq_true] at hj
    exact hj.1
  · rwa [instr_remove] at hk
  · rwa [Reachable, hf.edge_remove hi hterm] at hb
  · -- the slot would have been kept
    have hkept := hkeeps i t (live_of_placed hi) hk hreach
    rw [live_remove] at hkept
    simp at hkept

end Func

namespace DeadCode

open Func

variable {f : Func} {n : Nat} {w w' : Work} {i : InstId}

/-- What is kept while the instructions are swept. -/
structure Swept (f : Func) : Prop where
  formed : f.Formed
  empty : f.DeletedEmpty
  reachable : ∀ b ∈ f.liveBlocks, f.Reachable b

lemma Swept.remove (hf : Swept f) (hi : f.placed i)
    (hterm : (f.instr i).isTerminator = false) : Swept (f.remove i) := by
  have hfr := sameFrame_remove f i
  refine ⟨hf.formed.remove (Func.Formed.live_of_placed hi) hterm, fun b hb => ?_, fun b hb => ?_⟩
  · rw [hf.formed.instsOf_remove, hf.empty b (by rw [← hfr.blockDeleted, hb])]
    rfl
  · rw [Reachable, hf.formed.edge_remove hi hterm]
    exact hf.reachable b (hfr.liveBlocks ▸ hb)

lemma Swept.removeUnused (hf : Swept f) {is : List InstId}
    (his : ∀ i ∈ is, (f.block (f.inst i).block).deleted = false) :
    Swept (removeUnused f is).2 ∧ f.Shrinks (removeUnused f is).2 := by
  induction is generalizing f with
  | nil => exact ⟨hf, .refl f⟩
  | cons i is ih =>
    have hrest : ∀ j ∈ is, (f.block (f.inst j).block).deleted = false := fun j hj =>
      his j (.tail i hj)
    unfold DeadCode.removeUnused
    split
    · next hunused =>
      obtain ⟨⟨hlive, husers⟩, hpure⟩ : ((f.inst i).live ∧ (f.inst i).users = []) ∧
          (f.instr i).hasSideEffects = false := by
        simpa [isUnused] using hunused
      have hi : f.placed i := by
        rw [placed, hlive, his i (.head _)]
        rfl
      have hblk := hf.formed.mem_liveBlocks.mpr
        ⟨hf.formed.hasBlock_of_live hlive, his i (.head _)⟩
      have hstep := hf.formed.shrinks_remove hf.empty hi (hf.reachable _ hblk) husers hpure
      have hswept := hf.remove hi (not_isTerminator_of_not_hasSideEffects hpure)
      obtain ⟨hlast, hshrinks⟩ := ih hswept fun j hj => by
        rw [(record_remove f i j).2.2, (sameFrame_remove f i).blockDeleted, hrest j hj]
      exact ⟨hlast, hstep.trans hshrinks⟩
    · exact ih hf hrest

lemma Swept.candidates (hf : Swept f) (hi : i ∈ candidates f) :
    (f.block (f.inst i).block).deleted = false := by
  obtain ⟨b, hb, hib⟩ := List.mem_flatMap.mp hi
  rw [hf.formed.block_of_mem (List.mem_reverse.mp hib)]
  exact (hf.formed.mem_liveBlocks.mp hb).2

/-! ## Sweeps -/

lemma sweep_ok (h : sweep w = .ok n w') :
    ∃ folded dead m g, w.func.connect = (.ok folded, m) ∧ m.prune = (.ok dead, g) ∧
      w'.func = (removeUnused g (candidates g)).2 ∧
      n = folded.length + dead.length + (removeUnused g (candidates g)).1.length ∧
      w'.events = w.events ++ (folded.map (m.event name .branchSimplified) ++
        dead.map (g.event name .blockRemoved) ++
        (removeUnused g (candidates g)).1.map (removal g)) := by
  obtain ⟨folded, w₁, hconn, h⟩ := bind_ok h
  obtain ⟨-, w₂, ⟨⟩, h⟩ := bind_ok h
  obtain ⟨-, w₃, ⟨⟩, h⟩ := bind_ok h
  obtain ⟨dead, w₄, hprune, h⟩ := bind_ok h
  cases h
  obtain ⟨hconn, hfirst⟩ := analyze_ok hconn
  obtain ⟨hprune, hsecond⟩ := analyze_ok hprune
  refine ⟨folded, dead, w₁.func, w₄.func, hconn, hprune, rfl, rfl, ?_⟩
  simp [hfirst, hsecond]

lemma shrinks_sweep (hform : w.func.Formed) (hempty : w.func.DeletedEmpty)
    (h : sweep w = .ok n w') : w'.func.Formed ∧ w'.func.DeletedEmpty ∧ w.func.Shrinks w'.func := by
  obtain ⟨folded, dead, m, g, hconn, hprune, hlast, -⟩ := sweep_ok h
  obtain ⟨hrouted, hempty', hfirst⟩ := hform.shrinks_connect hempty hconn
  obtain ⟨g', hprune', hrouted', hprun, hreachable⟩ := hrouted.prune
  obtain rfl : g' = g := by
    rw [hprune'] at hprune
    exact congrArg Prod.snd hprune
  obtain ⟨hempty'', hsecond⟩ := hrouted.shrinks_prune hempty' hprun hrouted'
  have hswept : Swept g' := ⟨hrouted'.formed, hempty'', hreachable⟩
  obtain ⟨hdone, hthird⟩ := hswept.removeUnused fun i hi => hswept.candidates hi
  rw [hlast]
  exact ⟨hdone.formed, hdone.empty, (hfirst.trans hsecond).trans hthird⟩

lemma shrinks_sweeps {bound : Nat} {changed changed' : Bool} (hform : w.func.Formed)
    (hempty : w.func.DeletedEmpty) (h : sweeps bound changed n w = .ok changed' w') :
    w.func.Shrinks w'.func := by
  induction n generalizing changed w with
  | zero =>
    cases h
    exact .refl w.func
  | succ n ih =>
    obtain ⟨m, w₁, hsweep, h⟩ := bind_ok h
    obtain ⟨hformed₁, hempty₁, hstep⟩ := shrinks_sweep hform hempty hsweep
    split at h
    · cases h
      exact hstep
    · exact hstep.trans (ih hformed₁ hempty₁ h)

/-- Dead code elimination of a function keeps every successful run of the program: the same result,
output, input left and memory, and no more instructions.  The limits are the same for both runs. -/
theorem run_setFunc_eq_ok {p : Program} {id : FuncId} {bound : Nat} {changed : Bool}
    {events : List Event} {w : Work} (hconsistent : (p.func id).Consistent)
    (hverify : (p.func id).verify = .ok ()) (hempty : (p.func id).DeletedEmpty)
    (hpass : run bound { func := p.func id, events } = .ok changed w)
    (hslots : (p.func id).KeepsSlots w.func) {limits : Limits} {input name : String}
    {args : List Value} {e : Image} {s t : Machine} {v : Value}
    (hload : p.load limits input = .ok (e, s)) (hrun : e.run name args s = .ok v t) :
    ∃ e' t', (p.setFunc id w.func).load limits input = .ok (e', s) ∧
      e'.run name args s = .ok v t' ∧ t'.output = t.output ∧ t'.input = t.input ∧
      t'.memory = t.memory ∧ t'.steps ≤ t.steps := by
  have hformed := (hconsistent.verify_eq_ok_iff.mp hverify).1
  have hrefined := (shrinks_sweeps hformed hempty hpass).refined hslots
  have hprogram : p.RefinedBy (p.setFunc id w.func) := by
    cases hid : p.hasFunc id with
    | true => exact hrefined p id rfl hid
    | false =>
      rw [Program.setFunc_of_not_hasFunc hid]
      exact .refl p
  obtain ⟨e', t', hload', hrun', ht⟩ := hprogram limits input name args e s v t hload hrun
  exact ⟨e', t', hload', hrun', ht.output, ht.input, ht.memory, ht.steps⟩

lemma keepsSlots_of_forall {g : Func}
    (h : ∀ n < f.insts.size, (f.instr ⟨n⟩).mnemonic = "alloca" → (g.inst ⟨n⟩).live) :
    f.KeepsSlots g := by
  intro i t hlive hk _
  refine h i.idx ((hasInst_iff f).mp (hasInst_of_live hlive)) ?_
  rw [hk]
  rfl

def passed (bound : Nat) (f : Func) : Work :=
  match run bound { func := f } with
  | .ok _ w => w
  | .error _ w => w

def single (f : Func) : Program :=
  { funcs := #[f] }

def start : Machine :=
  { memory := { limit := 16777216 }, input := .ofText "" }

lemma load_single (f : Func) : (single f).load {} "" = .ok ({ program := single f }, start) := rfl

/-- A function with an unused sum and an unused phi, an unreachable block and a branch to a deleted
block, and with a slot that is used. -/
def wasteful : Func :=
  Edit.applyAll (new "f" .i32 [.i1])
    [.addBlock "entry", .addBlock "exit", .addBlock "gone", .addBlock "lost", .addBlock "detour",
      .append ⟨0⟩ (.alloc .i32) (.pointer .i32),
      .append ⟨0⟩ (.binary .add (.int 2) (.int 3)) .i32,
      .append ⟨0⟩ (.branch (.arg 0) ⟨1⟩ ⟨4⟩) .void,
      .append ⟨1⟩ (.phi [⟨⟨0⟩, some (.int 5)⟩, ⟨⟨3⟩, some (.int 7)⟩, ⟨⟨4⟩, some (.int 6)⟩]) .i32,
      .append ⟨1⟩ (.ret (some (.int 5))) .void,
      .append ⟨3⟩ (.jump (some ⟨1⟩)) .void,
      .append ⟨4⟩ (.store (.int 5) (.inst ⟨0⟩)) .void,
      .append ⟨4⟩ (.branch (.arg 0) ⟨1⟩ ⟨2⟩) .void,
      .deleteBlock ⟨2⟩]

theorem run_wasteful_eq_ok :
    ∃ e t t', (single (passed 4 wasteful).func).load {} "" = .ok (e, start) ∧
      Image.run { program := single wasteful } "f" [.bool true] start = .ok (.int 5) t ∧
      e.run "f" [.bool true] start = .ok (.int 5) t' ∧ t'.output = t.output ∧
      t'.input = t.input ∧ t'.memory = t.memory ∧ t'.steps ≤ t.steps := by
  have hconsistent : ((single wasteful).func ⟨0⟩).Consistent := by decide +kernel
  have hverify : ((single wasteful).func ⟨0⟩).verify = .ok () := by cbv
  have hempty : ((single wasteful).func ⟨0⟩).DeletedEmpty := by decide +kernel
  have hpass : run 4 { func := (single wasteful).func ⟨0⟩ } = .ok true (passed 4 wasteful) := by
    cbv
  have hslots : ((single wasteful).func ⟨0⟩).KeepsSlots (passed 4 wasteful).func :=
    keepsSlots_of_forall (by decide +kernel)
  have hanswer : (Image.run { program := single wasteful } "f" [.bool true]).answer? start =
      some (.int 5) := by decide +kernel
  obtain ⟨t, ht⟩ := Exec.answer?_eq_some.mp hanswer
  obtain ⟨e, t', hload, hrun, hsame⟩ :=
    run_setFunc_eq_ok hconsistent hverify hempty hpass hslots (load_single wasteful) ht
  exact ⟨e, t, t', hload, ht, hrun, hsame⟩

/-- A function in which a deleted block has got an instruction. -/
def revived : Func :=
  Edit.applyAll (new "f" .i32 [.i1])
    [.addBlock "entry", .addBlock "one", .addBlock "two",
      .append ⟨0⟩ (.branch (.arg 0) ⟨1⟩ ⟨2⟩) .void,
      .append ⟨1⟩ (.ret (some (.int 1))) .void,
      .deleteBlock ⟨2⟩,
      .append ⟨2⟩ (.ret (some (.int 2))) .void]

/-- That deleted blocks have no instructions cannot be left out. -/
theorem exists_run_not_kept :
    ∃ (p : Program) (id : FuncId) (bound : Nat) (changed : Bool) (w : Work) (limits : Limits)
      (input name : String) (args : List Value) (e : Image) (s t : Machine) (v : Value),
      (p.func id).Consistent ∧ (p.func id).verify = .ok () ∧
        run bound { func := p.func id } = .ok changed w ∧ (p.func id).KeepsSlots w.func ∧
        p.load limits input = .ok (e, s) ∧ e.run name args s = .ok v t ∧
        ∀ e' s' t', (p.setFunc id w.func).load limits input = .ok (e', s') →
          e'.run name args s' ≠ .ok v t' := by
  have hverify : ((single revived).func ⟨0⟩).verify = .ok () := by cbv
  have hpass : run 4 { func := (single revived).func ⟨0⟩ } = .ok true (passed 4 revived) := by cbv
  have hslots : ((single revived).func ⟨0⟩).KeepsSlots (passed 4 revived).func :=
    keepsSlots_of_forall (by decide +kernel)
  have hbefore : (Image.run { program := single revived } "f" [.bool false]).answer? start =
      some (.int 2) := by decide +kernel
  have hafter : (Image.run { program := single (passed 4 revived).func } "f"
      [.bool false]).answer? start = some (.int 1) := by decide +kernel
  obtain ⟨t, ht⟩ := Exec.answer?_eq_some.mp hbefore
  refine ⟨single revived, ⟨0⟩, 4, true, passed 4 revived, {}, "", "f", [.bool false], _, start, t,
    .int 2, by decide +kernel, hverify, hpass, hslots, load_single revived, ht, ?_⟩
  intro e' s' t' hload hrun
  cases (load_single (passed 4 revived).func).symm.trans hload
  have hsame := hafter.symm.trans (Exec.answer?_eq_some.mpr ⟨t', hrun⟩)
  exact absurd hsame (by decide)

end DeadCode

end MiddleEnd
