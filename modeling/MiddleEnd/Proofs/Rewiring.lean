import MiddleEnd.Proofs.Interlinked
import MiddleEnd.Proofs.Ssa

/-!
# Connecting and pruning any function

Connecting and pruning look at the ends of blocks only.  So whatever edits have made of a function,
its edges are those of its terminators once it has been connected, and the entry reaches every live
block once it has been pruned.
-/

namespace MiddleEnd.Func

open List

variable {b : BlockId} {folded : List BlockId} {f g : Func}

/-! ## Pruning any function -/

/-- In `g` the blocks of `f` that are not `dead` end as before. -/
structure Spares (f g : Func) (dead : List BlockId) : Prop where
  interlinked : g.Interlinked
  layout : g.layout = f.layout
  blocks : g.blocks.size = f.blocks.size
  deleted : ∀ b, (g.block b).deleted = ((f.block b).deleted || decide (b ∈ dead))
  last : ∀ b ∉ dead, (g.block b).last = (f.block b).last
  isTerminator : ∀ i, (g.instr i).isTerminator = (f.instr i).isTerminator
  targets : ∀ i, (g.instr i).targets = (f.instr i).targets

namespace Spares

variable {dead : List BlockId}

lemma refl (hf : f.Interlinked) : f.Spares f [] :=
  ⟨hf, rfl, rfl, fun _ => by simp, fun _ _ => rfl, fun _ => rfl, fun _ => rfl⟩

lemma retainEntries (hfg : f.Spares g dead) (p : InstId) (keep : BlockId → Bool) :
    f.Spares (g.retainEntries p keep).2 dead := by
  have hplaces := samePlaces_retainEntries g p keep
  refine ⟨hfg.interlinked.sameChains hplaces.chains, hplaces.layout.trans hfg.layout,
    hplaces.blocks.trans hfg.blocks, fun b => ?_, fun b hb => ?_, fun i => ?_, fun i => ?_⟩
  · rw [hplaces.blockDeleted, hfg.deleted]
  · rw [hplaces.ends, hfg.last b hb]
  · rw [instr_retainEntries, ← hfg.isTerminator]
    split
    · exact Instr.filterEntries_isTerminator keep _
    · rfl
  · rw [instr_retainEntries, ← hfg.targets]
    split
    · exact Instr.targets_filterEntries keep _
    · rfl

lemma dropEntries (hfg : f.Spares g dead) (gone : List BlockId) (b : BlockId) :
    f.Spares (g.dropEntries gone b) dead := by
  exact foldlRecOn (motive := (f.Spares · dead)) (g.phis b) _ hfg fun _ h p _ => h.retainEntries p _

/-- Deleting a block changes the ends of this block only, since its instructions belong to it. -/
lemma deleteBlock (hfg : f.Spares g dead) (hb : f.hasBlock b) :
    f.Spares (g.deleteBlock b) (dead ++ [b]) := by
  have hlay := g.sameLayout_deleteBlock b
  have hhas : g.hasBlock b := by rwa [Func.hasBlock, hfg.blocks]
  refine ⟨hfg.interlinked.deleteBlock b, hlay.layout.trans hfg.layout, hlay.blocks.trans hfg.blocks,
    fun c => ?_, fun c hc => ?_, fun i => ?_, fun i => ?_⟩
  · rw [blockDeleted_deleteBlock, hfg.deleted, Bool.or_assoc]
    simp [hhas]
  · rw [mem_append, mem_singleton, not_or] at hc
    rw [hfg.interlinked.last_deleteBlock hc.2, hfg.last c hc.1]
  · rw [instr_deleteBlock, hfg.isTerminator]
  · rw [instr_deleteBlock, hfg.targets]

lemma strip (hf : f.Interlinked) (hdead : ∀ b ∈ dead, f.hasBlock b) :
    f.Spares (f.strip dead) dead := by
  have hdrop (bs : List BlockId) : f.Spares (bs.foldl (fun f b => f.dropEntries dead b) f) [] :=
    foldlRecOn (motive := (f.Spares · [])) bs _ (.refl hf) fun _ hfg b _ => hfg.dropEntries dead b
  have hdelete (bs : List BlockId) (hbs : ∀ b ∈ bs, f.hasBlock b) (g : Func)
      (gone : List BlockId) (hfg : f.Spares g gone) :
      f.Spares (bs.foldl Func.deleteBlock g) (gone ++ bs) := by
    induction bs generalizing g gone with
    | nil => simpa using hfg
    | cons b bs ih =>
      obtain ⟨hb, hbs⟩ := forall_mem_cons.mp hbs
      simpa using ih hbs _ _ (hfg.deleteBlock hb)
  exact hdelete dead hdead _ [] (hdrop _)

lemma liveBlocks (hfg : f.Spares g dead) :
    g.liveBlocks = f.liveBlocks.filter fun b => !dead.contains b := by
  rw [Func.liveBlocks, Func.liveBlocks, hfg.layout, filter_filter]
  refine filter_congr fun b _ => ?_
  rw [hfg.deleted, Bool.not_or, Bool.and_comm, contains_eq_mem]

lemma targets_eq (hfg : f.Spares g dead) (hb : b ∉ dead) :
    g.targets b = f.targets b := by
  have hterm : g.terminator? b = f.terminator? b := by
    rw [terminator?, hfg.last b hb]
    congr 1
    funext i
    exact hfg.isTerminator i
  rw [Func.targets, Func.targets, hterm]
  cases f.terminator? b with
  | none => rfl
  | some t => exact hfg.targets t

end Spares

lemma Wired.reachable_of_spares (hf : f.Wired) {m : Func} (hspares : f.Spares m f.unreachable)
    (hconn : m.connect = (.ok folded, g)) (hb : f.Reachable b) : g.Reachable b := by
  have hsurvives {c : BlockId} (hc : f.Reachable c) : c ∉ f.unreachable :=
    fun h => (hf.mem_unreachable.mp h).2 hc
  induction hb with
  | refl => exact .refl
  | @tail x y hx hedge ih =>
    refine ih.tail ?_
    have hlive : x ∈ m.liveBlocks := by
      rw [hspares.liveBlocks, mem_filter]
      exact ⟨hedge.1, by simpa using hsurvives hx⟩
    obtain ⟨htgt, hdel⟩ := mem_liveTargets.mp hedge.2
    refine ⟨liveBlocks_of_connect hconn ▸ hlive, ?_⟩
    rw [liveTargets_of_connect hconn hlive, mem_liveTargets, hspares.targets_eq (hsurvives hx),
      hspares.deleted, hdel, Bool.false_or, decide_eq_false_iff_not]
    exact ⟨htgt, hsurvives (.tail hx hedge)⟩

lemma Wired.prune (hf : f.Wired) (hlinks : f.Interlinked) {dead : List BlockId}
    (h : f.prune = (.ok dead, g)) : g.Wired ∧ ∀ b ∈ g.liveBlocks, g.Reachable b := by
  rw [Func.prune] at h
  split at h
  · next hnone =>
    obtain ⟨-, rfl⟩ := Prod.mk.inj h
    refine ⟨hf, fun b hb => ?_⟩
    by_contra hnot
    exact not_mem_nil (isEmpty_iff.mp hnone ▸ hf.mem_unreachable.mpr ⟨hb, hnot⟩)
  · have hspares : f.Spares (f.strip f.unreachable) f.unreachable :=
      .strip hlinks fun b hb => hasBlock_of_flow (hf.flow b (hf.mem_unreachable.mp hb).1)
    obtain ⟨folded, hconn⟩ : ∃ folded, (f.strip f.unreachable).connect = (.ok folded, g) := by
      dsimp only at h
      split at h
      · next folded k hconn =>
        obtain ⟨-, rfl⟩ := Prod.mk.inj h
        exact ⟨folded, hconn⟩
      · exact absurd (congrArg Prod.fst h) (by simp)
    refine ⟨(wired_of_connect hconn).1, fun b hb => hf.reachable_of_spares hspares hconn ?_⟩
    rw [liveBlocks_of_connect hconn, hspares.liveBlocks, mem_filter] at hb
    by_contra hnot
    have hdead := hf.mem_unreachable.mpr ⟨hb.1, hnot⟩
    simp [hdead] at hb

/-! ## Links after an analysis -/

namespace Interlinked

lemma placeAfter (hf : f.Interlinked) (hb : f.hasBlock b)
    (after : BlockId) : (f.placeAfter b after).Interlinked := by
  obtain ⟨n, hlay⟩ := f.layout_placeAfter b after
  refine ⟨hf.next_iff, hf.home, hf.first, hf.last, hf.hasBlock, fun c => ?_⟩
  calc c ∈ (f.placeAfter b after).layout
      ↔ c = b ∨ c ∈ f.layout.filter (· ≠ b) := by
        rw [hlay, perm_middle.mem_iff, take_append_drop, mem_cons]
    _ ↔ c = b ∨ f.hasBlock c := by
        rw [mem_filter, hf.mem_layout, decide_eq_true_eq]
        tauto
    _ ↔ f.hasBlock c := or_iff_right_of_imp fun h => h ▸ hb

lemma connect (hf : f.Interlinked) : f.connect.2.Interlinked := by
  have hfolds := (foldsTo_foldl (P := fun _ => True)
    (fun b (hb : b ∈ (f.liveBlocks.takeWhile fun b => (f.flowError? b).isNone).filter
      f.hasDeadBranch) => (mem_filter.mp hb).imp_left fun h => (takeWhile_sublist _).subset h)
    (fun _ _ _ _ _ _ _ => trivial) trivial).1
  have hconnected := (hf.sameChains hfolds.chains).sameChains
    (sameCode_setEdges _ (f.liveBlocks.takeWhile fun b => (f.flowError? b).isNone)).chains
  rw [Func.connect]
  split <;> exact hconnected

lemma prune (hf : f.Interlinked) : f.prune.2.Interlinked := by
  have hstrip : (f.strip f.unreachable).Interlinked := by
    refine (Spares.strip hf fun b hb => (hf.mem_layout b).mp ?_).interlinked
    exact mem_of_mem_filter (mem_of_mem_filter hb)
  have hconnected := hstrip.connect
  rw [strip] at hconnected
  rw [Func.prune]
  split
  · exact hf
  · · grind

end Interlinked

end MiddleEnd.Func
