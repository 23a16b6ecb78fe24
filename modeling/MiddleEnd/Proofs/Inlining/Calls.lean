import MiddleEnd.Proofs.CallGraph
import MiddleEnd.Proofs.Inlining.Splice

/-!
# Calls after inlining

A function without its unreachable blocks calls nothing else than before.  A caller in which a call
has been replaced has all its other calls, those of the callee, and calls of `memset`.
-/

namespace MiddleEnd

open List Func

def Instr.callee? : Instr → Option FuncId
  | .call g _ _ => some g
  | _ => none

namespace Instr

lemma callee?_mapOperands (σ : Operand → Operand) (k : Instr) :
    (k.mapOperands σ).callee? = k.callee? := by
  cases k <;> rfl

lemma callee?_mapBlocks (σ : BlockId → BlockId) (k : Instr) :
    (k.mapBlocks σ).callee? = k.callee? := by
  cases k <;> rfl

lemma callee?_filterEntries (keep : BlockId → Bool) (k : Instr) :
    (k.filterEntries keep).callee? = k.callee? := by
  cases k <;> rfl

end Instr

namespace Func

variable {f g h : Func} {c : FuncId}

lemma mem_calls : c ∈ f.calls ↔ ∃ u ∈ f.liveInsts, (f.instr u).callee? = some c := by
  rw [calls, mem_filterMap]
  refine exists_congr fun u => and_congr_right fun _ => ?_
  cases f.instr u <;> rfl

lemma callee?_replaceInstr (f : Func) {i : InstId} {k : Instr}
    (hk : k.callee? = (f.instr i).callee?) (j : InstId) :
    ((f.replaceInstr i k).instr j).callee? = (f.instr j).callee? := by
  by_cases hj : j = i
  · subst hj
    cases hhas : f.hasInst j with
    | true => rw [instr_replaceInstr_self hhas, hk]
    | false =>
      have hhas' : (f.replaceInstr j k).hasInst j = false := by
        rw [(samePlaces_replaceInstr f j k).hasInst, hhas]
      rw [instr, instr, inst_of_not_hasInst _ hhas, inst_of_not_hasInst _ hhas']
  · rw [instr_replaceInstr_of_ne hj]

lemma instr_replaceUses_cases (f : Func) (old new : Operand) (j : InstId) :
    (f.replaceUses old new).2.instr j = f.instr j ∨
      (f.replaceUses old new).2.instr j = (f.instr j).mapOperands (subst old new) := by
  by_cases hsame : old = new ∨ f.tracks old = false
  · left
    rw [replaceUses, if_pos hsame]
  · rw [not_or, Bool.not_eq_false] at hsame
    have hinstr := congrArg InstRecord.instr (bare_replaceUses hsame.1 hsame.2 j)
    split at hinstr
    · exact Or.inr hinstr
    · exact Or.inl hinstr

/-! ## Smaller functions -/

/-- What is left of a function has the same calls as before. -/
structure Restricts (f g : Func) : Prop where
  consistent : g.Consistent
  head : f.SameHead g
  blocks : g.blocks.size = f.blocks.size
  placed : ∀ u, g.placed u → f.placed u
  callee : ∀ u, (g.instr u).callee? = (f.instr u).callee?

namespace Restricts

lemma refl (hf : f.Consistent) : f.Restricts f :=
  ⟨hf, .refl f, rfl, fun _ hu => hu, fun _ => rfl⟩

lemma trans (hfg : f.Restricts g) (hgh : g.Restricts h) : f.Restricts h :=
  ⟨hgh.consistent, hfg.head.trans hgh.head, hgh.blocks.trans hfg.blocks,
    fun u hu => hfg.placed u (hgh.placed u hu), fun u => (hgh.callee u).trans (hfg.callee u)⟩

lemma foldl {α : Type} {step : Func → α → Func}
    (hstep : ∀ (f : Func) (a : α), f.Consistent → f.Restricts (step f a)) (hf : f.Consistent)
    (as : List α) : f.Restricts (as.foldl step f) :=
  foldlRecOn as step (.refl hf) fun g hfg a _ => hfg.trans (hstep g a hfg.consistent)

lemma calls_subset (hf : f.Consistent) (hfg : f.Restricts g) (hc : c ∈ g.calls) :
    c ∈ f.calls := by
  obtain ⟨u, hu, hcall⟩ := mem_calls.mp hc
  have hpl := hfg.placed u (hfg.consistent.mem_liveInsts.mp hu)
  exact mem_calls.mpr ⟨u, hf.mem_liveInsts.mpr hpl, (hfg.callee u).symm.trans hcall⟩

end Restricts

lemma SameChains.restricts (hfg : f.SameChains g) (hf : f.Consistent)
    (hcallee : ∀ u, (g.instr u).callee? = (f.instr u).callee?) : f.Restricts g :=
  ⟨hfg.consistent hf, hfg.head, hfg.blocks, fun _ hu => hfg.placed ▸ hu, hcallee⟩

lemma SameCode.restricts (hfg : f.SameCode g) (hf : f.Consistent) : f.Restricts g :=
  hfg.chains.restricts hf fun u => by rw [hfg.instr]

variable (hf : f.Consistent)
include hf

lemma Consistent.restricts_foldBranch (b : BlockId) : f.Restricts (f.foldBranch b) := by
  rw [foldBranch]
  split
  · next t _ =>
    split
    · next hbranch =>
      exact (samePlaces_replaceInstr f t _).restricts hf
        (f.callee?_replaceInstr (by rw [hbranch]; rfl))
    · exact .refl hf
  · exact .refl hf

lemma Consistent.restricts_connect : f.Restricts f.connect.2 := by
  have hfolded (bs : List BlockId) : f.Restricts (bs.foldl foldBranch f) :=
    .foldl (fun f b hf => hf.restricts_foldBranch b) hf bs
  have hedges (bs sources : List BlockId) :
      f.Restricts ((bs.foldl foldBranch f).setEdges sources) :=
    (hfolded bs).trans ((sameCode_setEdges _ sources).restricts (hfolded bs).consistent)
  rw [connect]
  split <;> exact hedges _ _

lemma Consistent.restricts_dropEntries (dead : List BlockId) (b : BlockId) :
    f.Restricts (f.dropEntries dead b) := by
  refine .foldl (fun f p hf => ?_) hf _
  refine (samePlaces_retainEntries f p _).restricts hf fun u => ?_
  rw [instr_retainEntries]
  split
  · exact Instr.callee?_filterEntries _ _
  · rfl

lemma Consistent.restricts_deleteBlock (b : BlockId) : f.Restricts (f.deleteBlock b) := by
  have hlay := f.sameLayout_deleteBlock b
  refine ⟨hf.deleteBlock b, hlay.head, hlay.blocks, fun u hu => ?_,
    fun u => by rw [instr_deleteBlock]⟩
  have hblk : ((f.deleteBlock b).inst u).block = (f.inst u).block :=
    (record_foldl_remove _ f u).2.2
  rw [placed, hf.live_deleteBlock, hblk, blockDeleted_deleteBlock] at hu
  simp only [Bool.and_eq_true, Bool.not_eq_true', Bool.or_eq_false_iff] at hu
  rw [placed, hu.1.1, hu.2.1]
  rfl

lemma Consistent.restricts_prune : f.Restricts f.prune.2 := by
  have hdropped : f.Restricts ((f.liveBlocks.filter fun b => !f.unreachable.contains b).foldl
      (dropEntries · f.unreachable ·) f) :=
    .foldl (fun f b hf => hf.restricts_dropEntries _ b) hf _
  have hprun := hdropped.trans
    (.foldl (fun f b hf => hf.restricts_deleteBlock b) hdropped.consistent f.unreachable)
  have hconnected := hprun.trans hprun.consistent.restricts_connect
  rw [prune]
  split
  · exact .refl hf
  · grind

end Func

namespace Inlining

variable {f g : Func} {p : Instr × Ty} {c : FuncId}

lemma restricts_reachablePart (hf : f.Consistent) (h : reachablePart f = .ok g) :
    f.Restricts g := by
  rw [reachablePart] at h
  have hconnected := hf.restricts_connect
  split at h
  · cases h
  · next m hm =>
    have hprun := hconnected.trans hconnected.consistent.restricts_prune
    split at h
    · cases h
    · grind

/-! ## Callers with a copy -/

lemma Copy.callee?_instr (c : Copy) (k : Instr) : (c.instr k).callee? = k.callee? := by
  cases k <;> rfl

lemma callee?_withResult (f : Func) (call : InstId) (value : Option Operand) (j : InstId) :
    ((withResult f call value).instr j).callee? = (f.instr j).callee? := by
  cases value with
  | none => rfl
  | some v =>
    rcases f.instr_replaceUses_cases (.inst call) v j with heq | heq
    · rw [withResult, heq]
    · rw [withResult, heq, Instr.callee?_mapOperands]

lemma callee?_splitAtCall (hf : f.Consistent) {call : InstId} {b : BlockId}
    {pre post : List InstId} (hsplit : f.instsOf b = pre ++ call :: post) (label : String)
    (j : InstId) : ((splitAtCall f call label).instr j).callee? = (f.instr j).callee? := by
  rw [((extends_splitAtCall hf hsplit label).2.2.2 j).1]
  split
  · exact Instr.callee?_mapBlocks _ _
  · rfl

lemma Clears.memset_eq {kind : InstId → Instr} {memset : Option FuncId} {n : Nat}
    {slots : List InstId} {code : List (Instr × Ty)} (h : Clears kind memset n slots code)
    (hp : p ∈ code) (hc : p.1.callee? = some c) : memset = some c := by
  induction h with
  | nil => cases hp
  | scalar _ _ _ ih =>
    rcases mem_cons.mp hp with rfl | hp
    · cases hc
    · exact ih hp
  | array _ _ hset _ _ ih =>
    rcases mem_cons.mp hp with rfl | hp
    · cases hc
    · rcases mem_cons.mp hp with rfl | hp
      · exact hset.trans hc
      · exact ih hp

lemma Merges.callee?_eq_none {c : Copy} {n : Nat} {merge : List (Instr × Ty)}
    {value : Option Operand} (h : Merges c n merge value) (hp : p ∈ merge) :
    p.1.callee? = none := by
  cases h with
  | phi =>
    rw [mem_singleton.mp hp]
    rfl
  | _ => cases hp

namespace Expanded

variable {m : Func} {s : Site} {n : Nat} {memset : Option FuncId} {pre post : List InstId}
  {clears merge : List (Instr × Ty)} {value : Option Operand} {u : InstId}

lemma callee?_eq_some (h : Expanded f s n memset pre post clears merge value m g)
    (hf : f.Consistent) (hcallee : s.callee.Consistent) (hcall : f.placed s.call)
    (hsplit : f.instsOf (f.inst s.call).block = pre ++ s.call :: post)
    (hu : g.placed u) (hc : (g.instr u).callee? = some c) :
    (u ≠ s.call ∧ f.placed u ∧ (f.instr u).callee? = some c) ∨
      f.hasInst u = false ∧ (c ∈ s.callee.calls ∨ memset = some c) := by
  have hhas : m.hasInst s.call := by
    have hlt := f.hasInst_iff.mp (hasInst_of_live (Formed.live_of_placed hcall))
    rw [hasInst_iff, h.spliced.ext.insts]
    omega
  have hne : u ≠ s.call := by
    rintro rfl
    rw [h.instr_eq hhas, if_pos rfl] at hc
    cases hc
  have hcm : (m.instr u).callee? = some c := by
    rwa [h.instr_eq hhas, if_neg hne, callee?_withResult] at hc
  rw [h.places.placed] at hu
  obtain ⟨b, hb, hub⟩ := mem_flatMap.mp (h.spliced.ext.mem_liveInsts.mpr hu)
  obtain ⟨hblk, hdel⟩ := h.spliced.ext.mem_liveBlocks.mp hb
  have hcallBlock := hf.block_mem_of_placed hcall
  -- an instruction of the caller
  have hold (d : BlockId) (hd : d ∈ f.liveBlocks) (hud : u ∈ f.instsOf d) :
      u ≠ s.call ∧ f.placed u ∧ (f.instr u).callee? = some c := by
    refine ⟨hne, hf.placed_of_mem hd hud, ?_⟩
    rwa [(h.spliced.old u (hf.threaded.home d u hud).1).1, callee?_splitAtCall hf hsplit] at hcm
  -- an instruction that is there to clear a slot or to merge results
  have hnew (k : Nat) (p : Instr × Ty) (hp : (clears ++ merge)[k]? = some p)
      (hk : u = ⟨s.size f + k⟩) :
      f.hasInst u = false ∧ memset = some c := by
    have hinstr := (h.spliced.new k p hp).1
    rw [← hk] at hinstr
    rw [hinstr] at hcm
    refine ⟨Bool.eq_false_iff.mpr fun hhas => ?_, ?_⟩
    · have hlt := f.hasInst_iff.mp hhas
      rw [hk] at hlt
      change f.insts.size + _ + k < _ at hlt
      omega
    · rcases mem_append.mp (mem_of_getElem? hp) with hp | hp
      · exact h.fill.memset_eq hp hcm
      · rw [h.result.callee?_eq_none hp] at hcm
        cases hcm
  have hrange (start len : Nat) (hlen : start + len ≤ (clears ++ merge).length)
      (hmem : u ∈ idsFrom (s.size f + start) len) :
      f.hasInst u = false ∧ memset = some c := by
    obtain ⟨k, hk, rfl⟩ := mem_map.mp hmem
    rw [mem_range'_1] at hk
    obtain ⟨j, rfl⟩ := Nat.exists_eq_add_of_le hk.1
    have hj : start + j < (clears ++ merge).length := by omega
    exact hnew (start + j) _ (List.getElem?_eq_getElem hj) (by rw [Nat.add_assoc])
  rcases h.spliced.block_cases hcallee.layout_nodup hblk with hold' | rfl | ⟨d, hd, rfl⟩
  · rw [h.spliced.instsOf b hold', mem_append] at hub
    rcases hub with hub | hub
    · -- a slot
      split at hub
      · obtain ⟨j, hlive, hslot, rfl⟩ := Copy.of_mem_slots hcallee hub
        obtain ⟨t, ht⟩ := isSlot_iff.mp hslot
        rw [(h.spliced.copied j hlive).1, show s.callee.instr j = .alloc t from ht] at hcm
        cases hcm
      · cases hub
    · refine Or.inl (hold b ?_ ?_)
      · exact hf.mem_liveBlocks.mpr ⟨hold', (h.spliced.deleted b hold').symm.trans hdel⟩
      · grind
  · rw [h.spliced.instsOf_after, mem_append] at hub
    rcases hub with hub | hub
    · obtain ⟨hfresh, hset⟩ := hrange clears.length merge.length (by simp) hub
      exact Or.inr ⟨hfresh, Or.inr hset⟩
    · grind
  · rw [h.spliced.instsOf_copy d hd, mem_append] at hub
    rcases hub with hub | hub
    · split at hub
      · obtain ⟨hfresh, hset⟩ := hrange 0 clears.length (by simp) hub
        exact Or.inr ⟨hfresh, Or.inr hset⟩
      · cases hub
    · -- a copy of an instruction of the callee
      obtain ⟨j, hj, rfl⟩ := mem_map.mp (mem_of_mem_filter hub)
      split at hj
      · next hd =>
        have hlive := mem_flatMap.mpr ⟨d, hd, hj⟩
        rw [(h.spliced.copied j hlive).1, Copy.callee?_instr] at hcm
        refine Or.inr ⟨Bool.eq_false_iff.mpr fun hhas => copied_ne hhas rfl, Or.inl ?_⟩
        exact mem_calls.mpr ⟨j, hlive, hcm⟩
      · cases hj

lemma placed (h : Expanded f s n memset pre post clears merge value m g)
    (hf : f.Consistent) (hsplit : f.instsOf (f.inst s.call).block = pre ++ s.call :: post)
    (hu : f.placed u) : g.placed u := by
  have hcons := h.spliced.ext.consistent
  obtain ⟨b, hb, hub⟩ := mem_flatMap.mp (hf.mem_liveInsts.mpr hu)
  obtain ⟨hblk, hdel⟩ := hf.mem_liveBlocks.mp hb
  have hafter := hcons.mem_liveBlocks.mpr
      ⟨h.spliced.ext.hasBlock_iff.mpr (by change f.blocks.size < _; omega), h.spliced.deleted_after⟩
  have hold : b ∈ m.liveBlocks :=
    hcons.mem_liveBlocks.mpr
      ⟨h.spliced.ext.hasBlock hblk, (h.spliced.deleted b hblk).trans hdel⟩
  rw [h.places.placed]
  by_cases hb : b = (f.inst s.call).block
  · rw [hb, hsplit, append_cons, mem_append] at hub
    rcases hub with hub | hub
    · refine hcons.placed_of_mem hold ?_
      rw [h.spliced.instsOf b hblk, if_pos hb]
      exact mem_append_right _ hub
    · refine hcons.placed_of_mem hafter ?_
      rw [h.spliced.instsOf_after]
      exact mem_append_right _ hub
  · refine hcons.placed_of_mem hold ?_
    rw [h.spliced.instsOf b hblk, if_neg hb]
    exact mem_append_right _ hub

end Expanded

end Inlining

end MiddleEnd
