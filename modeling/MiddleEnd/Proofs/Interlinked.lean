import MiddleEnd.Proofs.History
import MiddleEnd.Proofs.Placement
import MiddleEnd.Proofs.Prune

/-!
# Links that every edit keeps

An instruction that has been removed can still be moved.  Taking it out of its block a second time
leaves the block without a first and a last instruction, so the lists of a function need not be
consistent.  What stays in every function is weaker: neighbours know each other and are in the same
block, and the ends of a chain that a block knows belong to it.  It is enough for blocks to be
independent of each other: deleting some of them leaves the ends of the others alone.
-/

namespace MiddleEnd.Func

open Bool List

variable {f g : Func}

/-- Neighbours know each other and are in the same block, the ends that a block knows are in the
block and have nothing before or after them, and the layout lists the blocks. -/
structure Interlinked (f : Func) : Prop where
  next_iff : ∀ i j, (f.inst i).next = some j ↔ (f.inst j).prev = some i
  home : ∀ i j, (f.inst i).next = some j → (f.inst j).block = (f.inst i).block
  first : ∀ b i, (f.block b).first = some i →
    f.hasInst i ∧ (f.inst i).block = b ∧ (f.inst i).prev = none
  last : ∀ b i, (f.block b).last = some i →
    f.hasInst i ∧ (f.inst i).block = b ∧ (f.inst i).next = none
  hasBlock : ∀ i, f.hasInst i → f.hasBlock (f.inst i).block
  mem_layout : ∀ b, b ∈ f.layout ↔ f.hasBlock b

/-- Nothing leads to the instruction and nothing away from it. -/
structure Loose (f : Func) (i : InstId) : Prop where
  prev : (f.inst i).prev = none
  next : (f.inst i).next = none
  first : ∀ b, (f.block b).first ≠ some i
  last : ∀ b, (f.block b).last ≠ some i

namespace Interlinked

variable {b : BlockId} {i : InstId} {c : BlockId} {prev : Option InstId}

section

variable (hf : f.Interlinked)
include hf

lemma hasInst_of_next {i j : InstId} (h : (f.inst i).next = some j) :
    f.hasInst i ∧ f.hasInst j := by
  constructor
  · cases hi : f.hasInst i with
    | true => rfl
    | false =>
      rw [inst_of_not_hasInst f hi] at h
      cases h
  · have hprev := (hf.next_iff i j).mp h
    cases hj : f.hasInst j with
    | true => rfl
    | false =>
      rw [inst_of_not_hasInst f hj] at hprev
      cases hprev

lemma congr (hinsts : g.insts.size = f.insts.size) (hblks : g.blocks.size = f.blocks.size)
    (hlay : g.layout = f.layout)
    (hinst : ∀ i, (g.inst i).block = (f.inst i).block ∧ (g.inst i).prev = (f.inst i).prev ∧
      (g.inst i).next = (f.inst i).next)
    (hends : ∀ b, (g.block b).first = (f.block b).first ∧ (g.block b).last = (f.block b).last) :
    g.Interlinked := by
  have hhas (i : InstId) : g.hasInst i = f.hasInst i := by
    rw [Func.hasInst, Func.hasInst, hinsts]
  refine ⟨fun i j => ?_, fun i j => ?_, fun b i => ?_, fun b i => ?_, fun i => ?_, fun b => ?_⟩
  · rw [(hinst i).2.2, (hinst j).2.1]
    exact hf.next_iff i j
  · rw [(hinst i).2.2, (hinst i).1, (hinst j).1]
    exact hf.home i j
  · rw [(hends b).1, hhas, (hinst i).1, (hinst i).2.1]
    exact hf.first b i
  · rw [(hends b).2, hhas, (hinst i).1, (hinst i).2.2]
    exact hf.last b i
  · rw [hhas, (hinst i).1, Func.hasBlock, hblks]
    exact hf.hasBlock i
  · rw [Func.hasBlock, hblks, hlay]
    exact hf.mem_layout b

lemma sameChains (hfg : f.SameChains g) : g.Interlinked :=
  hf.congr hfg.insts hfg.blocks hfg.layout
    (fun i => ⟨(hfg.record i).1, (hfg.record i).2.1, (hfg.record i).2.2.1⟩)
    fun b => ⟨(hfg.ends b).1, (hfg.ends b).2.1⟩

lemma unlink (i : InstId) : (f.unlink i).Interlinked := by
  have hhas (j : InstId) : (f.unlink i).hasInst j = f.hasInst j := by
    simp [Func.unlink]
  have hfr := sameFrame_unlink f i
  have hn := hf.next_iff
  have hh := hf.home
  have hr := @hasInst_of_next f hf
  refine ⟨fun j k => ?_, fun j k => ?_, fun b j => ?_, fun b j => ?_, fun j hj => ?_, fun b => ?_⟩
  · simp only [inst_unlink]
    grind
  · simp only [inst_unlink]
    grind
  · have hfirst := hf.first
    simp only [inst_unlink, block_unlink, hhas]
    grind
  · have hlast := hf.last
    simp only [inst_unlink, block_unlink, hhas]
    grind
  · rw [hfr.hasBlock, inst_unlink]
    exact hf.hasBlock j (hhas j ▸ hj)
  · rw [hfr.layout, hfr.hasBlock]
    exact hf.mem_layout b

lemma loose_unlink (hi : f.hasInst i) : (f.unlink i).Loose i := by
  have hn := hf.next_iff
  have hb := hf.hasBlock i hi
  refine ⟨by simp [inst_unlink, hi], by simp [inst_unlink, hi], fun b => ?_, fun b => ?_⟩
  · have hfirst := hf.first
    simp only [block_unlink]
    grind
  · have hlast := hf.last
    simp only [block_unlink]
    grind

lemma link (hi : f.hasInst i) (hloose : f.Loose i) (hb : f.hasBlock b)
    (hprev : ∀ p, prev = some p → p ≠ i ∧ f.hasInst p ∧ (f.inst p).block = b) :
    (f.link b prev i).Interlinked := by
  have hhas (j : InstId) : (f.link b prev i).hasInst j = f.hasInst j := by
    simp [Func.link]
  have hfr := sameFrame_link f b prev i
  obtain ⟨hip, hin, hif, hil⟩ := hloose
  have hn := hf.next_iff
  have hh := hf.home
  have hfirst := hf.first
  have hlast := hf.last
  have hr := @hasInst_of_next f hf
  have hsucc (n : InstId) (h : f.successor b prev = some n) : f.hasInst n ∧
      (f.inst n).block = b ∧ (f.inst n).prev = prev ∧ n ≠ i := by
    cases prev with
    | none =>
      obtain ⟨h1, h2, h3⟩ := hfirst b n h
      exact ⟨h1, h2, h3, fun heq => hif b (heq ▸ h)⟩
    | some p =>
      obtain ⟨h1, h2, h3⟩ := hprev p rfl
      have h' := h
      refine ⟨(hr h').2, (hh p n h').trans h3, (hn p n).mp h', ?_⟩
      rintro rfl
      rw [(hn p n).mp h'] at hip
      cases hip
  have hsuccp (p : InstId) (h : prev = some p) : f.successor b prev = (f.inst p).next := by
    rw [h]; rfl
  refine ⟨fun j k => ?_, fun j k => ?_, fun c j => ?_, fun c j => ?_, fun j hj => ?_, fun c => ?_⟩
  · simp only [inst_link]
    grind
  · simp only [inst_link]
    grind
  · simp only [inst_link, block_link, hhas]
    grind
  · simp only [inst_link, block_link, hhas]
    grind
  · rw [hfr.hasBlock, inst_link]
    have hold := hf.hasBlock j (hhas j ▸ hj)
    split
    · exact hb
    · exact hold
  · rw [hfr.layout, hfr.hasBlock]
    exact hf.mem_layout c

end

lemma empty (hinsts : f.insts = #[]) (hblks : f.blocks = #[]) (hlay : f.layout = []) :
    f.Interlinked := by
  have hinst (i : InstId) : f.inst i = default := by simp [Func.inst, hinsts]
  have hblk (b : BlockId) : f.block b = default := by simp [Func.block, hblks]
  refine ⟨fun i j => ?_, fun i j h => ?_, fun b i h => ?_, fun b i h => ?_, fun i hi => ?_, fun b => ?_⟩
  · simp_all
  · rw [hinst] at h
    cases h
  · rw [hblk] at h
    cases h
  · rw [hblk] at h
    cases h
  · simp [Func.hasInst, hinsts] at hi
  · simp [Func.hasBlock, hblks, hlay]

section

variable (hf : f.Interlinked)
include hf

lemma addBlock (label : String) : (f.addBlock label).Interlinked := by
  have hends (b : BlockId) : ((f.addBlock label).block b).first = (f.block b).first ∧
      ((f.addBlock label).block b).last = (f.block b).last := by
    rw [block_addBlock]
    split
    · next hb =>
      have hnot : f.hasBlock b = false := by simp [Func.hasBlock, hb, Func.nextBlock]
      rw [block_of_not_hasBlock f hnot]
      exact ⟨rfl, rfl⟩
    · exact ⟨rfl, rfl⟩
  refine ⟨hf.next_iff, hf.home, fun b i => ?_, fun b i => ?_, fun i hi => ?_, fun b => ?_⟩
  · rw [(hends b).1]
    exact hf.first b i
  · rw [(hends b).2]
    exact hf.last b i
  · exact (hasBlock_addBlock f label _).mpr (.inl (hf.hasBlock i hi))
  · rw [hasBlock_addBlock, ← hf.mem_layout, Func.addBlock, mem_append, mem_singleton]

/-! ### New instructions -/

lemma create (hb : f.hasBlock b) (k : Instr) (t : Ty) :
    (f.create b k t).Interlinked ∧ (f.create b k t).Loose f.nextInst := by
  have hnew := inst_of_not_hasInst f f.not_hasInst_nextInst
  have hbare (i : InstId) := bare_create f b k t i
  have hprev (i : InstId) : ((f.create b k t).inst i).prev = (f.inst i).prev := by
    rw [← InstRecord.prev_bare, hbare]
    split
    · next hi => rw [hi, hnew]; rfl
    · rfl
  have hnext (i : InstId) : ((f.create b k t).inst i).next = (f.inst i).next := by
    rw [← InstRecord.next_bare, hbare]
    split
    · next hi => rw [hi, hnew]; rfl
    · rfl
  have hhome (i : InstId) : ((f.create b k t).inst i).block =
      if i = f.nextInst then b else (f.inst i).block := by
    rw [← InstRecord.block_bare, hbare]
    split <;> rfl
  have hends (c : BlockId) : (f.create b k t).block c = f.block c := by
    rw [Func.create, (samePlaces_register _ _).ends]
    rfl
  have hhas (i : InstId) :
      (f.create b k t).hasInst i = (f.hasInst i || decide (i = f.nextInst)) := by
    simpa [tracks] using tracks_create f b k t (.inst i)
  have hold {i : InstId} (hi : f.hasInst i) : i ≠ f.nextInst := ne_nextInst hi
  refine ⟨⟨fun i j => ?_, fun i j h => ?_, fun c i h => ?_, fun c i h => ?_, fun i hi => ?_,
    fun c => ?_⟩, ?_, ?_, fun c h => ?_, fun c h => ?_⟩
  · rw [hnext, hprev]
    exact hf.next_iff i j
  · rw [hnext] at h
    obtain ⟨hi, hj⟩ := hf.hasInst_of_next h
    rw [hhome, hhome, if_neg (hold hi), if_neg (hold hj)]
    exact hf.home i j h
  · rw [hends] at h
    obtain ⟨hi, hblk, hnone⟩ := hf.first c i h
    rw [hhas, hhome, hprev, hi, if_neg (hold hi)]
    exact ⟨rfl, hblk, hnone⟩
  · rw [hends] at h
    obtain ⟨hi, hblk, hnone⟩ := hf.last c i h
    rw [hhas, hhome, hnext, hi, if_neg (hold hi)]
    exact ⟨rfl, hblk, hnone⟩
  · rw [(sameFrame_create f b k t).hasBlock, hhome]
    split
    · exact hb
    · next hne =>
      rw [hhas, or_eq_true, decide_eq_true_eq] at hi
      exact hf.hasBlock i (hi.resolve_right hne)
  · rw [(sameFrame_create f b k t).layout, (sameFrame_create f b k t).hasBlock]
    exact hf.mem_layout c
  · rw [hprev, hnew]
    rfl
  · rw [hnext, hnew]
    rfl
  · exact hold (hf.first c _ (hends c ▸ h)).1 rfl
  · exact hold (hf.last c _ (hends c ▸ h)).1 rfl

lemma insertAt (hb : f.hasBlock b)
    (hprev : ∀ p, prev = some p → f.hasInst p ∧ (f.inst p).block = b) (k : Instr) (t : Ty) :
    (f.insertAt b prev k t).Interlinked := by
  obtain ⟨hcreate, hloose⟩ := hf.create hb k t
  refine hcreate.link (hasInst_create f b k t) hloose ?_ fun p hp => ?_
  · rw [(sameFrame_create f b k t).hasBlock]
    exact hb
  · obtain ⟨hhas, hhome⟩ := hprev p hp
    have hne := ne_nextInst hhas
    have htr := tracks_create f b k t (.inst p)
    have hbare := bare_create f b k t p
    rw [if_neg hne] at hbare
    refine ⟨hne, ?_, ?_⟩
    · simpa [tracks, hhas] using htr
    · rw [← InstRecord.block_bare, hbare]
      exact hhome

lemma append (hb : f.hasBlock b) (k : Instr) (t : Ty) : (f.append b k t).Interlinked := by
  have hends : ((f.create b k t).block b).last = (f.block b).last := by
    rw [Func.create, (samePlaces_register _ _).ends]
    rfl
  rw [Func.append, linkLast, hends]
  refine hf.insertAt hb (fun p hp => ?_) k t
  obtain ⟨hhas, hhome, -⟩ := hf.last b p hp
  exact ⟨hhas, hhome⟩

lemma insertBefore (hi : f.hasInst i) (k : Instr) (t : Ty) :
    (f.insertBefore i k t).Interlinked := by
  refine hf.insertAt (hf.hasBlock i hi) (fun p hp => ?_) k t
  have hnext := (hf.next_iff p i).mpr hp
  exact ⟨(hf.hasInst_of_next hnext).1, (hf.home p i hnext).symm⟩

/-! ### Removed and moved instructions -/

lemma remove (i : InstId) : (f.remove i).Interlinked := by
  cases hi : (f.inst i).live with
  | false =>
    rw [Func.remove, hi]
    exact hf
  | true =>
    have hplaces := samePlaces_unregister (f.unlink i) i
    rw [Func.remove, if_pos hi]
    refine ((hf.unlink i).sameChains hplaces.chains).congr (size_modifyInst _ i _) rfl rfl
      (fun j => ?_) fun b => ⟨rfl, rfl⟩
    rw [inst_modifyInst]
    split <;> exact ⟨rfl, rfl, rfl⟩

lemma foldl_remove (is : List InstId) : (is.foldl Func.remove f).Interlinked :=
  foldlRecOn is _ hf fun _ hf i _ => hf.remove i

lemma deleteBlock (b : BlockId) : (f.deleteBlock b).Interlinked := by
  refine (hf.foldl_remove (f.instsOf b)).congr rfl (Array.size_modify ..) rfl
    (fun i => ⟨rfl, rfl, rfl⟩) fun c => ?_
  rw [Func.deleteBlock, block_modifyBlock]
  split <;> exact ⟨rfl, rfl⟩

lemma block_of_mem_chainFrom {fuel : Nat} {start : Option InstId}
    (hstart : ∀ i, start = some i → f.hasInst i ∧ (f.inst i).block = b)
    (hi : i ∈ f.chainFrom fuel start) : f.hasInst i ∧ (f.inst i).block = b := by
  induction fuel generalizing start with
  | zero => cases hi
  | succ fuel ih =>
    cases start with
    | none => cases hi
    | some j =>
      rcases mem_cons.mp hi with rfl | hi
      · exact hstart i rfl
      · refine ih (fun k hk => ?_) hi
        exact ⟨(hf.hasInst_of_next hk).2, (hf.home j k hk).trans (hstart j rfl).2⟩

end

lemma last_foldl_remove (is : List InstId) (f : Func) (hcb : c ≠ b)
    (his : ∀ i ∈ is, (f.inst i).block = b) :
    ((is.foldl Func.remove f).block c).last = (f.block c).last := by
  induction is generalizing f with
  | nil => rfl
  | cons i is ih =>
    obtain ⟨hi, his⟩ := forall_mem_cons.mp his
    rw [foldl_cons, ih _ fun j hj => (record_remove f i j).2.2.trans (his j hj), Func.remove]
    split
    · have hends := (samePlaces_unregister (f.unlink i) i).ends c
      rw [block_modifyInst, hends, block_unlink, hi]
      simp [hcb]
    · rfl

lemma last_deleteBlock (hf : f.Interlinked) (hcb : c ≠ b) :
    ((f.deleteBlock b).block c).last = (f.block c).last := by
  have hlast := last_foldl_remove (f.instsOf b) f hcb fun i hi =>
    (hf.block_of_mem_chainFrom (fun j hj => ⟨(hf.first b j hj).1, (hf.first b j hj).2.1⟩) hi).2
  rw [← hlast, Func.deleteBlock, block_modifyBlock]
  split <;> rfl

lemma move (hf : f.Interlinked) (hi : f.hasInst i) (hb : f.hasBlock b)
    (hprev : prev = none ∨ prev = ((f.unlink i).block b).last) :
    ((f.unlink i).link b prev i).Interlinked := by
  have hhas (j : InstId) : (f.unlink i).hasInst j = f.hasInst j := by simp [Func.unlink]
  have hloose := hf.loose_unlink hi
  refine (hf.unlink i).link ((hhas i).trans hi) hloose ?_ fun p hp => ?_
  · rw [(sameFrame_unlink f i).hasBlock]
    exact hb
  · rcases hprev with rfl | rfl
    · cases hp
    · obtain ⟨hp', hhome, -⟩ := (hf.unlink i).last b p hp
      exact ⟨fun heq => hloose.last b (heq ▸ hp), hp', hhome⟩

lemma splitAfter (hf : f.Interlinked) (hb : f.hasBlock b ∨ f.instsAfter i = []) :
    (f.splitAfter i b).Interlinked := by
  rcases hb with hb | hnil
  · have hmoves (js : List InstId) (m : Func) (hm : m.Interlinked) (hbm : m.hasBlock b)
        (hjs : ∀ j ∈ js, m.hasInst j) :
        (js.foldl (fun m j => m.moveToBack j b) m).Interlinked := by
      induction js generalizing m with
      | nil => exact hm
      | cons j js ih =>
        obtain ⟨hj, hjs⟩ := forall_mem_cons.mp hjs
        refine ih _ (hm.move hj hbm (.inr rfl)) ?_ fun k hk => ?_
        · exact (((sameFrame_unlink m j).trans (sameFrame_link _ b _ j)).hasBlock b).trans hbm
        · rw [← hjs k hk]
          simp [Func.moveToBack, linkLast, Func.link, Func.unlink]
    refine hmoves _ f hf hb fun j hj => ?_
    refine (hf.block_of_mem_chainFrom (b := (f.inst i).block) (fun k hk => ?_) hj).1
    exact ⟨(hf.hasInst_of_next hk).2, hf.home i k hk⟩
  · rw [Func.splitAfter, hnil]
    exact hf

/-! ### Edits and analyses -/

lemma apply (hf : f.Interlinked) {e : Edit} (hrange : e.inRange f) :
    (e.apply f).2.Interlinked := by
  cases e with
  | addBlock l => exact hf.addBlock l
  | append b k t =>
    rw [Edit.inRange, and_eq_true] at hrange
    exact hf.append hrange.1 k t
  | prepend b k t =>
    rw [Edit.inRange, and_eq_true] at hrange
    have hnone (p : InstId) (hp : none = some p) : f.hasInst p ∧ (f.inst p).block = b := by
      cases hp
    exact hf.insertAt hrange.1 hnone k t
  | insertBefore i k t =>
    rw [Edit.inRange, and_eq_true] at hrange
    exact hf.insertBefore hrange.1 k t
  | remove i => exact hf.remove i
  | replaceInstr i k => exact hf.sameChains (samePlaces_replaceInstr f i k).chains
  | replaceUses old new => exact hf.sameChains (samePlaces_replaceUses f old new).chains
  | fillPhi p b v => exact hf.sameChains (samePlaces_fillPhi f p b v).chains
  | retainEntries p keep => exact hf.sameChains (samePlaces_retainEntries f p keep.contains).chains
  | replacePred b old new => exact hf.sameChains (samePlaces_replacePred f b old new).chains
  | splitAfter i b =>
    rw [Edit.inRange, and_eq_true, or_eq_true, List.isEmpty_iff] at hrange
    exact hf.splitAfter hrange.2
  | moveToFront i b =>
    rw [Edit.inRange, and_eq_true] at hrange
    exact hf.move hrange.1 hrange.2 (.inl rfl)
  | deleteBlock b => exact hf.deleteBlock b

end Interlinked

end MiddleEnd.Func
