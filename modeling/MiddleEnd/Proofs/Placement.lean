import MiddleEnd.Proofs.Formed

/-!
# Moving instructions and blocks

An instruction that is moved leaves the list of its block and appears in the list of another one; it
stays what it is.  Splitting a block moves the end of its list to an empty block.  A block that is
added has an empty list, and the order of blocks in the layout has no effect on their lists.
-/

namespace MiddleEnd.Func

open List Function

variable {f g : Func} {b : BlockId}

/-! ## What stays -/

/-- Consistent functions of which the second has so many more instructions and blocks. -/
structure Extends (f g : Func) (insts blocks : Nat) : Prop
    extends consistent : g.Consistent, head : f.SameHead g where
  insts : g.insts.size = f.insts.size + insts
  blocks : g.blocks.size = f.blocks.size + blocks

namespace Extends

variable {m n m' n' : Nat} {b : BlockId} {i : InstId}

lemma refl (hf : f.Consistent) : f.Extends f 0 0 :=
  ⟨hf, .refl f, rfl, rfl⟩

lemma trans {h : Func} (hfg : f.Extends g m n) (hgh : g.Extends h m' n') :
    f.Extends h (m + m') (n + n') :=
  ⟨hgh.consistent, hfg.head.trans hgh.head, by rw [hgh.insts, hfg.insts, Nat.add_assoc],
    by rw [hgh.blocks, hfg.blocks, Nat.add_assoc]⟩

lemma hasBlock_iff (hfg : f.Extends g m n) : g.hasBlock b ↔ b.idx < f.blocks.size + n := by
  rw [Func.hasBlock_iff, hfg.blocks]

lemma hasBlock (hfg : f.Extends g m n) (hb : f.hasBlock b) : g.hasBlock b := by
  have hlt := (f.hasBlock_iff).mp hb
  exact hfg.hasBlock_iff.mpr (by omega)

lemma hasInst_iff (hfg : f.Extends g m n) :
    g.hasInst i ↔ i.idx < f.insts.size + m := by
  rw [Func.hasInst_iff, hfg.insts]

lemma hasInst (hfg : f.Extends g m n) (hi : f.hasInst i) : g.hasInst i := by
  have hlt := (f.hasInst_iff).mp hi
  exact hfg.hasInst_iff.mpr (by omega)

end Extends

lemma SameFrame.extends (hfg : f.SameFrame g) (hg : g.Consistent) {m : Nat}
    (hinsts : g.insts.size = f.insts.size + m) : f.Extends g m 0 :=
  ⟨hg, hfg.head, hinsts, hfg.blocks⟩

/-! ## Moved instructions -/

lemma size_setNext (f : Func) (b : BlockId) (prev next : Option InstId) :
    (f.setNext b prev next).insts.size = f.insts.size := by
  cases prev with
  | none => rfl
  | some i => exact f.size_modifyInst i _

lemma size_setPrev (f : Func) (b : BlockId) (prev next : Option InstId) :
    (f.setPrev b prev next).insts.size = f.insts.size := by
  cases next with
  | none => rfl
  | some i => exact f.size_modifyInst i _

lemma size_link (f : Func) (b : BlockId) (prev : Option InstId) (i : InstId) :
    (f.link b prev i).insts.size = f.insts.size := by
  rw [link, modifyBlock, size_setPrev, size_setNext, size_modifyInst]

lemma size_insertAt (f : Func) (b : BlockId) (prev : Option InstId) (k : Instr) (t : Ty) :
    (f.insertAt b prev k t).insts.size = f.insts.size + 1 := by
  rw [insertAt, size_link, create, (samePlaces_register _ _).insts]
  exact Array.size_push _

lemma size_unlink (f : Func) (i : InstId) : (f.unlink i).insts.size = f.insts.size := by
  rw [unlink, size_modifyInst, modifyBlock, size_setPrev, size_setNext]

lemma sameFrame_moveToFront (f : Func) (i : InstId) (b : BlockId) :
    f.SameFrame (f.moveToFront i b) :=
  (sameFrame_unlink f i).trans (sameFrame_link _ b none i)

lemma sameFrame_moveToBack (f : Func) (i : InstId) (b : BlockId) :
    f.SameFrame (f.moveToBack i b) :=
  (sameFrame_unlink f i).trans (sameFrame_link _ b _ i)

lemma record_move (f : Func) (i : InstId) (b : BlockId) (prev : Option InstId) (j : InstId) :
    (((f.unlink i).link b prev i).inst j).instr = (f.inst j).instr ∧
      (((f.unlink i).link b prev i).inst j).ty = (f.inst j).ty ∧
      (((f.unlink i).link b prev i).inst j).live = (f.inst j).live ∧
      (((f.unlink i).link b prev i).inst j).block =
        if j = i ∧ f.hasInst i then b else (f.inst j).block := by
  have hhas : (f.unlink i).hasInst i = f.hasInst i := (sameUses_unlink f i).tracks (.inst i)
  simp only [inst_link, inst_unlink, hhas, and_self]

namespace Consistent

variable {i : InstId} {b : BlockId}

variable (hf : f.Consistent) (hi : (f.inst i).live) (hb : f.hasBlock b)
include hf hi hb

lemma threaded_move {l r : List InstId} (hl : (f.instsOf b).erase i = l ++ r) :
    ((f.unlink i).link b l.getLast? i).Threaded
      (update (fun c => (f.instsOf c).erase i) b (l ++ i :: r)) := by
  refine (hf.threaded_unlink hi).link ((sameFrame_unlink f i).hasBlock b ▸ hb) ?_ (fun c hc => ?_) hl
  · have htr := (sameUses_unlink f i).tracks (.inst i)
    exact htr.trans (hasInst_of_live hi)
  · exact (hf.nodup c).not_mem_erase hc

lemma of_move {l r : List InstId} (hl : (f.instsOf b).erase i = l ++ r) :
    ((f.unlink i).link b l.getLast? i).Consistent ∧ ∀ c,
      ((f.unlink i).link b l.getLast? i).instsOf c =
        if c = b then l ++ i :: r else (f.instsOf c).erase i := by
  have hfr := (sameFrame_unlink f i).trans (sameFrame_link _ b l.getLast? i)
  have hthr := hf.threaded_move hi hb hl
  refine ⟨hf.of_threaded hfr.layout hfr.blocks hthr fun c j => ?_, fun c => ?_⟩
  · obtain ⟨-, -, hlive, hblk⟩ := record_move f i b l.getLast? j
    rw [hlive, hblk, hasInst_of_live hi]
    have hmem : j ∈ l ∨ j ∈ r ↔ j ≠ i ∧ j ∈ f.instsOf b := by
      rw [← mem_append, ← hl, (hf.nodup b).mem_erase_iff]
    by_cases hj : j = i
    · subst hj
      by_cases hc : c = b
      · simp [hc, hi]
      · simp [hc, Ne.symm hc, (hf.nodup c).not_mem_erase]
    · by_cases hc : c = b
      · subst hc
        simp [hj, hmem, hf.mem_instsOf]
      · simp [hc, hj, (hf.nodup c).mem_erase_iff, hf.mem_instsOf]
  · rw [hthr.instsOf_eq, update_apply]

lemma moveToFront :
    (f.moveToFront i b).Consistent ∧ ∀ c,
      (f.moveToFront i b).instsOf c =
        if c = b then i :: (f.instsOf b).erase i else (f.instsOf c).erase i :=
  hf.of_move hi hb (nil_append _).symm

lemma moveToBack :
    (f.moveToBack i b).Consistent ∧ ∀ c,
      (f.moveToBack i b).instsOf c =
        if c = b then (f.instsOf b).erase i ++ [i] else (f.instsOf c).erase i := by
  rw [Func.moveToBack, linkLast, (hf.threaded_unlink hi).last]
  exact hf.of_move hi hb (append_nil _).symm

end Consistent

/-! ## Split blocks -/

lemma Consistent.foldl_moveToBack (hf : f.Consistent) {into : BlockId} (hne : into ≠ b)
    (hinto : f.hasBlock into) {l r : List InstId} (hl : f.instsOf b = l ++ r) :
    (r.foldl (fun f j => f.moveToBack j into) f).Consistent ∧
      (∀ c, (r.foldl (fun f j => f.moveToBack j into) f).instsOf c =
        if c = into then f.instsOf into ++ r else if c = b then l else f.instsOf c) ∧
      f.SameFrame (r.foldl (fun f j => f.moveToBack j into) f) ∧
      (r.foldl (fun f j => f.moveToBack j into) f).insts.size = f.insts.size ∧
      ∀ j, (r.foldl (fun f j => f.moveToBack j into) f).instr j = f.instr j ∧
        ((r.foldl (fun f j => f.moveToBack j into) f).inst j).ty = (f.inst j).ty := by
  induction r generalizing f with
  | nil =>
    refine ⟨hf, fun c => ?_, .refl f, rfl, fun j => ⟨rfl, rfl⟩⟩
    rw [foldl_nil, append_nil]
    split
    · next h => rw [h]
    · grind
  | cons i r ih =>
    have hmem : i ∈ f.instsOf b := by simp [hl]
    have hlive := hf.live_of_mem hmem
    have hnd := hf.nodup b
    rw [hl, nodup_append] at hnd
    have hil : i ∉ l := fun hi => hnd.2.2 i hi i (.head _) rfl
    have hother {c : BlockId} (hc : c ≠ b) : (f.instsOf c).erase i = f.instsOf c :=
      erase_of_not_mem fun hi => hc ((hf.block_of_mem hi).symm.trans (hf.block_of_mem hmem))
    obtain ⟨hcons, hlists⟩ := hf.moveToBack hlive hinto
    have hfr := sameFrame_moveToBack f i into
    have hb : (f.moveToBack i into).instsOf b = l ++ r := by
      rw [hlists, if_neg (Ne.symm hne), hl, erase_append_right _ hil, erase_cons_head]
    have hinto' : (f.moveToBack i into).hasBlock into := by rw [hfr.hasBlock, hinto]
    obtain ⟨hc, hinsts, hframe', hsize, hrec⟩ := ih hcons hinto' hb
    refine ⟨hc, fun c => ?_, hfr.trans hframe', hsize.trans ?_, fun j => ?_⟩
    · rw [foldl_cons, hinsts, hlists, if_pos rfl, hother hne, hlists, append_assoc,
        singleton_append]
      split
      · rfl
      · next hinto =>
        split
        · rfl
        · next hb => rw [hother hb]
    · rw [Func.moveToBack, linkLast, size_link, size_unlink]
    · obtain ⟨hinstr, hty, -, -⟩ := record_move f i into ((f.unlink i).block into).last j
      exact ⟨(hrec j).1.trans hinstr, (hrec j).2.trans hty⟩

/-! ## New blocks -/

lemma block_addBlock (f : Func) (label : String) (b : BlockId) :
    (f.addBlock label).block b = if b = f.nextBlock then { label } else f.block b := by
  simp only [block, addBlock, Array.getD_eq_getD_getElem?, Array.getElem?_push]
  by_cases hb : b = f.nextBlock
  · subst hb
    simp [nextBlock]
  · have hne : b.idx ≠ f.blocks.size := fun h => hb (congrArg BlockId.mk h)
    simp [hb, hne]

lemma hasBlock_addBlock (f : Func) (label : String) (b : BlockId) :
    (f.addBlock label).hasBlock b ↔ f.hasBlock b ∨ b = f.nextBlock := by
  rw [hasBlock_iff, hasBlock_iff, addBlock, Array.size_push, Nat.lt_succ_iff_lt_or_eq]
  exact or_congr_right ⟨fun h => congrArg BlockId.mk h, fun h => congrArg BlockId.idx h⟩

lemma not_hasBlock_nextBlock (f : Func) : f.hasBlock f.nextBlock = false := by
  simp [hasBlock, nextBlock]

lemma ne_nextBlock (hb : f.hasBlock b) : b ≠ f.nextBlock := by
  rintro rfl
  rw [not_hasBlock_nextBlock] at hb
  cases hb

lemma head_addBlock (f : Func) (label : String) : f.SameHead (f.addBlock label) :=
  ⟨rfl, rfl, rfl, rfl, rfl⟩

lemma instsOf_of_not_hasBlock (hb : f.hasBlock b = false) : f.instsOf b = [] := by
  refine instsOf_of_first_eq_none ?_
  rw [block_of_not_hasBlock f hb]
  rfl

namespace Consistent

lemma instsOf_addBlock (hf : f.Consistent) (label : String) :
    (f.addBlock label).instsOf = f.instsOf ∧ (f.addBlock label).Threaded f.instsOf := by
  have hnil := instsOf_of_not_hasBlock f.not_hasBlock_nextBlock
  have hthr : (f.addBlock label).Threaded f.instsOf := by
    have hold := hf.threaded
    refine ⟨fun b => ?_, fun b => ?_, fun b => ?_, hold.nodup, hold.home, hold.next, hold.prev⟩
    all_goals
      rw [block_addBlock]
      split
      · grind
    · exact hold.first b
    · exact hold.last b
    · exact hold.length b
  exact ⟨funext hthr.instsOf_eq, hthr⟩

lemma addBlock (hf : f.Consistent) (label : String) : (f.addBlock label).Consistent := by
  obtain ⟨hlists, hthr⟩ := hf.instsOf_addBlock label
  refine ⟨hlists ▸ hthr, fun b i => ?_, ?_, fun b => ?_, ?_⟩
  · rw [hlists]
    exact hf.mem_instsOf b i
  · have hnot : f.nextBlock ∉ f.layout := by simp [hf.mem_layout, not_hasBlock_nextBlock]
    exact nodup_append_comm.mp (nodup_cons.mpr ⟨hnot, hf.layout_nodup⟩)
  · rw [hasBlock_addBlock, ← hf.mem_layout]
    change b ∈ f.layout ++ [f.nextBlock] ↔ _
    rw [mem_append, mem_singleton]
  · have hent : Func.entry? (f.addBlock label) = some ⟨0⟩ := by simp [ entry?, Func.addBlock]
    change (f.layout ++ [f.nextBlock]).head? = _
    rw [List.head?_append, hf.layout_head, hent, Func.entry?]
    split
    · next hempty =>
      rw [Array.isEmpty_iff_size_eq_zero] at hempty
      simp [nextBlock, hempty]
    · rfl

end Consistent

/-! ## The order of blocks -/

lemma layout_placeAfter (f : Func) (b after : BlockId) :
    ∃ n, (f.placeAfter b after).layout = (f.layout.filter (· ≠ b)).take (n + 1) ++
      b :: (f.layout.filter (· ≠ b)).drop (n + 1) := by
  generalize hrest : f.layout.filter (· ≠ b) = rest
  refine ⟨(rest.takeWhile (· ≠ after)).length, ?_⟩
  rw [take_add, ← prefix_iff_eq_take.mp ( takeWhile_prefix _), ← hrest]
  rfl

namespace Consistent

lemma instsOf_placeAfter (hf : f.Consistent) (b after : BlockId) :
    (f.placeAfter b after).instsOf = f.instsOf ∧ (f.placeAfter b after).Threaded f.instsOf := by
  have hthr : (f.placeAfter b after).Threaded f.instsOf :=
    hf.threaded.congr rfl (fun _ => ⟨rfl, rfl, rfl⟩) fun _ => ⟨rfl, rfl, rfl⟩
  exact ⟨funext hthr.instsOf_eq, hthr⟩

lemma placeAfter (hf : f.Consistent) (hb : f.hasBlock b)
    (hent : f.entry? ≠ some b) (after : BlockId) : (f.placeAfter b after).Consistent := by
  obtain ⟨hlists, hthr⟩ := hf.instsOf_placeAfter b after
  obtain ⟨n, hlay⟩ := f.layout_placeAfter b after
  have hperm : (f.placeAfter b after).layout.Perm f.layout := by
    have hb' := (hf.mem_layout b).mpr hb
    have hfilter : f.layout.filter (· ≠ b) = f.layout.erase b := by
      rw [hf.layout_nodup.erase_eq_filter]
      exact filter_congr fun c _ => by rw [bne, decide_not, Bool.beq_eq_decide_eq]
    rw [hlay, hfilter]
    refine perm_middle.trans ?_
    rw [take_append_drop]
    exact (perm_cons_erase hb').symm
  refine ⟨hlists ▸ hthr, fun c i => ?_, hperm.nodup_iff.mpr hf.layout_nodup,
    fun c => hperm.mem_iff.trans (hf.mem_layout c), ?_⟩
  · rw [hlists]
    exact hf.mem_instsOf c i
  · -- the entry stays in front
    change _ = f.entry?
    rw [← hf.layout_head] at hent ⊢
    cases h : f.layout with
    | nil => simp_all
    | cons c rest => grind

end Consistent

/-! ## Renamed predecessors -/

def renamePred (old new : BlockId) (k : Instr) : Instr :=
  k.mapBlocks fun c => if c = old then new else c

lemma renamePred_renamePred (old new : BlockId) (k : Instr) :
    renamePred old new (renamePred old new k) = renamePred old new k := by
  have hidem (c : BlockId) : (if (if c = old then new else c) = old then new else
      if c = old then new else c) = if c = old then new else c := by
    by_cases hc : c = old <;> simp [hc]
  cases k <;> simp [renamePred, Instr.mapBlocks, comp_def, hidem]

lemma samePlaces_replacePred (f : Func) (b old new : BlockId) :
    f.SamePlaces (f.replacePred b old new) := by
  refine samePlaces_foldl (fun f p => ?_) _ f
  exact samePlaces_modifyInst f p _ fun _ => ⟨rfl, rfl, rfl, rfl⟩

lemma instr_foldl_renamePred (old new : BlockId) (is : List InstId) (f : Func)
    (his : ∀ i ∈ is, f.hasInst i) (j : InstId) :
    (is.foldl (fun f p => f.modifyInst p fun r =>
        { r with instr := r.instr.mapBlocks fun c => if c = old then new else c }) f).instr j =
      (if j ∈ is then renamePred old new (f.instr j) else f.instr j) ∧
    ((is.foldl (fun f p => f.modifyInst p fun r =>
        { r with instr := r.instr.mapBlocks fun c => if c = old then new else c }) f).inst j).ty =
      (f.inst j).ty := by
  induction is generalizing f with
  | nil => exact ⟨by simp, rfl⟩
  | cons i is ih =>
    have hi := his i mem_cons_self
    rw [foldl_cons]
    obtain ⟨hinstr, hty⟩ := ih (f.modifyInst i fun r =>
      { r with instr := r.instr.mapBlocks fun c => if c = old then new else c })
      fun j hj => by rw [hasInst_modifyInst, his j (mem_cons_of_mem i hj)]
    rw [hinstr, hty, instr, inst_modifyInst, hi]
    by_cases hj : j = i
    · subst hj
      refine ⟨?_, by simp⟩
      simp only [and_self, if_true, mem_cons_self]
      split
      · exact renamePred_renamePred old new _
      · rfl
    · exact ⟨by simp [hj, instr], by simp [hj]⟩

lemma instr_replacePred (hf : f.Consistent) (b old new : BlockId) (j : InstId) :
    (f.replacePred b old new).instr j =
        (if j ∈ f.phis b then renamePred old new (f.instr j) else f.instr j) ∧
      ((f.replacePred b old new).inst j).ty = (f.inst j).ty :=
  instr_foldl_renamePred old new (f.phis b) f (fun _ hi => hasInst_of_live
    (hf.live_of_mem ((takeWhile_sublist _).mem hi))) j

lemma phis_replacePred (hf : f.Consistent) (b old new c : BlockId) :
    (f.replacePred b old new).phis c = f.phis c := by
  have hkind (j : InstId) : ((f.replacePred b old new).instr j).isPhi = (f.instr j).isPhi := by
    rw [(instr_replacePred hf b old new j).1]
    split
    · cases f.instr j <;> rfl
    · rfl
  simp only [phis, (samePlaces_replacePred f b old new).instsOf, hkind]

lemma Consistent.foldl_replacePred (hf : f.Consistent) (old new : BlockId) (bs : List BlockId) :
    f.SamePlaces (bs.foldl (fun f b => f.replacePred b old new) f) ∧ ∀ j,
      (bs.foldl (fun f b => f.replacePred b old new) f).instr j =
        (if ∃ b ∈ bs, j ∈ f.phis b then renamePred old new (f.instr j) else f.instr j) ∧
      ((bs.foldl (fun f b => f.replacePred b old new) f).inst j).ty = (f.inst j).ty := by
  induction bs generalizing f with
  | nil => exact ⟨.refl f, fun j => ⟨by simp, rfl⟩⟩
  | cons b bs ih =>
    have hplaces := samePlaces_replacePred f b old new
    obtain ⟨hplaces', hrec⟩ := ih (hplaces.consistent hf)
    refine ⟨hplaces.trans hplaces', fun j => ?_⟩
    obtain ⟨hinstr, hty⟩ := hrec j
    obtain ⟨hinstr', hty'⟩ := instr_replacePred hf b old new j
    refine ⟨?_, hty.trans hty'⟩
    rw [foldl_cons, hinstr, hinstr']
    simp only [phis_replacePred hf, exists_mem_cons_iff]
    by_cases hb : j ∈ f.phis b
    · by_cases hbs : ∃ c ∈ bs, j ∈ f.phis c <;> simp [hb, hbs, renamePred_renamePred]
    · simp [hb]

end MiddleEnd.Func
