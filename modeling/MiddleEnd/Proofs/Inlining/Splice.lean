import MiddleEnd.Proofs.Inlining.Expand

/-!
# The place of a copy in its caller

After all blocks and instructions of a copy are there, the caller is known completely: its own blocks
are as before except that the block of the call is split and the slots of the copy stand at the start
of the entry, and each block of the copy lists what the block of the callee lists.
-/

namespace MiddleEnd

open List Func

lemma Func.Consistent.filter_liveInsts {f : Func} (hf : f.Consistent) (d : BlockId) :
    (f.liveInsts.filter fun i => (f.inst i).block = d) =
      if d ∈ f.liveBlocks then f.instsOf d else [] := by
  have hlist (b : BlockId) :
      ((f.instsOf b).filter fun i => (f.inst i).block = d) = if b = d then f.instsOf b else [] := by
    split
    · next hb =>
      exact filter_eq_self.mpr fun i hi => by simp [hf.block_of_mem hi, hb]
    · next hb =>
      exact filter_eq_nil_iff.mpr fun i hi => by simp [hf.block_of_mem hi, hb]
  have hnd : f.liveBlocks.Nodup := hf.layout_nodup.filter _
  rw [liveInsts]
  generalize f.liveBlocks = bs at hnd ⊢
  induction bs with
  | nil => simp
  | cons b bs ih =>
    rw [nodup_cons] at hnd
    rw [flatMap_cons, filter_append, hlist, ih hnd.2]
    by_cases hb : b = d
    · subst hb
      simp [hnd.1]
    · simp [hb, Ne.symm hb]

lemma Func.Consistent.block_mem_of_placed {f : Func} (hf : f.Consistent) {i : InstId}
    (hi : f.placed i) : (f.inst i).block ∈ f.liveBlocks := by
  obtain ⟨b, hb, hib⟩ := mem_flatMap.mp (hf.mem_liveInsts.mpr hi)
  rwa [hf.block_of_mem hib]

lemma Func.instr_setType (f : Func) (i : InstId) (t : Ty) (j : InstId) :
    (f.setType i t).instr j = f.instr j :=
  f.modifyInst_project InstRecord.instr (g := fun r => { r with ty := t }) (fun _ => rfl) i j

namespace Inlining

variable {i : InstId} {f g : Func} {s : Site} {c : Copy} {pre post : List InstId} {label : String}
  {b : BlockId}

/-- The copy of the callee that takes the place of a call. -/
def Site.copy (s : Site) (f : Func) : Copy :=
  { callee := s.callee, args := s.args, firstBlock := f.blocks.size + 1,
    firstInst := f.insts.size, after := f.nextBlock }

/-- The number of instructions when those of the callee have been added. -/
abbrev Site.size (s : Site) (f : Func) : Nat :=
  f.insts.size + s.callee.liveInsts.length

def Copy.body (c : Copy) (b : BlockId) : List InstId :=
  (((if b ∈ c.callee.liveBlocks then c.callee.instsOf b else []).map c.copied).filter
    fun i => i ∉ c.slots)

def isSlot (f : Func) (i : InstId) : Bool :=
  match f.instr i with
  | .alloc _ => true
  | _ => false

lemma isSlot_iff : isSlot f i ↔ ∃ t, f.instr i = .alloc t := by
  rw [isSlot]
  split
  · next t ht => exact ⟨fun _ => ⟨t, ht⟩, fun _ => rfl⟩
  · next hne => exact ⟨fun h => (Bool.false_ne_true h).elim, fun ⟨t, ht⟩ => (hne t ht).elim⟩

lemma Copy.slots_eq (hc : c.callee.Consistent) :
    c.slots = (c.callee.liveInsts.filter (isSlot c.callee)).map c.copied := by
  rw [slots, insts_eq hc, filterMap_map, ← filterMap_eq_map, filterMap_filter]
  refine filterMap_congr fun i _ => ?_
  dsimp only [Function.comp_apply]
  split
  · next t ht => exact (if_pos (isSlot_iff.mpr ⟨t, ht⟩)).symm
  · next hne =>
    refine (if_neg fun h => ?_).symm
    obtain ⟨t, ht⟩ := isSlot_iff.mp h
    exact hne t ht

lemma Copy.of_mem_slots (hc : c.callee.Consistent) (hi : i ∈ c.slots) :
    ∃ j ∈ c.callee.liveInsts, isSlot c.callee j ∧ i = c.copied j := by
  rw [slots_eq hc] at hi
  obtain ⟨j, hj, rfl⟩ := mem_map.mp hi
  exact ⟨j, mem_of_mem_filter hj, (mem_filter.mp hj).2, rfl⟩

lemma Copy.nodup_slots (hc : c.callee.Consistent) : c.slots.Nodup := by
  rw [slots_eq hc]
  exact (hc.nodup_liveInsts.filter _).map_on fun i hi j _ h => c.copied_inj (mem_of_mem_filter hi) h

/-- The placeholders of a block are the copies of what the block of the callee lists. -/
lemma Copy.filter_insts (hc : c.callee.Consistent) (hb : b ∈ c.callee.layout) :
    (((c.callee.liveInsts.zipIdx c.firstInst).filter fun p =>
        c.block (c.callee.inst p.1).block = c.block b).map fun p => InstId.mk p.2) =
      (if b ∈ c.callee.liveBlocks then c.callee.instsOf b else []).map c.copied := by
  have hfilter : (c.callee.liveInsts.filter fun i => c.block (c.callee.inst i).block = c.block b) =
      c.callee.liveInsts.filter fun i => (c.callee.inst i).block = b := by
    refine filter_congr fun i _ => decide_eq_decide.mpr ⟨fun h => ?_, fun h => by rw [h]⟩
    exact (c.block_inj hb h.symm).symm
  calc (((c.callee.liveInsts.zipIdx c.firstInst).filter fun p =>
        c.block (c.callee.inst p.1).block = c.block b).map fun p => InstId.mk p.2)
      = (c.insts.filter fun p => c.block (c.callee.inst p.1).block = c.block b).map Prod.snd := by
        rw [insts, filter_map, map_map]
        rfl
    _ = (c.callee.liveInsts.filter fun i =>
          c.block (c.callee.inst i).block = c.block b).map c.copied := by
        rw [insts_eq hc, filter_map, map_map]
        rfl
    _ = _ := by rw [hfilter, hc.filter_liveInsts]

/-- `g` is `f` with a copy in the place of a call, some code at the start of the copy and some where
control goes after it. -/
structure Spliced (f : Func) (s : Site) (label : String) (pre post : List InstId)
    (clears merge : List (Instr × Ty)) (g : Func) : Prop where
  ext : f.Extends g (s.callee.liveInsts.length + clears.length + merge.length)
    (1 + s.callee.layout.length)
  deleted : ∀ b, f.hasBlock b → (g.block b).deleted = (f.block b).deleted
  deleted_after : (g.block f.nextBlock).deleted = false
  deleted_copy : ∀ b ∈ s.callee.layout,
    (g.block ((s.copy f).block b)).deleted = (s.callee.block b).deleted
  instsOf : ∀ b, f.hasBlock b → g.instsOf b =
    (if b = s.callerEntry then (s.copy f).slots else []) ++
      if b = (f.inst s.call).block then pre ++ [s.call] else f.instsOf b
  instsOf_after : g.instsOf f.nextBlock =
    idsFrom (s.size f + clears.length) merge.length ++ post
  instsOf_copy : ∀ b ∈ s.callee.layout, g.instsOf ((s.copy f).block b) =
    (if b = s.calleeEntry then idsFrom (s.size f) clears.length else []) ++ (s.copy f).body b
  old : ∀ j, f.hasInst j → g.instr j = (splitAtCall f s.call label).instr j ∧
    (g.inst j).ty = (f.inst j).ty
  copied : ∀ i ∈ s.callee.liveInsts,
    g.instr ((s.copy f).copied i) = (s.copy f).instr (s.callee.instr i) ∧
      (g.inst ((s.copy f).copied i)).ty = (s.callee.inst i).ty
  new : ∀ k p, (clears ++ merge)[k]? = some p →
    g.instr ⟨s.size f + k⟩ = p.1 ∧
      (g.inst ⟨s.size f + k⟩).ty = p.2

/-- The caller with a copy whose slots are still in the copy. -/
def withInsts (f : Func) (s : Site) (n : Nat) : Func :=
  let added := addCopies s.callee (splitAtCall f s.call (blockLabel f.name n)) (n + 1)
    (f.inst s.call).block s.callee.layout
  fillPlaceholders (s.copy f) (addPlaceholders (s.copy f) (added.2.placeAfter f.nextBlock added.1))

/-- The caller with a copy whose slots are not cleared yet. -/
def withCopy (f : Func) (s : Site) (n : Nat) : Func :=
  hoistSlots (s.copy f) s.callerEntry (withInsts f s n)

lemma hasInst_copied (hi : i ∈ s.callee.liveInsts)
    (hsize : g.insts.size = s.size f) :
    g.hasInst ((s.copy f).copied i) := by
  rw [hasInst_iff, hsize]
  exact Nat.add_lt_add_left (idxOf_lt_length_iff.mpr hi) _

lemma copied_ne {j : InstId} (hj : f.hasInst j) : (s.copy f).copied i ≠ j := by
  rintro rfl
  have hlt := f.hasInst_iff.mp hj
  change f.insts.size + _ < _ at hlt
  omega

lemma block_copy_ne {d : BlockId} (hb : f.hasBlock b ∨ b = f.nextBlock) :
    (s.copy f).block d ≠ b := by
  rintro rfl
  rcases hb with hb | hb
  · have hlt := f.hasBlock_iff.mp hb
    change f.blocks.size + 1 + _ < _ at hlt
    omega
  · have hidx := congrArg BlockId.idx hb
    change f.blocks.size + 1 + _ = f.blocks.size at hidx
    omega

lemma extends_addBlocks (hf : f.Consistent) (hcall : (f.inst s.call).live)
    (hsplit : f.instsOf (f.inst s.call).block = pre ++ s.call :: post) (n : Nat) :
    let split := splitAtCall f s.call (blockLabel f.name n)
    let added := addCopies s.callee split (n + 1) (f.inst s.call).block s.callee.layout
    let g := added.2.placeAfter f.nextBlock added.1
    f.Extends g 0 (1 + s.callee.layout.length) ∧ g.instsOf = split.instsOf ∧
      g.insts = split.insts ∧
      (∀ b, f.hasBlock b ∨ b = f.nextBlock →
        (g.block b).deleted = (f.block b).deleted) ∧
      ∀ b ∈ s.callee.layout, (g.block ((s.copy f).block b)).deleted = (s.callee.block b).deleted := by
  intro split added g
  obtain ⟨hext, hlists, hdel, hinstr⟩ := extends_splitAtCall hf hsplit (blockLabel f.name n)
  have hpos : 0 < split.blocks.size := by
    rw [hext.blocks]
    omega
  obtain ⟨hext', hlists', hinsts, hold, hnew⟩ := extends_addCopies hext.consistent hpos (n + 1)
    (f.inst s.call).block s.callee.layout
  have hpos' : 0 < f.blocks.size := by
    have hhas := f.hasBlock_iff.mp (hf.hasBlock_of_live hcall)
    omega
  have hadded := hext.trans hext'
  have hhas := hadded.hasBlock_iff.mpr (by change f.blocks.size < _; omega)
  have hent : entry? added.2 ≠ some f.nextBlock := by
    rw [ entry?]
    split
    · exact (Option.some_ne_none _).symm
    · intro h
      have hzero : 0 = f.blocks.size := congrArg BlockId.idx (Option.some.inj h)
      omega
  have hlast := hext.blocks
  refine ⟨⟨hadded.placeAfter hhas hent _, hadded.head.trans ⟨rfl, rfl, rfl, rfl, rfl⟩,
    hadded.insts, hadded.blocks⟩, ?_, hinsts, fun b hb => ?_, fun b hb => ?_⟩
  · rw [(hadded.instsOf_placeAfter _ _).1, hlists']
  · refine (hold b (hext.hasBlock_iff.mpr ?_)).trans (hdel b)
    rcases hb with hb | rfl
    · have hlt := f.hasBlock_iff.mp hb
      omega
    · exact Nat.lt_succ_self _
  · have hnew' := hnew _ b (List.getElem?_idxOf hb)
    rwa [hlast] at hnew'

lemma extends_withInsts (hf : f.Consistent) (hcallee : s.callee.Consistent)
    (hcall : (f.inst s.call).live)
    (hsplit : f.instsOf (f.inst s.call).block = pre ++ s.call :: post) (n : Nat) :
    let split := splitAtCall f s.call (blockLabel f.name n)
    f.Extends (withInsts f s n) s.callee.liveInsts.length (1 + s.callee.layout.length) ∧
      (∀ b, f.hasBlock b ∨ b = f.nextBlock →
        (withInsts f s n).instsOf b = split.instsOf b ∧
          ((withInsts f s n).block b).deleted = (f.block b).deleted) ∧
      (∀ b ∈ s.callee.layout, (withInsts f s n).instsOf ((s.copy f).block b) =
          (if b ∈ s.callee.liveBlocks then s.callee.instsOf b else []).map (s.copy f).copied ∧
        ((withInsts f s n).block ((s.copy f).block b)).deleted = (s.callee.block b).deleted) ∧
      (∀ j, f.hasInst j → (withInsts f s n).instr j = split.instr j ∧
        ((withInsts f s n).inst j).ty = (split.inst j).ty) ∧
      ∀ i ∈ s.callee.liveInsts,
        (withInsts f s n).instr ((s.copy f).copied i) = (s.copy f).instr (s.callee.instr i) ∧
          ((withInsts f s n).inst ((s.copy f).copied i)).ty = (s.callee.inst i).ty := by
  intro split
  obtain ⟨hext, hlists, hinsts, hdel, hdeletedCopy⟩ := extends_addBlocks hf hcall hsplit n
  rw [withInsts]
  generalize (addCopies s.callee (splitAtCall f s.call (blockLabel f.name n)) (n + 1)
    (f.inst s.call).block s.callee.layout).2.placeAfter f.nextBlock _ = g at *
  have hhome (i : InstId) (hi : i ∈ s.callee.liveInsts) :
      g.hasBlock ((s.copy f).block (s.callee.inst i).block) := by
    obtain ⟨b, hb, hib⟩ := mem_flatMap.mp hi
    have hlt := idxOf_lt_length_iff.mpr (mem_of_mem_filter hb)
    rw [hcallee.block_of_mem hib]
    refine hext.hasBlock_iff.mpr ?_
    change f.blocks.size + 1 + s.callee.layout.idxOf b < _
    omega
  have hreserves : Reserves (fun i => (s.copy f).block (s.callee.inst i).block)
      (fun i => (s.callee.inst i).ty) g (addPlaceholders (s.copy f) g) s.callee.liveInsts :=
    reserves_foldl_append hext.consistent hhome
  generalize addPlaceholders (s.copy f) g = g' at *
  have hsize : g'.insts.size = s.size f := by
    rw [hreserves.ext.insts, hext.insts, Nat.add_zero]
  have hpairs : (s.copy f).insts = s.callee.liveInsts.map fun i => (i, (s.copy f).copied i) :=
    Copy.insts_eq hcallee
  have hnd : ((s.copy f).insts.map Prod.snd).Nodup := by
    rw [hpairs, map_map]
    exact hcallee.nodup_liveInsts.map_on fun i hi j _ h => (s.copy f).copied_inj hi h
  have hhas (p : InstId × InstId) (hp : p ∈ (s.copy f).insts) : g'.hasInst p.2 := by
    rw [hpairs] at hp
    obtain ⟨i, hi, rfl⟩ := mem_map.mp hp
    exact hasInst_copied hi hsize
  obtain ⟨hplaces, hty, hother, hfilled⟩ :=
    foldl_replaceInstr g' (fun i => (s.copy f).instr (s.callee.instr i)) hnd hhas
  have heq : fillPlaceholders (s.copy f) g' = (s.copy f).insts.foldl (fun g p =>
    g.replaceInstr p.2 ((s.copy f).instr (s.callee.instr p.1))) g' := rfl
  rw [← heq] at hplaces hty hother hfilled
  have hfr := hreserves.frame.trans hplaces.frame
  refine ⟨⟨hplaces.consistent hreserves.ext.consistent, hext.head.trans hfr.head,
    hplaces.insts.trans hsize, hfr.blocks.trans hext.blocks⟩, fun b hb => ⟨?_, ?_⟩,
    fun b hb => ⟨?_, ?_⟩, fun j hj => ?_, fun i hi => ?_⟩
  · have hnil : ((s.callee.liveInsts.zipIdx g.insts.size).filter fun p =>
        (s.copy f).block (s.callee.inst p.1).block = b) = [] :=
      filter_eq_nil_iff.mpr fun p _ heq => block_copy_ne hb (of_decide_eq_true heq)
    rw [hplaces.instsOf, hreserves.lists, hnil, hlists, map_nil, append_nil]
  · rw [hfr.blockDeleted, hdel b hb]
  · have hnil : split.instsOf ((s.copy f).block b) = [] := by
      refine instsOf_of_not_hasBlock (Bool.eq_false_iff.mpr fun hhas => ?_)
      have hlt := (extends_splitAtCall hf hsplit _).1.hasBlock_iff.mp hhas
      change f.blocks.size + 1 + _ < _ at hlt
      omega
    rw [hplaces.instsOf, hreserves.lists, hlists, hnil, hext.insts]
    exact Copy.filter_insts hcallee hb
  · rw [hfr.blockDeleted, hdeletedCopy b hb]
  · have hnot : j ∉ (s.copy f).insts.map Prod.snd := by
      rw [hpairs, map_map]
      intro hmem
      obtain ⟨i, -, heq⟩ := mem_map.mp hmem
      exact copied_ne hj heq
    have hj' : g.hasInst j := by
      rw [hasInst_iff, hext.insts]
      exact f.hasInst_iff.mp hj
    have hrec : g.inst j = split.inst j := by rw [inst, hinsts]; rfl
    obtain ⟨hinstr, hty'⟩ := hreserves.old j hj'
    rw [hother j hnot, hty, hinstr, hty', instr, hrec]
    exact ⟨rfl, rfl⟩
  · have hpair : (i, (s.copy f).copied i) ∈ (s.copy f).insts := by
      rw [hpairs]
      exact mem_map_of_mem hi
    have hnew := (hreserves.new _ i (List.getElem?_idxOf hi)).2
    rw [hext.insts] at hnew
    refine ⟨hfilled _ hpair, ?_⟩
    rw [hty]
    exact hnew

lemma spliced_withCopy (hf : f.Consistent) (hcallee : s.callee.Consistent)
    (hcall : (f.inst s.call).live) (hent : f.hasBlock s.callerEntry)
    (hsplit : f.instsOf (f.inst s.call).block = pre ++ s.call :: post) (n : Nat) :
    Spliced f s (blockLabel f.name n) pre post [] [] (withCopy f s n) := by
  obtain ⟨-, hlists, -, hrec⟩ := extends_splitAtCall hf hsplit (blockLabel f.name n)
  obtain ⟨hext, hothers, hcopies, hold, hnew⟩ := extends_withInsts hf hcallee hcall hsplit n
  generalize hg : withInsts f s n = g at *
  have hslots : ∀ i ∈ (s.copy f).slots.reverse, (g.inst i).live := by
    intro i hi
    obtain ⟨j, hj, -, rfl⟩ := Copy.of_mem_slots hcallee (mem_reverse.mp hi)
    obtain ⟨b, hb, hjb⟩ := mem_flatMap.mp hj
    refine hext.live_of_mem (b := (s.copy f).block b) ?_
    rw [(hcopies b (mem_of_mem_filter hb)).1]
    exact mem_map_of_mem ((if_pos hb).symm ▸ hjb)
  have hnd : (s.copy f).slots.reverse.Nodup := nodup_reverse.mpr (Copy.nodup_slots hcallee)
  obtain ⟨hcons, hfr, hsize, hlists', hrec'⟩ :=
    foldl_moveToFront hext.consistent (hext.hasBlock hent) hnd hslots
  have heq : withCopy f s n =
      (s.copy f).slots.reverse.foldl (fun g i => g.moveToFront i s.callerEntry) g := by
    rw [← hg]
    rfl
  rw [← heq, reverse_reverse] at hlists'
  rw [← heq] at hcons hfr hsize hrec'
  have hkeep {is : List InstId} (his : ∀ i ∈ is, f.hasInst i) :
      (is.filter fun i => i ∉ (s.copy f).slots.reverse) = is := by
    refine filter_eq_self.mpr fun i hi => decide_eq_true fun hmem => ?_
    obtain ⟨j, -, -, heq⟩ := Copy.of_mem_slots hcallee (mem_reverse.mp hmem)
    exact copied_ne (his i hi) heq.symm
  have hhas (b : BlockId) (i : InstId) (hi : i ∈ f.instsOf b) : f.hasInst i :=
    (hf.threaded.home b i hi).1
  refine ⟨⟨hcons, hext.head.trans hfr.head, hsize.trans hext.insts,
    hfr.blocks.trans hext.blocks⟩, fun b hb => ?_, ?_, fun b hb => ?_, fun b hb => ?_, ?_,
    fun b hb => ?_, fun j hj => ?_, fun i hi => ?_, fun k p hk => by simp at hk⟩
  · rw [hfr.blockDeleted, (hothers b (Or.inl hb)).2]
  · rw [hfr.blockDeleted, (hothers _ (Or.inr rfl)).2, deleted_nextBlock]
  · rw [hfr.blockDeleted, (hcopies b hb).2]
  · rw [hlists', (hothers b (Or.inl hb)).1, hlists, if_neg (Func.ne_nextBlock hb)]
    congr 1
    refine hkeep fun i hi => ?_
    split at hi
    · refine hhas (f.inst s.call).block i ?_
      rw [hsplit, append_cons]
      exact mem_append_left post hi
    · exact hhas b i hi
  · rw [hlists', if_neg (Func.ne_nextBlock hent).symm, (hothers _ (Or.inr rfl)).1, hlists, if_pos rfl]
    refine hkeep fun i hi => hhas (f.inst s.call).block i ?_
    rw [hsplit]
    exact mem_append_right _ (.tail _ hi)
  · rw [hlists', if_neg (block_copy_ne (Or.inl hent)), (hcopies b hb).1, Copy.body]
    simp only [mem_reverse, length_nil, idsFrom, List.range'_zero, map_nil, ite_self]
    rfl
  · obtain ⟨hinstr, hty⟩ := hold j hj
    rw [(hrec' j).1, (hrec' j).2, hinstr, hty, (hrec j).2]
    exact ⟨rfl, rfl⟩
  · rw [(hrec' _).1, (hrec' _).2]
    exact hnew i hi

namespace Spliced

variable {clears : List (Instr × Ty)}

lemma add {clears' merge merge' code : List (Instr × Ty)} {k : Func}
    (h : Spliced f s label pre post clears merge g) (hadds : Adds g k code)
    (hcode : clears' ++ merge' = clears ++ merge ++ code)
    (hlists : ∀ b, f.hasBlock b → k.instsOf b = g.instsOf b)
    (hafter : k.instsOf f.nextBlock =
      idsFrom (s.size f + clears'.length) merge'.length ++ post)
    (hcopy : ∀ b ∈ s.callee.layout, k.instsOf ((s.copy f).block b) =
      (if b = s.calleeEntry then idsFrom (s.size f) clears'.length else []) ++ (s.copy f).body b) :
    Spliced f s label pre post clears' merge' k := by
  have hlen := congrArg List.length hcode
  have hsize := h.ext.insts
  simp only [length_append] at hlen
  refine ⟨?_, fun b hb => ?_, ?_, fun b hb => ?_, fun b hb => ?_, hafter, hcopy, fun j hj => ?_,
    fun i hi => ?_, fun n p hn => ?_⟩
  · have htrans := h.ext.trans hadds.ext
    rwa [show s.callee.liveInsts.length + clears.length + merge.length + code.length =
      s.callee.liveInsts.length + clears'.length + merge'.length by omega] at htrans
  · rw [hadds.frame.blockDeleted, h.deleted b hb]
  · rw [hadds.frame.blockDeleted, h.deleted_after]
  · rw [hadds.frame.blockDeleted, h.deleted_copy b hb]
  · rw [hlists b hb, h.instsOf b hb]
  · obtain ⟨hinstr, hty⟩ := hadds.old j (h.ext.hasInst hj)
    rw [hinstr, hty]
    exact h.old j hj
  · have hlt := idxOf_lt_length_iff.mpr hi
    obtain ⟨hinstr, hty⟩ := hadds.old ((s.copy f).copied i) (h.ext.hasInst_iff.mpr (by
      change f.insts.size + s.callee.liveInsts.idxOf i < _
      omega))
    rw [hinstr, hty]
    exact h.copied i hi
  · rw [hcode] at hn
    by_cases hlt : n < (clears ++ merge).length
    · rw [List.getElem?_append_left hlt] at hn
      rw [length_append] at hlt
      obtain ⟨hinstr, hty⟩ := hadds.old ⟨s.size f + n⟩
        (h.ext.hasInst_iff.mpr (by dsimp only [Site.size]; omega))
      rw [hinstr, hty]
      exact h.new n p hn
    · obtain ⟨m, rfl⟩ := Nat.exists_eq_add_of_le (Nat.le_of_not_lt hlt)
      rw [List.getElem?_append_right (Nat.le_add_right _ _), Nat.add_sub_cancel_left] at hn
      have hnew := hadds.new m p hn
      rwa [hsize, Nat.add_assoc s.callee.liveInsts.length, ← length_append, ← Nat.add_assoc,
        Nat.add_assoc _ _ m] at hnew

lemma clear (h : Spliced f s label pre post [] [] g) (hent : s.calleeEntry ∈ s.callee.layout)
    {first : InstId} {rest : List InstId}
    (hfirst : g.instsOf ((s.copy f).block s.calleeEntry) = first :: rest)
    (clears : List (Instr × Ty)) :
    Spliced f s label pre post clears []
      (clears.foldl (fun g p => g.insertBefore first p.1 p.2) g) := by
  obtain ⟨hadds, hlists⟩ := foldl_insertBefore h.ext.consistent (l := []) hfirst clears
  have hsize := h.ext.insts
  refine h.add hadds (append_nil _) (fun b hb => ?_) ?_ fun b hb => ?_
  · rw [hlists, if_neg (block_copy_ne (Or.inl hb)).symm]
  · rw [hlists, if_neg (block_copy_ne (Or.inr rfl)).symm, h.instsOf_after]
    rfl
  · have hbody := h.instsOf_copy s.calleeEntry hent
    rw [hlists, h.instsOf_copy b hb]
    by_cases hb' : b = s.calleeEntry
    · grind
    · rw [if_neg fun heq => hb' ((s.copy f).block_inj hb heq), if_neg hb', if_neg hb']

lemma prepend (h : Spliced f s label pre post clears [] g) (p : Instr × Ty) :
    Spliced f s label pre post clears [p] (g.prepend f.nextBlock p.1 p.2) := by
  have hafter : g.hasBlock f.nextBlock :=
    h.ext.hasBlock_iff.mpr (by change f.blocks.size < _; omega)
  have hsize : g.insts.size = s.size f + clears.length := by
    rw [h.ext.insts, length_nil, Nat.add_zero, Nat.add_assoc]
  have hlists := h.ext.instsOf_prepend hafter p.1 p.2
  refine h.add (.insertAt h.ext.consistent hafter (nil_append _).symm p)
    (by rw [append_nil]) (fun b hb => (hlists b).trans (if_neg (Func.ne_nextBlock hb))) ?_
    fun b hb => ?_
  · refine (hlists _).trans ?_
    rw [if_pos rfl, h.instsOf_after, Func.nextInst, hsize]
    rfl
  · refine (hlists _).trans ?_
    rw [if_neg (block_copy_ne (Or.inr rfl)), h.instsOf_copy b hb]

lemma block_cases {merge : List (Instr × Ty)} (h : Spliced f s label pre post clears merge g)
    (hnd : s.callee.layout.Nodup) (hb : g.hasBlock b) :
    f.hasBlock b ∨ b = f.nextBlock ∨ ∃ d ∈ s.callee.layout, b = (s.copy f).block d := by
  have hlt := h.ext.hasBlock_iff.mp hb
  rcases Nat.lt_trichotomy b.idx f.blocks.size with hold | hafter | hcopy
  · exact Or.inl (f.hasBlock_iff.mpr hold)
  · exact Or.inr (Or.inl (congrArg BlockId.mk hafter))
  · obtain ⟨k, hk⟩ := Nat.exists_eq_add_of_le hcopy
    have hk' : k < s.callee.layout.length := by omega
    refine Or.inr (Or.inr ⟨s.callee.layout[k], getElem_mem hk', congrArg BlockId.mk ?_⟩)
    change b.idx = f.blocks.size + 1 + s.callee.layout.idxOf _
    rw [hnd.idxOf_getElem k hk', hk]

end Spliced

/-! ## The whole expansion -/

/-- `g` is `f` with a copy in the place of a call; `m` is what it was before the result was
replaced. -/
structure Expanded (f : Func) (s : Site) (n : Nat) (memset : Option FuncId)
    (pre post : List InstId) (clears merge : List (Instr × Ty)) (value : Option Operand)
    (m g : Func) : Prop where
  spliced : Spliced f s (blockLabel f.name n) pre post clears merge m
  built : ∃ first rest, (withCopy f s n).instsOf ((s.copy f).block s.calleeEntry) = first :: rest ∧
    m = merge.foldl (fun g p => g.prepend f.nextBlock p.1 p.2)
      (clears.foldl (fun g p => g.insertBefore first p.1 p.2) (withCopy f s n))
  fill : Clears (withCopy f s n).instr memset (s.size f) (s.copy f).slots clears
  result : Merges (s.copy f) (s.size f + clears.length) merge value
  admits : ∀ v, value = some v → m.admits v
  unused : value = none → (m.inst s.call).users = []
  eq : g = ((withResult m s.call value).replaceInstr s.call
    (.jump (some ((s.copy f).block s.calleeEntry)))).setType s.call .void

lemma samePlaces_withResult (f : Func) (call : InstId) (value : Option Operand) :
    f.SamePlaces (withResult f call value) := by
  cases value with
  | some v => exact samePlaces_replaceUses f _ v
  | none => exact .refl f

namespace Expanded

variable {m : Func} {n : Nat} {memset : Option FuncId} {clears merge : List (Instr × Ty)}
  {value : Option Operand}

lemma places (h : Expanded f s n memset pre post clears merge value m g) : m.SamePlaces g := by
  have hplaces := (samePlaces_withResult m s.call value).trans
    (Func.samePlaces_replaceInstr _ s.call (.jump (some ((s.copy f).block s.calleeEntry))))
  rw [h.eq]
  exact hplaces.trans (Func.samePlaces_setType _ s.call .void)

lemma instr_eq (h : Expanded f s n memset pre post clears merge value m g)
    (hcall : m.hasInst s.call) (j : InstId) :
    g.instr j = if j = s.call then .jump (some ((s.copy f).block s.calleeEntry))
      else (withResult m s.call value).instr j := by
  have hhas : (withResult m s.call value).hasInst s.call := by
    rw [(samePlaces_withResult m s.call value).hasInst, hcall]
  rw [h.eq, Func.instr_setType]
  split
  · next hj => rw [hj, Func.instr_replaceInstr_self hhas]
  · next hj => rw [Func.instr_replaceInstr_of_ne hj]

end Expanded

lemma Spliced.alloc_of_mem (h : Spliced f s label pre post [] [] g)
    (hcallee : s.callee.Consistent) (hi : i ∈ (s.copy f).slots) :
    g.hasInst i ∧ ∃ t, g.instr i = .alloc t := by
  obtain ⟨j, hlive, hslot, rfl⟩ := Copy.of_mem_slots hcallee hi
  obtain ⟨t, ht⟩ := isSlot_iff.mp hslot
  refine ⟨hasInst_copied hlive h.ext.insts, t, (h.copied j hlive).1.trans ?_⟩
  rw [show s.callee.instr j = .alloc t from ht]
  rfl

lemma expand_eq_ok {w w' : Work} {n : Nat} {memset : Option FuncId} (hf : w.func.Consistent)
    (hcallee : s.callee.Consistent) (hcall : (w.func.inst s.call).live)
    (hcallerEntry : w.func.hasBlock s.callerEntry) (hcalleeEntry : s.calleeEntry ∈ s.callee.layout)
    (hsplit : w.func.instsOf (w.func.inst s.call).block = pre ++ s.call :: post)
    (h : expand s n memset w = .ok () w') :
    ∃ clears merge value m, Expanded w.func s n memset pre post clears merge value m w'.func := by
  have hspliced := spliced_withCopy hf hcallee hcall hcallerEntry hsplit n
  rw [expand, Transform.func_bind] at h
  dsimp only at h
  split at h
  · cases h
  · split at h
    · cases h
    · obtain ⟨⟨⟩, w₁, hw₁, h⟩ := Transform.bind_ok h
      replace hw₁ := (EStateM.Result.ok.inj hw₁).2.symm
      obtain ⟨⟨⟩, w₂, hw₂, h⟩ := Transform.bind_ok h
      rw [hw₁] at hw₂
      obtain ⟨value, w₃, hw₃, h⟩ := Transform.bind_ok h
      obtain ⟨⟨⟩, w₄, hw₄, h⟩ := Transform.bind_ok h
      obtain rfl := (EStateM.Result.ok.inj h).2
      obtain ⟨first, rest, clears, hfirst, hclears, heq₂⟩ :=
        clearSlots_eq_ok (w := { w with func := withCopy w.func s n }) hspliced.ext.consistent
          (fun i hi => hspliced.alloc_of_mem hcallee hi) hw₂
      have hcleared := hspliced.clear hcalleeEntry hfirst clears
      rw [← heq₂] at hcleared
      obtain ⟨merge, hmerges, heq₃⟩ := mergeReturns_eq_ok hw₃
      obtain ⟨heq₄, hadmits, hunused⟩ := replaceResult_eq_ok hw₄
      have hsize : w₂.func.insts.size =
          s.size w.func + clears.length := by
        rw [hcleared.ext.insts, length_nil, Nat.add_zero, Nat.add_assoc]
      rw [hsize] at hmerges
      refine ⟨clears, merge, value, w₃.func, ?_, ⟨first, rest, hfirst, ?_⟩, ?_, hmerges, hadmits,
        hunused, ?_⟩
      · rw [heq₃]
        cases hmerges with
        | phi => exact hcleared.prepend _
        | _ => exact hcleared
      · rw [heq₃, heq₂]
      · have hsize₁ : (withCopy w.func s n).insts.size = s.size w.func := hspliced.ext.insts
        exact hsize₁ ▸ hclears
      · rw [← heq₄]
        rfl

end Inlining

end MiddleEnd
