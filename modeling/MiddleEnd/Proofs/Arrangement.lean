import MiddleEnd.Proofs.Interlinked

/-!
# Instruction lists and layout over whole histories

Putting an instruction into a chain and taking it out again changes its neighbours only, and these are
live.  So a removed instruction keeps what removing it left: no neighbours, and the block that it came
from.  An instruction put before a removed one therefore starts that block, and the lists stay
consistent however edits and moves of blocks in the layout follow each other.
-/

namespace MiddleEnd

open List

namespace Func

variable {i j : InstId} {f g : Func} {b : BlockId}

/-- Consistent block lists, linked in both directions, in which a removed instruction has no
neighbours. -/
structure Tidy (f : Func) : Prop extends consistent : f.Consistent where
  linked : f.Interlinked
  loose : ∀ i, (f.inst i).live = false → (f.inst i).prev = none ∧ (f.inst i).next = none

/-! ## What stays of a removed instruction -/

lemma Threaded.inst_link_of_not_mem {lists : BlockId → List InstId} (h : f.Threaded lists)
    {l r : List InstId} (hl : lists b = l ++ r) (hji : j ≠ i) (hj : j ∉ lists b) :
    (f.link b l.getLast? i).inst j = f.inst j := by
  rw [hl, mem_append, not_or] at hj
  have hprev : l.getLast? ≠ some j := fun hlast => hj.1 (mem_of_getLast? hlast)
  have hnext : f.successor b l.getLast? ≠ some j := by
    rw [h.successor_eq hl]
    exact fun hhead => hj.2 (mem_of_head? hhead)
  simp [inst_link, hji, hprev, hnext]

lemma Consistent.bare_insertAt_of_not_live (hf : f.Consistent) {l r : List InstId}
    (hl : f.instsOf b = l ++ r) (k : Instr) (t : Ty) (hj : (f.inst j).live = false)
    (hne : j ≠ f.nextInst) : ((f.insertAt b l.getLast? k t).inst j).bare = (f.inst j).bare := by
  rw [Func.insertAt, (hf.threaded_create b k t).inst_link_of_not_mem hl hne, bare_create, if_neg hne]
  intro hmem
  rw [hf.live_of_mem hmem] at hj
  exact Bool.false_ne_true hj.symm

namespace Tidy

variable {b : BlockId} {i : InstId}

section

variable (hf : f.Tidy)
include hf

lemma of_bare (hg : g.Consistent) (hlinked : g.Interlinked)
    (hdead : ∀ i, (g.inst i).live = false → (f.inst i).live = false ∧
      (g.inst i).prev = (f.inst i).prev ∧ (g.inst i).next = (f.inst i).next) : g.Tidy := by
  refine ⟨hg, hlinked, fun i hi => ?_⟩
  obtain ⟨hwas, hprev, hnext⟩ := hdead i hi
  rw [hprev, hnext]
  exact hf.loose i hwas

lemma samePlaces (hfg : f.SamePlaces g) : g.Tidy := by
  refine hf.of_bare (hfg.consistent hf.consistent) (hf.linked.sameChains hfg.chains) fun i hlive => ?_
  obtain ⟨-, hprev, hnext, hsame⟩ := hfg.record i
  exact ⟨hsame.symm.trans hlive, hprev, hnext⟩

lemma insertAt (hb : f.hasBlock b) {l r : List InstId} (hl : f.instsOf b = l ++ r)
    (k : Instr) (t : Ty) : (f.insertAt b l.getLast? k t).Tidy := by
  have hprev (p : InstId) (hp : l.getLast? = some p) : f.hasInst p ∧ (f.inst p).block = b :=
    hf.threaded.home b p (hl ▸ mem_append_left r (mem_of_getLast? hp))
  refine hf.of_bare (hf.consistent.insertAt hb hl k t) (hf.linked.insertAt hb hprev k t)
    fun i hlive => ?_
  rw [(record_insertAt f b l.getLast? k t i).2.2.2, Bool.or_eq_false_iff,
    decide_eq_false_iff_not] at hlive
  have hbare := hf.bare_insertAt_of_not_live hl k t hlive.2 hlive.1
  rw [← InstRecord.prev_bare, ← InstRecord.next_bare, hbare]
  exact ⟨hlive.2, rfl, rfl⟩

lemma insertBefore (hi : f.hasInst i) (k : Instr) (t : Ty) : (f.insertBefore i k t).Tidy := by
  cases hlive : (f.inst i).live with
  | true =>
    obtain ⟨l, r, hl⟩ := append_of_mem (hf.mem_of_live hlive)
    rw [hf.insertBefore_eq_insertAt hl]
    exact hf.insertAt (hf.hasBlock_of_live hlive) hl k t
  | false =>
    have hprev := (hf.loose i hlive).1
    have heq : f.insertBefore i k t = f.insertAt (f.inst i).block ([] : List InstId).getLast? k t := by
      rw [Func.insertBefore, hprev]
      rfl
    rw [heq]
    exact hf.insertAt (hf.linked.hasBlock i hi) (nil_append _).symm k t

lemma loose_unlink (hi : (f.inst i).live) (hj : (f.inst j).live = false) :
    ((f.unlink i).inst j).prev = none ∧ ((f.unlink i).inst j).next = none := by
  have hloose := hf.loose j hj
  have hprev := hf.linked.next_iff i j
  have hnext := hf.linked.next_iff j i
  rw [inst_unlink]
  grind

lemma remove (i : InstId) : (f.remove i).Tidy := by
  refine ⟨hf.consistent.remove i, hf.linked.remove i, fun j hdead => ?_⟩
  cases hi : (f.inst i).live with
  | false =>
    rw [Func.remove, hi] at hdead ⊢
    exact hf.loose j hdead
  | true =>
    have hrec : ((f.remove i).inst j).prev = ((f.unlink i).inst j).prev ∧
        ((f.remove i).inst j).next = ((f.unlink i).inst j).next := by
      obtain ⟨-, hprev, hnext, -⟩ := (samePlaces_unregister (f.unlink i) i).record j
      rw [Func.remove, if_pos hi, inst_modifyInst, ← hprev, ← hnext]
      split <;> exact ⟨rfl, rfl⟩
    rw [live_remove, Bool.and_eq_false_iff, decide_eq_false_iff_not, not_not] at hdead
    rw [hrec.1, hrec.2]
    rcases hdead with hdead | rfl
    · exact hf.loose_unlink hi hdead
    · simp [inst_unlink, hasInst_of_live hi]

lemma deleteBlock (b : BlockId) : (f.deleteBlock b).Tidy := by
  have hremoved (is : List InstId) : (is.foldl Func.remove f).Tidy :=
    foldlRecOn is _ hf fun _ hf i _ => hf.remove i
  exact (hremoved (f.instsOf b)).of_bare (hf.consistent.deleteBlock b) (hf.linked.deleteBlock b)
    fun i hlive => ⟨hlive, rfl, rfl⟩

lemma move (hi : (f.inst i).live) (hb : f.hasBlock b) {l r : List InstId}
    (hl : (f.instsOf b).erase i = l ++ r)
    (hprev : l.getLast? = none ∨ l.getLast? = ((f.unlink i).block b).last) :
    ((f.unlink i).link b l.getLast? i).Tidy := by
  refine ⟨(hf.of_move hi hb hl).1, hf.linked.move (hasInst_of_live hi) hb hprev,
    fun j hdead => ?_⟩
  rw [(record_move f i b l.getLast? j).2.2.1] at hdead
  have hji : j ≠ i := by
    rintro rfl
    rw [hi] at hdead
    exact Bool.false_ne_true hdead.symm
  rw [(hf.threaded_unlink hi).inst_link_of_not_mem hl hji]
  · exact hf.loose_unlink hi hdead
  · intro hmem
    rw [hf.live_of_mem (mem_of_mem_erase hmem)] at hdead
    exact Bool.false_ne_true hdead.symm

lemma moveToBack (hi : (f.inst i).live) (hb : f.hasBlock b) : (f.moveToBack i b).Tidy := by
  have hlast := (hf.threaded_unlink hi).last b
  rw [Func.moveToBack, linkLast, hlast]
  exact hf.move hi hb (append_nil _).symm (.inr hlast.symm)

lemma foldl_moveToBack (hb : f.hasBlock b) {is : List InstId}
    (his : ∀ i ∈ is, (f.inst i).live) : (is.foldl (fun f j => f.moveToBack j b) f).Tidy := by
  induction is generalizing f with
  | nil => exact hf
  | cons i is ih =>
    have hblk := ((sameFrame_moveToBack f i b).hasBlock b).trans hb
    refine ih (hf.moveToBack (his i (.head _)) hb) hblk fun j hj => ?_
    have hlive := (record_move f i b ((f.unlink i).block b).last j).2.2.1
    exact hlive.trans (his j (.tail i hj))

lemma splitAfter (hi : (f.inst i).live) (hb : f.hasBlock b ∨ f.instsAfter i = []) :
    (f.splitAfter i b).Tidy := by
  obtain ⟨l, r, hl⟩ := append_of_mem (hf.mem_of_live hi)
  rw [Func.splitAfter]
  rcases hb with hb | hnil
  · rw [hf.threaded.instsAfter_eq hl]
    refine hf.foldl_moveToBack hb fun j hj => hf.live_of_mem (b := (f.inst i).block) ?_
    rw [hl]
    exact mem_append_right l (.tail i hj)
  · rw [hnil]
    exact hf

lemma addBlock (label : String) : (f.addBlock label).Tidy :=
  ⟨hf.consistent.addBlock label, hf.linked.addBlock label, hf.loose⟩

lemma placeAfter (hb : f.hasBlock b) (hent : f.entry? ≠ some b) (after : BlockId) :
    (f.placeAfter b after).Tidy := by
  have hconsistent := hf.consistent.placeAfter hb hent after
  exact ⟨hconsistent, ⟨hf.linked.next_iff, hf.linked.home, hf.linked.first, hf.linked.last,
    hf.linked.hasBlock, hconsistent.mem_layout⟩, hf.loose⟩

end

lemma empty (hinsts : f.insts = #[]) (hblks : f.blocks = #[]) (hlay : f.layout = []) :
    f.Tidy := by
  refine ⟨consistent_iff.mpr ?_, .empty hinsts hblks hlay, fun i _ => ?_⟩
  · simp [hblks, hinsts, hlay, entry?]
  · rw [show f.inst i = default by simp [Func.inst, hinsts]]
    exact ⟨rfl, rfl⟩

/-! ## Lists, links and layout -/

lemma count_instsOf (hf : f.Tidy) (i : InstId) (b : BlockId) :
    (f.instsOf b).count i = if (f.inst i).live ∧ (f.inst i).block = b then 1 else 0 := by
  split
  · next hlive =>
    exact count_eq_one_of_mem (hf.nodup b) ((hf.mem_instsOf b i).mpr hlive)
  · next hnot =>
    exact count_eq_zero_of_not_mem fun hi => hnot ((hf.mem_instsOf b i).mp hi)

lemma layout_perm (hf : f.Tidy) : f.layout.Perm ((List.range f.blocks.size).map BlockId.mk) := by
  refine (perm_ext_iff_of_nodup hf.layout_nodup ?_).mpr fun b => ?_
  · exact nodup_range.map fun _ _ heq => congrArg BlockId.idx heq
  · rw [hf.mem_layout, hasBlock_iff, mem_map]
    constructor
    · exact fun hb => ⟨b.idx, mem_range.mpr hb, rfl⟩
    · grind

end Tidy

end Func

/-! ## Histories -/

/-- An instruction is moved only if it has not been removed, and the rest of a block goes to another
block. -/
def Edit.movesLive (f : Func) : Edit → Bool
  | splitAfter i b => (f.inst i).live && decide (b ≠ (f.inst i).block)
  | moveToFront i _ => (f.inst i).live
  | _ => true

namespace Func

variable {f : Func}

/-- The functions that edits and moves of blocks in the layout make out of one without blocks.  The
entry stays where it is. -/
inductive Arranged : Func → Prop
  | empty {f : Func} (hinsts : f.insts = #[]) (hblks : f.blocks = #[]) (hlay : f.layout = []) :
    Arranged f
  | edits {f : Func} {es : List Edit} (hf : Arranged f)
    (hes : Edit.allAllowed Edit.movesLive f es) : Arranged (Edit.applyAll f es)
  | placeAfter {f : Func} {b after : BlockId} (hf : Arranged f) (hb : f.hasBlock b)
    (hent : f.entry? ≠ some b) (hafter : f.hasBlock after) :
    Arranged (f.placeAfter b after)

lemma Tidy.apply (hf : f.Tidy) {e : Edit} (hmoves : e.movesLive f)
    (hrange : e.inRange f) : (e.apply f).2.Tidy := by
  cases e with
  | addBlock l => exact hf.addBlock l
  | append b k t =>
    rw [Edit.inRange, Bool.and_eq_true] at hrange
    rw [Edit.apply, hf.append_eq_insertAt]
    exact hf.insertAt hrange.1 (List.append_nil _).symm k t
  | prepend b k t =>
    rw [Edit.inRange, Bool.and_eq_true] at hrange
    exact hf.insertAt hrange.1 (List.nil_append _).symm k t
  | insertBefore j k t =>
    rw [Edit.inRange, Bool.and_eq_true] at hrange
    exact hf.insertBefore hrange.1 k t
  | remove i => exact hf.remove i
  | replaceInstr i k => exact hf.samePlaces (samePlaces_replaceInstr f i k)
  | replaceUses old new => exact hf.samePlaces (samePlaces_replaceUses f old new)
  | fillPhi p b v => exact hf.samePlaces (samePlaces_fillPhi f p b v)
  | retainEntries p keep => exact hf.samePlaces (samePlaces_retainEntries f p keep.contains)
  | replacePred b old new => exact hf.samePlaces (samePlaces_replacePred f b old new)
  | splitAfter i b =>
    rw [Edit.movesLive, Bool.and_eq_true] at hmoves
    rw [Edit.inRange, Bool.and_eq_true, Bool.or_eq_true, List.isEmpty_iff] at hrange
    exact hf.splitAfter hmoves.1 hrange.2
  | moveToFront i b =>
    rw [Edit.inRange, Bool.and_eq_true] at hrange
    exact hf.move hmoves hrange.2 (List.nil_append _).symm (.inl rfl)
  | deleteBlock b => exact hf.deleteBlock b

lemma Tidy.applyAll (hf : f.Tidy) {es : List Edit}
    (hes : Edit.allAllowed Edit.movesLive f es) : (Edit.applyAll f es).Tidy := by
  induction es generalizing f with
  | nil => exact hf
  | cons e es ih =>
    simp only [Edit.allAllowed, Bool.and_eq_true] at hes
    obtain ⟨⟨hmoves, hrange⟩, hrest⟩ := hes
    exact ih (hf.apply hmoves hrange) hrest

lemma Arranged.tidy (hf : Arranged f) : f.Tidy := by
  induction hf with
  | empty hinsts hblks hlay => exact .empty hinsts hblks hlay
  | edits _ hes ih => exact ih.applyAll hes
  | placeAfter _ hb hent _ ih => exact ih.placeAfter hb hent _

/-- Over a whole history each live instruction is listed once, in the block that its record names, and
no other instruction is listed; following `next` from the first instruction of a block lists its
instructions, as many as it counts, and ends at its last one; `prev` is the inverse of `next`; and the
layout lists every block once, the entry first. -/
theorem Arranged.lists_and_layout {f : Func} (hf : Arranged f) :
    (∀ i b, (f.instsOf b).count i =
        if (f.inst i).live = true ∧ (f.inst i).block = b then 1 else 0) ∧
      (∀ b, (f.block b).first = (f.instsOf b).head? ∧
        Linked (fun i => (f.inst i).next) (f.instsOf b) ∧
        (f.block b).last = (f.instsOf b).getLast? ∧ (f.block b).length = (f.instsOf b).length) ∧
      (∀ i j, (f.inst i).next = some j ↔ (f.inst j).prev = some i) ∧
      f.layout.Perm ((List.range f.blocks.size).map BlockId.mk) ∧ f.layout.head? = f.entry? := by
  have htidy := hf.tidy
  have hthreaded := htidy.threaded
  exact ⟨htidy.count_instsOf,
    fun b => ⟨hthreaded.first b, hthreaded.next b, hthreaded.last b, hthreaded.length b⟩,
    htidy.linked.next_iff, htidy.layout_perm, htidy.layout_head⟩

/-- A block is split, an instruction comes before a removed one, another moves to the front of an
empty block, and a block is deleted. -/
def splitHistory : List Edit :=
  [.addBlock "entry", .addBlock "rest", .addBlock "gone",
    .append ⟨0⟩ (.binary .add (.arg 0) (.arg 0)) .i32,
    .append ⟨0⟩ (.binary .mul (.inst ⟨0⟩) (.inst ⟨0⟩)) .i32,
    .append ⟨0⟩ (.ret (some (.inst ⟨1⟩))) .void, .append ⟨2⟩ (.ret none) .void,
    .splitAfter ⟨0⟩ ⟨1⟩, .deleteBlock ⟨2⟩, .insertBefore ⟨3⟩ (.jump (some ⟨1⟩)) .void,
    .moveToFront ⟨4⟩ ⟨0⟩, .moveToFront ⟨0⟩ ⟨0⟩]

theorem lists_and_layout_splitHistory :
    Arranged ((Edit.applyAll (new "f" .i32 [.i32]) splitHistory).placeAfter ⟨1⟩ ⟨2⟩) ∧
      ((Edit.applyAll (new "f" .i32 [.i32]) splitHistory).placeAfter ⟨1⟩ ⟨2⟩).instsOf ⟨0⟩ =
        [⟨0⟩, ⟨4⟩] ∧
      (((Edit.applyAll (new "f" .i32 [.i32]) splitHistory).placeAfter ⟨1⟩ ⟨2⟩).inst ⟨4⟩).prev =
        some ⟨0⟩ := by
  have hedits : Arranged (Edit.applyAll (new "f" .i32 [.i32]) splitHistory) :=
    .edits (.empty rfl rfl rfl) (by decide)
  have harranged :
      Arranged ((Edit.applyAll (new "f" .i32 [.i32]) splitHistory).placeAfter ⟨1⟩ ⟨2⟩) :=
    hedits.placeAfter (by decide) (by decide) (by decide)
  obtain ⟨-, -, hinverse, -, -⟩ := harranged.lists_and_layout
  exact ⟨harranged, by decide, (hinverse ⟨0⟩ ⟨4⟩).mp (by decide)⟩

end Func

end MiddleEnd
