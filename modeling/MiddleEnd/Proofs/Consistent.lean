import MiddleEnd.Proofs.Edits

/-!
# Block lists after an edit

On a function with consistent block lists an instruction that is removed leaves the list of its
block, a new one is put at the start of the list of its block, and a deleted block has an empty
list.  All other lists stay the same, and the block lists stay consistent.
-/

namespace MiddleEnd

open List Function

namespace Func

variable {f g : Func} {b : BlockId}

/-- Adds an instruction behind `prev` in a block, at the start without one. -/
def insertAt (f : Func) (b : BlockId) (prev : Option InstId) (k : Instr) (t : Ty) : Func :=
  (f.create b k t).link b prev f.nextInst

lemma hasInst_create (f : Func) (b : BlockId) (k : Instr) (t : Ty) :
    (f.create b k t).hasInst f.nextInst := by
  have htr := tracks_create f b k t (.inst f.nextInst)
  simpa [tracks] using htr

lemma sameFrame_insertAt (f : Func) (b : BlockId) (prev : Option InstId) (k : Instr) (t : Ty) :
    f.SameFrame (f.insertAt b prev k t) :=
  (sameFrame_create f b k t).trans (sameFrame_link _ b prev _)

lemma record_insertAt (f : Func) (b : BlockId) (prev : Option InstId) (k : Instr) (t : Ty)
    (j : InstId) :
    ((f.insertAt b prev k t).inst j).instr = (if j = f.nextInst then k else (f.inst j).instr) ∧
      ((f.insertAt b prev k t).inst j).ty = (if j = f.nextInst then t else (f.inst j).ty) ∧
      ((f.insertAt b prev k t).inst j).block = (if j = f.nextInst then b else (f.inst j).block) ∧
      ((f.insertAt b prev k t).inst j).live = (decide (j = f.nextInst) || (f.inst j).live) := by
  have hbare := bare_create f b k t j
  have hinstr := congrArg InstRecord.instr hbare
  have hty := congrArg InstRecord.ty hbare
  have hblk := congrArg InstRecord.block hbare
  rw [apply_ite InstRecord.instr] at hinstr
  rw [apply_ite InstRecord.ty] at hty
  simp only [InstRecord.instr_bare, InstRecord.ty_bare, InstRecord.block_bare] at hinstr hty hblk
  simp only [insertAt, inst_link, live_create, hinstr, hty, hblk, hasInst_create, and_true,
    true_and]
  split <;> rfl

lemma record_prepend (f : Func) (b : BlockId) (k : Instr) (t : Ty) (j : InstId) :
    ((f.prepend b k t).inst j).instr = (if j = f.nextInst then k else (f.inst j).instr) ∧
      ((f.prepend b k t).inst j).ty = (if j = f.nextInst then t else (f.inst j).ty) ∧
      ((f.prepend b k t).inst j).block = (if j = f.nextInst then b else (f.inst j).block) ∧
      ((f.prepend b k t).inst j).live = (decide (j = f.nextInst) || (f.inst j).live) :=
  record_insertAt f b none k t j

namespace Consistent

variable {b : BlockId} {i : InstId} {l r : List InstId}

section

variable (hf : f.Consistent)
include hf

/-- Consistency from lists that fit the links and hold the live instructions of each block. -/
lemma of_threaded (hlay : g.layout = f.layout) (hblks : g.blocks.size = f.blocks.size)
    {lists : BlockId → List InstId} (hlists : g.Threaded lists)
    (hmem : ∀ b i, i ∈ lists b ↔ (g.inst i).live ∧ (g.inst i).block = b) :
    g.Consistent where
  threaded := by
    have heq : g.instsOf = lists := funext hlists.instsOf_eq
    rw [heq]
    exact hlists
  mem_instsOf b i := by
    rw [hlists.instsOf_eq]
    exact hmem b i
  layout_nodup := hlay ▸ hf.layout_nodup
  mem_layout b := by
    rw [hlay, hf.mem_layout, hasBlock, hasBlock, hblks]
  layout_head := by
    have hent : g.entry? = f.entry? := by
      simp [ entry?, ← Array.size_eq_zero_iff, hblks]
    rw [hlay, hf.layout_head, hent]

lemma nodup (b : BlockId) : (f.instsOf b).Nodup :=
  hf.threaded.nodup b

lemma live_of_mem (hi : i ∈ f.instsOf b) : (f.inst i).live :=
  ((hf.mem_instsOf b i).mp hi).1

lemma block_of_mem (hi : i ∈ f.instsOf b) : (f.inst i).block = b :=
  ((hf.mem_instsOf b i).mp hi).2

lemma mem_of_live (hi : (f.inst i).live) : i ∈ f.instsOf (f.inst i).block :=
  (hf.mem_instsOf _ i).mpr ⟨hi, rfl⟩

lemma hasBlock_of_live (hi : (f.inst i).live) : f.hasBlock (f.inst i).block :=
  hf.threaded.hasBlock_of_mem (hf.mem_of_live hi)

lemma mem_liveBlocks : b ∈ f.liveBlocks ↔ f.hasBlock b ∧ (f.block b).deleted = false := by
  rw [liveBlocks, mem_filter, hf.mem_layout]
  simp

lemma terminator?_eq (b : BlockId) :
    f.terminator? b = (f.instsOf b).getLast?.filter fun i => (f.instr i).isTerminator := by
  rw [terminator?, hf.threaded.last]

/-! ## Removed instructions -/

lemma threaded_unlink (hi : (f.inst i).live) :
    (f.unlink i).Threaded fun b => (f.instsOf b).erase i := by
  obtain ⟨l, r, hl⟩ := append_of_mem (hf.mem_of_live hi)
  have hnd := hf.nodup (f.inst i).block
  have hlists : (fun b => (f.instsOf b).erase i) = update f.instsOf (f.inst i).block (l ++ r) := by
    funext b
    by_cases hb : b = (f.inst i).block
    · grind
    · rw [update_of_ne hb]
      exact erase_of_not_mem fun hi => hb (hf.block_of_mem hi).symm
  rw [hlists]
  exact hf.threaded.unlink hl

lemma threaded_remove (i : InstId) : (f.remove i).Threaded fun b => (f.instsOf b).erase i := by
  cases hlive : (f.inst i).live with
  | false =>
    have hsame : (fun b => (f.instsOf b).erase i) = f.instsOf := by
      funext b
      refine erase_of_not_mem fun hi => ?_
      rw [hf.live_of_mem hi] at hlive
      exact Bool.false_ne_true hlive.symm
    rw [hsame, remove, if_neg (by simp [hlive])]
    exact hf.threaded
  | true =>
    rw [remove, if_pos hlive]
    have hunregistered := (samePlaces_unregister (f.unlink i) i).threaded (hf.threaded_unlink hlive)
    refine hunregistered.congr (size_modifyInst _ i _) (fun j => ?_) fun b => ⟨rfl, rfl, rfl⟩
    rw [inst_modifyInst]
    split
    · exact ⟨rfl, rfl, rfl⟩
    · exact ⟨rfl, rfl, rfl⟩

lemma instsOf_remove (i : InstId) (b : BlockId) :
    (f.remove i).instsOf b = (f.instsOf b).erase i :=
  (hf.threaded_remove i).instsOf_eq b

lemma remove (i : InstId) : (f.remove i).Consistent := by
  have hfr := sameFrame_remove f i
  refine hf.of_threaded hfr.layout hfr.blocks (hf.threaded_remove i) fun b j => ?_
  rw [(hf.nodup b).mem_erase_iff, hf.mem_instsOf, live_remove, (record_remove f i j).2.2,
    Bool.and_eq_true, decide_eq_true_eq]
  tauto

lemma foldl_remove (is : List InstId) : (is.foldl Func.remove f).Consistent :=
  foldlRecOn is _ hf fun _ hf i _ => hf.remove i

lemma instsOf_foldl_remove (is : List InstId) (b : BlockId) :
    (is.foldl Func.remove f).instsOf b = (f.instsOf b).filter fun j => j ∉ is := by
  induction is generalizing f with
  | nil => simp
  | cons i is ih =>
    rw [foldl_cons, ih (hf.remove i), hf.instsOf_remove, (hf.nodup b).erase_eq_filter,
      filter_filter]
    refine filter_congr fun j _ => ?_
    by_cases hj : j = i
    · simp [hj]
    · simp [hj]

/-! ## Deleted blocks -/

lemma threaded_deleteBlock (b : BlockId) :
    (f.deleteBlock b).Threaded fun c => if c = b then [] else f.instsOf c := by
  have hlists : (fun c => if c = b then [] else f.instsOf c) =
      ((f.instsOf b).foldl Func.remove f).instsOf := by
    funext c
    rw [hf.instsOf_foldl_remove]
    split
    · simp_all
    · next hc =>
      refine (filter_eq_self.mpr fun j hj => ?_).symm
      simpa using fun hjb => hc (hf.threaded.block_unique hj hjb)
  rw [hlists, deleteBlock]
  have hremoved := (hf.foldl_remove (f.instsOf b)).threaded
  refine hremoved.congr rfl (fun j => ⟨rfl, rfl, rfl⟩) fun c => ?_
  rw [block_modifyBlock]
  split
  · exact ⟨rfl, rfl, rfl⟩
  · exact ⟨rfl, rfl, rfl⟩

lemma instsOf_deleteBlock (b c : BlockId) :
    (f.deleteBlock b).instsOf c = if c = b then [] else f.instsOf c :=
  (hf.threaded_deleteBlock b).instsOf_eq c

end

lemma live_foldl_remove (is : List InstId) (f : Func) (j : InstId) :
    ((is.foldl Func.remove f).inst j).live = ((f.inst j).live && decide (j ∉ is)) := by
  induction is generalizing f with
  | nil => simp
  | cons i is ih =>
    rw [foldl_cons, ih, live_remove, Bool.and_assoc]
    simp [not_or]

lemma record_foldl_remove (is : List InstId) (f : Func) (j : InstId) :
    ((is.foldl Func.remove f).inst j).instr = (f.inst j).instr ∧
      ((is.foldl Func.remove f).inst j).ty = (f.inst j).ty ∧
      ((is.foldl Func.remove f).inst j).block = (f.inst j).block := by
  induction is generalizing f with
  | nil => exact ⟨rfl, rfl, rfl⟩
  | cons i is ih =>
    obtain ⟨hinstr, hty, hblk⟩ := ih (f.remove i)
    obtain ⟨hinstr', hty', hblock'⟩ := record_remove f i j
    exact ⟨hinstr.trans hinstr', hty.trans hty', hblk.trans hblock'⟩

variable (hf : f.Consistent)
include hf

lemma live_deleteBlock (b : BlockId) (j : InstId) :
    ((f.deleteBlock b).inst j).live = ((f.inst j).live && decide ((f.inst j).block ≠ b)) := by
  rw [deleteBlock, inst_modifyBlock, live_foldl_remove]
  cases hlive : (f.inst j).live with
  | false => rfl
  | true =>
    have hmem : j ∈ f.instsOf b ↔ (f.inst j).block = b := by
      rw [hf.mem_instsOf]
      exact and_iff_right hlive
    simp [hmem]

lemma deleteBlock (b : BlockId) : (f.deleteBlock b).Consistent := by
  have hfr := sameFrame_foldl (fun f i => sameFrame_remove f i) (f.instsOf b) f
  have hsize : (f.deleteBlock b).blocks.size = f.blocks.size := by
    rw [Func.deleteBlock, ← hfr.blocks]
    simp [modifyBlock]
  have hlay : (f.deleteBlock b).layout = f.layout := by
    rw [Func.deleteBlock, ← hfr.layout, modifyBlock]
  refine hf.of_threaded hlay hsize (hf.threaded_deleteBlock b) fun c j => ?_
  have hblk : ((f.deleteBlock b).inst j).block = (f.inst j).block := by
    exact (record_foldl_remove _ f j).2.2
  rw [hf.live_deleteBlock, hblk, Bool.and_eq_true]
  split
  · next hc =>
    subst hc
    simp
  · next hc =>
    rw [hf.mem_instsOf]
    constructor
    · grind
    · grind

/-! ## New instructions -/

lemma nextInst_not_mem (b : BlockId) : f.nextInst ∉ f.instsOf b := by
  intro hi
  exact ne_nextInst (hf.threaded.home b _ hi).1 rfl

lemma threaded_create (b : BlockId) (k : Instr) (t : Ty) :
    (f.create b k t).Threaded f.instsOf := by
  have hbare {c : BlockId} {i : InstId} (hi : i ∈ f.instsOf c) :
      ((f.create b k t).inst i).bare = (f.inst i).bare := by
    rw [bare_create, if_neg]
    rintro rfl
    exact hf.nextInst_not_mem c hi
  have hblk (c : BlockId) : (f.create b k t).block c = f.block c := by
    rw [create, (samePlaces_register _ _).ends]
    rfl
  constructor
  · exact fun c => (hblk c).symm ▸ hf.threaded.first c
  · exact fun c => (hblk c).symm ▸ hf.threaded.last c
  · exact fun c => (hblk c).symm ▸ hf.threaded.length c
  · exact hf.threaded.nodup
  · intro c i hi
    have hhas := tracks_create f b k t (.inst i)
    have hhome := hf.threaded.home c i hi
    have hplace : ((f.create b k t).inst i).block = (f.inst i).block := by
      simpa using congrArg InstRecord.block (hbare hi)
    simp only [tracks, hhome.1, Bool.true_or] at hhas
    exact ⟨hhas, hplace.trans hhome.2⟩
  · exact fun c => (hf.threaded.next c).congr fun i hi => by
      simpa using congrArg InstRecord.next (hbare hi)
  · exact fun c => (hf.threaded.prev c).congr fun i hi => by
      simpa using congrArg InstRecord.prev (hbare (mem_reverse.mp hi))

section

variable (hb : f.hasBlock b) (hl : f.instsOf b = l ++ r) (k : Instr) (t : Ty)
include hb hl

lemma threaded_insertAt :
    (f.insertAt b l.getLast? k t).Threaded (update f.instsOf b (l ++ f.nextInst :: r)) := by
  have hblk : (f.create b k t).hasBlock b := (sameFrame_create f b k t).hasBlock b ▸ hb
  exact (hf.threaded_create b k t).link hblk (hasInst_create f b k t) hf.nextInst_not_mem hl

lemma instsOf_insertAt (c : BlockId) :
    (f.insertAt b l.getLast? k t).instsOf c =
      if c = b then l ++ f.nextInst :: r else f.instsOf c := by
  rw [(hf.threaded_insertAt hb hl k t).instsOf_eq, update_apply]

lemma insertAt : (f.insertAt b l.getLast? k t).Consistent := by
  have hfr := sameFrame_insertAt f b l.getLast? k t
  refine hf.of_threaded hfr.layout hfr.blocks (hf.threaded_insertAt hb hl k t) fun c j => ?_
  obtain ⟨-, -, hblk, hlive⟩ := record_insertAt f b l.getLast? k t j
  have hmem : j ∈ f.instsOf b ↔ j ∈ l ∨ j ∈ r := by rw [hl, mem_append]
  rw [hblk, hlive, Bool.or_eq_true]
  by_cases hj : j = f.nextInst
  · subst hj
    by_cases hc : c = b
    · simp [hc]
    · simp [hc, hf.nextInst_not_mem c, Ne.symm hc]
  · by_cases hc : c = b
    · subst hc
      simp [hj, ← hmem, hf.mem_instsOf]
    · simp [hc, hj, hf.mem_instsOf]

end

lemma instsOf_prepend (hb : f.hasBlock b) (k : Instr) (t : Ty) (c : BlockId) :
    (f.prepend b k t).instsOf c = if c = b then f.nextInst :: f.instsOf b else f.instsOf c :=
  hf.instsOf_insertAt hb (nil_append _).symm k t c

lemma prepend (hb : f.hasBlock b) (k : Instr) (t : Ty) : (f.prepend b k t).Consistent :=
  hf.insertAt hb (nil_append _).symm k t

lemma append_eq_insertAt (b : BlockId) (k : Instr) (t : Ty) :
    f.append b k t = f.insertAt b (f.instsOf b).getLast? k t := by
  rw [← (hf.threaded_create b k t).last, append, linkLast, Func.insertAt]

lemma instsOf_append (hb : f.hasBlock b) (k : Instr) (t : Ty) (c : BlockId) :
    (f.append b k t).instsOf c = if c = b then f.instsOf b ++ [f.nextInst] else f.instsOf c := by
  rw [hf.append_eq_insertAt]
  exact hf.instsOf_insertAt hb (append_nil _).symm k t c

lemma append (hb : f.hasBlock b) (k : Instr) (t : Ty) : (f.append b k t).Consistent := by
  rw [hf.append_eq_insertAt]
  exact hf.insertAt hb (append_nil _).symm k t

lemma insertBefore_eq_insertAt (hl : f.instsOf b = l ++ i :: r) (k : Instr) (t : Ty) :
    f.insertBefore i k t = f.insertAt b l.getLast? k t := by
  have hi : i ∈ f.instsOf b := by simp [hl]
  rw [insertBefore, Func.insertAt, hf.block_of_mem hi, hf.threaded.prev_eq hl]

lemma hasBlock_of_mem (hi : i ∈ f.instsOf b) : f.hasBlock b :=
  hf.threaded.hasBlock_of_mem hi

lemma instsOf_insertBefore (hl : f.instsOf b = l ++ i :: r) (k : Instr) (t : Ty) (c : BlockId) :
    (f.insertBefore i k t).instsOf c =
      if c = b then l ++ f.nextInst :: i :: r else f.instsOf c := by
  rw [hf.insertBefore_eq_insertAt hl]
  exact hf.instsOf_insertAt (hf.hasBlock_of_mem (i := i) (by simp [hl])) hl k t c

end Consistent

/-! ## Deciding consistency -/

instance decidableLinked {α : Type} [DecidableEq α] (next : α → Option α) :
    (l : List α) → Decidable (Linked next l)
  | [] => isTrue trivial
  | i :: r =>
    have := decidableLinked next r
    inferInstanceAs (Decidable (next i = r.head? ∧ Linked next r))

def Chained (f : Func) (b : BlockId) : Prop :=
  (f.block b).first = (f.instsOf b).head? ∧ (f.block b).last = (f.instsOf b).getLast? ∧
    (f.block b).length = (f.instsOf b).length ∧ (f.instsOf b).Nodup ∧
    (∀ i ∈ f.instsOf b, (f.inst i).live ∧ (f.inst i).block = b) ∧
    Linked (fun i => (f.inst i).next) (f.instsOf b) ∧
    Linked (fun i => (f.inst i).prev) (f.instsOf b).reverse

instance (f : Func) (b : BlockId) : Decidable (f.Chained b) :=
  inferInstanceAs (Decidable (_ ∧ _))

lemma instsOf_of_first_eq_none (h : (f.block b).first = none) : f.instsOf b = [] := by
  rw [instsOf, chain, h]
  cases f.insts.size <;> rfl

lemma chained_of_not_hasBlock (hb : f.hasBlock b = false) : f.Chained b := by
  have hblk := block_of_not_hasBlock f hb
  have hinsts : f.instsOf b = [] := instsOf_of_first_eq_none (by rw [hblk]; rfl)
  rw [Chained, hinsts, hblk]
  exact ⟨rfl, rfl, rfl, nodup_nil, nofun, trivial, trivial⟩

lemma consistent_iff : f.Consistent ↔
    (∀ n < f.blocks.size, f.Chained ⟨n⟩) ∧
      (∀ n < f.insts.size, (f.inst ⟨n⟩).live → ⟨n⟩ ∈ f.instsOf (f.inst ⟨n⟩).block) ∧
      f.layout.Nodup ∧ (∀ b ∈ f.layout, f.hasBlock b) ∧
      (∀ n < f.blocks.size, ⟨n⟩ ∈ f.layout) ∧ f.layout.head? = f.entry? := by
  constructor
  · intro hf
    refine ⟨fun n _ => ?_, fun n _ hlive => hf.mem_of_live hlive, hf.layout_nodup,
      fun b hb => (hf.mem_layout b).mp hb, fun n hn => (hf.mem_layout _).mpr ?_, hf.layout_head⟩
    · exact ⟨hf.threaded.first _, hf.threaded.last _, hf.threaded.length _, hf.nodup _,
        fun i hi => (hf.mem_instsOf _ i).mp hi, hf.threaded.next _, hf.threaded.prev _⟩
    · exact (hasBlock_iff f).mpr hn
  · rintro ⟨hchained, hlive, hnd, hlay, hblks, hhead⟩
    have hall (b : BlockId) : f.Chained b := by
      cases hb : f.hasBlock b with
      | true => exact hchained b.idx ((hasBlock_iff f).mp hb)
      | false => exact chained_of_not_hasBlock hb
    refine ⟨⟨fun b => (hall b).1, fun b => (hall b).2.1, fun b => (hall b).2.2.1,
      fun b => (hall b).2.2.2.1, fun b i hi => ?_, fun b => (hall b).2.2.2.2.2.1,
      fun b => (hall b).2.2.2.2.2.2⟩, fun b i => ⟨(hall b).2.2.2.2.1 i, ?_⟩, hnd,
      fun b => ⟨hlay b, fun hb => hblks b.idx ((hasBlock_iff f).mp hb)⟩, hhead⟩
    · obtain ⟨hi, hblk⟩ := (hall b).2.2.2.2.1 i hi
      exact ⟨hasInst_of_live hi, hblk⟩
    · rintro ⟨hi, rfl⟩
      exact hlive i.idx ((hasInst_iff f).mp (hasInst_of_live hi)) hi

instance (f : Func) : Decidable f.Consistent :=
  decidable_of_iff' _ consistent_iff

lemma entry_eq (f : Func) : f.entry? = if f.hasBlock ⟨0⟩ then some ⟨0⟩ else none := by
  have hblk := hasBlock_iff f (b := ⟨0⟩)
  rw [ entry?]
  by_cases h : f.blocks.size = 0
  · grind
  · simp_all

lemma entry_of_pos (h : 0 < f.blocks.size) : f.entry? = some ⟨0⟩ := by
  rw [entry_eq, if_pos ((hasBlock_iff f).mpr h)]

lemma hasBlock_entry (h : f.entry? = some b) : f.hasBlock b := by
  rw [entry_eq] at h
  split at h
  · next hblk => exact Option.some.inj h ▸ hblk
  · cases h

end Func

end MiddleEnd
