import Mathlib.Tactic.Common
import MiddleEnd.Func.Edit

/-!
# Records after an edit

An edit changes a few records of a function.  This module says what the records are afterwards,
for every handle: a handle that names nothing reads as the default record before and after the
edit, so no statement needs the handle that is read to be in range.

Most edits change use-lists besides what they are about.  `InstRecord.bare` is a record without its
use-list; that it stays the same says in one equation that operation, type, place and liveness do.
-/

namespace MiddleEnd

open Array

def InstRecord.bare (r : InstRecord) : InstRecord :=
  { r with users := [] }

section

variable (r : InstRecord)

@[simp]
lemma InstRecord.bare_users (us : List InstId) :
    { r with users := us }.bare = r.bare := rfl

@[simp]
lemma InstRecord.instr_bare : r.bare.instr = r.instr := rfl

@[simp]
lemma InstRecord.ty_bare : r.bare.ty = r.ty := rfl

@[simp]
lemma InstRecord.block_bare : r.bare.block = r.block := rfl

@[simp]
lemma InstRecord.prev_bare : r.bare.prev = r.prev := rfl

@[simp]
lemma InstRecord.next_bare : r.bare.next = r.next := rfl

@[simp]
lemma InstRecord.live_bare : r.bare.live = r.live := rfl

end

lemma getD_modify {α : Type} (xs : Array α) (m n : Nat) (g : α → α) (d : α) :
    (xs.modify m g).getD n d = if n = m ∧ m < xs.size then g (xs.getD n d) else xs.getD n d := by
  simp only [getD_eq_getD_getElem?, getElem?_modify]
  by_cases hn : m = n
  · grind
  · grind

namespace Func

variable {i : InstId} {β : Type}

variable (f : Func) {b : BlockId}

/-! ## Handles -/

lemma hasInst_iff : f.hasInst i ↔ i.idx < f.insts.size := by
  simp [hasInst]

lemma hasBlock_iff : f.hasBlock b ↔ b.idx < f.blocks.size := by
  simp [hasBlock]

lemma inst_of_not_hasInst (h : f.hasInst i = false) : f.inst i = default := by
  have hsize : f.insts.size ≤ i.idx := by simpa [hasInst] using h
  simp [inst, getD_eq_getD_getElem?, getElem?_eq_none hsize]

lemma block_of_not_hasBlock (h : f.hasBlock b = false) : f.block b = default := by
  have hsize : f.blocks.size ≤ b.idx := by simpa [hasBlock] using h
  simp [block, getD_eq_getD_getElem?, getElem?_eq_none hsize]

variable {f} in
lemma hasInst_of_live (h : (f.inst i).live) : f.hasInst i := by
  cases hi : f.hasInst i with
  | true => rfl
  | false =>
    rw [inst_of_not_hasInst f hi] at h
    exact absurd h Bool.false_ne_true

/-! ## One instruction record -/

lemma inst_modifyInst (i j : InstId) (g : InstRecord → InstRecord) :
    (f.modifyInst i g).inst j = if j = i ∧ f.hasInst i then g (f.inst j) else f.inst j := by
  obtain ⟨m⟩ := i
  obtain ⟨n⟩ := j
  simpa [hasInst, inst, modifyInst] using getD_modify f.insts m n g default

variable {f} in
lemma inst_modifyInst_self (h : f.hasInst i) (g : InstRecord → InstRecord) :
    (f.modifyInst i g).inst i = g (f.inst i) := by
  rw [inst_modifyInst, if_pos ⟨rfl, h⟩]

variable {f} in
lemma inst_modifyInst_of_ne {j : InstId} (h : j ≠ i) (g : InstRecord → InstRecord) :
    (f.modifyInst i g).inst j = f.inst j := by
  rw [inst_modifyInst, if_neg fun hj => h hj.1]

lemma modifyInst_project (p : InstRecord → β) {g : InstRecord → InstRecord}
    (hp : ∀ r, p (g r) = p r) (i j : InstId) : p ((f.modifyInst i g).inst j) = p (f.inst j) := by
  rw [inst_modifyInst]
  split
  · exact hp _
  · rfl

@[simp]
lemma hasInst_modifyInst (i j : InstId) (g : InstRecord → InstRecord) :
    (f.modifyInst i g).hasInst j = f.hasInst j := by
  simp [hasInst, modifyInst]

@[simp]
lemma size_modifyInst (i : InstId) (g : InstRecord → InstRecord) :
    (f.modifyInst i g).insts.size = f.insts.size := by
  simp [modifyInst]

@[simp]
lemma block_modifyInst (i : InstId) (g : InstRecord → InstRecord) (b : BlockId) :
    (f.modifyInst i g).block b = f.block b := rfl

/-! ## One block record -/

lemma block_modifyBlock (b c : BlockId) (g : Block → Block) :
    (f.modifyBlock b g).block c = if c = b ∧ f.hasBlock b then g (f.block c) else
      f.block c := by
  obtain ⟨m⟩ := b
  obtain ⟨n⟩ := c
  simpa [hasBlock, block, modifyBlock] using getD_modify f.blocks m n g default

lemma modifyBlock_project (p : Block → β) {g : Block → Block}
    (hp : ∀ d, p (g d) = p d) (b c : BlockId) :
    p ((f.modifyBlock b g).block c) = p (f.block c) := by
  rw [block_modifyBlock]
  split
  · exact hp _
  · rfl

@[simp]
lemma hasBlock_modifyBlock (b c : BlockId) (g : Block → Block) :
    (f.modifyBlock b g).hasBlock c = f.hasBlock c := by
  simp [hasBlock, modifyBlock]

@[simp]
lemma inst_modifyBlock (b : BlockId) (g : Block → Block) (i : InstId) :
    (f.modifyBlock b g).inst i = f.inst i := rfl

end Func

end MiddleEnd
