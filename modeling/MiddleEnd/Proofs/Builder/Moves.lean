import MiddleEnd.Builder
import MiddleEnd.Proofs.Machine.Frame

/-!
# The moves of a builder

Whatever is asked of a builder, its function changes in four ways only: a block is added, another
block becomes the current one, an instruction is appended to an open block, or a slot is put in
front of the entry.  A call of the builder is a row of such moves; the one exception gives a pending
jump its target.  What a session does to a function is therefore proved for one move, and for one
resolved jump.
-/

namespace MiddleEnd

open Func List Option

/-- The part of a builder that its calls work on. -/
structure Draft where
  body : Func
  current : BlockId
  pending : List InstId

def Builder.draft (b : Builder) : Draft where
  body := b.body
  current := b.current
  pending := b.pending

namespace Instr

variable {k : Instr}

/-- Everything that the instruction names exists in the function. -/
structure Closed (k : Instr) (f : Func) : Prop where
  operands : ∀ v ∈ k.operands, f.defines v
  targets : ∀ c ∈ k.targets, f.hasBlock c

/-- Instructions that a builder adds, with their result type: no phis, and nothing that is decided
by literals alone. -/
structure Plain (k : Instr) (t : Ty) : Prop where
  phi : k.isPhi = false
  branch : ∀ c x y, k = .branch c x y → c.const? = none
  fold : k.fold? t = none

def isFolded : Instr → Bool
  | binary .. | icmp .. | fcmp .. | cast .. => true
  | _ => false

lemma Plain.of_fold {t : Ty} (hk : k.isFolded) (hfold : k.fold? t = none) :
    k.Plain t := by
  cases k with
  | binary | icmp | fcmp | cast => exact ⟨rfl, nofun, hfold⟩
  | _ => cases hk

lemma Plain.ret (v : Option Operand) : (Instr.ret v).Plain .void :=
  ⟨rfl, nofun, rfl⟩

lemma added_of_isFolded (hk : k.isFolded) :
    k.isAlloc = false ∧ k.isPendingJump = false := by
  cases k with
  | binary | icmp | fcmp | cast => exact ⟨rfl, rfl⟩
  | _ => cases hk

end Instr

namespace Draft

/-- A move of a builder.  A strict one only names what exists in the function. -/
inductive Move (strict : Prop) : Draft → Draft → Prop
  | addBlock (d : Draft) (label : String) : Move strict d { d with body := d.body.addBlock label }
  | switchTo (d : Draft) (c : BlockId) (hc : strict → d.body.hasBlock c) :
    Move strict d { d with current := c }
  | append (d : Draft) (k : Instr) (t : Ty) (hcur : d.body.hasBlock d.current)
    (hopen : d.body.terminator? d.current = none) (hplain : k.Plain t) (halloc : k.isAlloc = false)
    (hadmits : k.operands.all d.body.admitsNew) (hclosed : strict → k.Closed d.body) :
    Move strict d
      { d with
        body := d.body.append d.current k t
        pending := if k.isPendingJump then d.pending ++ [d.body.nextInst] else d.pending }
  | reserve (d : Draft) (t : Ty) (hent : d.body.hasBlock ⟨0⟩ = true) :
    Move strict d { d with body := d.body.prepend ⟨0⟩ (.alloc t) (.pointer t) }

abbrev Moves (strict : Prop) : Draft → Draft → Prop :=
  Relation.ReflTransGen (Move strict)

/-- A pending jump of the function gets its target. -/
def resolved (d : Draft) (i : InstId) (target : BlockId) : Draft :=
  { d with
    body := d.body.replaceInstr i (.jump (some target))
    pending := d.pending.filter (· ≠ i) }

end Draft

/-! ## What stays -/

namespace Func

variable {f g h : Func} {b : BlockId}

/-- Everything of `f` is in `g` as it was, but for the ends and the edges of the blocks. -/
structure Grows (f g : Func) : Prop where
  params : g.params.size = f.params.size
  hasInst : ∀ i, f.hasInst i → g.hasInst i
  instr : ∀ i, f.hasInst i → g.instr i = f.instr i
  ty : ∀ i, f.hasInst i → (g.inst i).ty = (f.inst i).ty
  live : ∀ i, f.hasInst i → (g.inst i).live = (f.inst i).live
  hasBlock : ∀ c, f.hasBlock c → g.hasBlock c
  deleted : ∀ c, (g.block c).deleted = (f.block c).deleted

namespace Grows

lemma refl (f : Func) : f.Grows f :=
  ⟨rfl, fun _ h => h, fun _ _ => rfl, fun _ _ => rfl, fun _ _ => rfl, fun _ h => h, fun _ => rfl⟩

lemma trans (hfg : f.Grows g) (hgh : g.Grows h) : f.Grows h where
  params := hgh.params.trans hfg.params
  hasInst i hi := hgh.hasInst i (hfg.hasInst i hi)
  instr i hi := (hgh.instr i (hfg.hasInst i hi)).trans (hfg.instr i hi)
  ty i hi := (hgh.ty i (hfg.hasInst i hi)).trans (hfg.ty i hi)
  live i hi := (hgh.live i (hfg.hasInst i hi)).trans (hfg.live i hi)
  hasBlock c hc := hgh.hasBlock c (hfg.hasBlock c hc)
  deleted c := (hgh.deleted c).trans (hfg.deleted c)

lemma defines (hfg : f.Grows g) {v : Operand} (hv : f.defines v) : g.defines v := by
  cases v with
  | inst i =>
    rw [Func.defines] at hv ⊢
    rw [hfg.live i (hasInst_of_live hv), hv]
  | arg n => rwa [Func.defines, hfg.params]
  | const c => rfl
  | global n => rfl

lemma closed (hfg : f.Grows g) {k : Instr} (hk : k.Closed f) : k.Closed g where
  operands v hv := hfg.defines (hk.operands v hv)
  targets c hc := hfg.hasBlock c (hk.targets c hc)

end Grows

lemma grows_addBlock (f : Func) (label : String) : f.Grows (f.addBlock label) where
  params := rfl
  hasInst _ hi := hi
  instr _ _ := rfl
  ty _ _ := rfl
  live _ _ := rfl
  hasBlock c hc := (hasBlock_addBlock f label c).mpr (.inl hc)
  deleted c := by
    rw [block_addBlock]
    split
    · next hc =>
      rw [hc, block_of_not_hasBlock f f.not_hasBlock_nextBlock]
      rfl
    · rfl

section

variable (f : Func) (b : BlockId) (prev : Option InstId) (k : Instr) (t : Ty)

lemma hasInst_insertAt (i : InstId) :
    (f.insertAt b prev k t).hasInst i ↔ f.hasInst i ∨ i = f.nextInst := by
  rw [hasInst_iff, hasInst_iff, size_insertAt, Nat.lt_succ_iff_lt_or_eq]
  exact or_congr_right ⟨fun h => congrArg InstId.mk h, fun h => congrArg InstId.idx h⟩

lemma grows_insertAt : f.Grows (f.insertAt b prev k t) := by
  have hfr := sameFrame_insertAt f b prev k t
  have hrec := record_insertAt f b prev k t
  refine ⟨hfr.params_size, fun i hi => (hasInst_insertAt f b prev k t i).mpr (.inl hi),
    fun i hi => ?_, fun i hi => ?_, fun i hi => ?_, fun c hc => (hfr.hasBlock c).trans hc,
    hfr.blockDeleted⟩
  · exact (hrec i).1.trans (if_neg (ne_nextInst hi))
  · exact (hrec i).2.1.trans (if_neg (ne_nextInst hi))
  · rw [(hrec i).2.2.2, decide_eq_false (ne_nextInst hi), Bool.false_or]

lemma defines_nextInst_insertAt : (f.insertAt b prev k t).defines (.inst f.nextInst) := by
  rw [defines, (record_insertAt f b prev k t _).2.2.2, decide_eq_true rfl, Bool.true_or]

lemma instr_insertAt_nextInst : (f.insertAt b prev k t).instr f.nextInst = k :=
  (record_insertAt f b prev k t _).1.trans (if_pos rfl)

end

section

variable (f : Func) (b : BlockId) (k : Instr) (t : Ty)

lemma grows_append : f.Grows (f.append b k t) :=
  grows_insertAt f b _ k t

lemma grows_prepend : f.Grows (f.prepend b k t) :=
  grows_insertAt f b none k t

lemma instr_append_nextInst : (f.append b k t).instr f.nextInst = k :=
  instr_insertAt_nextInst f b _ k t

lemma instr_prepend_nextInst : (f.prepend b k t).instr f.nextInst = k :=
  instr_insertAt_nextInst f b none k t

end

/-! ## Ends of blocks -/

lemma Consistent.filter_getLast? (hf : f.Consistent) (hfg : f.Grows g) (c : BlockId) :
    ((f.instsOf c).getLast?.filter fun i => (g.instr i).isTerminator) = f.terminator? c := by
  rw [hf.terminator?_eq]
  cases hlast : (f.instsOf c).getLast? with
  | none => rfl
  | some i =>
    have hlive := hf.live_of_mem (mem_of_getLast? hlast)
    rw [filter_some, filter_some, hfg.instr i (hasInst_of_live hlive)]

lemma Consistent.terminator?_addBlock (hf : f.Consistent) (label : String) (c : BlockId) :
    (f.addBlock label).terminator? c = f.terminator? c := by
  rw [(hf.addBlock label).terminator?_eq, (hf.instsOf_addBlock label).1]
  exact hf.filter_getLast? (grows_addBlock f label) c

lemma Consistent.terminator?_prepend (hf : f.Consistent)
    (hb : f.hasBlock b) {k : Instr} (hk : k.isTerminator = false) (t : Ty) (c : BlockId) :
    (f.prepend b k t).terminator? c = f.terminator? c := by
  have hold := hf.filter_getLast? (grows_prepend f b k t) c
  rw [(hf.prepend hb k t).terminator?_eq, hf.instsOf_prepend hb]
  split
  · next hc =>
    subst hc
    cases hlist : f.instsOf c with
    | nil =>
      -- the block was empty, so its new last instruction is the one put in front
      rw [hlist] at hold
      rw [← hold, getLast?_singleton, filter_some, instr_prepend_nextInst, hk]
      rfl
    | cons i l => rw [getLast?_cons_cons, ← hlist, hold]
  · exact hold

lemma Consistent.terminator?_append (hf : f.Consistent)
    (hb : f.hasBlock b) (k : Instr) (t : Ty) (c : BlockId) :
    (f.append b k t).terminator? c =
      if c = b then if k.isTerminator then some f.nextInst else none else f.terminator? c := by
  rw [(hf.append hb k t).terminator?_eq, hf.instsOf_append hb]
  split
  · rw [getLast?_concat, filter_some, instr_append_nextInst]
  · exact hf.filter_getLast? (grows_append f b k t) c

end Func

/-! ## One move -/

namespace Draft

variable {strict : Prop} {d d' : Draft}

section

variable (h : Move strict d d')
include h

lemma Move.grows : d.body.Grows d'.body := by
  cases h with
  | addBlock label => exact d.body.grows_addBlock label
  | switchTo c hc => exact .refl _
  | append k t => exact d.body.grows_append d.current k t
  | reserve t hent => exact d.body.grows_prepend _ _ _

lemma Move.consistent (hd : d.body.Consistent) : d'.body.Consistent := by
  cases h with
  | addBlock label => exact hd.addBlock label
  | switchTo c hc => exact hd
  | append k t hcur => exact hd.append hcur k t
  | reserve t hent => exact hd.prepend hent _ _

/-- A terminated block keeps its terminator, and only a new instruction ends an open one. -/
lemma Move.terminator? (hd : d.body.Consistent) (c : BlockId) :
    d'.body.terminator? c = d.body.terminator? c ∨
      d.body.terminator? c = none ∧ d'.body.terminator? c = some d.body.nextInst := by
  cases h with
  | addBlock label => exact .inl (hd.terminator?_addBlock label c)
  | switchTo b hb => exact .inl rfl
  | append k t hcur hopen =>
    rw [hd.terminator?_append hcur]
    split
    · grind
    · exact .inl rfl
  | reserve t hent => exact .inl (hd.terminator?_prepend hent rfl _ c)

lemma Move.subset_pending : d.pending ⊆ d'.pending := by
  cases h with
  | append k t => grind
  | _ => exact Subset.refl _

lemma Move.mem_pending {i : InstId}
    (hold : d.body.hasInst i → (d.body.instr i).isPendingJump → i ∈ d.pending)
    (hi : d'.body.hasInst i) (hpend : (d'.body.instr i).isPendingJump) :
    i ∈ d'.pending := by
  by_cases hhas : d.body.hasInst i
  · rw [h.grows.instr i hhas] at hpend
    exact h.subset_pending (hold hhas hpend)
  have hnew {b : BlockId} {prev : Option InstId} {k : Instr} {t : Ty}
      (hi : (d.body.insertAt b prev k t).hasInst i) : i = d.body.nextInst :=
    ((d.body.hasInst_insertAt b prev k t i).mp hi).resolve_left hhas
  cases h with
  | addBlock label => exact absurd hi hhas
  | switchTo c hc => exact absurd hi hhas
  | append k t =>
    obtain rfl := hnew hi
    rw [instr_append_nextInst] at hpend
    rw [if_pos hpend]
    exact mem_append_right _ (.head _)
  | reserve t hent =>
    obtain rfl := hnew hi
    rw [instr_prepend_nextInst] at hpend
    cases hpend

end

lemma Moves.grows (h : Moves strict d d') : d.body.Grows d'.body := by
  induction h with
  | refl => exact .refl _
  | tail _ hmove ih => exact ih.trans hmove.grows

end Draft

/-! ## Resolved jumps -/

lemma Instr.eq_of_isPendingJump {k : Instr} (h : k.isPendingJump) : k = .jump none := by
  cases k with
  | jump target =>
    cases target with
    | none => rfl
    | some c => cases h
  | _ => cases h

namespace Draft

variable {d : Draft} {i j : InstId}

lemma samePlaces_resolved (d : Draft) (i : InstId) (c : BlockId) :
    d.body.SamePlaces (d.resolved i c).body :=
  samePlaces_replaceInstr d.body i _

lemma instr_resolved_self (hi : d.body.hasInst i) (c : BlockId) :
    (d.resolved i c).body.instr i = .jump (some c) :=
  instr_replaceInstr_self hi _

lemma instr_resolved_of_ne (hj : j ≠ i) (c : BlockId) :
    (d.resolved i c).body.instr j = d.body.instr j :=
  instr_replaceInstr_of_ne hj _

lemma kind_resolved (hi : d.body.hasInst i)
    (hpend : (d.body.instr i).isPendingJump) (c : BlockId) (j : InstId) :
    ((d.resolved i c).body.instr j).isTerminator = (d.body.instr j).isTerminator ∧
      ((d.resolved i c).body.instr j).isAlloc = (d.body.instr j).isAlloc := by
  by_cases hj : j = i
  · rw [hj, instr_resolved_self hi, Instr.eq_of_isPendingJump hpend]
    exact ⟨rfl, rfl⟩
  · rw [instr_resolved_of_ne hj]
    exact ⟨rfl, rfl⟩

lemma mem_pending_resolved (hi : d.body.hasInst i) {c : BlockId}
    (hold : d.body.hasInst j → (d.body.instr j).isPendingJump → j ∈ d.pending)
    (hj : (d.resolved i c).body.hasInst j)
    (hpend : ((d.resolved i c).body.instr j).isPendingJump) :
    j ∈ (d.resolved i c).pending := by
  have hji : j ≠ i := by
    rintro rfl
    rw [instr_resolved_self hi] at hpend
    cases hpend
  rw [instr_resolved_of_ne hji] at hpend
  rw [(d.samePlaces_resolved i c).hasInst] at hj
  exact mem_filter.mpr ⟨hold hj hpend, by simpa using hji⟩

lemma terminator?_resolved (hi : d.body.hasInst i)
    (hpend : (d.body.instr i).isPendingJump) (c b : BlockId) :
    (d.resolved i c).body.terminator? b = d.body.terminator? b := by
  rw [terminator?, terminator?, (d.samePlaces_resolved i c).ends]
  simp only [(kind_resolved hi hpend c _).1]

end Draft

end MiddleEnd
