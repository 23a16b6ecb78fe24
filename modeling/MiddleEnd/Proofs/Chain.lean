import Mathlib.Data.List.Perm.Subperm
import Mathlib.Data.List.Nodup
import MiddleEnd.Proofs.Record

/-!
# Chains and the lists they stand for

The instructions of a block are linked in both directions.  `Func.Threaded f lists` says that the
links of `f` are those of the given lists: each block knows the two ends of its list and its length,
and each instruction its neighbours.  Following the links then gives the lists back, and putting an
instruction into a chain or taking it out does the same to its list.
-/

namespace MiddleEnd

open List

/-! ## Links along a list -/

/-- `next` leads from each element of the list to the following one, and from the last one
nowhere. -/
def Linked {α : Type} (next : α → Option α) : List α → Prop
  | [] => True
  | i :: r => next i = r.head? ∧ Linked next r

namespace Linked

variable {α : Type} {next next' : α → Option α}

lemma congr {l : List α} (h : Linked next l) (heq : ∀ j ∈ l, next' j = next j) :
    Linked next' l := by
  induction l with
  | nil => trivial
  | cons i r ih =>
    refine ⟨(heq i (.head _)).trans h.1, ih h.2 ?_⟩
    exact fun j hj => heq j (.tail i hj)

lemma of_append {l r : List α} (h : Linked next (l ++ r)) : Linked next r := by
  induction l with
  | nil => exact h
  | cons i l ih => exact ih h.2

lemma next_eq {l r : List α} {i : α} (h : Linked next (l ++ i :: r)) : next i = r.head? :=
  h.of_append.1

/-- The front of a linked list goes on with another one if its last element leads there. -/
lemma rejoin {l r m : List α} (h : Linked next (l ++ r)) (hnd : l.Nodup)
    (hm : Linked next' m) (hlast : ∀ p, l.getLast? = some p → next' p = m.head?)
    (hother : ∀ j ∈ l, l.getLast? ≠ some j → next' j = next j) : Linked next' (l ++ m) := by
  induction l with
  | nil => exact hm
  | cons x l ih =>
    obtain ⟨hx, hnd⟩ := nodup_cons.mp hnd
    cases l with
    | nil => exact ⟨hlast x rfl, hm⟩
    | cons y l =>
      have hne : (x :: y :: l).getLast? ≠ some x := by
        intro hm
        exact hx (mem_of_getLast? hm)
      have hstep : next' x = next x := hother x (.head _) hne
      refine ⟨hstep.trans h.1, ih h.2 hnd ?_ ?_⟩
      · exact fun p hp => hlast p (by rwa [List.getLast?_cons_cons])
      · intro j hj hp
        exact hother j (.tail x hj) (by rwa [List.getLast?_cons_cons])

end Linked

namespace Func

variable {f : Func}

/-! ## Links of one edit -/

section

variable (f : Func) (b : BlockId) (prev next : Option InstId)

lemma inst_setNext (j : InstId) :
    (f.setNext b prev next).inst j =
      if prev = some j ∧ f.hasInst j then { f.inst j with next } else f.inst j := by
  cases prev with
  | none => simp [setNext]
  | some p =>
    rw [setNext, inst_modifyInst]
    by_cases hj : j = p
    · simp [hj]
    · simp [hj, Ne.symm hj]

lemma inst_setPrev (j : InstId) :
    (f.setPrev b prev next).inst j =
      if next = some j ∧ f.hasInst j then { f.inst j with prev } else f.inst j := by
  cases next with
  | none => simp [setPrev]
  | some n =>
    rw [setPrev, inst_modifyInst]
    by_cases hj : j = n
    · simp [hj]
    · simp [hj, Ne.symm hj]

lemma block_setNext (c : BlockId) :
    (f.setNext b prev next).block c =
      if prev = none ∧ c = b ∧ f.hasBlock b then { f.block c with first := next } else
        f.block c := by
  cases prev with
  | none => simp [setNext, block_modifyBlock]
  | some p => simp [setNext]

lemma block_setPrev (c : BlockId) :
    (f.setPrev b prev next).block c =
      if next = none ∧ c = b ∧ f.hasBlock b then { f.block c with last := prev } else
        f.block c := by
  cases next with
  | none => simp [setPrev, block_modifyBlock]
  | some n => simp [setPrev]

@[simp]
lemma hasInst_setNext (j : InstId) : (f.setNext b prev next).hasInst j = f.hasInst j := by
  cases prev with
  | none => rfl
  | some p => exact hasInst_modifyInst f p j _

@[simp]
lemma hasInst_setPrev (j : InstId) : (f.setPrev b prev next).hasInst j = f.hasInst j := by
  cases next with
  | none => rfl
  | some n => exact hasInst_modifyInst f n j _

@[simp]
lemma hasBlock_setNext (c : BlockId) : (f.setNext b prev next).hasBlock c = f.hasBlock c := by
  cases prev with
  | none => exact hasBlock_modifyBlock f b c _
  | some p => rfl

@[simp]
lemma hasBlock_setPrev (c : BlockId) : (f.setPrev b prev next).hasBlock c = f.hasBlock c := by
  cases next with
  | none => exact hasBlock_modifyBlock f b c _
  | some n => rfl

end

@[simp]
lemma hasBlock_modifyInst (f : Func) (i : InstId) (g : InstRecord → InstRecord) (b : BlockId) :
    (f.modifyInst i g).hasBlock b = f.hasBlock b := rfl

@[simp]
lemma hasInst_modifyBlock (f : Func) (b : BlockId) (g : Block → Block) (i : InstId) :
    (f.modifyBlock b g).hasInst i = f.hasInst i := rfl

lemma inst_link (f : Func) (b : BlockId) (prev : Option InstId) (i j : InstId) :
    (f.link b prev i).inst j =
      { f.inst j with
        block := if j = i ∧ f.hasInst i then b else (f.inst j).block
        prev := if f.successor b prev = some j ∧ f.hasInst j then some i
          else if j = i ∧ f.hasInst i then prev else (f.inst j).prev
        next := if prev = some j ∧ f.hasInst j then some i
          else if j = i ∧ f.hasInst i then f.successor b prev else (f.inst j).next } := by
  simp only [link, inst_modifyBlock, inst_setPrev, inst_setNext, inst_modifyInst,
    hasInst_setNext, hasInst_modifyInst]
  split_ifs <;> simp_all

lemma block_link (f : Func) (b : BlockId) (prev : Option InstId) (i : InstId) (c : BlockId) :
    (f.link b prev i).block c =
      { f.block c with
        first := if prev = none ∧ c = b ∧ f.hasBlock b then some i else (f.block c).first
        last := if f.successor b prev = none ∧ c = b ∧ f.hasBlock b then some i
          else (f.block c).last
        length := if c = b ∧ f.hasBlock b then (f.block c).length + 1
          else (f.block c).length } := by
  simp only [link, block_modifyBlock, block_setPrev, block_setNext, block_modifyInst,
    hasBlock_setPrev, hasBlock_setNext, hasBlock_modifyInst]
  by_cases hc : c = b ∧ f.hasBlock b
  · split_ifs <;> simp_all
  · simp [hc]

lemma inst_unlink (f : Func) (i j : InstId) :
    (f.unlink i).inst j =
      { f.inst j with
        prev := if j = i ∧ f.hasInst i then none
          else if (f.inst i).next = some j ∧ f.hasInst j then (f.inst i).prev
          else (f.inst j).prev
        next := if j = i ∧ f.hasInst i then none
          else if (f.inst i).prev = some j ∧ f.hasInst j then (f.inst i).next
          else (f.inst j).next } := by
  simp only [unlink, inst_modifyBlock, inst_setPrev, inst_setNext, inst_modifyInst,
    hasInst_modifyBlock, hasInst_setNext, hasInst_setPrev]
  split_ifs <;> simp_all

lemma block_unlink (f : Func) (i : InstId) (c : BlockId) :
    (f.unlink i).block c =
      { f.block c with
        first := if (f.inst i).prev = none ∧ c = (f.inst i).block ∧
            f.hasBlock (f.inst i).block then (f.inst i).next else (f.block c).first
        last := if (f.inst i).next = none ∧ c = (f.inst i).block ∧
            f.hasBlock (f.inst i).block then (f.inst i).prev else (f.block c).last
        length := if c = (f.inst i).block ∧ f.hasBlock (f.inst i).block
          then (f.block c).length - 1 else (f.block c).length } := by
  simp only [unlink, block_modifyInst, block_modifyBlock, block_setPrev, block_setNext,
    hasBlock_setPrev, hasBlock_setNext]
  split_ifs <;> simp_all

/-! ## Lists of instructions -/

/-- The links of `f` are those of the given lists. -/
structure Threaded (f : Func) (lists : BlockId → List InstId) : Prop where
  first : ∀ b, (f.block b).first = (lists b).head?
  last : ∀ b, (f.block b).last = (lists b).getLast?
  length : ∀ b, (f.block b).length = (lists b).length
  nodup : ∀ b, (lists b).Nodup
  home : ∀ b, ∀ i ∈ lists b, f.hasInst i ∧ (f.inst i).block = b
  next : ∀ b, Linked (fun i => (f.inst i).next) (lists b)
  prev : ∀ b, Linked (fun i => (f.inst i).prev) (lists b).reverse

namespace Threaded

variable {b : BlockId} {i : InstId} {l r : List InstId} {lists : BlockId → List InstId}

lemma hasBlock_of_mem (h : f.Threaded lists) (hi : i ∈ lists b) : f.hasBlock b := by
  cases hb : f.hasBlock b with
  | true => rfl
  | false =>
    have hfirst := h.first b
    rw [block_of_not_hasBlock f hb] at hfirst
    have hnil : lists b = [] := List.head?_eq_none_iff.mp hfirst.symm
    rw [hnil] at hi
    cases hi

lemma block_unique (h : f.Threaded lists) {c : BlockId} (hb : i ∈ lists b) (hc : i ∈ lists c) :
    b = c :=
  (h.home b i hb).2.symm.trans (h.home c i hc).2

lemma length_le (h : f.Threaded lists) (b : BlockId) : (lists b).length ≤ f.insts.size := by
  have hinj : Function.Injective InstId.idx := fun ⟨_⟩ ⟨_⟩ hij => congrArg InstId.mk hij
  have hsub : (lists b).map InstId.idx ⊆ List.range f.insts.size := by
    intro n hn
    obtain ⟨i, hi, rfl⟩ := mem_map.mp hn
    exact mem_range.mpr ((hasInst_iff f).mp (h.home b i hi).1)
  have hle := (((h.nodup b).map hinj).subperm hsub).length_le
  simpa using hle

lemma next_eq (h : f.Threaded lists) (hl : lists b = l ++ i :: r) :
    (f.inst i).next = r.head? := by
  have hlinked := h.next b
  rw [hl] at hlinked
  exact hlinked.next_eq

lemma prev_eq (h : f.Threaded lists) (hl : lists b = l ++ i :: r) :
    (f.inst i).prev = l.getLast? := by
  have hlinked := h.prev b
  rw [hl, reverse_append, reverse_cons, append_assoc] at hlinked
  rw [← List.head?_reverse]
  exact hlinked.next_eq

lemma chainFrom_eq (h : Linked (fun i => (f.inst i).next) r) {fuel : Nat}
    (hfuel : r.length ≤ fuel) :
    f.chainFrom fuel r.head? = r := by
  induction r generalizing fuel with
  | nil => cases fuel <;> rfl
  | cons i r ih =>
    cases fuel with
    | zero => simp at hfuel
    | succ fuel =>
      have hnext : (f.inst i).next = r.head? := h.1
      rw [List.head?_cons, chainFrom, hnext, ih h.2 (by simpa using hfuel)]

variable (h : f.Threaded lists)
include h

lemma instsOf_eq (b : BlockId) : f.instsOf b = lists b := by
  rw [instsOf, h.first]
  exact chainFrom_eq (h.next b) (h.length_le b)

lemma instsAfter_eq (hl : lists b = l ++ i :: r) : f.instsAfter i = r := by
  have hlen := h.length_le b
  have hlinked := h.next b
  rw [hl] at hlen hlinked
  rw [length_append, length_cons] at hlen
  rw [instsAfter, h.next_eq hl]
  exact chainFrom_eq hlinked.of_append.2 (by omega)

lemma successor_eq (hl : lists b = l ++ r) : f.successor b l.getLast? = r.head? := by
  rcases eq_nil_or_concat l with rfl | ⟨m, p, rfl⟩
  · rw [List.getLast?_nil, successor, h.first, hl, nil_append]
  · rw [concat_eq_append] at hl ⊢
    rw [List.getLast?_concat]
    exact h.next_eq (by simpa using hl)

/-- An edit that gives one block another list and keeps the other blocks and their instructions. -/
lemma update {g : Func} (hhas : ∀ j, g.hasInst j = f.hasInst j)
    (hblk : ∀ c, c ≠ b → g.block c = f.block c)
    (hinst : ∀ c, c ≠ b → ∀ j ∈ lists c, g.inst j = f.inst j) (hfirst : (g.block b).first = l.head?)
    (hlast : (g.block b).last = l.getLast?) (hlength : (g.block b).length = l.length)
    (hnd : l.Nodup) (hhome : ∀ j ∈ l, f.hasInst j ∧ (g.inst j).block = b)
    (hnext : Linked (fun j => (g.inst j).next) l)
    (hprev : Linked (fun j => (g.inst j).prev) l.reverse) :
    g.Threaded (Function.update lists b l) := by
  have hcases (P : BlockId → List InstId → Prop) (hb : P b l) (hc : ∀ c, c ≠ b → P c (lists c)) :
      ∀ c, P c (Function.update lists b l c) :=
    (Function.forall_update_iff lists P).mpr ⟨hb, hc⟩
  constructor
  case first => exact hcases (fun c l => _ = l.head?) hfirst fun c hc => hblk c hc ▸ h.first c
  case last => exact hcases (fun c l => _ = l.getLast?) hlast fun c hc => hblk c hc ▸ h.last c
  case length => exact hcases (fun c l => _ = l.length) hlength fun c hc => hblk c hc ▸ h.length c
  case nodup => exact hcases (fun _ l => l.Nodup) hnd fun c _ => h.nodup c
  case home =>
    simp only [hhas]
    refine hcases (fun c l => ∀ j ∈ l, f.hasInst j ∧ (g.inst j).block = c) hhome ?_
    intro c hc j hj
    rw [hinst c hc j hj]
    exact h.home c j hj
  case next =>
    refine hcases (fun _ l => Linked _ l) hnext fun c hc => (h.next c).congr fun j hj => ?_
    rw [hinst c hc j hj]
  case prev =>
    refine hcases (fun _ l => Linked _ l.reverse) hprev fun c hc => (h.prev c).congr fun j hj => ?_
    rw [hinst c hc j (mem_reverse.mp hj)]

lemma link (hb : f.hasBlock b) (hi : f.hasInst i) (hfresh : ∀ c, i ∉ lists c)
    (hl : lists b = l ++ r) :
    (f.link b l.getLast? i).Threaded (Function.update lists b (l ++ i :: r)) := by
  have hnext := h.successor_eq hl
  have hlinks := h.next b
  have hlinks' := h.prev b
  have hlast := h.last b
  have hnd := h.nodup b
  rw [hl] at hlinks hlinks' hlast hnd
  rw [reverse_append] at hlinks'
  have hin : ∀ j ∈ l ++ r, f.hasInst j ∧ (f.inst j).block = b := fun j hj => h.home b j (hl ▸ hj)
  have hne : ∀ j ∈ l ++ r, j ≠ i := fun j hj hji => hfresh b (hl ▸ hji ▸ hj)
  have hil : l.getLast? ≠ some i := fun hm => hne i (mem_append_left r (mem_of_getLast? hm)) rfl
  have hir : r.head? ≠ some i := fun hm => hne i (mem_append_right l (mem_of_head? hm)) rfl
  obtain ⟨hnodupl, hnodupr, hdisj⟩ := nodup_append.mp hnd
  refine h.update (fun j => by simp [MiddleEnd.Func.link]) (fun c hc => by simp [block_link, hc])
    (fun c hc j hj => ?_) ?_ ?_ ?_ ?_ (fun j hj => ?_) ?_ ?_
  · have hji : j ≠ i := fun hji => hfresh c (hji ▸ hj)
    have hjb : j ∉ l ++ r := fun hm => hc (h.block_unique hj (hl ▸ hm))
    have hjl : l.getLast? ≠ some j := fun hm => hjb (mem_append_left r (mem_of_getLast? hm))
    have hjr : r.head? ≠ some j := fun hm => hjb (mem_append_right l (mem_of_head? hm))
    simp [inst_link, hnext, hji, hjl, hjr]
  · rw [block_link]
    cases l with
    | nil => simp [hb]
    | cons x l => simp [h.first, hl]
  · rw [block_link, hnext]
    cases r with
    | nil => simp [hb]
    | cons x r => simpa using hlast
  · rw [block_link]
    simp only [h.length, hl, hb, and_self, if_true, length_append, length_cons]
    omega
  · exact nodup_middle.mpr (nodup_cons.mpr ⟨fun hm => hne i hm rfl, hnd⟩)
  · by_cases hji : j = i
    · simp [inst_link, hji, hi]
    · simpa [inst_link, hji] using hin j (by simpa [hji] using hj)
  · refine hlinks.rejoin hnodupl ⟨by simp [inst_link, hnext, hi, hil], ?_⟩ ?_ ?_
    · refine hlinks.of_append.congr fun j hj => ?_
      have hjl : l.getLast? ≠ some j := fun hm => hdisj j (mem_of_getLast? hm) j hj rfl
      simp [inst_link, hne j (mem_append_right l hj), hjl]
    · intro p hp
      simp [inst_link, hp, (hin p (mem_append_left r (mem_of_getLast? hp))).1]
    · intro j hj hp
      simp [inst_link, hp, hne j (mem_append_left r hj)]
  · rw [reverse_append, reverse_cons, append_assoc]
    refine hlinks'.rejoin (nodup_reverse.mpr hnodupr)
      ⟨by simp [inst_link, hnext, hi, hir], ?_⟩ ?_ ?_
    · refine hlinks'.of_append.congr fun j hj => ?_
      have hjl := mem_reverse.mp hj
      have hjr : r.head? ≠ some j := fun hm => hdisj j hjl j (mem_of_head? hm) rfl
      simp [inst_link, hnext, hne j (mem_append_left r hjl), hjr]
    · intro p hp
      rw [List.getLast?_reverse] at hp
      simp [inst_link, hnext, hp, (hin p (mem_append_right l (mem_of_head? hp))).1]
    · intro j hj hp
      rw [List.getLast?_reverse] at hp
      simp [inst_link, hnext, hp, hne j (mem_append_right l (mem_reverse.mp hj))]

lemma unlink (hl : lists b = l ++ i :: r) :
    (f.unlink i).Threaded (Function.update lists b (l ++ r)) := by
  have hib : i ∈ lists b := by simp [hl]
  have hb := h.hasBlock_of_mem hib
  have hblk := (h.home b i hib).2
  have hnext := h.next_eq hl
  have hprev := h.prev_eq hl
  have hlinks := h.next b
  have hlinks' := h.prev b
  have hlast := h.last b
  have hnd := h.nodup b
  rw [hl] at hlinks hlinks' hlast hnd
  rw [reverse_append, reverse_cons, append_assoc] at hlinks'
  obtain ⟨hilr, hnd⟩ := nodup_cons.mp (nodup_middle.mp hnd)
  have hin : ∀ j ∈ l ++ r, j ∈ lists b := fun j hj => by
    rw [hl]
    simp only [mem_append, mem_cons] at hj ⊢
    exact hj.imp_right .inr
  have hne : ∀ j ∈ l ++ r, j ≠ i := fun j hj hji => hilr (hji ▸ hj)
  obtain ⟨hnodupl, hnodupr, hdisj⟩ := nodup_append.mp hnd
  refine h.update (fun j => by simp [MiddleEnd.Func.unlink])
    (fun c hc => by simp [block_unlink, hblk, hc]) (fun c hc j hj => ?_) ?_ ?_ ?_ hnd
    (fun j hj => ?_) ?_ ?_
  · have hji : j ≠ i := fun hji => hc (h.block_unique (hji ▸ hj) hib)
    have hjb : j ∉ l ++ r := fun hm => hc (h.block_unique hj (hin j hm))
    have hjl : l.getLast? ≠ some j := fun hm => hjb (mem_append_left r (mem_of_getLast? hm))
    have hjr : r.head? ≠ some j := fun hm => hjb (mem_append_right l (mem_of_head? hm))
    simp [inst_unlink, hprev, hnext, hji, hjl, hjr]
  · rw [block_unlink, hprev, hblk, hnext]
    cases l with
    | nil => simp [hb]
    | cons x l => simp [h.first, hl]
  · rw [block_unlink, hprev, hblk, hnext]
    cases r with
    | nil => simp [hb]
    | cons x r => simpa using hlast
  · rw [block_unlink, hblk]
    simp only [h.length, hl, hb, and_self, if_true, length_append, length_cons]
    omega
  · simpa [inst_unlink] using h.home b j (hin j hj)
  · refine hlinks.rejoin hnodupl ?_ ?_ ?_
    · refine hlinks.of_append.2.congr fun j hj => ?_
      have hjl : l.getLast? ≠ some j := fun hm => hdisj j (mem_of_getLast? hm) j hj rfl
      simp [inst_unlink, hprev, hne j (mem_append_right l hj), hjl]
    · intro p hp
      have hp' := mem_append_left r (mem_of_getLast? hp)
      simp [inst_unlink, hprev, hnext, hp, hne p hp', (h.home b p (hin p hp')).1]
    · intro j hj hp
      simp [inst_unlink, hprev, hp, hne j (mem_append_left r hj)]
  · rw [reverse_append]
    refine hlinks'.rejoin (nodup_reverse.mpr hnodupr) ?_ ?_ ?_
    · refine hlinks'.of_append.2.congr fun j hj => ?_
      have hjl := mem_reverse.mp hj
      have hjr : r.head? ≠ some j := fun hm => hdisj j hjl j (mem_of_head? hm) rfl
      simp [inst_unlink, hnext, hne j (mem_append_left r hjl), hjr]
    · intro p hp
      rw [List.getLast?_reverse] at hp
      have hp' := mem_append_right l (mem_of_head? hp)
      simp [inst_unlink, hprev, hnext, hp, hne p hp', (h.home b p (hin p hp')).1]
    · intro j hj hp
      rw [List.getLast?_reverse] at hp
      simp [inst_unlink, hnext, hp, hne j (mem_append_right l (mem_reverse.mp hj))]

lemma congr {g : Func} (hsize : g.insts.size = f.insts.size)
    (hinst : ∀ i, (g.inst i).block = (f.inst i).block ∧ (g.inst i).prev = (f.inst i).prev ∧
      (g.inst i).next = (f.inst i).next)
    (hblk : ∀ b, (g.block b).first = (f.block b).first ∧ (g.block b).last = (f.block b).last ∧
      (g.block b).length = (f.block b).length) : g.Threaded lists where
  first b := (hblk b).1.trans (h.first b)
  last b := (hblk b).2.1.trans (h.last b)
  length b := (hblk b).2.2.trans (h.length b)
  nodup := h.nodup
  home b i hi := by
    obtain ⟨hhas, hhome⟩ := h.home b i hi
    refine ⟨?_, (hinst i).1.trans hhome⟩
    rw [hasInst_iff, hsize]
    exact (hasInst_iff f).mp hhas
  next b := (h.next b).congr fun i _ => (hinst i).2.2
  prev b := (h.prev b).congr fun i _ => (hinst i).2.1

end Threaded

/-! ## Consistent block lists -/

/-- The block lists of `f` are consistent: they hold each live instruction once, in the block that
its record names, and no other instruction; the links are those of the lists; and the layout has
every block once, the entry first. -/
structure Consistent (f : Func) : Prop where
  threaded : f.Threaded f.instsOf
  mem_instsOf : ∀ b i, i ∈ f.instsOf b ↔ (f.inst i).live ∧ (f.inst i).block = b
  layout_nodup : f.layout.Nodup
  mem_layout : ∀ b, b ∈ f.layout ↔ f.hasBlock b
  layout_head : f.layout.head? = f.entry?

end Func

end MiddleEnd
