import Mathlib.Data.List.Permutation
import Mathlib.Data.List.TakeWhile
import MiddleEnd.Func.Verify
import MiddleEnd.Proofs.Consistent

/-!
# What verification establishes

The checks of `Func.verify` walk over lists and compare sorted use-lists.  On a function with
consistent block lists they succeed exactly if the function is *formed*, which is a statement about
the shape of each live block and about the use-list of each value, and no operand of a live block
is missing.

Only instructions of live blocks count as uses here; `Func.placed` says which ones these are.  What
an optimization keeps while it works is that the function is formed.  Operands can be missing in
between, when a block has been deleted and the blocks that use its results have not.
-/

namespace MiddleEnd

open List

namespace Func

variable {b : BlockId} {key : UseKey} {i : InstId} {f : Func} {u : InstId} {v : Operand}

def placed (f : Func) (u : InstId) : Bool :=
  (f.inst u).live && !(f.block (f.inst u).block).deleted

/-- Does an operand name a live instruction or a parameter that exists, if it names one at all? -/
def defines (f : Func) : Operand → Bool
  | .inst i => (f.inst i).live
  | .arg n => n < f.params.size
  | _ => true

/-- Every live block ends in its only terminator and has its phis first, and the use-lists of live
instructions and parameters are exactly the uses in live blocks. -/
structure Formed (f : Func) : Prop extends consistent : f.Consistent where
  terminated : ∀ b ∈ f.liveBlocks, ∃ l t, f.instsOf b = l ++ [t] ∧
    (f.instr t).isTerminator ∧ ∀ i ∈ l, (f.instr i).isTerminator = false
  phis_first : ∀ b ∈ f.liveBlocks, (f.instsOf b).Pairwise fun i j =>
    (f.instr j).isPhi → (f.instr i).isPhi
  uses : ∀ v, f.tracks v → f.defines v → f.UsesOf f.placed v

/-! ## Instructions of live blocks -/

lemma Consistent.mem_liveInsts (hf : f.Consistent) :
    u ∈ f.liveInsts ↔ f.placed u := by
  simp only [liveInsts, mem_flatMap, placed, Bool.and_eq_true, Bool.not_eq_true']
  constructor
  · rintro ⟨b, hb, hu⟩
    obtain ⟨hlive, rfl⟩ := (hf.mem_instsOf b u).mp hu
    exact ⟨hlive, (hf.mem_liveBlocks.mp hb).2⟩
  · rintro ⟨hlive, hdel⟩
    exact ⟨(f.inst u).block, hf.mem_liveBlocks.mpr ⟨hf.hasBlock_of_live hlive, hdel⟩,
      hf.mem_of_live hlive⟩

lemma Consistent.placed_of_mem (hf : f.Consistent) (hb : b ∈ f.liveBlocks)
    (hu : u ∈ f.instsOf b) : f.placed u :=
  hf.mem_liveInsts.mp (mem_flatMap.mpr ⟨b, hb, hu⟩)

lemma Consistent.nodup_liveInsts (hf : f.Consistent) : f.liveInsts.Nodup := by
  rw [liveInsts, nodup_flatMap]
  refine ⟨fun b _ => hf.nodup b, ?_⟩
  have hblks : f.liveBlocks.Nodup := hf.layout_nodup.filter _
  refine hblks.imp fun {b c} hne => ?_
  exact disjoint_left.mpr fun u hb hc => hne (hf.threaded.block_unique hb hc)

lemma takeWhile_eq_filter {α : Type} {p : α → Bool} {l : List α}
    (h : l.Pairwise fun a b => p b → p a) : l.takeWhile p = l.filter p := by
  induction l with
  | nil => rfl
  | cons a l ih =>
    obtain ⟨ha, hl⟩ := pairwise_cons.mp h
    cases hp : p a with
    | true => rw [takeWhile_cons_of_pos hp, filter_cons_of_pos hp, ih hl]
    | false => simp_all

lemma isPhi_of_mem_phis (f : Func) (hi : i ∈ f.phis b) : (f.instr i).isPhi :=
  mem_takeWhile_imp (p := fun i => (f.instr i).isPhi) hi

lemma Formed.phis_eq (hf : f.Formed) (hb : b ∈ f.liveBlocks) :
    f.phis b = (f.instsOf b).filter fun i => (f.instr i).isPhi :=
  takeWhile_eq_filter (hf.phis_first b hb)

/-! ## Checks of a block -/

lemma forM_eq_ok_iff {ε α : Type} {check : α → Except ε Unit} {xs : List α} :
    xs.forM check = .ok () ↔ ∀ x ∈ xs, check x = .ok () := by
  induction xs with
  | nil => simp [pure, Except.pure]
  | cons x xs ih =>
    rw [List.forM]
    cases hx : check x with
    | error e => simp [bind, Except.bind, hx]
    | ok u =>
      rw [forall_mem_cons]
      exact ⟨fun h => ⟨hx, ih.mp h⟩, fun h => ih.mpr h.2⟩

lemma removedOperand?_eq_none :
    f.removedOperand? i = none ↔ ∀ d, .inst d ∈ (f.instr i).operands → (f.inst d).live := by
  simp only [removedOperand?, List.find?_eq_none, mem_reverse, mem_filterMap,
    Bool.not_eq_true', Bool.not_eq_false]
  constructor
  · exact fun h d hd => h d ⟨.inst d, hd, rfl⟩
  · rintro h d ⟨v, hv, hd⟩
    cases v with
    | inst i =>
      obtain rfl := Option.some.inj hd
      exact h i hv
    | _ => exact absurd hd (by simp [Operand.inst?])

lemma checkInsts_eq_ok_iff {last : InstId} {inPhis : Bool} {is : List InstId} :
    f.checkInsts b last inPhis is = .ok () ↔
      (∀ i ∈ is, (f.inst i).live ∧ (f.inst i).block = b ∧
        (f.instr i).isTerminator = decide (i = last) ∧ f.removedOperand? i = none) ∧
      (is.Pairwise fun i j => (f.instr j).isPhi → (f.instr i).isPhi) ∧
      (inPhis = false → ∀ i ∈ is, (f.instr i).isPhi = false) := by
  induction is generalizing inPhis with
  | nil => simp [checkInsts]
  | cons i is ih =>
    rw [checkInsts]
    split
    · next hforeign =>
      refine iff_of_false (by simp) fun h => ?_
      obtain ⟨hlive, hblk, -⟩ := h.1 i (.head _)
      rcases hforeign with hdead | hother
      · rw [hlive] at hdead
        exact Bool.false_ne_true hdead.symm
      · exact hother hblk
    · next hhome =>
      obtain ⟨hlive, hblk⟩ := not_or.mp hhome
      rw [not_not] at hblk
      split
      · next hterm =>
        exact iff_of_false (by simp) fun h => hterm (h.1 i (.head _)).2.2.1
      · next hterm =>
        rw [not_not] at hterm
        split
        · next hphi =>
          rw [Bool.and_eq_true, Bool.not_eq_true'] at hphi
          refine iff_of_false (by simp) fun h => ?_
          have hnot := h.2.2 hphi.2 i (.head _)
          rw [instr, hphi.1] at hnot
          exact Bool.false_ne_true hnot.symm
        · next hphi =>
          split
          · next d hd =>
            refine iff_of_false (by simp) fun h => ?_
            rw [(h.1 i (.head _)).2.2.2] at hd
            exact absurd hd (by simp)
          · next hd =>
            rw [ih, forall_mem_cons, pairwise_cons]
            -- the phi flag of the rest is `inPhis && isPhi i`
            cases hp : (f.inst i).instr.isPhi with
            | true =>
              cases inPhis with
              | true => simp [hlive, hblk, hterm, hd, instr, hp]
              | false => simp [hp] at hphi
            | false =>
              simp only [hlive, hblk, hterm, hd, instr, hp, forall_mem_cons, Bool.and_false,
                Bool.false_eq_true, imp_false, Bool.not_eq_true, true_and, forall_const]
              tauto

lemma Consistent.checkBlock_eq_ok_iff (hf : f.Consistent) :
    f.checkBlock b = .ok () ↔
      (∃ l t, f.instsOf b = l ++ [t] ∧ (f.instr t).isTerminator ∧
        ∀ i ∈ l, (f.instr i).isTerminator = false) ∧
      ((f.instsOf b).Pairwise fun i j => (f.instr j).isPhi → (f.instr i).isPhi) ∧
      ∀ i ∈ f.instsOf b, ∀ d, .inst d ∈ (f.instr i).operands → (f.inst d).live := by
  have hlen := not_not.mpr (hf.threaded.length b).symm
  rw [checkBlock]
  simp only [hlen, if_false]
  rcases eq_nil_or_concat (f.instsOf b) with hnil | ⟨l, t, hl⟩
  · rw [hnil]
    simp
  · rw [concat_eq_append] at hl
    have hnd := hf.nodup b
    rw [hl] at hnd
    have hmem (i : InstId) : i ∈ f.instsOf b ↔ i ∈ l ∨ i = t := by simp [hl]
    have htl : ∀ i ∈ l, i ≠ t := fun i hi hit => (nodup_append.mp hnd).2.2 i hi t (.head _) hit
    have hlast : (f.instsOf b).getLast? = some t := by simp [hl]
    rw [hlast]
    simp only [checkInsts_eq_ok_iff, removedOperand?_eq_none]
    constructor
    · grind
    · rintro ⟨⟨l', t', hl', hterm, hnone⟩, hphis, hops⟩
      obtain ⟨rfl, ht⟩ := append_inj' (hl.symm.trans hl') rfl
      obtain rfl : t = t' := by simpa using ht
      refine ⟨fun i hi => ⟨hf.live_of_mem hi, hf.block_of_mem hi, ?_, hops i hi⟩, hphis, ?_⟩
      · rcases (hmem i).mp hi with hi | rfl
        · simp [hnone i hi, htl i hi]
        · simp [hterm]
      · exact fun h => absurd h (by simp)

/-! ## Checks of use-lists -/

lemma sortInsts_eq_iff {xs ys : List InstId} : sortInsts xs = sortInsts ys ↔ xs.Perm ys := by
  have hperm (zs : List InstId) : (sortInsts zs).Perm zs := mergeSort_perm zs _
  have hsorted (zs : List InstId) : (sortInsts zs).Pairwise fun a b => a.idx ≤ b.idx := by
    have htrans (a b c : InstId) (hab : decide (a.idx ≤ b.idx))
        (hbc : decide (b.idx ≤ c.idx)) : decide (a.idx ≤ c.idx) := by
      rw [decide_eq_true_eq] at *
      omega
    have htotal (a b : InstId) : (decide (a.idx ≤ b.idx) || decide (b.idx ≤ a.idx)) := by grind
    simpa [sortInsts] using pairwise_mergeSort htrans htotal zs
  constructor
  · grind
  · intro h
    refine List.Perm.eq_of_pairwise ?_ (hsorted xs) (hsorted ys)
      ((hperm xs).trans (h.trans (hperm ys).symm))
    rintro ⟨m⟩ ⟨n⟩ - - hmn hnm
    exact congrArg InstId.mk (Nat.le_antisymm hmn hnm)

lemma of?_eq_some : UseKey.of? v = some key ↔ v = key.operand := by
  cases v <;> cases key <;> simp [UseKey.of?, UseKey.operand]

lemma Consistent.count_uses (hf : f.Consistent) (key : UseKey) (u : InstId) :
    (f.uses.filterMap fun (k, i) => if k = key then some i else none).count u =
      if f.placed u then (f.instr u).operands.count key.operand else 0 := by
  have hslots (i : InstId) (vs : List Operand) :
      ((vs.filterMap UseKey.of?).map (·, i)).filterMap
        (fun (k, i) => if k = key then some i else none) =
        List.replicate (vs.count key.operand) i := by
    induction vs with
    | nil => rfl
    | cons v vs ih =>
      by_cases hv : v = key.operand
      · have hof := of?_eq_some.mpr hv
        rw [filterMap_cons_some hof, map_cons, filterMap_cons_some (b := i) (by simp),
          ih, hv, count_cons_self, replicate_succ]
      · rw [count_cons_of_ne hv, ← ih]
        cases hof : UseKey.of? v with
        | none => rw [filterMap_cons_none hof]
        | some k =>
          have hk : k ≠ key := fun h => hv (of?_eq_some.mp (h ▸ hof))
          rw [filterMap_cons_some hof, map_cons, filterMap_cons_none (by simp [hk])]
  rw [uses, filterMap_flatMap]
  simp only [hslots, count_flatMap_replicate hf.nodup_liveInsts, hf.mem_liveInsts]

lemma Consistent.checkUsers_eq_ok_iff (hf : f.Consistent) :
    f.checkUsers f.uses key = .ok () ↔ f.UsesOf f.placed key.operand := by
  have hiff : sortInsts (f.users key.operand) = sortInsts (f.uses.filterMap fun (k, i) =>
      if k = key then some i else none) ↔ f.UsesOf f.placed key.operand := by
    rw [sortInsts_eq_iff, perm_iff_count]
    simp only [hf.count_uses, UsesOf]
  rw [checkUsers, ← hiff]
  split
  · next h => exact iff_of_true rfl h
  · next h => exact iff_of_false (by simp) h

/-! ## Verification -/

lemma mem_trackedKeys : key ∈ f.trackedKeys ↔
    f.tracks key.operand ∧ f.defines key.operand := by
  cases key with
  | inst i =>
    simp only [trackedKeys, mem_append, mem_map, mem_filter, mem_range,
      UseKey.inst.injEq, reduceCtorEq, and_false, exists_false, or_false, UseKey.operand, tracks,
      defines, hasInst_iff]
    constructor
    · grind
    · exact fun hi => ⟨i.idx, hi, rfl⟩
  | arg n =>
    simp [trackedKeys, UseKey.operand, tracks, defines]

lemma Consistent.mem_uses (hf : f.Consistent) :
    (key, i) ∈ f.uses ↔ f.placed i ∧ key.operand ∈ (f.instr i).operands := by
  rw [← hf.mem_liveInsts]
  simp only [uses, mem_flatMap, mem_map, mem_filterMap, of?_eq_some, Prod.mk.injEq]
  constructor
  · grind
  · grind

lemma verify_eq_ok_iff_checks :
    f.verify = .ok () ↔ (∀ b ∈ f.liveBlocks, f.checkBlock b = .ok ()) ∧
      (∀ key ∈ f.trackedKeys, f.checkUsers f.uses key = .ok ()) ∧
      ∀ use ∈ f.uses, f.tracks use.1.operand := by
  rw [← forM_eq_ok_iff, ← forM_eq_ok_iff, verify]
  cases hblks : f.liveBlocks.forM f.checkBlock with
  | error e => simp [bind, Except.bind]
  | ok _ =>
    cases hkeys : f.trackedKeys.forM (f.checkUsers f.uses) with
    | error e => simp [bind, Except.bind, hkeys]
    | ok _ =>
      simp only [bind, Except.bind, hkeys, true_and]
      split
      · next use rest hfind =>
        have hbad := List.find?_some hfind
        have hmem := mem_of_find?_eq_some hfind
        refine iff_of_false (by simp) fun h => ?_
        have hgood := h _ hmem
        simp only [Bool.not_eq_true'] at hbad
        rw [hgood] at hbad
        exact Bool.false_ne_true hbad.symm
      · next hfind =>
        refine iff_of_true rfl fun use huse => ?_
        simpa using List.find?_eq_none.mp hfind use huse

lemma Consistent.verify_eq_ok_iff (hf : f.Consistent) :
    f.verify = .ok () ↔ f.Formed ∧ ∀ b ∈ f.liveBlocks, ∀ i ∈ f.instsOf b,
      ∀ v ∈ (f.instr i).operands, f.defines v := by
  rw [verify_eq_ok_iff_checks]
  simp only [hf.checkBlock_eq_ok_iff, hf.checkUsers_eq_ok_iff, mem_trackedKeys]
  constructor
  · rintro ⟨hblks, hkeys, huses⟩
    refine ⟨⟨hf, fun b hb => (hblks b hb).1, fun b hb => (hblks b hb).2.1, ?_⟩, ?_⟩
    · intro v htr hdefs
      cases v with
      | inst i => exact hkeys (.inst i) ⟨htr, hdefs⟩
      | arg n => exact hkeys (.arg n) ⟨htr, hdefs⟩
      | const c | global c => exact absurd htr (by simp [tracks])
    · intro b hb i hi v hv
      cases v with
      | inst d => exact (hblks b hb).2.2 i hi d hv
      | arg n => exact huses (.arg n, i) (hf.mem_uses.mpr ⟨hf.placed_of_mem hb hi, hv⟩)
      | const c => rfl
      | global c => rfl
  · rintro ⟨hform, hops⟩
    refine ⟨fun b hb => ⟨hform.terminated b hb, hform.phis_first b hb, fun i hi d hd => ?_⟩,
      fun key hkey => hform.uses _ hkey.1 hkey.2, ?_⟩
    · exact hops b hb i hi (.inst d) hd
    · rintro ⟨key, i⟩ hmem
      obtain ⟨hpl, hkey⟩ := hf.mem_uses.mp hmem
      obtain ⟨b, hb, hi⟩ := mem_flatMap.mp (hf.mem_liveInsts.mpr hpl)
      have hdefs := hops b hb i hi _ hkey
      cases key with
      | inst d => exact hasInst_of_live hdefs
      | arg n => exact hdefs

lemma Consistent.usesOf_placed_iff (hf : f.Consistent) :
    f.UsesOf f.placed v ↔ (f.users v).Perm
      (f.liveInsts.flatMap fun u => List.replicate ((f.instr u).operands.count v) u) := by
  rw [perm_iff_count]
  simp only [count_flatMap_replicate hf.nodup_liveInsts, hf.mem_liveInsts, UsesOf]

/-- Verification succeeds exactly if each live block ends in its only terminator and has its phis
first, its operands name no removed instruction and no parameter beyond the last one, and the use-list
of each live instruction and each parameter holds the instructions of live blocks that name it, one
for each operand. -/
theorem Consistent.verify_eq_ok_iff_invariants {f : Func} (hf : f.Consistent) :
    f.verify = .ok () ↔
      (∀ b ∈ f.liveBlocks, ∃ l t, f.instsOf b = l ++ [t] ∧ (f.instr t).isTerminator = true ∧
        ∀ i ∈ l, (f.instr i).isTerminator = false) ∧
      (∀ b ∈ f.liveBlocks, (f.instsOf b).Pairwise fun i j =>
        (f.instr j).isPhi = true → (f.instr i).isPhi = true) ∧
      (∀ b ∈ f.liveBlocks, ∀ u ∈ f.instsOf b, ∀ i, .inst i ∈ (f.instr u).operands →
        (f.inst i).live = true) ∧
      (∀ i, (f.inst i).live = true → (f.users (.inst i)).Perm
        (f.liveInsts.flatMap fun u => List.replicate ((f.instr u).operands.count (.inst i)) u)) ∧
      (∀ n < f.params.size, (f.users (.arg n)).Perm
        (f.liveInsts.flatMap fun u => List.replicate ((f.instr u).operands.count (.arg n)) u)) ∧
      ∀ b ∈ f.liveBlocks, ∀ u ∈ f.instsOf b, ∀ n, .arg n ∈ (f.instr u).operands →
        n < f.params.size := by
  simp only [hf.verify_eq_ok_iff, ← hf.usesOf_placed_iff]
  constructor
  · rintro ⟨hformed, hoperands⟩
    refine ⟨hformed.terminated, hformed.phis_first, fun b hb u hu i hi => hoperands b hb u hu _ hi,
      fun i hi => hformed.uses _ (hasInst_of_live hi) hi, fun n hn => ?_,
      fun b hb u hu n hn => of_decide_eq_true (hoperands b hb u hu _ hn)⟩
    exact hformed.uses _ (decide_eq_true hn) (decide_eq_true hn)
  · rintro ⟨hterminated, hphis, hinsts, hlive, hparams, hargs⟩
    refine ⟨⟨hf, hterminated, hphis, fun v htracks hdefines => ?_⟩, fun b hb u hu v hv => ?_⟩
    · cases v with
      | inst i => exact hlive i hdefines
      | arg n => exact hparams n (of_decide_eq_true hdefines)
      | const c => cases htracks
      | global c => cases htracks
    · cases v with
      | inst i => exact hinsts b hb u hu i hv
      | arg n => exact decide_eq_true (hargs b hb u hu n hv)
      | const c => rfl
      | global c => rfl

/-- The double of a parameter, with a block that has been deleted. -/
def doubling : Func :=
  (((((new "f" .i32 [.i32]).addBlock "entry").addBlock "gone").append ⟨1⟩ (.ret (some (.arg 0)))
    .void).deleteBlock ⟨1⟩).append ⟨0⟩ (.binary .add (.arg 0) (.arg 0)) .i32 |>.append ⟨0⟩
    (.ret (some (.inst ⟨1⟩))) .void

/-- The sum names the parameter twice, and what has been deleted names it no longer. -/
theorem verify_eq_ok_iff_invariants_doubling :
    doubling.Consistent ∧ doubling.verify = .ok () ∧
      (doubling.users (.arg 0)).Perm [⟨1⟩, ⟨1⟩] := by
  have hconsistent : doubling.Consistent := consistent_iff.mpr (by decide)
  have hverify : doubling.verify = .ok () := by cbv
  obtain ⟨-, -, -, -, hparams, -⟩ := hconsistent.verify_eq_ok_iff_invariants.mp hverify
  exact ⟨hconsistent, hverify, hparams 0 (by decide)⟩

end Func

end MiddleEnd
