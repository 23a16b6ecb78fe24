import MiddleEnd.Proofs.Inlining.Splice
import MiddleEnd.Proofs.Ssa
import MiddleEnd.Proofs.Tally

/-!
# Use-lists while a call is replaced

A call fits if its callee is in SSA form without unreachable blocks and takes no more arguments than
the call has.  Then everything that a copied instruction names exists in the caller: another copied
instruction, or what an argument of the call names.  So the use-lists of the caller stay exact in every
step, where the new instructions count as soon as they are there.
-/

namespace MiddleEnd

open List Bool Func Nat Instr Option

namespace Func.SameUses

variable {f g : Func}

lemma size_eq (h : f.SameUses g) : g.insts.size = f.insts.size := by
  have hiff (n : Nat) : n < g.insts.size ↔ n < f.insts.size := by
    have htr := h.tracks (.inst ⟨n⟩)
    simp only [Func.tracks, Func.hasInst] at htr
    simpa using htr
  exact Nat.le_antisymm (Nat.le_of_not_lt fun hlt => Nat.lt_irrefl _ ((hiff _).mp hlt))
    (Nat.le_of_not_lt fun hlt => Nat.lt_irrefl _ ((hiff _).mpr hlt))

end Func.SameUses

namespace Inlining

variable {f g h : Func} {s : Site} {n : Nat} {memset : Option FuncId} {i : InstId} {v : Operand}
  {e : PhiEntry}

/-! ## New instructions -/

/-- The instructions in live blocks of `f` and those added to it, if there are `n` now. -/
def counts (f : Func) (n : Nat) (u : InstId) : Bool :=
  f.placed u || (decide (f.insts.size ≤ u.idx) && decide (u.idx < n))

lemma counts_of_le {u : InstId} (hu : f.insts.size ≤ u.idx) (hlt : u.idx < n) : counts f n u := by
  simp [counts, hu, hlt]

/-- The value is no removed instruction of `f`. -/
def Remains (f : Func) (v : Operand) : Prop :=
  ∀ i, v = .inst i → f.hasInst i → (f.inst i).live

/-- Instructions have been added to `f`, and use-lists are exact. -/
structure Counted (f g : Func) : Prop where
  tallied : g.Tallied (counts f g.insts.size) (Remains f)
  le : f.insts.size ≤ g.insts.size

namespace Counted

variable {k : Instr}

lemma refl (hf : f.Formed) (hcomp : f.Complete) : Counted f f := by
  have hcounts : counts f f.insts.size = f.placed := by
    funext u
    simp only [counts, or_eq_left_iff_imp, and_eq_true, decide_eq_true_eq]
    omega
  refine ⟨?_, le_refl _⟩
  rw [hcounts]
  have hexist (u : InstId) (hu : f.placed u) : f.hasInst u :=
    f.hasInst_of_live (and_eq_true_iff.mp hu).1
  refine ⟨fun v hv hremains => hf.uses v hv ?_, fun u hu v hv => ?_, hexist⟩
  · cases v with
    | inst i => exact hremains i rfl hv
    | arg n => exact hv
    | _ => rfl
  · obtain ⟨b, hb, hub⟩ := mem_flatMap.mp (hf.mem_liveInsts.mpr hu)
    have hdefs := hcomp b hb u hub v hv
    cases v with
    | inst i => exact f.hasInst_of_live hdefs
    | _ => rfl

lemma sameUses (hg : Counted f g) (hgh : g.SameUses h) : Counted f h := by
  refine ⟨?_, hgh.size_eq.symm ▸ hg.le⟩
  rw [hgh.size_eq]
  exact hg.tallied.sameUses hgh

lemma insertAt (hg : Counted f g) (b : BlockId) (prev : Option InstId)
    (hk : k.operands.all g.admitsNew) (t : Ty) : Counted f (g.insertAt b prev k t) := by
  have hsize := size_insertAt g b prev k t
  have hcounts : counts f (g.insts.size + 1) =
      fun u => decide (u = g.nextInst) || counts f g.insts.size u := by
    funext u
    have hnext : u = g.nextInst ↔ u.idx = g.insts.size := by
      exact ⟨fun heq => congrArg InstId.idx heq, fun heq => congrArg InstId.mk heq⟩
    have hle := hg.le
    simp only [counts, hnext]
    grind
  refine ⟨?_, by rw [hsize]; exact le_succ_of_le hg.le⟩
  rw [hsize, hcounts]
  exact (hg.tallied.create hk).sameUses (sameUses_link _ b prev _)

lemma replaceInstr (hg : Counted f g) (hi : counts f g.insts.size i)
    (hk : ∀ v ∈ k.operands, g.admits v) : Counted f (g.replaceInstr i k) := by
  have hsize : (g.replaceInstr i k).insts.size = g.insts.size :=
    (samePlaces_replaceInstr g i k).insts
  refine ⟨?_, hsize.symm ▸ hg.le⟩
  rw [hsize]
  exact hg.tallied.replaceInstr hi hk

lemma replaceUses (hg : Counted f g) {old new : Operand} (hold : Remains f old)
    (hnew : g.admits new) : Counted f (g.replaceUses old new).2 := by
  have hsize := (samePlaces_replaceUses g old new).insts
  refine ⟨?_, hsize.symm ▸ hg.le⟩
  rw [hsize]
  exact hg.tallied.replaceUses hold (Or.inr hnew)

end Counted

/-! ## Calls that fit -/

structure Fits (f : Func) (s : Site) : Prop extends caller : f.Ssa where
  callee : s.callee.Ssa
  reachable : ∀ b ∈ s.callee.liveBlocks, s.callee.Reachable b
  entry : ⟨0⟩ ∈ s.callee.liveBlocks
  callerEntry : s.callerEntry = ⟨0⟩
  calleeEntry : s.calleeEntry = ⟨0⟩
  call : f.placed s.call
  instr : ∃ g format, f.instr s.call = .call g s.args format
  args : s.callee.params.size ≤ s.args.length
  returns : s.callee.ret ≠ .void → ∀ i ∈ s.callee.liveInsts, s.callee.instr i ≠ .ret none
  /-- The call may have no value. -/
  unused : Constant.zero? s.callee.ret = none →
    ∀ u, f.placed u → .inst s.call ∉ (f.instr u).operands

/-- What takes the place of an operand of the callee. -/
inductive Stands (f : Func) (s : Site) : Operand → Operand → Prop
  | inst {i : InstId} : i ∈ s.callee.liveInsts →
    Stands f s (.inst i) (.inst ((s.copy f).copied i))
  | arg {n : Nat} {v : Operand} : s.args[n]? = some v → Stands f s (.arg n) v
  | const (c : Constant) : Stands f s (.const c) (.const c)
  | global (g : GlobalId) : Stands f s (.global g) (.global g)

namespace Fits

variable (hfit : Fits f s)
include hfit

lemma operands_call : (f.instr s.call).operands = s.args := by
  obtain ⟨g, format, hinstr⟩ := hfit.instr
  rw [hinstr]
  rfl

lemma live_call : (f.inst s.call).live :=
  (and_eq_true_iff.mp hfit.call).1

lemma hasBlock_entry : f.hasBlock ⟨0⟩ := by
  have hlt := f.hasBlock_iff.mp (hfit.consistent.hasBlock_of_live hfit.live_call)
  exact f.hasBlock_iff.mpr (lt_of_le_of_lt (zero_le _) hlt)

lemma stands (hi : i ∈ s.callee.liveInsts)
    (hv : v ∈ (s.callee.instr i).operands) : Stands f s v ((s.copy f).operand v) := by
  have hcons := hfit.callee.consistent
  obtain ⟨-, hcomp, hform⟩ := ssa_iff.mp hfit.callee
  cases v with
  | inst j =>
    have hj := hcons.mem_liveInsts.mpr
      (hform.placed_of_operand hcons hcomp hfit.entry hfit.reachable
        (hcons.mem_liveInsts.mp hi) hv)
    have hcopy : (s.copy f).inst? j = some ((s.copy f).copied j) := by
      rw [Copy.inst?_eq]
      exact if_pos hj
    rw [Copy.operand, hcopy]
    exact .inst hj
  | arg n =>
    obtain ⟨b, hb, hib⟩ := mem_flatMap.mp hi
    have hlt : n < s.callee.params.size := by simpa [defines] using hcomp b hb i hib _ hv
    obtain ⟨v, hget⟩ : ∃ v, s.args[n]? = some v :=
      isSome_iff_exists.mp (by simpa using lt_of_lt_of_le hlt hfit.args)
    refine .arg ?_
    change s.args[n]? = some ((s.args[n]?).getD _)
    rw [hget]
    rfl
  | const c => exact .const c
  | global g => exact .global g

lemma admits_of_stands {k : Nat}
    (hg : g.insts.size = f.insts.size + s.callee.liveInsts.length + k) {w : Operand}
    (h : Stands f s v w) : g.admits w := by
  cases h with
  | inst hi =>
    have hlt := idxOf_lt_length_iff.mpr hi
    refine g.hasInst_iff.mpr ?_
    change f.insts.size + s.callee.liveInsts.idxOf _ < _
    omega
  | @arg n v hv =>
    cases w with
    | inst j =>
      have hadmits := (Counted.refl hfit.formed
        hfit.complete).tallied.admits s.call (by simp [counts, hfit.call])
        (.inst j) (hfit.operands_call ▸ mem_of_getElem? hv)
      have hlt := f.hasInst_iff.mp hadmits
      exact g.hasInst_iff.mpr (by omega)
    | _ => rfl
  | const c => rfl
  | global g => rfl

end Fits

/-! ## The steps -/

lemma sameUses_splitAtCall (f : Func) (call : InstId) (label : String) :
    f.SameUses (splitAtCall f call label) := by
  have hsplit := (f.sameUses_addBlock label).trans
    ((f.addBlock label).sameUses_splitAfter call f.nextBlock)
  exact hsplit.trans (sameUses_foldl (fun g b => g.sameUses_replacePred b _ _) _ _)

lemma sameUses_placeAfter (f : Func) (b after : BlockId) : f.SameUses (f.placeAfter b after) :=
  .of_inst rfl rfl fun _ => ⟨rfl, rfl, rfl⟩

lemma sameUses_addCopy (callee : Func) (hf : f.Consistent) (n : Nat) (prev b : BlockId) :
    f.SameUses (addCopy callee f n prev b) := by
  have hadded := f.sameUses_addBlock (copyLabel f callee b n)
  have hpl := hadded.trans (sameUses_placeAfter _ f.nextBlock prev)
  rw [addCopy]
  split
  · have hlist : ((f.addBlock (copyLabel f callee b n)).placeAfter f.nextBlock prev).instsOf
        f.nextBlock = [] := by
      rw [((hf.addBlock _).instsOf_placeAfter _ _).1, (hf.instsOf_addBlock _).1]
      exact instsOf_of_not_hasBlock f.not_hasBlock_nextBlock
    rw [deleteBlock, hlist]
    exact hpl.trans (sameUses_modifyBlock _ _ _)
  · exact hpl

lemma sameUses_addCopies (callee : Func) (hf : f.Consistent) (hpos : 0 < f.blocks.size) (n : Nat)
    (prev : BlockId) (bs : List BlockId) : f.SameUses (addCopies callee f n prev bs).2 := by
  induction bs generalizing f n prev with
  | nil => exact .refl f
  | cons b bs ih =>
    have hext := (extends_addCopy callee hf hpos n prev b).1
    exact (sameUses_addCopy callee hf n prev b).trans
      (ih hext.consistent (by rw [hext.blocks]; omega) (n + 1) f.nextBlock)

lemma Counted.addPlaceholders (hg : Counted f g) (c : Copy) : Counted f (addPlaceholders c g) := by
  exact foldlRecOn c.callee.liveInsts _ hg fun _ hg _ _ => hg.insertAt _ _ rfl _

lemma Counted.foldl_replaceInstr (hg : Counted f g) (kind : InstId → Instr)
    {ps : List (InstId × InstId)} (hps : ∀ p ∈ ps, counts f g.insts.size p.2)
    (hkind : ∀ p ∈ ps, ∀ v ∈ (kind p.1).operands, g.admits v) :
    Counted f (ps.foldl (fun g p => g.replaceInstr p.2 (kind p.1)) g) := by
  induction ps generalizing g with
  | nil => exact hg
  | cons p ps ih =>
    have hplaces := samePlaces_replaceInstr g p.2 (kind p.1)
    refine ih (hg.replaceInstr (hps p (.head _)) (hkind p (.head _)))
      (fun q hq => ?_) fun q hq v hv => ?_
    · rw [hplaces.insts]
      exact hps q (.tail p hq)
    · exact admits_of_tracks (fun h => (tracks_replaceInstr g p.2 _ v).trans h)
        (hkind q (.tail p hq) v hv)

/-- The caller with the blocks of a copy, still empty. -/
def withBlocks (f : Func) (s : Site) (n : Nat) : Func :=
  let added := addCopies s.callee (splitAtCall f s.call (blockLabel f.name n)) (n + 1)
    (f.inst s.call).block s.callee.layout
  added.2.placeAfter f.nextBlock added.1

/-- The caller with a placeholder for each instruction of the copy. -/
def withHoles (f : Func) (s : Site) (n : Nat) : Func :=
  addPlaceholders (s.copy f) (withBlocks f s n)

namespace Fits

variable (hfit : Fits f s) (n : Nat)

include hfit

lemma exists_split : ∃ pre post, f.instsOf (f.inst s.call).block = pre ++ s.call :: post :=
  append_of_mem (hfit.consistent.mem_of_live hfit.live_call)

lemma size_withHoles :
    (withHoles f s n).insts.size = f.insts.size + s.callee.liveInsts.length := by
  obtain ⟨pre, post, hsplit⟩ := hfit.exists_split
  have hsize := (extends_withInsts hfit.consistent hfit.callee.consistent hfit.live_call
    hsplit n).1.insts
  rw [← hsize]
  exact (samePlaces_foldl (fun g p => g.samePlaces_replaceInstr _ _) _ _).insts.symm

lemma counted_withHoles : Counted f (withHoles f s n) := by
  obtain ⟨hformed, hcomp, -⟩ := ssa_iff.mp hfit.caller
  obtain ⟨pre, post, hsplit⟩ := hfit.exists_split
  have hext := (extends_splitAtCall hformed.consistent hsplit (blockLabel f.name n)).1
  have hcopies := sameUses_addCopies s.callee hext.consistent (by rw [hext.blocks]; omega) (n + 1)
    (f.inst s.call).block s.callee.layout
  have hblks : f.SameUses (withBlocks f s n) :=
    ((sameUses_splitAtCall f s.call _).trans hcopies).trans (sameUses_placeAfter _ _ _)
  exact ((Counted.refl hformed hcomp).sameUses hblks).addPlaceholders _

lemma operands_copied (hi : i ∈ s.callee.liveInsts)
    (hv : v ∈ ((s.copy f).instr (s.callee.instr i)).operands) :
    ∃ u ∈ (s.callee.instr i).operands, Stands f s u v := by
  have hmem : v ∈ (((s.callee.instr i).mapOperands (s.copy f).operand).mapBlocks
      (s.copy f).block).operands := by
    rw [Copy.instr] at hv
    split at hv
    · cases hv
    · exact hv
  rw [operands_mapBlocks, operands_mapOperands] at hmem
  obtain ⟨u, hu, rfl⟩ := mem_map.mp hmem
  exact ⟨u, hu, hfit.stands hi hu⟩

lemma counted_withCopy : Counted f (withCopy f s n) := by
  have hholes := hfit.counted_withHoles n
  have hsize := hfit.size_withHoles n
  have hinsts : Counted f (withInsts f s n) := by
    have hpairs : (s.copy f).insts = s.callee.liveInsts.map fun i => (i, (s.copy f).copied i) :=
      Copy.insts_eq hfit.callee.consistent
    refine hholes.foldl_replaceInstr (fun i => (s.copy f).instr (s.callee.instr i))
      (fun p hp => ?_) fun p hp v hv => ?_
    · rw [hpairs] at hp
      obtain ⟨i, hi, rfl⟩ := mem_map.mp hp
      have hlt := idxOf_lt_length_iff.mpr hi
      refine counts_of_le (le_add_right _ _) ?_
      change f.insts.size + s.callee.liveInsts.idxOf i < _
      omega
    · rw [hpairs] at hp
      obtain ⟨i, hi, rfl⟩ := mem_map.mp hp
      obtain ⟨u, -, hstands⟩ := hfit.operands_copied hi hv
      exact hfit.admits_of_stands (k := 0) hsize hstands
  exact hinsts.sameUses (sameUses_foldl (fun g i => g.sameUses_moveToFront i _) _ _)

end Fits

lemma admitsNew_of_admits (hv : g.admits v) : g.admitsNew v := by
  cases v with
  | inst i => exact decide_eq_true (le_of_lt (g.hasInst_iff.mp hv))
  | _ => rfl

lemma hasInst_insertBefore (hi : g.hasInst i) (first : InstId) (k : Instr)
    (t : Ty) : (g.insertBefore first k t).hasInst i := by
  have hsize : (g.insertBefore first k t).insts.size = g.insts.size + 1 := size_insertAt _ _ _ _ _
  have hlt := g.hasInst_iff.mp hi
  exact hasInst_iff _ |>.mpr (by omega)

lemma Counted.clears {kind : InstId → Instr} {slots : List InstId}
    {code : List (Instr × Ty)} (hcode : Clears kind memset n slots code) (hg : Counted f g)
    (hn : g.insts.size = n) (hslots : ∀ i ∈ slots, g.hasInst i) (first : InstId) :
    Counted f (code.foldl (fun g p => g.insertBefore first p.1 p.2) g) := by
  have hstep {g : Func} (hg : Counted f g) {k : Instr} (hk : k.operands.all g.admitsNew)
      (t : Ty) : Counted f (g.insertBefore first k t) := hg.insertAt _ _ hk t
  have hsize (g : Func) (k : Instr) (t : Ty) :
      (g.insertBefore first k t).insts.size = g.insts.size + 1 := size_insertAt _ _ _ _ _
  induction hcode generalizing g with
  | nil n => exact hg
  | scalar halloc hzero hcode ih =>
    rw [forall_mem_cons] at hslots
    have hslot := admitsNew_of_admits (v := .inst _) hslots.1
    refine ih (hstep hg (by simpa [operands, admitsNew] using hslot) _)
      (by rw [hsize, hn]) fun i hi => ?_
    exact hasInst_insertBefore (hslots.2 i hi) _ _ _
  | @array n slot slots code t fill size halloc hzero hset hbytes hcode ih =>
    rw [forall_mem_cons] at hslots
    have hslot := admitsNew_of_admits (v := .inst _) hslots.1
    have hraw := hstep hg (k := .cast .bitcast (.inst slot))
      (by simpa [operands] using hslot) (.pointer .i32)
    have hrawSize := hsize g (.cast .bitcast (.inst slot)) (.pointer .i32)
    refine ih (hstep hraw ?_ _) (by rw [hsize, hrawSize, hn]) fun i hi => ?_
    · simp [operands, admitsNew, Operand.int, hrawSize, hn]
    · exact hasInst_insertBefore (hasInst_insertBefore (hslots.2 i hi) _ _ _) _ _ _

/-! ## Returned values -/

lemma Copy.mem_returned {c : Copy} : e ∈ c.returned ↔ ∃ i ∈ c.callee.liveInsts,
    ∃ v, c.callee.instr i = .ret (some v) ∧
      e = { block := c.block (c.callee.inst i).block, value := some (c.operand v) } := by
  simp only [returned, mem_filterMap]
  constructor
  · grind
  · grind

namespace Fits

variable (hfit : Fits f s) {value : Option Operand}

include hfit

lemma stands_of_returned (he : e ∈ (s.copy f).returned)
    (hv : e.value = some v) : ∃ i ∈ s.callee.liveInsts, ∃ u, s.callee.instr i = .ret (some u) ∧
      e.block = (s.copy f).block (s.callee.inst i).block ∧ Stands f s u v := by
  obtain ⟨i, hi, u, hu, rfl⟩ := Copy.mem_returned.mp he
  have hmem : u ∈ (s.callee.instr i).operands := by
    rw [show s.callee.instr i = .ret (some u) from hu]
    exact mem_singleton_self u
  exact ⟨i, hi, u, hu, rfl, some.inj hv ▸ hfit.stands hi hmem⟩

lemma counted_merges {merge : List (Instr × Ty)} {k : Nat}
    (hg : Counted f g) (hsize : g.insts.size = f.insts.size + s.callee.liveInsts.length + k)
    (h : Merges (s.copy f) g.insts.size merge value) :
    Counted f (merge.foldl (fun g p => g.prepend f.nextBlock p.1 p.2) g) ∧
      ∀ v, value = some v →
        (merge.foldl (fun g p => g.prepend f.nextBlock p.1 p.2) g).admits v := by
  cases h with
  | void _ => exact ⟨hg, fun v hv => by cases hv⟩
  | never _ _ =>
    refine ⟨hg, fun v hv => ?_⟩
    obtain ⟨c, -, rfl⟩ := map_eq_some_iff.mp hv
    rfl
  | @once e _ hret =>
    refine ⟨hg, fun v hv => ?_⟩
    obtain ⟨i, -, u, -, -, hstands⟩ := hfit.stands_of_returned (by simp [hret]) hv
    exact hfit.admits_of_stands hsize hstands
  | phi _ _ =>
    refine ⟨hg.insertAt f.nextBlock none (all_eq_true.mpr fun v hv => ?_) s.callee.ret,
      fun v hv => ?_⟩
    · obtain ⟨e, he, hval⟩ := mem_filterMap.mp hv
      obtain ⟨i, -, u, -, -, hstands⟩ := hfit.stands_of_returned he hval
      exact admitsNew_of_admits (hfit.admits_of_stands hsize hstands)
    · obtain rfl := some.inj hv
      refine (hasInst_iff _).mpr ?_
      change g.insts.size < (g.insertAt f.nextBlock none _ _).insts.size
      rw [size_insertAt]
      exact lt_succ_self _

lemma counted_withResult (hg : Counted f g) (hval : ∀ v, value = some v → g.admits v) :
    Counted f (withResult g s.call value) := by
  cases value with
  | none => exact hg
  | some v =>
    refine hg.replaceUses (fun i hi _ => ?_) (hval v rfl)
    rw [← Operand.inst.inj hi]
    exact hfit.live_call

end Fits

lemma Expanded.counted {m : Func} {pre post : List InstId}
    {clears merge : List (Instr × Ty)} {value : Option Operand}
    (h : Expanded f s n memset pre post clears merge value m g) (hfit : Fits f s) :
    Counted f m ∧ Counted f g := by
  obtain ⟨first, rest, hfirst, hbuilt⟩ := h.built
  obtain ⟨pre', post', hsplit⟩ := hfit.exists_split
  have hspliced := spliced_withCopy hfit.consistent hfit.callee.consistent hfit.live_call
    (hfit.callerEntry ▸ hfit.hasBlock_entry) hsplit n
  have hsize := hspliced.ext.insts
  have hclears := (hfit.counted_withCopy n).clears h.fill hsize
    (fun i hi => (hspliced.alloc_of_mem hfit.callee.consistent hi).1) first
  have hsize' := (foldl_insertBefore hspliced.ext.consistent (l := []) hfirst clears).1.ext.insts
  rw [hsize] at hsize'
  obtain ⟨hmerges, -⟩ := hfit.counted_merges hclears hsize' (hsize' ▸ h.result)
  rw [← hbuilt] at hmerges
  refine ⟨hmerges, ?_⟩
  have hres := hfit.counted_withResult hmerges h.admits
  rw [h.eq]
  refine (hres.replaceInstr ?_ fun v hv => absurd hv not_mem_nil).sameUses
    (sameUses_modifyInst _ _ fun _ => ⟨rfl, rfl, rfl⟩)
  simp [counts, hfit.call]

end Inlining

end MiddleEnd
