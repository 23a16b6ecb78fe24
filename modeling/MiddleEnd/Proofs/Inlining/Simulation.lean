import Mathlib.Data.List.Find
import MiddleEnd.Proofs.Inlining.Valid
import MiddleEnd.Proofs.Machine.Moves
import MiddleEnd.Proofs.Machine.Typing

/-!
# Runs of a caller with a copy
-/

namespace MiddleEnd

open List Func Instr Function Operand Nat

variable {k : Instr} {f : Func} {p : BlockId} {j : InstId} {v : Operand}

lemma Instr.mapOperands_eq_self {σ : Operand → Operand} (h : ∀ v ∈ k.operands, σ v = v) :
    k.mapOperands σ = k :=
  (mapOperands_congr h).trans k.mapOperands_id

lemma Instr.target?_mapBlocks (σ : BlockId → BlockId) (k : Instr) (eval : Operand → Option Value) :
    (k.mapBlocks σ).target? eval = (k.target? eval).map σ := by
  cases k with
  | branch c t e =>
    simp only [mapBlocks, target?]
    cases eval c with
    | none => rfl
    | some x =>
      simp only [Option.bind_some, Option.bind_eq_bind]
      cases (x.asBool "br").toOption with
      | none => rfl
      | some taken => cases taken <;> rfl
  | jump t => rfl
  | _ => rfl

lemma Instr.operandFrom?_of_entries {k' : Instr} {σ : BlockId → BlockId} {ρ : Operand → Operand}
    (hents : k'.entries = k.entries.map fun e => { block := σ e.block, value := e.value.map ρ })
    (hinj : ∀ e ∈ k.entries, σ e.block = σ p → e.block = p) :
    k'.operandFrom? (some (σ p)) = (k.operandFrom? (some p)).map ρ := by
  have hfind : k.entries.find? (fun e => decide (some (σ p) = some (σ e.block))) =
      k.entries.find? fun e => decide (some p = some e.block) := by
    refine List.find?_congr fun e he => ?_
    rw [decide_eq_decide, Option.some.injEq, Option.some.injEq]
    exact ⟨fun heq => (hinj e he heq.symm).symm, congrArg σ⟩
  rw [operandFrom?, hents, List.find?_map, operandFrom?, ← hfind, Option.map_bind, Option.bind_map]
  rfl

lemma Instr.operandFrom?_of_mem (hnd : (k.entries.map PhiEntry.block).Nodup) {e : PhiEntry}
    (he : e ∈ k.entries) : k.operandFrom? (some e.block) = e.value := by
  have hfind : k.entries.find? (fun e' => decide (some e.block = some e'.block)) = some e := by
    obtain ⟨l, r, hl⟩ := append_of_mem he
    rw [hl, map_append, nodup_append] at hnd
    rw [hl, List.find?_append, List.find?_eq_none.mpr fun e' he' hsame => ?_, Option.none_or,
      List.find?_cons_of_pos (by simp)]
    have hsame := Option.some.inj (of_decide_eq_true hsame)
    exact hnd.2.2 _ (mem_map_of_mem he') _ (.head _) hsame.symm
  rw [operandFrom?, hfind]
  rfl

lemma Func.Ssa.hasInst_of_operand (hf : f.Ssa) {u : InstId} (hu : f.placed u)
    (hj : .inst j ∈ (f.instr u).operands) : f.hasInst j := by
  obtain ⟨b, hb, hmem⟩ := mem_flatMap.mp (hf.consistent.mem_liveInsts.mpr hu)
  exact f.hasInst_of_live (hf.complete b hb u hmem _ hj)

namespace Inlining

open Local (At State World Outcome CallSem Advances Yields Moves Completes)

variable {t' : State} {call a : InstId} {steps : Nat} {old' : State} {ty : Ty}

variable {f g m : Func} {s : Site} {n : Nat} {memset : Option FuncId} {pre post : List InstId}
  {clears merge : List (Instr × Ty)} {value : Option Operand}

/-! ## The code that runs -/

def upTo (call : InstId) : List InstId → List InstId
  | [] => []
  | i :: is => if i = call then [call] else i :: upTo call is

lemma upTo_cons_of_ne {i : InstId} (hi : i ≠ call) (is : List InstId) :
    upTo call (i :: is) = i :: upTo call is :=
  if_neg hi

lemma upTo_cons_self (call : InstId) (is : List InstId) : upTo call (call :: is) = [call] :=
  if_pos rfl

lemma upTo_of_notMem {is : List InstId} (h : call ∉ is) : upTo call is = is := by
  induction is with
  | nil => rfl
  | cons i is ih =>
    rw [mem_cons, not_or] at h
    rw [upTo_cons_of_ne (Ne.symm h.1), ih h.2]

lemma upTo_append_cons {l : List InstId} (h : call ∉ l) (r : List InstId) :
    upTo call (l ++ call :: r) = l ++ [call] := by
  induction l with
  | nil => exact upTo_cons_self call r
  | cons i l ih =>
    rw [mem_cons, not_or] at h
    rw [cons_append, upTo_cons_of_ne (Ne.symm h.1), ih h.2, cons_append]

lemma upTo_subset (call : InstId) (is : List InstId) : upTo call is ⊆ is := by
  induction is with
  | nil => exact List.Subset.refl _
  | cons i is ih =>
    rw [upTo]
    split
    · next hi => simp [hi]
    · exact cons_subset_cons i ih

lemma filter_upTo {keep : InstId → Bool} (hcall : keep call) (is : List InstId) :
    (upTo call is).filter keep = upTo call (is.filter keep) := by
  induction is with
  | nil => rfl
  | cons i is ih =>
    by_cases hi : i = call
    · subst hi
      rw [upTo_cons_self, filter_cons_of_pos hcall, filter_cons_of_pos hcall, upTo_cons_self]
      rfl
    · rw [upTo_cons_of_ne hi]
      cases hkeep : keep i with
      | true =>
        rw [filter_cons_of_pos hkeep, filter_cons_of_pos hkeep, upTo_cons_of_ne hi, ih]
      | false => grind

namespace Replaced

variable {i u : InstId} {b : BlockId}

variable (h : Replaced f s n memset pre post clears merge value m g) {d : BlockId}

include h

lemma ty_of_ne (hne : u ≠ s.call) : (g.inst u).ty = (m.inst u).ty := by
  rw [h.expanded.eq, setType, inst_modifyInst_of_ne hne, ty_replaceInstr]
  cases value with
  | none => rfl
  | some v => exact ty_replaceUses m _ v u

lemma ty_old (hu : f.hasInst u) (hne : u ≠ s.call) : (g.inst u).ty = (f.inst u).ty :=
  (h.ty_of_ne hne).trans (h.expanded.spliced.old u hu).2

lemma ty_copied (hi : i ∈ s.callee.liveInsts) :
    (g.inst ((s.copy f).copied i)).ty = (s.callee.inst i).ty :=
  (h.ty_of_ne (copied_ne (f.hasInst_of_live h.fits.live_call))).trans
    (h.expanded.spliced.copied i hi).2

lemma eq_of_split {l r : List InstId}
    (hsplit : f.instsOf (f.inst s.call).block = l ++ s.call :: r) :
    l = pre ∧ r = post := by
  obtain ⟨hpre, -, hpost⟩ := (append_cons_inj_of_notMem h.nodup_call.1 h.nodup_call.2.1).mp
    (h.split.symm.trans hsplit)
  exact ⟨hpre.symm, hpost.symm⟩

lemma instsOf_eq_upTo (hb : b ∈ f.liveBlocks) : g.instsOf b =
    (if b = ⟨0⟩ then (s.copy f).slots else []) ++ upTo s.call (f.instsOf b) := by
  rw [h.instsOf_old (h.fits.consistent.mem_liveBlocks.mp hb).1]
  congr 1
  split
  · next hcall => rw [hcall, h.split, upTo_append_cons h.nodup_call.1]
  · next hcall => rw [upTo_of_notMem (h.notMem_of_ne hcall)]

lemma body_old (hb : b ∈ f.liveBlocks) :
    g.body b = (if b = ⟨0⟩ then (s.copy f).slots else []) ++ upTo s.call (f.body b) := by
  have hslots : (if b = ⟨0⟩ then (s.copy f).slots else []).filter (fun i => !(g.instr i).isPhi) =
      if b = ⟨0⟩ then (s.copy f).slots else [] := by
    refine filter_eq_self.mpr fun i hi => ?_
    split at hi
    · rw [(h.kind_slot hi).2]
      rfl
    · cases hi
  rw [Func.body, h.instsOf_eq_upTo hb, filter_append, Func.body,
    ← filter_upTo (by rw [h.fits.isPhi_call]; rfl)]
  congr 1
  exact filter_congr fun i hi => by rw [h.isPhi_old hb (upTo_subset _ _ hi)]

lemma mem_phis_old (hb : b ∈ f.liveBlocks) : i ∈ g.phis b ↔ i ∈ f.phis b := by
  have hform := h.fits.caller.formed
  rw [h.formed.phis_eq (h.mem_liveBlocks_of_old hb), hform.phis_eq hb, mem_filter,
    mem_filter, h.instsOf_eq_upTo hb, mem_append]
  constructor
  · rintro ⟨hi | hi, hphi⟩
    · split at hi
      · rw [(h.kind_slot hi).2] at hphi
        cases hphi
      · cases hi
    · have hmem := upTo_subset _ _ hi
      rw [h.isPhi_old hb hmem] at hphi
      exact ⟨hmem, hphi⟩
  · rintro ⟨hi, hphi⟩
    refine ⟨Or.inr ?_, (h.isPhi_old hb hi).trans hphi⟩
    by_cases hcall : b = (f.inst s.call).block
    · subst hcall
      rw [h.split, upTo_append_cons h.nodup_call.1]
      exact mem_append_left _ (h.fits.mem_pre_of_isPhi h.split hi hphi)
    · rwa [upTo_of_notMem (h.notMem_of_ne hcall)]

lemma body_after : g.body f.nextBlock = post := by
  have hmerge : (idsFrom (s.size f + clears.length) merge.length).filter
      (fun i => !(g.instr i).isPhi) = [] := by
    refine filter_eq_nil_iff.mpr fun i hi => ?_
    rw [(h.kind_of_mem_merge hi).2]
    exact Bool.false_ne_true
  rw [Func.body, h.instsOf_after, filter_append, hmerge]
  refine filter_eq_self.mpr fun i hi => ?_
  rw [h.isPhi_old h.fits.mem_liveBlocks_call (h.mem_of_mem_post hi),
    h.fits.isPhi_of_mem_post h.split hi]
  rfl

lemma mem_phis_after : i ∈ g.phis f.nextBlock ↔
    ∃ k < merge.length, i = ⟨s.size f + clears.length + k⟩ := by
  rw [h.formed.phis_eq h.mem_liveBlocks_after, mem_filter, h.instsOf_after, mem_append,
    ← mem_map_range']
  constructor
  · rintro ⟨hi | hi, hphi⟩
    · exact hi
    · rw [h.isPhi_old h.fits.mem_liveBlocks_call (h.mem_of_mem_post hi),
        h.fits.isPhi_of_mem_post h.split hi] at hphi
      cases hphi
  · exact fun hi => ⟨Or.inl hi, (h.kind_of_mem_merge hi).2⟩

lemma body_copy (hd : d ∈ s.callee.liveBlocks) : g.body ((s.copy f).block d) =
    (if d = ⟨0⟩ then idsFrom (s.size f) clears.length else []) ++
    ((s.callee.body d).filter fun i => !isSlot s.callee i).map (s.copy f).copied := by
  have hclears : (if d = ⟨0⟩ then idsFrom (s.size f) clears.length else []).filter
      (fun i => !(g.instr i).isPhi) = if d = ⟨0⟩ then idsFrom (s.size f) clears.length else [] := by
    refine filter_eq_self.mpr fun i hi => ?_
    split at hi
    · rw [(h.kind_of_mem_clears hi).2]
      rfl
    · cases hi
  rw [Func.body, h.instsOf_copy hd, filter_append, filter_map, Func.body,
    filter_filter, filter_filter]
  congr 2
  refine filter_congr fun i hi => ?_
  rw [comp_apply, (h.kind_copied (mem_flatMap.mpr ⟨d, hd, hi⟩)).2, Bool.and_comm]

lemma mem_phis_copy (hd : d ∈ s.callee.liveBlocks) :
    u ∈ g.phis ((s.copy f).block d) ↔ ∃ i ∈ s.callee.phis d, u = (s.copy f).copied i := by
  have hform := h.fits.callee.formed
  have hlive {i : InstId} (hi : i ∈ s.callee.instsOf d) : i ∈ s.callee.liveInsts :=
    mem_flatMap.mpr ⟨d, hd, hi⟩
  rw [h.formed.phis_eq (h.mem_liveBlocks_of_live hd), hform.phis_eq hd, mem_filter,
    h.instsOf_copy hd, mem_append]
  constructor
  · rintro ⟨hu | hu, hphi⟩
    · split at hu
      · rw [(h.kind_of_mem_clears hu).2] at hphi
        cases hphi
      · cases hu
    · obtain ⟨i, hi, rfl⟩ := mem_map.mp hu
      have hi := (mem_filter.mp hi).1
      rw [(h.kind_copied (hlive hi)).2] at hphi
      exact ⟨i, mem_filter.mpr ⟨hi, hphi⟩, rfl⟩
  · rintro ⟨i, hi, rfl⟩
    obtain ⟨hi, hphi⟩ := mem_filter.mp hi
    refine ⟨Or.inr (mem_map_of_mem (mem_filter.mpr ⟨hi, ?_⟩)), ?_⟩
    · cases hslot : isSlot s.callee i with
      | true =>
        rw [(isPhi_of_isSlot hslot).1] at hphi
        cases hphi
      | false => rfl
    · rw [(h.kind_copied (hlive hi)).2, hphi]

lemma operandFrom?_old (hb : b ∈ f.liveBlocks) (hp : f.hasBlock p)
    (hi : i ∈ f.phis b) :
    (g.instr i).operandFrom? (some (if p = (f.inst s.call).block then f.nextBlock else p)) =
      ((f.instr i).operandFrom? (some p)).map (substResult s.call value) := by
  have hmem := (takeWhile_sublist _).subset hi
  have hphi := f.isPhi_of_mem_phis hi
  have hne := h.fits.ne_call_of_isPhi hphi
  refine operandFrom?_of_entries (σ := fun c => if c = (f.inst s.call).block then f.nextBlock else c)
    (h.entries_old (h.fits.consistent.placed_of_mem hb hmem) hne) fun e he heq => ?_
  have hedge := ((h.fits.form.covers b hb i hmem hphi).2 e.block).mp (mem_map_of_mem he)
  have hblk := (h.fits.consistent.mem_liveBlocks.mp hedge.1).1
  split at heq
  · next hcall =>
    split at heq
    · next hcall' => rw [hcall, hcall']
    · exact absurd heq.symm (ne_nextBlock hp)
  · split at heq
    · exact absurd heq (ne_nextBlock hblk)
    · exact heq

lemma available_of_value {before rest : List InstId}
    (hsplit : f.instsOf b = before ++ rest) (hreach : f.Reachable b)
    (hav : f.Available b before (.inst s.call)) (hj : f.hasInst j)
    (hval : value = some (.inst j)) : f.Available b before (.inst j) := by
  have hcons := h.fits.consistent
  have harg : .inst j ∈ s.args := by
    by_contra hnot
    exact h.value_ne hj hnot hval
  have hblk := Available.reachable hcons (hav.mono (by simp [hsplit])) hreach
  refine hav.trans hcons (h.available_arg hblk harg) (fun hmem => ?_)
    (fun j hj => h.mem_of_mem_pre hj) hreach
  obtain rfl : (f.inst s.call).block = b :=
    hcons.block_of_mem (by rw [hsplit]; exact mem_append_left _ hmem)
  obtain ⟨l, r, rfl⟩ := append_of_mem hmem
  obtain ⟨rfl, -⟩ := h.eq_of_split (hsplit.trans (append_assoc l (s.call :: r) rest))
  exact ⟨rfl, subset_append_left _ _⟩

lemma block_of_terminator {before is : List InstId}
    (hat : At f b before (i :: is)) (hi : (f.instr i).isTerminator) :
    (if b = (f.inst s.call).block then f.nextBlock else b) =
      if s.call ∈ before then f.nextBlock else b := by
  have hcons := h.fits.consistent
  obtain rfl := hat.eq_nil h.fits.formed hi
  refine if_congr ⟨fun hb => ?_, fun hmem => ?_⟩ rfl rfl
  · have hmem := hcons.mem_of_live h.fits.live_call
    rw [← hb, hat.split, mem_append, mem_singleton] at hmem
    exact hmem.resolve_right (h.fits.ne_call_of_isTerminator hi).symm
  · exact (hcons.block_of_mem (by rw [hat.split]; exact mem_append_left _ hmem)).symm

lemma instr_at {before is : List InstId}
    (hat : At f b before (i :: is)) (hne : i ≠ s.call) :
    g.instr i = (f.instr i).mapOperands (substResult s.call value) := by
  have hpl := h.fits.consistent.placed_of_mem hat.live hat.mem
  exact h.instr_old_of_not_isPhi hpl hne
    ((h.kind_old hpl hne).2.trans (hat.body i (.head _)))

variable (hreach : f.Reachable (f.inst s.call).block)
include hreach

lemma instr_copied_of_reachable (hi : i ∈ s.callee.liveInsts) :
    g.instr ((s.copy f).copied i) = (s.copy f).instr (s.callee.instr i) := by
  rw [h.instr_copied hi]
  refine mapOperands_eq_self fun v hv => ?_
  obtain ⟨u, -, hstands⟩ := h.fits.operands_copied hi hv
  exact h.substResult_stands hreach hstands

lemma operandFrom?_copied (hd : d ∈ s.callee.liveBlocks)
    (hi : i ∈ s.callee.phis d) :
    (g.instr ((s.copy f).copied i)).operandFrom? (some ((s.copy f).block p)) =
      ((s.callee.instr i).operandFrom? (some p)).map (s.copy f).operand := by
  have hmem := (takeWhile_sublist _).subset hi
  have hphi := s.callee.isPhi_of_mem_phis hi
  rw [h.instr_copied_of_reachable hreach (mem_flatMap.mpr ⟨d, hd, hmem⟩)]
  refine operandFrom?_of_entries ((s.copy f).entries_instr _) fun e he heq => ?_
  have hedge := ((h.fits.callee.form.covers d hd i hmem hphi).2 e.block).mp (mem_map_of_mem he)
  exact (s.copy f).block_inj (mem_of_mem_filter hedge.1) heq

lemma operandFrom?_merge {k : Nat} {p : Instr × Ty} (hk : merge[k]? = some p)
    (hi : i ∈ s.callee.liveInsts) (hret : s.callee.instr i = .ret (some v)) :
    (g.instr ⟨s.size f + clears.length + k⟩).operandFrom?
      (some ((s.copy f).block (s.callee.inst i).block)) = some ((s.copy f).operand v) := by
  have hent : PhiEntry.mk ((s.copy f).block (s.callee.inst i).block)
      (some ((s.copy f).operand v)) ∈ (s.copy f).returned :=
    Copy.mem_returned.mpr ⟨i, hi, v, hret, rfl⟩
  have hsubst := (h.available_returned hreach hent rfl).2
  have hfrom := operandFrom?_of_mem (k := .phi (s.copy f).returned) h.nodup_returned hent
  rw [h.instr_merge hk, h.expanded.result.eq_phi (mem_of_getElem? hk),
    operandFrom?_mapOperands, hfrom, Option.map_some, hsubst]

end Replaced

/-! ## States of the caller -/

/-- The states of the caller and of the caller with a copy at the same place.  The value of the call
is what the call yielded only as long as the call is available: an argument may be computed again
before the next call. -/
structure Agree (f : Func) (s : Site) (value : Option Operand) (args : List Value) (b : BlockId)
    (before : List InstId) (old new : State) : Prop where
  regs : ∀ i, f.hasInst i → i ≠ s.call → new.regs i = old.regs i
  result : ∀ v, value = some v → f.Available b before (.inst s.call) → ∀ x,
    old.regs s.call = some x → new.eval args v = some x
  slots : ∀ i, f.hasInst i → new.slots i = old.slots i
  unslotted : old.slots s.call = none
  world : new.world = old.world

def Hoisted (f : Func) (s : Site) (t : State) : Prop :=
  ∀ i ∈ (s.copy f).slots, (t.slots i).isSome

structure Untouched (f : Func) (s : Site) (t t' : State) : Prop where
  regs : ∀ i, f.hasInst i → t'.regs i = t.regs i
  slots : ∀ i, f.hasInst i → t'.slots i = t.slots i
  hoisted : Hoisted f s t → Hoisted f s t'
  room : t'.room = t.room

lemma Untouched.trans {t t'' : State} (h : Untouched f s t t') (h' : Untouched f s t' t'') :
    Untouched f s t t'' where
  regs i hi := (h'.regs i hi).trans (h.regs i hi)
  slots i hi := (h'.slots i hi).trans (h.slots i hi)
  hoisted ht := h'.hoisted (h.hoisted ht)
  room := h'.room.trans h.room

lemma Untouched.eval {t : State} (h : Untouched f s t t')
    (hv : ∀ i, v = .inst i → f.hasInst i) (args : List Value) :
    t'.eval args v = t.eval args v := by
  cases v with
  | inst i => exact h.regs i (hv i rfl)
  | _ => rfl

namespace Agree

variable {args : List Value} {b : BlockId} {before is : List InstId} {i : InstId} {old new : State}
  {u : InstId} {x : Value}

section

variable (hA : Agree f s value args b before old new)
include hA

lemma substResult_of_read (hv : (old.read v).isSome) :
    substResult s.call value v = v := by
  refine substResult_of_ne ?_ value
  rintro rfl
  rw [State.read, hA.unslotted] at hv
  cases hv

lemma next (hne : i ≠ s.call) : Agree f s value args b (before ++ [i]) old new :=
  { hA with
    result := fun v hv hav => hA.result v hv (hav.of_concat fun heq => hne (inst.inj heq).symm) }

lemma setSlot (hne : a ≠ s.call) (x : Value) :
    Agree f s value args b before (old.setSlot a x) (new.setSlot a x) where
  regs := hA.regs
  result := hA.result
  slots j hj := by
    by_cases hja : j = a
    · simp [State.setSlot, hja]
    · simp [State.setSlot, hja, hA.slots j hj]
  unslotted := by simp [State.setSlot, Ne.symm hne, hA.unslotted]
  world := hA.world

lemma write {ptr : Operand} (hptr : (old.read ptr).isSome) (x : Value) :
    Agree f s value args b before (old.write ptr x) (new.write ptr x) := by
  cases ptr with
  | inst a =>
    refine hA.setSlot ?_ x
    rintro rfl
    rw [State.read, hA.unslotted] at hptr
    cases hptr
  | global c =>
    refine ⟨hA.regs, fun v hv hav y hy => ?_, hA.slots, hA.unslotted, ?_⟩
    · rw [← hA.result v hv hav y hy]
      cases v <;> rfl
    · simp only [State.write, State.setGlobal, hA.world]
  | _ => cases hptr

end

variable (h : Replaced f s n memset pre post clears merge value m g)
  (hA : Agree f s value args b before old new)

include h hA

lemma eval (hu : f.placed u) (hv : v ∈ (f.instr u).operands)
    (hav : v = .inst s.call → f.Available b before v) (hx : old.eval args v = some x) :
    new.eval args (substResult s.call value v) = some x := by
  cases v with
  | inst j =>
    by_cases hj : j = s.call
    · subst hj
      cases hval : value with
      | none => exact absurd hv (h.ne_call_of_value_eq_none hval hu)
      | some w =>
        rw [substResult, subst, if_pos rfl]
        exact hA.result w hval (hav rfl) x hx
    · rw [substResult_of_ne fun heq => hj (inst.inj heq), ← hx]
      exact hA.regs j (h.fits.hasInst_of_operand hu hv) hj
  | _ =>
    rw [substResult_of_ne Operand.noConfusion]
    exact hx

lemma read (hu : f.placed u) (hv : v ∈ (f.instr u).operands) (hx : old.read v = some x) : new.read
    (substResult s.call value v) = some x := by
  rw [hA.substResult_of_read (by rw [hx]; rfl), ← hx]
  cases v with
  | inst a => exact hA.slots a (h.fits.hasInst_of_operand hu hv)
  | global c => exact congrFun (congrArg World.globals hA.world) c
  | _ => rfl

lemma eval_at (hat : At f b before (i :: is)) (hreach : f.Reachable b) :
    ∀ v ∈ (f.instr i).operands, ∀ x, old.eval args v = some x →
      new.eval args (substResult s.call value v) = some x := fun v hv _ hx =>
  hA.eval h (h.fits.consistent.placed_of_mem hat.live hat.mem) hv (fun _ =>
    h.fits.form.dominated b hat.live hreach before i is hat.split
      (hat.body i (.head _)) v hv) hx

lemma yield (hat : At f b before (i :: is)) (hreach : f.Reachable b) (hne : i ≠ s.call) (x : Value)
    (w : World) : Agree f s value args b before (old.yield i x w) (new.yield i x w) where
  regs j hj hcall := by
    by_cases hji : j = i
    · simp [State.yield, hji]
    · simp [State.yield, hji, hA.regs j hj hcall]
  result v hv hav y hy := by
    have hy' : old.regs s.call = some y := by simpa [State.yield, Ne.symm hne] using hy
    rw [← hA.result v hv hav y hy']
    cases v with
    | inst j =>
      have hji : j ≠ i := by
        rintro rfl
        have hcons := h.fits.consistent
        have hj := f.hasInst_of_live (hcons.live_of_mem hat.mem)
        exact hcons.not_available_self hat.split (h.available_of_value hat.split hreach hav hj hv)
      simp [State.eval, State.yield, hji]
    | _ => rfl
  slots := hA.slots
  unslotted := hA.unslotted
  world := rfl

lemma advances {p q : Program} {calls calls' : CallSem} {k : Nat} (hcalls : calls.Within k calls')
    (hstrs : q.strings = p.strings) (hat : At f b before (i :: is)) (hreach : f.Reachable b)
    (hne : i ≠ s.call) {rest : Nat}
    (hstep : Advances p calls args i (f.inst i).ty old (f.instr i) steps old')
    (hroom : old.room + k * (rest + steps) ≤ new.room) :
    ∃ new', Advances q calls' args i (g.inst i).ty new (g.instr i) steps new' ∧
      Agree f s value args b (before ++ [i]) old' new' ∧ old'.room + k * rest ≤ new'.room := by
  have hpl := h.fits.consistent.placed_of_mem hat.live hat.mem
  have hhas := f.hasInst_of_live (Func.Formed.live_of_placed hpl)
  have heval := hA.eval_at h hat hreach
  have hread : ∀ v ∈ (f.instr i).operands, ∀ x, old.read v = some x →
      new.read (substResult s.call value v) = some x := fun v hv x hx => hA.read h hpl hv hx
  rw [Nat.mul_add] at hroom
  rw [h.instr_at hat hne, h.ty_old hhas hne]
  generalize hk : f.instr i = kind at hstep heval hread
  cases hstep with
  | @yield _ _ v w hy =>
    refine ⟨_, .yield (hy.within hcalls hstrs hA.world heval hread (by omega)),
      (hA.yield h hat hreach hne v w).next hne, ?_⟩
    change old.room + k * rest ≤ new.room
    omega
  | @alloc t hcells hfree hspace =>
    have hset := hA.setSlot hne (.initial t)
    refine ⟨_, .alloc hcells ((hA.slots i hhas).trans hfree) (by omega), ?_, ?_⟩
    · exact Agree.next ⟨hset.regs, hset.result, hset.slots, hset.unslotted, hset.world⟩ hne
    · change old.room - 1 + k * rest ≤ new.room - 1
      omega
  | @store v ptr x hv hptr =>
    obtain ⟨y, hy⟩ := Option.isSome_iff_exists.mp hptr
    refine ⟨_, .store (heval v (.head _) x hv) ?_, ?_, ?_⟩
    · rw [hread ptr (by simp [Instr.operands]) y hy]
      rfl
    · rw [hA.substResult_of_read hptr]
      exact (hA.write hptr x).next hne
    · rw [State.room_write, State.room_write]
      omega

lemma enter (hat : At f b before (i :: is)) (hreach : f.Reachable b)
    (hi : (f.instr i).isTerminator) {c : BlockId} (hedge : f.Edge b c)
    (hphis : ∀ j ∈ f.phis c, (old.incoming f args b j).isSome) :
    (∀ j ∈ g.phis c, (new.incoming g args (if s.call ∈ before then f.nextBlock else b) j).isSome) ∧
      Agree f s value args c (f.phis c) (old.enter f args b c)
        (new.enter g args (if s.call ∈ before then f.nextBlock else b) c) := by
  have hssa := h.fits.caller
  have hcons := hssa.consistent
  have hc := hssa.mem_liveBlocks_of_edge hedge
  have hb := (hcons.mem_liveBlocks.mp hat.live).1
  have hne := h.fits.ne_call_of_isTerminator hi
  have hend : f.instsOf b = before ++ [i] := by
    rw [hat.split, hat.eq_nil hssa.formed hi]
  have hincoming {j : InstId} (hj : j ∈ f.phis c) :
      new.incoming g args (if s.call ∈ before then f.nextBlock else b) j =
        old.incoming f args b j := by
    obtain ⟨x, hx⟩ := Option.isSome_iff_exists.mp (hphis j hj)
    obtain ⟨v, hv, hvx⟩ := Option.bind_eq_some_iff.mp hx
    have hmem := (takeWhile_sublist _).subset hj
    rw [hx, State.incoming, ← h.block_of_terminator hat hi, h.operandFrom?_old hc hb hj, hv]
    refine hA.eval h (hcons.placed_of_mem hc hmem) (mem_operands_of_operandFrom? hv) ?_ hvx
    rintro rfl
    have hav := hssa.form.available_of_operandFrom? hc (hreach.tail hedge) hmem hv
    exact (hend ▸ hav).of_concat fun heq => hne (inst.inj heq).symm
  refine ⟨fun j hj => ?_, fun j hj hcall => ?_, fun v hv hav x hx => ?_, fun j hj => ?_, ?_, hA.world⟩
  · rw [h.mem_phis_old hc] at hj
    rw [hincoming hj]
    exact hphis j hj
  · by_cases hin : j ∈ f.phis c
    · simp only [State.enter, if_pos hin, if_pos ((h.mem_phis_old hc).mpr hin), hincoming hin]
    · simp only [State.enter, if_neg hin, if_neg (mt (h.mem_phis_old hc).mp hin), hA.regs j hj hcall]
  · have hcall := h.fits.call_notMem_phis c
    have hstart : f.Available c [] (.inst s.call) := fun j hj =>
      Or.inr ((hav j hj).resolve_left fun hmem => hcall (inst.inj hj ▸ hmem))
    have hbefore := (hend ▸ hstart.of_edge hcons hedge h.fits.live_call).of_concat
        fun heq => hne (inst.inj heq).symm
    rw [← hA.result v hv hbefore x (by simpa only [State.enter, if_neg hcall] using hx)]
    cases v with
    | inst j =>
      refine if_neg fun hin => ?_
      have hin := (h.mem_phis_old hc).mp hin
      have hmem := (takeWhile_sublist _).subset hin
      have hj := f.hasInst_of_live (hcons.live_of_mem hmem)
      have hall : f.instsOf c = [] ++ f.instsOf c := rfl
      have havail := h.available_of_value hall (hreach.tail hedge) hstart hj hv
      exact ((havail j rfl).resolve_left not_mem_nil).1 (hcons.block_of_mem hmem)
    | _ => rfl
  · simp only [State.enter]
    split
    · rfl
    · exact hA.slots j hj
  · simp only [State.enter]
    split
    · rfl
    · exact hA.unslotted

end Agree

/-! ## States of the callee -/

/-- The states of a call of the callee and of its copy at the same place.  The caller has been in the
state `t` when it came to the call. -/
structure Inside (f : Func) (s : Site) (t old new : State) : Prop where
  regs : ∀ i ∈ s.callee.liveInsts, ∀ x, old.regs i = some x →
    new.regs ((s.copy f).copied i) = some x
  /-- A slot that is not there yet has been cleared. -/
  slots : ∀ i ∈ s.callee.liveInsts, ∀ ty, s.callee.instr i = .alloc ty →
    new.slots ((s.copy f).copied i) = some ((old.slots i).getD (.initial ty))
  slotted : ∀ i x, old.slots i = some x → i ∈ s.callee.liveInsts ∧ isSlot s.callee i
  world : new.world = old.world
  frame : Untouched f s t new

/-- The arguments have their values in the state of the caller. -/
structure Passed (f : Func) (s : Site) (args vs : List Value) (t : State) : Prop where
  old : ∀ v ∈ s.args, ∀ i, v = .inst i → f.hasInst i
  eval : ∀ (n : Nat) v, s.args[n]? = some v → ∀ x, vs[n]? = some x → t.eval args v = some x

lemma Untouched.of_copied {t : State} {i : InstId}
    (hregs : ∀ j, j ≠ (s.copy f).copied i → t'.regs j = t.regs j)
    (hslots : ∀ j, j ≠ (s.copy f).copied i → t'.slots j = t.slots j)
    (hsome : ∀ j, (t.slots j).isSome → (t'.slots j).isSome) (hroom : t'.room = t.room) :
    Untouched f s t t' where
  regs _ hj := hregs _ (copied_ne hj).symm
  slots _ hj := hslots _ (copied_ne hj).symm
  hoisted ht j hj := hsome j (ht j hj)
  room := hroom

lemma Copy.instr_of_advances {p : Program} {calls : CallSem} {args : List Value} {i : InstId}
    {old : State} (c : Copy)
    (h : Advances p calls args i ty old k steps old') : c.instr k = k.mapOperands c.operand := by
  cases h with
  | yield hy =>
    cases hy with
    | compute hv => cases k <;> first | rfl | cases hv
    | load => rfl
    | call => rfl
    | print => rfl
  | alloc => rfl
  | store => rfl

namespace Inside

variable {args vs : List Value} {t old new : State} {i : InstId} (hin : Inside f s t old new)

include hin

variable {x : Value}

lemma eval (hpassed : Passed f s args vs t) {w : Operand} (hvw : Stands f s v w)
    (hx : old.eval vs v = some x) : new.eval args w = some x := by
  cases hvw with
  | inst hi => exact hin.regs _ hi x hx
  | @arg n _ hv =>
    rw [hin.frame.eval (hpassed.old w (mem_of_getElem? hv))]
    exact hpassed.eval n w hv x hx
  | const => exact hx
  | global => cases hx

lemma read {w : Operand} (hvw : Stands f s v w) (hx : old.read v = some x) :
    new.read w = some x := by
  cases hvw with
  | @inst i hi =>
    have hx : old.slots i = some x := hx
    obtain ⟨ty, hty⟩ := isSlot_iff.mp (hin.slotted i x hx).2
    rw [State.read, hin.slots i hi ty hty, hx]
    rfl
  | arg => cases hx
  | const => cases hx
  | global c => exact (congrFun (congrArg World.globals hin.world) c).trans hx

lemma yield (hi : i ∈ s.callee.liveInsts) (x : Value) (w : World) :
    Inside f s t (old.yield i x w) (new.yield ((s.copy f).copied i) x w) where
  regs j hj y hy := by
    by_cases hji : j = i
    · subst hji
      simpa [State.yield] using hy
    · have hne : (s.copy f).copied j ≠ (s.copy f).copied i := fun heq => hji
        ((s.copy f).copied_inj hj heq)
      simp only [State.yield, update_of_ne hji] at hy
      simp only [State.yield, update_of_ne hne]
      exact hin.regs j hj y hy
  slots := hin.slots
  slotted := hin.slotted
  world := rfl
  frame := hin.frame.trans (.of_copied (fun _ hj => update_of_ne hj _ _) (fun _ _ => rfl)
    (fun _ h => h) rfl)

lemma reserve (hi : i ∈ s.callee.liveInsts) (hk : s.callee.instr i = .alloc ty)
    (hfree : old.slots i = none) : Inside f s t (old.reserve i ty) new where
  regs := hin.regs
  slots j hj ty' hty' := by
    rw [hin.slots j hj ty' hty']
    by_cases hji : j = i
    · subst hji
      obtain rfl := alloc.inj (hk.symm.trans hty')
      simp [State.reserve, State.setSlot, hfree]
    · simp [State.reserve, State.setSlot, hji]
  slotted j x hx := by
    by_cases hji : j = i
    · exact hji ▸ ⟨hi, isSlot_iff.mpr ⟨ty, hk⟩⟩
    · exact hin.slotted j x (by simpa [State.reserve, State.setSlot, hji] using hx)
  world := hin.world
  frame := hin.frame

lemma write {ptr w : Operand} (hvw : Stands f s ptr w) (hptr : (old.read ptr).isSome)
    (x : Value) : Inside f s t (old.write ptr x) (new.write w x) := by
  cases hvw with
  | @inst i hi =>
    obtain ⟨y, hy⟩ := Option.isSome_iff_exists.mp hptr
    have hslot := (hin.slotted i y hy).2
    refine ⟨hin.regs, fun j hj ty hty => ?_, fun j z hz => ?_, hin.world, hin.frame.trans
      (.of_copied (fun _ _ => rfl) (fun _ hj => update_of_ne hj _ _)
        (fun _ h => State.isSome_slots_write h _ x) rfl)⟩
    · by_cases hji : j = i
      · simp [State.write, State.setSlot, hji]
      · have hne : (s.copy f).copied j ≠ (s.copy f).copied i := fun heq =>
          hji ((s.copy f).copied_inj hj heq)
        simp [State.write, State.setSlot, hji, hne, hin.slots j hj ty hty]
    · by_cases hji : j = i
      · exact hji ▸ ⟨hi, hslot⟩
      · exact hin.slotted j z (by simpa [State.write, State.setSlot, hji] using hz)
  | arg => cases hptr
  | const => cases hptr
  | global c =>
    exact ⟨hin.regs, hin.slots, hin.slotted, by simp only [State.write, State.setGlobal, hin.world],
      hin.frame.trans ⟨fun _ _ => rfl, fun _ _ => rfl, fun h => h, rfl⟩⟩

variable (h : Replaced f s n memset pre post clears merge value m g)
  (hreach : f.Reachable (f.inst s.call).block) (hpassed : Passed f s args vs t)
include h hreach hpassed

/-- An instruction of the callee other than an allocation leads to states that agree. -/
lemma advances {p q : Program} {calls calls' : CallSem} {k : Nat} (hcalls : calls.Within k calls')
    (hstrs : q.strings = p.strings) (hi : i ∈ s.callee.liveInsts) (hslot : isSlot s.callee i = false)
    {rest : Nat}
    (hstep : Advances p calls vs i (s.callee.inst i).ty old (s.callee.instr i) steps old')
    (hroom : old.room + k * (rest + steps) ≤ new.room) :
    ∃ new', Advances q calls' args ((s.copy f).copied i) (g.inst ((s.copy f).copied i)).ty new
        (g.instr ((s.copy f).copied i)) steps new' ∧
      Inside f s t old' new' ∧ old'.room + k * rest ≤ new'.room := by
  have heval : ∀ v ∈ (s.callee.instr i).operands, ∀ x, old.eval vs v = some x →
      new.eval args ((s.copy f).operand v) = some x := fun v hv x hx =>
    hin.eval hpassed (h.fits.stands hi hv) hx
  have hread : ∀ v ∈ (s.callee.instr i).operands, ∀ x, old.read v = some x →
      new.read ((s.copy f).operand v) = some x := fun v hv x hx => hin.read (h.fits.stands hi hv) hx
  have hstands {ptr : Operand} (hv : ptr ∈ (s.callee.instr i).operands) := h.fits.stands hi hv
  rw [Nat.mul_add] at hroom
  rw [h.instr_copied_of_reachable hreach hi, Copy.instr_of_advances _ hstep, h.ty_copied hi]
  generalize hk : s.callee.instr i = kind at hstep heval hread hstands
  cases hstep with
  | @yield _ _ v w hy =>
    refine ⟨_, .yield (hy.within hcalls hstrs hin.world heval hread (by omega)), hin.yield hi v w, ?_⟩
    change old.room + k * rest ≤ new.room
    omega
  | @alloc ty =>
    rw [isSlot_iff.mpr ⟨ty, hk⟩] at hslot
    cases hslot
  | @store v ptr x hv hptr =>
    obtain ⟨y, hy⟩ := Option.isSome_iff_exists.mp hptr
    have hmem : ptr ∈ (Instr.store v ptr).operands := by simp [Instr.operands]
    refine ⟨_, .store (heval v (.head _) x hv) ?_, hin.write (hstands hmem) hptr x, ?_⟩
    · rw [hread ptr hmem y hy]
      rfl
    · rw [State.room_write, State.room_write]
      omega

lemma enter {d e : BlockId} (he : e ∈ s.callee.liveBlocks)
    (hphis : ∀ j ∈ s.callee.phis e, (old.incoming s.callee vs d j).isSome) :
    (∀ u ∈ g.phis ((s.copy f).block e), (new.incoming g args ((s.copy f).block d) u).isSome) ∧
      (∀ i ∈ s.callee.liveInsts, ∀ x, (old.enter s.callee vs d e).regs i = some x →
        (new.enter g args ((s.copy f).block d) ((s.copy f).block e)).regs ((s.copy f).copied i) =
          some x) ∧
      Untouched f s t (new.enter g args ((s.copy f).block d) ((s.copy f).block e)) := by
  have hne : (s.copy f).block e ≠ ⟨0⟩ := fun heq => by
    have hzero : f.blocks.size + 1 + s.callee.layout.idxOf e = 0 := congrArg BlockId.idx heq
    omega
  have hlive {j : InstId} (hj : j ∈ s.callee.phis e) : j ∈ s.callee.liveInsts :=
    mem_flatMap.mpr ⟨e, he, (takeWhile_sublist _).subset hj⟩
  have hincoming {j : InstId} (hj : j ∈ s.callee.phis e) :
      new.incoming g args ((s.copy f).block d) ((s.copy f).copied j) =
        old.incoming s.callee vs d j := by
    obtain ⟨x, hx⟩ := Option.isSome_iff_exists.mp (hphis j hj)
    obtain ⟨v, hv, hvx⟩ := Option.bind_eq_some_iff.mp hx
    rw [hx, State.incoming, h.operandFrom?_copied hreach he hj, hv]
    exact hin.eval hpassed (h.fits.stands (hlive hj) (mem_operands_of_operandFrom? hv)) hvx
  refine ⟨fun u hu => ?_, fun i hi x hx => ?_, hin.frame.trans ⟨fun j hj => ?_, ?_, ?_, rfl⟩⟩
  · obtain ⟨j, hj, rfl⟩ := (h.mem_phis_copy he).mp hu
    rw [hincoming hj]
    exact hphis j hj
  · by_cases hphi : i ∈ s.callee.phis e
    · simp only [State.enter, if_pos hphi] at hx
      simp only [State.enter, if_pos ((h.mem_phis_copy he).mpr ⟨i, hphi, rfl⟩), hincoming hphi]
      exact hx
    · simp only [State.enter, if_neg hphi] at hx
      refine (if_neg fun hmem => ?_).trans (hin.regs i hi x hx)
      obtain ⟨j, hj, heq⟩ := (h.mem_phis_copy he).mp hmem
      exact hphi ((s.copy f).copied_inj hi heq ▸ hj)
  · refine if_neg fun hmem => ?_
    obtain ⟨i, -, rfl⟩ := (h.mem_phis_copy he).mp hmem
    exact copied_ne hj rfl
  · intro j hj
    simp only [State.enter, if_neg hne]
  · intro hhoisted j hj
    simp only [State.enter, if_neg hne]
    exact hhoisted j hj

end Inside

/-! ## Allocating and clearing slots -/

lemma exists_zero {t : Ty} (ht : t.isScalar) :
    ∃ zero, Constant.zero? t = some zero ∧ Value.initial t = .ofConstant zero := by
  cases t <;> first | exact ⟨_, rfl, rfl⟩ | cases ht

structure OnlySlots (slots : List InstId) (t t' : State) : Prop where
  regs : t'.regs = t.regs
  world : t'.world = t.world
  other : ∀ a ∉ slots, t'.slots a = t.slots a

lemma OnlySlots.eval {slots : List InstId} {t : State} (h : OnlySlots slots t t')
    (args : List Value) (v : Operand) : t'.eval args v = t.eval args v := by
  cases v with
  | inst i => exact congrFun h.regs i
  | _ => rfl

lemma OnlySlots.nil (t : State) : OnlySlots [] t t :=
  ⟨rfl, rfl, fun _ _ => rfl⟩

lemma OnlySlots.cons {slots : List InstId} {t u : State} (h : OnlySlots slots u t')
    (hregs : u.regs = t.regs) (hworld : u.world = t.world) (hslots : ∀ c ≠ a, u.slots c = t.slots c) :
    OnlySlots (a :: slots) t t' where
  regs := h.regs.trans hregs
  world := h.world.trans hworld
  other c hc := by
    rw [mem_cons, not_or] at hc
    exact (h.other c hc.2).trans (hslots c hc.1)

section Straight

variable {q : Program} {calls : CallSem} {args : List Value} {t : State} {slots : List InstId}

lemma moves_alloc (hnd : slots.Nodup)
    (hslots : ∀ a ∈ slots, ∃ ty, g.instr a = .alloc ty ∧ ty.cells = 1)
    (hfree : ∀ a ∈ slots, t.slots a = none) (hroom : slots.length ≤ t.room) :
    ∃ t', OnlySlots slots t t' ∧ t'.room + slots.length = t.room ∧
      (∀ a ∈ slots, (t'.slots a).isSome) ∧
      ∀ b is o, Moves q calls g args b is t' o → Moves q calls g args b (slots ++ is) t o := by
  induction slots generalizing t with
  | nil => exact ⟨t, .nil t, rfl, nofun, fun _ _ _ h => h⟩
  | cons a slots ih =>
    rw [nodup_cons] at hnd
    rw [forall_mem_cons] at hslots hfree
    obtain ⟨⟨ty, hk, hcells⟩, hslots⟩ := hslots
    have hne {c : InstId} (hc : c ∈ slots) : c ≠ a := fun heq => hnd.1 (heq ▸ hc)
    rw [length_cons] at hroom
    obtain ⟨t', honly, hroom', hsome, hmoves⟩ := ih (t := t.reserve a ty) hnd.2 hslots
      (fun c hc => (update_of_ne (hne hc) _ _).trans (hfree.2 c hc)) (le_sub_one_of_lt hroom)
    refine ⟨t', honly.cons rfl rfl fun c hc => update_of_ne hc _ _, ?_, fun c hc => ?_,
      fun b is o ho => ?_⟩
    · change t'.room + slots.length = t.room - 1 at hroom'
      rw [length_cons]
      omega
    · rcases mem_cons.mp hc with rfl | hc
      · rw [honly.other c hnd.1]
        simp [State.reserve, State.setSlot]
      · exact hsome c hc
    · refine Moves.next (n := 0) ?_ (hmoves b is o ho)
      rw [hk]
      exact .alloc hcells hfree.1 (lt_of_lt_of_le (succ_pos _) hroom)

lemma Clears.moves {kind : InstId → Instr} {start : Nat}
    {code : List (Instr × Ty)} (h : Clears kind memset start slots code)
    (hcode : ∀ k p, code[k]? = some p → g.instr ⟨start + k⟩ = p.1)
    (hscalar : ∀ a ∈ slots, ∀ ty, kind a = .alloc ty → ty.isScalar)
    (ht : ∀ a ∈ slots, (t.slots a).isSome) :
    ∃ t', OnlySlots slots t t' ∧ t'.room = t.room ∧
      (∀ a ∈ slots, ∀ ty, kind a = .alloc ty → t'.slots a = some (.initial ty)) ∧
      ∀ b is o, Moves q calls g args b is t' o →
        Moves q calls g args b (idsFrom start code.length ++ is) t o := by
  induction h generalizing t with
  | nil start => exact ⟨t, .nil t, rfl, nofun, fun _ _ _ h => h⟩
  | @scalar start slot slots code ty zero halloc hzero _ ih =>
    rw [forall_mem_cons] at hscalar ht
    obtain ⟨zero', hzero', hini⟩ := exists_zero (hscalar.1 ty halloc)
    obtain rfl := Option.some.inj (hzero.symm.trans hzero')
    obtain ⟨t', honly, hroom, hcleared, hmoves⟩ := ih (t := t.setSlot slot (.ofConstant zero))
      (fun k p hk => by
        rw [add_right_comm]
        exact hcode (k + 1) p hk)
      hscalar.2 fun a ha => State.isSome_slots_write (ht.2 a ha) (.inst slot) _
    refine ⟨t', honly.cons rfl rfl fun a ha => update_of_ne ha _ _, hroom,
      fun a ha ty' hty' => ?_, fun b is o ho => ?_⟩
    · by_cases hmem : a ∈ slots
      · exact hcleared a hmem ty' hty'
      · obtain rfl := (mem_cons.mp ha).resolve_right hmem
        obtain rfl := alloc.inj (halloc.symm.trans hty')
        rw [honly.other a hmem, hini]
        simp [State.setSlot]
    · have hfirst : g.instr ⟨start⟩ = .store (.const zero) (.inst slot) := hcode 0 _ rfl
      refine Moves.next (n := 0) ?_ (hmoves b is o ho)
      rw [hfirst]
      exact .store rfl ht.1
  | @array start slot slots code ty fill size halloc hzero =>
    obtain ⟨zero, hsome, -⟩ := exists_zero (hscalar slot (.head _) ty halloc)
    rw [hzero] at hsome
    cases hsome

end Straight

namespace Replaced

variable {q : Program} {calls : CallSem} {args : List Value} {t : State}
  (h : Replaced f s n memset pre post clears merge value m g)
  (hscalar : ∀ i ∈ s.callee.liveInsts, ∀ ty, s.callee.instr i = .alloc ty → ty.isScalar)

include h hscalar

lemma exists_of_mem_slots (ha : a ∈ (s.copy f).slots) :
    ∃ i ∈ s.callee.liveInsts, ∃ ty, s.callee.instr i = .alloc ty ∧ ty.isScalar ∧
      a = (s.copy f).copied i := by
  obtain ⟨i, hlive, hslot, rfl⟩ := Copy.of_mem_slots h.fits.callee.consistent ha
  obtain ⟨ty, hty⟩ := isSlot_iff.mp hslot
  exact ⟨i, hlive, ty, hty, hscalar i hlive ty hty, rfl⟩

lemma moves_slots (hfree : ∀ a ∈ (s.copy f).slots, t.slots a = none)
    (hroom : (s.copy f).slots.length ≤ t.room) :
    ∃ t', OnlySlots (s.copy f).slots t t' ∧ t'.room + (s.copy f).slots.length = t.room ∧
      Hoisted f s t' ∧ ∀ b is o, Moves q calls g args b is t' o →
        Moves q calls g args b ((s.copy f).slots ++ is) t o := by
  refine moves_alloc (Copy.nodup_slots h.fits.callee.consistent) (fun a ha => ?_) hfree hroom
  obtain ⟨i, hi, ty, hk, hty, rfl⟩ := h.exists_of_mem_slots hscalar ha
  refine ⟨ty, ?_, Ty.cells_of_isScalar hty⟩
  rw [h.instr_copied hi, hk]
  rfl

lemma moves_clears (ht : Hoisted f s t) :
    ∃ t', OnlySlots (s.copy f).slots t t' ∧ t'.room = t.room ∧
      (∀ i ∈ s.callee.liveInsts, ∀ ty, s.callee.instr i = .alloc ty →
        t'.slots ((s.copy f).copied i) = some (.initial ty)) ∧
      ∀ b is o, Moves q calls g args b is t' o → Moves q calls g args b
        (idsFrom (s.size f) clears.length ++ is) t o := by
  have hcons := h.fits.callee.consistent
  have hspliced := spliced_withCopy h.fits.consistent hcons h.fits.live_call
    (h.fits.callerEntry ▸ h.fits.hasBlock_entry) h.split n
  have hkind {i : InstId} (hi : i ∈ s.callee.liveInsts) {ty : Ty} (hk : s.callee.instr i = .alloc ty) :
      (withCopy f s n).instr ((s.copy f).copied i) = .alloc ty := by
    rw [(hspliced.copied i hi).1, hk]
    rfl
  have hlt := f.hasInst_iff.mp (f.hasInst_of_live h.fits.live_call)
  have hcode : ∀ k p, clears[k]? = some p → g.instr ⟨s.size f + k⟩ = p.1 := by
    intro k p hk
    rw [h.instr_clear hk]
    refine mapOperands_eq_self fun v hv => substResult_of_ne ?_ value
    rintro rfl
    rcases h.expanded.fill.operands hk hv with ⟨c, hc⟩ | ⟨a, ha, heq⟩ | ⟨j, -, heq⟩
    · cases hc
    · obtain ⟨i, -, -, -, -, rfl⟩ := h.exists_of_mem_slots hscalar ha
      exact copied_ne (f.hasInst_of_live h.fits.live_call) (inst.inj heq).symm
    · grind
  have hscalars : ∀ a ∈ (s.copy f).slots, ∀ ty, (withCopy f s n).instr a = .alloc ty →
      ty.isScalar := by
    intro a ha ty hty
    obtain ⟨i, hi, ty', hk, hty', rfl⟩ := h.exists_of_mem_slots hscalar ha
    obtain rfl := alloc.inj ((hkind hi hk).symm.trans hty)
    exact hty'
  obtain ⟨t', honly, hroom, hcleared, hmoves⟩ := h.expanded.fill.moves hcode hscalars ht
  refine ⟨t', honly, hroom, fun i hi ty hk => hcleared _ ?_ ty (hkind hi hk), hmoves⟩
  exact (Copy.mem_slots hcons hi).mpr (isSlot_iff.mpr ⟨ty, hk⟩)

end Replaced

end Inlining

end MiddleEnd
