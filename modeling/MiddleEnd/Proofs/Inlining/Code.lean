import MiddleEnd.Proofs.Graph.Graft
import MiddleEnd.Proofs.Inlining.Uses
import MiddleEnd.Proofs.SsaEdits

/-!
# The code of a caller with a copy

Where each instruction is after a call has been replaced, what it does, and where control goes.  The
edges are those of the caller with the graph of the callee put into the block of the call.
-/

namespace MiddleEnd

open List Instr Func Nat

/-- A phi with a predecessor renamed; other operations stay as they are. -/
def Instr.renameEntry (old new : BlockId) (k : Instr) : Instr :=
  if k.isPhi then renamePred old new k else k

namespace Instr

variable {k : Instr}

lemma targets_mapBlocks (σ : BlockId → BlockId) (k : Instr) :
    (k.mapBlocks σ).targets = k.targets.map σ := by
  cases k with
  | jump target => cases target <;> rfl
  | _ => rfl

lemma not_isPendingJump_of_not_isTerminator (hk : k.isTerminator = false) :
    k.isPendingJump = false := by
  cases k with
  | jump => cases hk
  | _ => rfl

section

variable (old new : BlockId)

lemma renameEntry_of_not_isPhi (hk : k.isPhi = false) : k.renameEntry old new = k := by
  rw [renameEntry, hk]
  rfl

lemma isPhi_renameEntry (k : Instr) : (k.renameEntry old new).isPhi = k.isPhi := by
  cases k <;> rfl

lemma isTerminator_renameEntry (k : Instr) :
    (k.renameEntry old new).isTerminator = k.isTerminator := by
  cases k <;> rfl

lemma targets_renameEntry (k : Instr) : (k.renameEntry old new).targets = k.targets := by
  cases k <;> rfl

lemma operands_renameEntry (k : Instr) : (k.renameEntry old new).operands = k.operands := by
  unfold renameEntry
  split
  · exact operands_mapBlocks _ k
  · rfl

lemma entries_renameEntry (k : Instr) :
    (k.renameEntry old new).entries =
      k.entries.map fun e => { e with block := if e.block = old then new else e.block } := by
  cases k <;> rfl

lemma isPendingJump_renameEntry (k : Instr) :
    (k.renameEntry old new).isPendingJump = k.isPendingJump := by
  cases k <;> rfl

end

lemma renameEntry_of_forall_ne {old new : BlockId} (h : ∀ e ∈ k.entries, e.block ≠ old) :
    k.renameEntry old new = k := by
  cases k with
  | phi es =>
    have hmap : es.map (fun e : PhiEntry =>
        { e with block := if e.block = old then new else e.block }) = es := by
      refine (map_congr_left fun e he => ?_).trans (map_id es)
      rw [if_neg (h e he)]
      rfl
    exact congrArg phi hmap
  | _ => rfl

end Instr

namespace Func

variable {b : BlockId} {f : Func} {c : BlockId}

lemma Formed.terminator_unique (hf : f.Formed) (hb : b ∈ f.liveBlocks) {i j : InstId}
    (hi : i ∈ f.instsOf b) (hterm : (f.instr i).isTerminator) (hj : j ∈ f.instsOf b)
    (hterm' : (f.instr j).isTerminator) : i = j := by
  have ht := (hf.terminator?_eq_some hb).mpr ⟨hi, hterm⟩
  exact Option.some.inj (ht.symm.trans ((hf.terminator?_eq_some hb).mpr ⟨hj, hterm'⟩))

lemma Formed.edge_iff (hf : f.Formed)
    (hlive : ∀ b ∈ f.liveBlocks, ∀ i ∈ f.instsOf b, ∀ c ∈ (f.instr i).targets, c ∈ f.liveBlocks)
    : f.Edge b c ↔ b ∈ f.liveBlocks ∧ ∃ i ∈ f.instsOf b, c ∈ (f.instr i).targets := by
  constructor
  · rintro ⟨hb, hc⟩
    exact ⟨hb, (hf.mem_targets hb).mp (mem_liveTargets.mp hc).1⟩
  · rintro ⟨hb, i, hi, hc⟩
    refine ⟨hb, mem_liveTargets.mpr ⟨(hf.mem_targets hb).mpr ⟨i, hi, hc⟩, ?_⟩⟩
    exact (hf.mem_liveBlocks.mp (hlive b hb i hi c hc)).2

lemma Ssa.edge_iff (hf : f.Ssa) :
    f.Edge b c ↔ b ∈ f.liveBlocks ∧ ∃ i ∈ f.instsOf b, c ∈ (f.instr i).targets :=
  hf.formed.edge_iff fun _ hb _ hi _ hc => (hf.edge_of_target hb hi hc).2

lemma Ssa.mem_liveBlocks_of_edge (hf : f.Ssa) (h : f.Edge b c) : c ∈ f.liveBlocks :=
  hf.form.targets b h.1 c (mem_liveTargets.mp h.2).1

end Func

namespace Inlining

variable {f g m : Func} {s : Site} {n : Nat} {memset : Option FuncId} {pre post : List InstId}
  {clears merge : List (Instr × Ty)} {value : Option Operand} {i : InstId}
  {code : List (Instr × Ty)}

/-- What is used in the place of an operand: the result of the call is its value. -/
def substResult (call : InstId) : Option Operand → Operand → Operand
  | some w, v => subst (.inst call) w v
  | none, v => v

lemma substResult_of_ne {call : InstId} {v : Operand} (hv : v ≠ .inst call)
    (value : Option Operand) : substResult call value v = v := by
  cases value with
  | none => rfl
  | some w => exact if_neg hv

structure Replaced (f : Func) (s : Site) (n : Nat) (memset : Option FuncId) (pre post : List InstId)
    (clears merge : List (Instr × Ty)) (value : Option Operand) (m g : Func) : Prop where
  fits : Fits f s
  split : f.instsOf (f.inst s.call).block = pre ++ s.call :: post
  expanded : Expanded f s n memset pre post clears merge value m g

namespace Fits

variable (hfit : Fits f s) (hsplit : f.instsOf (f.inst s.call).block = pre ++ s.call :: post)

include hfit

lemma mem_liveBlocks_call : (f.inst s.call).block ∈ f.liveBlocks :=
  hfit.consistent.block_mem_of_placed hfit.call

lemma isTerminator_call : (f.instr s.call).isTerminator = false := by
  obtain ⟨g, format, hinstr⟩ := hfit.instr
  rw [hinstr]
  rfl

lemma isPhi_call : (f.instr s.call).isPhi = false := by
  obtain ⟨g, format, hinstr⟩ := hfit.instr
  rw [hinstr]
  rfl

lemma ne_call_of_isTerminator (hi : (f.instr i).isTerminator) : i ≠ s.call := by
  rintro rfl
  rw [hfit.isTerminator_call] at hi
  cases hi

lemma ne_call_of_isPhi (hi : (f.instr i).isPhi) : i ≠ s.call := by
  rintro rfl
  rw [hfit.isPhi_call] at hi
  cases hi

lemma call_notMem_phis (b : BlockId) : s.call ∉ f.phis b :=
  fun hmem => hfit.ne_call_of_isPhi (f.isPhi_of_mem_phis hmem) rfl

include hsplit

lemma exists_last : ∃ l t, post = l ++ [t] ∧ (f.instr t).isTerminator ∧
    (∀ i ∈ pre, (f.instr i).isTerminator = false) ∧ ∀ i ∈ l, (f.instr i).isTerminator = false := by
  obtain ⟨l, t, hl, ht, hbody⟩ := hfit.caller.formed.terminated _ hfit.mem_liveBlocks_call
  rw [hsplit] at hl
  rcases eq_nil_or_concat post with rfl | ⟨post', t', rfl⟩
  · exact absurd (singleton_inj.mp (append_inj' hl rfl).2).symm (hfit.ne_call_of_isTerminator ht)
  · rw [concat_eq_append, ← cons_append, ← append_assoc] at hl
    obtain ⟨hpre, ht'⟩ := append_inj' hl rfl
    obtain rfl := singleton_inj.mp ht'
    refine ⟨post', t', concat_eq_append, ht, fun i hi => hbody i ?_, fun i hi => hbody i ?_⟩
    · grind
    · grind

lemma isPhi_of_mem_post (hi : i ∈ post) : (f.instr i).isPhi = false := by
  have hfirst := hfit.caller.formed.phis_first _ hfit.mem_liveBlocks_call
  rw [hsplit, pairwise_append] at hfirst
  rw [← Bool.not_eq_true]
  intro hphi
  have hcall := (pairwise_cons.mp hfirst.2.1).1 i hi hphi
  rw [hfit.isPhi_call] at hcall
  cases hcall

lemma mem_targetsAfter {b : BlockId} :
    b ∈ targetsAfter f s.call ↔ f.Edge (f.inst s.call).block b := by
  obtain ⟨l, t, hpost, ht, hpre, hl⟩ := hfit.exists_last hsplit
  have hafter := hfit.consistent.threaded.instsAfter_eq hsplit
  have htgts : targetsAfter f s.call = (f.instr t).targets := by
    simp [targetsAfter, hafter, hpost]
  rw [htgts, hfit.edge_iff, hsplit, hpost]
  refine ⟨fun hb => ⟨hfit.mem_liveBlocks_call, t, by simp, hb⟩, fun ⟨_, i, hi, hb⟩ => ?_⟩
  have hterm := Instr.isTerminator_of_mem_targets hb
  simp only [mem_append, mem_cons, not_mem_nil, or_false] at hi
  rcases hi with hi | rfl | hi | rfl
  · grind
  · exact absurd rfl (hfit.ne_call_of_isTerminator hterm)
  · grind
  · exact hb

lemma mem_pre_of_isPhi (hi : i ∈ f.instsOf (f.inst s.call).block)
    (hphi : (f.instr i).isPhi) : i ∈ pre := by
  rw [hsplit, mem_append, mem_cons] at hi
  rcases hi with hi | rfl | hi
  · exact hi
  · exact absurd rfl (hfit.ne_call_of_isPhi hphi)
  · rw [hfit.isPhi_of_mem_post hsplit hi] at hphi
    cases hphi

lemma instr_splitAtCall (label : String) {u : InstId} (hu : f.placed u) :
    (splitAtCall f s.call label).instr u =
      (f.instr u).renameEntry (f.inst s.call).block f.nextBlock := by
  have hcons := hfit.consistent
  obtain ⟨-, hlists, -, hinstr⟩ := extends_splitAtCall hcons hsplit label
  have hkind (j : InstId) : ((splitAtCall f s.call label).instr j).isPhi = (f.instr j).isPhi := by
    rw [(hinstr j).1]
    split
    · cases f.instr j <;> rfl
    · rfl
  rw [(hinstr u).1]
  cases hphi : (f.instr u).isPhi with
  | false =>
    rw [renameEntry_of_not_isPhi _ _ hphi]
    refine if_neg fun ⟨t, _, ht⟩ => ?_
    have hphi' := (splitAtCall f s.call label).isPhi_of_mem_phis ht
    rw [hkind, hphi] at hphi'
    cases hphi'
  | true =>
    obtain ⟨b, hb, hub⟩ := mem_flatMap.mp (hcons.mem_liveInsts.mpr hu)
    split
    · rw [renameEntry, hphi]
      rfl
    · next hnot =>
      refine (renameEntry_of_forall_ne fun e he heq => hnot ?_).symm
      have hedge : f.Edge (f.inst s.call).block b := by
        rw [← heq]
        exact ((hfit.form.covers b hb u hub hphi).2 _).mp (mem_map_of_mem he)
      refine ⟨b, (hfit.mem_targetsAfter hsplit).mpr hedge, ?_⟩
      have hne : b ≠ f.nextBlock := ne_nextBlock (hcons.mem_liveBlocks.mp hb).1
      -- The list of `b` is a start of what it was, so its phis still come first.
      have hsub : ((splitAtCall f s.call label).instsOf b).Sublist (f.instsOf b) := by
        rw [hlists, if_neg hne]
        split
        · next hcall =>
          rw [hcall, hsplit]
          exact append_sublist_append_left pre |>.mpr (singleton_sublist.mpr (by simp))
        · exact List.Sublist.refl _
      have hfirst := (hfit.caller.formed.phis_first b hb).sublist hsub
      rw [phis, takeWhile_eq_filter (by simpa only [hkind] using hfirst), mem_filter, hkind]
      refine ⟨?_, hphi⟩
      rw [hlists, if_neg hne]
      split
      · next hcall =>
        subst hcall
        exact mem_append_left _ (hfit.mem_pre_of_isPhi hsplit hub hphi)
      · exact hub

end Fits

lemma Copy.mem_slots {c : Copy} (hc : c.callee.Consistent)
    (hi : i ∈ c.callee.liveInsts) : c.copied i ∈ c.slots ↔ isSlot c.callee i := by
  constructor
  · intro hmem
    obtain ⟨j, -, hslot, heq⟩ := of_mem_slots hc hmem
    rwa [c.copied_inj hi heq]
  · intro hslot
    rw [slots_eq hc]
    exact mem_map_of_mem (mem_filter.mpr ⟨hi, hslot⟩)

lemma Copy.body_eq {c : Copy} (hc : c.callee.Consistent) {d : BlockId}
    (hd : d ∈ c.callee.liveBlocks) :
    c.body d = ((c.callee.instsOf d).filter fun i => !isSlot c.callee i).map c.copied := by
  rw [body, if_pos hd, filter_map]
  refine congrArg (List.map c.copied) (filter_congr fun i hi => ?_)
  have hmem := mem_slots hc (mem_flatMap.mpr ⟨d, hd, hi⟩)
  cases hslot : isSlot c.callee i with
  | true => simp [hmem, hslot]
  | false => simp [hmem, hslot]

namespace Replaced

variable {k : Nat} {u : InstId} {b d : BlockId} {p : Instr × Ty}

variable (h : Replaced f s n memset pre post clears merge value m g)
include h

/-! ## Blocks -/

lemma consistent : g.Consistent :=
  h.expanded.places.consistent h.expanded.spliced.ext.consistent

lemma head : f.SameHead g :=
  h.expanded.spliced.ext.head.trans h.expanded.places.head

lemma size_insts : g.insts.size =
    f.insts.size + s.callee.liveInsts.length + clears.length + merge.length := by
  rw [h.expanded.places.insts, h.expanded.spliced.ext.insts]
  omega

lemma hasBlock_iff : g.hasBlock b ↔ b.idx < f.blocks.size + (1 + s.callee.layout.length) := by
  rw [h.expanded.places.hasBlock]
  exact h.expanded.spliced.ext.hasBlock_iff

lemma mem_liveBlocks_old (hb : f.hasBlock b) : b ∈ g.liveBlocks ↔ b ∈ f.liveBlocks := by
  have hlt := f.hasBlock_iff.mp hb
  have hhas : g.hasBlock b := h.hasBlock_iff.mpr (by omega)
  rw [h.consistent.mem_liveBlocks, h.fits.consistent.mem_liveBlocks,
    h.expanded.places.blockDeleted, h.expanded.spliced.deleted b hb]
  simp [hb, hhas]

lemma mem_liveBlocks_after : f.nextBlock ∈ g.liveBlocks := by
  rw [h.consistent.mem_liveBlocks, h.expanded.places.blockDeleted,
    h.expanded.spliced.deleted_after]
  exact ⟨h.hasBlock_iff.mpr (by change f.blocks.size < _; omega), rfl⟩

lemma mem_liveBlocks_copy (hd : d ∈ s.callee.layout) :
    (s.copy f).block d ∈ g.liveBlocks ↔ d ∈ s.callee.liveBlocks := by
  have hlt := idxOf_lt_length_iff.mpr hd
  have hhas : g.hasBlock ((s.copy f).block d) := by
    refine h.hasBlock_iff.mpr ?_
    change f.blocks.size + 1 + s.callee.layout.idxOf d < _
    omega
  rw [h.consistent.mem_liveBlocks, h.expanded.places.blockDeleted,
    h.expanded.spliced.deleted_copy d hd, liveBlocks]
  simp [hhas, hd]

lemma instsOf_old (hb : f.hasBlock b) : g.instsOf b =
    (if b = ⟨0⟩ then (s.copy f).slots else []) ++
      if b = (f.inst s.call).block then pre ++ [s.call] else f.instsOf b := by
  rw [h.expanded.places.instsOf, h.expanded.spliced.instsOf b hb, h.fits.callerEntry]

lemma instsOf_after : g.instsOf f.nextBlock =
    idsFrom (s.size f + clears.length) merge.length ++ post := by
  rw [h.expanded.places.instsOf, h.expanded.spliced.instsOf_after]

lemma instsOf_copy (hd : d ∈ s.callee.liveBlocks) :
    g.instsOf ((s.copy f).block d) =
      (if d = ⟨0⟩ then idsFrom (s.size f) clears.length else []) ++
      ((s.callee.instsOf d).filter fun i => !isSlot s.callee i).map (s.copy f).copied := by
  rw [h.expanded.places.instsOf, h.expanded.spliced.instsOf_copy d (mem_of_mem_filter hd),
    h.fits.calleeEntry, Copy.body_eq h.fits.callee.consistent hd]
  rfl

/-! ## Operations -/

lemma hasInst_old (hu : f.hasInst u) : m.hasInst u := by
  have hlt := f.hasInst_iff.mp hu
  rw [hasInst_iff, h.expanded.spliced.ext.insts]
  omega

lemma instr_of_counts (hne : u ≠ s.call) (hu : counts f m.insts.size u) :
    g.instr u = (m.instr u).mapOperands (substResult s.call value) := by
  have hcall : m.hasInst s.call := h.hasInst_old (f.hasInst_of_live h.fits.live_call)
  have hcounted := (h.expanded.counted h.fits).1.tallied
  rw [h.expanded.instr_eq hcall, if_neg hne]
  cases value with
  | none => exact (mapOperands_id _).symm
  | some w =>
    have huses := hcounted.uses (.inst s.call) hcall fun i hi _ => by
      rw [← Operand.inst.inj hi]
      exact h.fits.live_call
    exact (instr_replaceUses huses hcall w fun hj => hcounted.exist u hj).trans (if_pos hu)

lemma instr_old (hu : f.placed u) (hne : u ≠ s.call) :
    g.instr u = ((f.instr u).renameEntry (f.inst s.call).block f.nextBlock).mapOperands
      (substResult s.call value) := by
  have hhas : f.hasInst u := f.hasInst_of_live (Bool.and_eq_true_iff.mp hu).1
  rw [h.instr_of_counts hne (by simp [counts, hu]), (h.expanded.spliced.old u hhas).1,
    h.fits.instr_splitAtCall h.split _ hu]

lemma instr_call : g.instr s.call = .jump (some ((s.copy f).block ⟨0⟩)) := by
  have hcall : m.hasInst s.call := h.hasInst_old (f.hasInst_of_live h.fits.live_call)
  rw [h.expanded.instr_eq hcall, if_pos rfl, h.fits.calleeEntry]

lemma ne_call_of_le (hk : f.insts.size ≤ k) : (⟨k⟩ : InstId) ≠ s.call := by
  intro heq
  have hlt := f.hasInst_iff.mp (f.hasInst_of_live h.fits.live_call)
  rw [← heq] at hlt
  exact not_lt.mpr hk hlt

lemma instr_copied (hi : i ∈ s.callee.liveInsts) :
    g.instr ((s.copy f).copied i) = ((s.copy f).instr (s.callee.instr i)).mapOperands
      (substResult s.call value) := by
  have hlt := idxOf_lt_length_iff.mpr hi
  have hsize := h.expanded.spliced.ext.insts
  have hcounts : counts f m.insts.size ((s.copy f).copied i) := by
    refine counts_of_le (le_add_right _ _) ?_
    change f.insts.size + s.callee.liveInsts.idxOf i < _
    omega
  rw [h.instr_of_counts (copied_ne (f.hasInst_of_live h.fits.live_call)) hcounts,
    (h.expanded.spliced.copied i hi).1]

lemma instr_new (hk : (clears ++ merge)[k]? = some p) :
    g.instr ⟨s.size f + k⟩ = p.1.mapOperands (substResult s.call value) := by
  have hlt : k < clears.length + merge.length := by
    rw [← length_append]
    exact (List.getElem?_eq_some_iff.mp hk).1
  have hsize := h.expanded.spliced.ext.insts
  rw [Site.size, h.instr_of_counts (h.ne_call_of_le (by omega))
    (counts_of_le (by dsimp only; omega) (by dsimp only; omega)),
    (h.expanded.spliced.new k p hk).1]

lemma instr_clear (hk : clears[k]? = some p) :
    g.instr ⟨s.size f + k⟩ = p.1.mapOperands (substResult s.call value) := by
  refine h.instr_new ?_
  rwa [List.getElem?_append_left (List.getElem?_eq_some_iff.mp hk).1]

lemma instr_merge (hk : merge[k]? = some p) :
    g.instr ⟨s.size f + clears.length + k⟩ =
      p.1.mapOperands (substResult s.call value) := by
  rw [add_assoc (s.size f)]
  refine h.instr_new ?_
  rwa [List.getElem?_append_right (Nat.le_add_right _ _), Nat.add_sub_cancel_left]

end Replaced

/-! ## Kinds of operations -/

namespace Copy

variable (c : Copy)

lemma instr_cases (k : Instr) :
    (∃ v, k = .ret v ∧ c.instr k = .jump (some c.after)) ∨
      (∀ v, k ≠ .ret v) ∧ c.instr k = (k.mapOperands c.operand).mapBlocks c.block := by
  cases k with
  | ret v => exact Or.inl ⟨v, rfl, rfl⟩
  | _ => exact Or.inr ⟨fun v => Instr.noConfusion, rfl⟩

lemma isPhi_instr (k : Instr) : (c.instr k).isPhi = k.isPhi := by
  cases k <;> rfl

lemma isTerminator_instr (k : Instr) : (c.instr k).isTerminator = k.isTerminator := by
  cases k <;> rfl

lemma isPendingJump_instr (k : Instr) : (c.instr k).isPendingJump = k.isPendingJump := by
  cases k with
  | jump target => cases target <;> rfl
  | _ => rfl

lemma entries_instr (k : Instr) : (c.instr k).entries =
    k.entries.map fun e => { block := c.block e.block, value := e.value.map c.operand } := by
  cases k with
  | phi es => simp [instr, mapOperands, mapBlocks, entries]
  | _ => rfl

end Copy

lemma Clears.not_isPhi {kind : InstId → Instr} {slots : List InstId}
    (h : Clears kind memset n slots code) {p : Instr × Ty} (hp : p ∈ code) :
    p.1.isPhi = false ∧ p.1.isTerminator = false := by
  induction h with
  | nil n => cases hp
  | scalar _ _ _ ih =>
    rcases mem_cons.mp hp with rfl | hp
    · exact ⟨rfl, rfl⟩
    · exact ih hp
  | array _ _ _ _ _ ih =>
    rcases mem_cons.mp hp with rfl | hp
    · exact ⟨rfl, rfl⟩
    · rcases mem_cons.mp hp with rfl | hp
      · exact ⟨rfl, rfl⟩
      · exact ih hp

lemma Merges.eq_phi {c : Copy} (h : Merges c n merge value) {p : Instr × Ty} (hp : p ∈ merge) :
    p.1 = .phi c.returned := by
  cases h with
  | phi _ _ => grind
  | _ => cases hp

lemma isPhi_of_isSlot (hi : isSlot f i) :
    (f.instr i).isPhi = false ∧ (f.instr i).isTerminator = false := by
  obtain ⟨t, ht⟩ := isSlot_iff.mp hi
  rw [ht]
  exact ⟨rfl, rfl⟩

/-- The instructions of a caller with a copy, each with its block. -/
inductive Found (f : Func) (s : Site) (pre post : List InstId) (clears merge : List (Instr × Ty)) :
    BlockId → InstId → Prop
  | old {b : BlockId} {u : InstId} : b ∈ f.liveBlocks → u ∈ f.instsOf b → u ≠ s.call →
    (b = (f.inst s.call).block → u ∈ pre) → Found f s pre post clears merge b u
  | call : Found f s pre post clears merge (f.inst s.call).block s.call
  | slot {i : InstId} : i ∈ s.callee.liveInsts → isSlot s.callee i →
    Found f s pre post clears merge ⟨0⟩ ((s.copy f).copied i)
  | rest {u : InstId} : u ∈ post → Found f s pre post clears merge f.nextBlock u
  | merge {k : Nat} {p : Instr × Ty} : merge[k]? = some p → Found f s pre post clears merge f.nextBlock
    ⟨s.size f + clears.length + k⟩
  | copy {d : BlockId} {i : InstId} : d ∈ s.callee.liveBlocks → i ∈ s.callee.instsOf d →
    isSlot s.callee i = false →
    Found f s pre post clears merge ((s.copy f).block d) ((s.copy f).copied i)
  | clear {k : Nat} {p : Instr × Ty} : clears[k]? = some p →
    Found f s pre post clears merge ((s.copy f).block ⟨0⟩)
      ⟨s.size f + k⟩

lemma mem_map_range' {start k : Nat} {u : InstId} :
    u ∈ idsFrom start k ↔ ∃ i < k, u = ⟨start + i⟩ := by
  simp only [mem_map, mem_range'_1]
  constructor
  · rintro ⟨a, ⟨hle, hlt⟩, rfl⟩
    exact ⟨a - start, by omega, by rw [Nat.add_sub_cancel' hle]⟩
  · grind

/-- Instructions are added for those of the callee and for what comes before and after them. -/
lemma new_cases (hcallee : s.callee.Consistent) {u : InstId}
    (hle : f.insts.size ≤ u.idx)
    (hlt : u.idx < f.insts.size + s.callee.liveInsts.length + code.length) :
    (∃ i ∈ s.callee.liveInsts, u = (s.copy f).copied i) ∨
      ∃ k p, code[k]? = some p ∧ u = ⟨s.size f + k⟩ := by
  obtain ⟨k, hk⟩ := Nat.exists_eq_add_of_le hle
  obtain rfl : u = ⟨f.insts.size + k⟩ := congrArg InstId.mk hk
  by_cases hcopied : k < s.callee.liveInsts.length
  · exact Or.inl ⟨_, getElem_mem hcopied,
      ((s.copy f).copied_inst hcallee (List.getElem?_eq_getElem hcopied)).symm⟩
  · obtain ⟨k, rfl⟩ := Nat.exists_eq_add_of_le (Nat.not_lt.mp hcopied)
    exact Or.inr ⟨k, _, List.getElem?_eq_getElem (by omega : k < code.length), by rw [add_assoc]⟩

namespace Replaced

variable {u : InstId} {b : BlockId}

variable (h : Replaced f s n memset pre post clears merge value m g) {p : Instr × Ty}

include h

lemma nodup_call : s.call ∉ pre ∧ s.call ∉ post ∧ ∀ u ∈ pre, u ∉ post := by
  have hnd := h.fits.consistent.nodup (f.inst s.call).block
  rw [h.split, nodup_append, nodup_cons] at hnd
  obtain ⟨-, ⟨hpost, -⟩, hdisj⟩ := hnd
  refine ⟨fun hpre => hdisj _ hpre _ (.head _) rfl, hpost, fun u hpre hu => ?_⟩
  exact hdisj u hpre u (.tail _ hu) rfl

lemma mem_of_mem_pre (hu : u ∈ pre) : u ∈ f.instsOf (f.inst s.call).block := by
  rw [h.split]
  exact mem_append_left _ hu

lemma mem_of_mem_post (hu : u ∈ post) : u ∈ f.instsOf (f.inst s.call).block := by
  rw [h.split]
  exact mem_append_right _ (.tail _ hu)

lemma ne_call_of_mem_post (hu : u ∈ post) : u ≠ s.call :=
  fun heq => h.nodup_call.2.1 (heq ▸ hu)

lemma placed_of_mem_post (hu : u ∈ post) : f.placed u :=
  h.fits.consistent.placed_of_mem h.fits.mem_liveBlocks_call (h.mem_of_mem_post hu)

lemma mem_block_cases (hb : b ∈ g.liveBlocks) :
    b ∈ f.liveBlocks ∨ b = f.nextBlock ∨ ∃ d ∈ s.callee.liveBlocks, b = (s.copy f).block d := by
  have hhas : m.hasBlock b := by
    rw [← h.expanded.places.hasBlock]
    exact (h.consistent.mem_liveBlocks.mp hb).1
  rcases h.expanded.spliced.block_cases h.fits.callee.consistent.layout_nodup hhas with
    hold | rfl | ⟨d, hd, rfl⟩
  · exact Or.inl ((h.mem_liveBlocks_old hold).mp hb)
  · exact Or.inr (Or.inl rfl)
  · exact Or.inr (Or.inr ⟨d, (h.mem_liveBlocks_copy hd).mp hb, rfl⟩)

lemma found (hb : b ∈ g.liveBlocks) (hu : u ∈ g.instsOf b) :
    Found f s pre post clears merge b u := by
  rcases h.mem_block_cases hb with hb | rfl | ⟨d, hd, rfl⟩
  · rw [h.instsOf_old (h.fits.consistent.mem_liveBlocks.mp hb).1, mem_append] at hu
    rcases hu with hu | hu
    · split at hu
      · next hzero =>
        subst hzero
        obtain ⟨i, hlive, hslot, rfl⟩ := Copy.of_mem_slots h.fits.callee.consistent hu
        exact .slot hlive hslot
      · cases hu
    · split at hu
      · next hcall =>
        subst hcall
        rcases mem_append.mp hu with hpre | hu
        · refine .old hb (h.mem_of_mem_pre hpre) ?_ fun _ => hpre
          rintro rfl
          exact h.nodup_call.1 hpre
        · obtain rfl := mem_singleton.mp hu
          exact .call
      · next hne =>
        refine .old hb hu ?_ fun heq => absurd heq hne
        rintro rfl
        exact hne (h.fits.consistent.block_of_mem hu).symm
  · rw [h.instsOf_after, mem_append] at hu
    rcases hu with hu | hu
    · obtain ⟨k, hk, rfl⟩ := mem_map_range'.mp hu
      exact .merge (List.getElem?_eq_getElem hk)
    · exact .rest hu
  · rw [h.instsOf_copy hd, mem_append] at hu
    rcases hu with hu | hu
    · split at hu
      · next hzero =>
        subst hzero
        obtain ⟨k, hk, rfl⟩ := mem_map_range'.mp hu
        exact .clear (List.getElem?_eq_getElem hk)
      · cases hu
    · obtain ⟨i, hi, rfl⟩ := mem_map.mp hu
      obtain ⟨hi, hslot⟩ := mem_filter.mp hi
      exact .copy hd hi (by simpa using hslot)

lemma of_found {P : InstId → Prop} (hu : Found f s pre post clears merge b u)
    (hold : ∀ u, f.placed u → u ≠ s.call → P u) (hcall : P s.call)
    (hcopied : ∀ i ∈ s.callee.liveInsts, P ((s.copy f).copied i))
    (hmerge : ∀ k p, merge[k]? = some p → P ⟨s.size f + clears.length + k⟩)
    (hclear : ∀ k p, clears[k]? = some p → P ⟨s.size f + k⟩) :
    P u := by
  cases hu with
  | old hb hu hne => exact hold _ (h.fits.consistent.placed_of_mem hb hu) hne
  | call => exact hcall
  | slot hi => exact hcopied _ hi
  | rest hu => exact hold _ (h.placed_of_mem_post hu) (h.ne_call_of_mem_post hu)
  | merge hk => exact hmerge _ _ hk
  | copy hd hi => exact hcopied _ (mem_flatMap.mpr ⟨_, hd, hi⟩)
  | clear hk => exact hclear _ _ hk

/-! ## Terminators and phis -/

lemma kind_old (hu : f.placed u) (hne : u ≠ s.call) :
    (g.instr u).isTerminator = (f.instr u).isTerminator ∧
      (g.instr u).isPhi = (f.instr u).isPhi := by
  rw [h.instr_old hu hne, isTerminator_mapOperands, isPhi_mapOperands,
    isTerminator_renameEntry, isPhi_renameEntry]
  exact ⟨rfl, rfl⟩

lemma isPhi_old (hb : b ∈ f.liveBlocks) (hi : i ∈ f.instsOf b) :
    (g.instr i).isPhi = (f.instr i).isPhi := by
  by_cases hcall : i = s.call
  · rw [hcall, h.instr_call, h.fits.isPhi_call]
    rfl
  · exact (h.kind_old (h.fits.consistent.placed_of_mem hb hi) hcall).2

lemma kind_copied (hi : i ∈ s.callee.liveInsts) :
    (g.instr ((s.copy f).copied i)).isTerminator = (s.callee.instr i).isTerminator ∧
      (g.instr ((s.copy f).copied i)).isPhi = (s.callee.instr i).isPhi := by
  rw [h.instr_copied hi, isTerminator_mapOperands, isPhi_mapOperands,
    Copy.isTerminator_instr, Copy.isPhi_instr]
  exact ⟨rfl, rfl⟩

lemma kind_slot (hu : u ∈ (s.copy f).slots) :
    (g.instr u).isTerminator = false ∧ (g.instr u).isPhi = false := by
  obtain ⟨i, hlive, hslot, rfl⟩ := Copy.of_mem_slots h.fits.callee.consistent hu
  obtain ⟨hphi, hterm⟩ := isPhi_of_isSlot hslot
  rw [(h.kind_copied hlive).1, (h.kind_copied hlive).2]
  exact ⟨hterm, hphi⟩

lemma kind_clear (hk : clears[k]? = some p) :
    (g.instr ⟨s.size f + k⟩).isTerminator = false ∧
      (g.instr ⟨s.size f + k⟩).isPhi = false := by
  obtain ⟨hphi, hterm⟩ := h.expanded.fill.not_isPhi (mem_of_getElem? hk)
  rw [h.instr_clear hk, isTerminator_mapOperands, isPhi_mapOperands]
  exact ⟨hterm, hphi⟩

lemma kind_merge (hk : merge[k]? = some p) :
    (g.instr ⟨s.size f + clears.length + k⟩).isTerminator = false ∧
      (g.instr ⟨s.size f + clears.length + k⟩).isPhi := by
  rw [h.instr_merge hk, h.expanded.result.eq_phi (mem_of_getElem? hk)]
  exact ⟨rfl, rfl⟩

lemma kind_of_mem_clears (hu : u ∈ idsFrom (s.size f) clears.length) :
    (g.instr u).isTerminator = false ∧ (g.instr u).isPhi = false := by
  obtain ⟨k, hk, rfl⟩ := mem_map_range'.mp hu
  exact h.kind_clear (List.getElem?_eq_getElem hk)

lemma kind_of_mem_merge (hu : u ∈ idsFrom (s.size f + clears.length) merge.length) :
    (g.instr u).isTerminator = false ∧ (g.instr u).isPhi := by
  obtain ⟨k, hk, rfl⟩ := mem_map_range'.mp hu
  exact h.kind_merge (List.getElem?_eq_getElem hk)

lemma terminated (hb : b ∈ g.liveBlocks) : ∃ l t, g.instsOf b = l ++ [t] ∧
    (g.instr t).isTerminator ∧ ∀ i ∈ l, (g.instr i).isTerminator = false := by
  have hf := h.fits.consistent
  obtain ⟨l, t, hpost, ht, hpre, hl⟩ := h.fits.exists_last h.split
  -- Each block is what the copy puts in front, then a list that ends in its terminator.
  have join {front l : List InstId} {t : InstId}
      (hfront : ∀ i ∈ front, (g.instr i).isTerminator = false)
      (hl : ∀ i ∈ l, (g.instr i).isTerminator = false) (ht : (g.instr t).isTerminator) :
      ∃ l' t', front ++ (l ++ [t]) = l' ++ [t'] ∧ (g.instr t').isTerminator ∧
        ∀ i ∈ l', (g.instr i).isTerminator = false :=
    ⟨front ++ l, t, (append_assoc _ _ _).symm, ht,
      fun i hi => (mem_append.mp hi).elim (hfront i) (hl i)⟩
  rcases h.mem_block_cases hb with hb | rfl | ⟨d, hd, rfl⟩
  · have hslots : ∀ i ∈ (if b = ⟨0⟩ then (s.copy f).slots else []),
        (g.instr i).isTerminator = false := by
      intro i hi
      split at hi
      · exact (h.kind_slot hi).1
      · cases hi
    rw [h.instsOf_old (hf.mem_liveBlocks.mp hb).1]
    by_cases hcall : b = (f.inst s.call).block
    · rw [if_pos hcall]
      refine join hslots (fun i hi => ?_) (by rw [h.instr_call]; rfl)
      have hmem := h.mem_of_mem_pre hi
      rw [(h.kind_old (hf.placed_of_mem (hcall ▸ hb) hmem) ?_).1, hpre i hi]
      rintro rfl
      exact h.nodup_call.1 hi
    · obtain ⟨l', t', hl', ht', hbody⟩ := h.fits.caller.formed.terminated b hb
      have hkind {i : InstId} (hi : i ∈ f.instsOf b) :
          (g.instr i).isTerminator = (f.instr i).isTerminator := by
        refine (h.kind_old (hf.placed_of_mem hb hi) ?_).1
        rintro rfl
        exact hcall (hf.block_of_mem hi).symm
      rw [if_neg hcall, hl']
      refine join hslots (fun i hi => ?_) ?_
      · rw [hkind (by simp [hl', hi]), hbody i hi]
      · rw [hkind (by simp [hl']), ht']
  · have hkind {i : InstId} (hi : i ∈ post) : (g.instr i).isTerminator = (f.instr i).isTerminator :=
      (h.kind_old (h.placed_of_mem_post hi) (h.ne_call_of_mem_post hi)).1
    rw [h.instsOf_after, hpost]
    refine join (fun i hi => (h.kind_of_mem_merge hi).1) (fun i hi => ?_) ?_
    · rw [hkind (by simp [hpost, hi]), hl i hi]
    · rw [hkind (by simp [hpost]), ht]
  · obtain ⟨l', t', hl', ht', hbody⟩ := h.fits.callee.formed.terminated d hd
    have hkind {i : InstId} (hi : i ∈ s.callee.instsOf d) :=
      (h.kind_copied (mem_flatMap.mpr ⟨d, hd, hi⟩)).1
    have hslot : isSlot s.callee t' = false := by
      rw [← Bool.not_eq_true]
      intro hslot
      rw [(isPhi_of_isSlot hslot).2] at ht'
      cases ht'
    rw [h.instsOf_copy hd, hl', filter_append, map_append,
      filter_cons_of_pos (by rw [hslot]; rfl), filter_nil, map_cons]
    refine join (fun i hi => ?_) (fun i hi => ?_) ?_
    · split at hi
      · exact (h.kind_of_mem_clears hi).1
      · cases hi
    · grind
    · rw [hkind (by simp [hl']), ht']

lemma phis_first (hb : b ∈ g.liveBlocks) :
    (g.instsOf b).Pairwise fun i j => (g.instr j).isPhi → (g.instr i).isPhi := by
  have hf := h.fits.consistent
  have hnone {l : List InstId} (hl : ∀ i ∈ l, (g.instr i).isPhi = false) :
      l.Pairwise fun i j => (g.instr j).isPhi → (g.instr i).isPhi := by
    refine pairwise_of_forall_mem_list fun i _ j hj hphi => ?_
    rw [hl j hj] at hphi
    cases hphi
  rcases h.mem_block_cases hb with hb | rfl | ⟨d, hd, rfl⟩
  · rw [h.instsOf_old (hf.mem_liveBlocks.mp hb).1]
    have hsub : ∀ i ∈ (if b = (f.inst s.call).block then pre ++ [s.call] else f.instsOf b),
        i ∈ f.instsOf b := by
      intro i hi
      split at hi
      · next hcall =>
        rw [hcall, h.split, append_cons]
        exact mem_append_left _ hi
      · exact hi
    split
    · next hzero =>
      refine hnone fun i hi => ?_
      rcases mem_append.mp hi with hi | hi
      · exact (h.kind_slot hi).2
      · rw [h.isPhi_old hb (hsub i hi), h.fits.form.entry i (hzero ▸ hsub i hi)]
    · have hfirst : (if b = (f.inst s.call).block then pre ++ [s.call] else f.instsOf b).Pairwise
          fun i j => (f.instr j).isPhi → (f.instr i).isPhi := by
        refine (h.fits.caller.formed.phis_first b hb).sublist ?_
        split
        · next hcall =>
          rw [hcall, h.split, append_cons pre s.call post]
          exact sublist_append_left _ _
        · exact List.Sublist.refl _
      refine hfirst.imp_of_mem fun hi hj himp => ?_
      rw [h.isPhi_old hb (hsub _ hi), h.isPhi_old hb (hsub _ hj)]
      exact himp
  · rw [h.instsOf_after, pairwise_append]
    refine ⟨pairwise_of_forall_mem_list fun i hi j _ _ => (h.kind_of_mem_merge hi).2,
      hnone fun i hi => ?_, fun i hi j _ _ => (h.kind_of_mem_merge hi).2⟩
    rw [(h.kind_old (h.placed_of_mem_post hi) (h.ne_call_of_mem_post hi)).2,
      h.fits.isPhi_of_mem_post h.split hi]
  · have hkind {i : InstId} (hi : i ∈ s.callee.instsOf d) :=
      (h.kind_copied (mem_flatMap.mpr ⟨d, hd, hi⟩)).2
    rw [h.instsOf_copy hd]
    split
    · next hzero =>
      refine hnone fun i hi => ?_
      rcases mem_append.mp hi with hi | hi
      · exact (h.kind_of_mem_clears hi).2
      · obtain ⟨j, hj, rfl⟩ := mem_map.mp hi
        have hj := mem_of_mem_filter hj
        rw [hkind hj, h.fits.callee.form.entry j (hzero ▸ hj)]
    · rw [nil_append, pairwise_map]
      have hfirst := (h.fits.callee.formed.phis_first d hd).sublist
        (filter_sublist (p := fun i => !isSlot s.callee i))
      refine hfirst.imp_of_mem fun hi hj himp => ?_
      rw [hkind (mem_of_mem_filter hi), hkind (mem_of_mem_filter hj)]
      exact himp

end Replaced

end Inlining

end MiddleEnd
