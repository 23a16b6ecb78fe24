import MiddleEnd.Func.History
import MiddleEnd.Proofs.Tally

/-!
# Use-lists over edit histories

A function is edited from outside by a sequence of edits, starting with a function without blocks.
After every such sequence the use-list of each instruction, removed or not, and of each parameter
names exactly the live instructions that use it, once for every operand.

The invariant behind it is `Func.Exact`: besides the use-lists being exact, live instructions name
only instructions that exist, so that a new instruction has no users yet.  Dropping entries of a
removed phi breaks it, because the entries that stay are recorded as uses again.
-/

namespace MiddleEnd

open List Bool

namespace Func

variable {f g : Func}

/-- The live instructions that name `v`, each once for every operand of it that is `v`. -/
def naming (f : Func) (v : Operand) : List InstId :=
  (((List.range f.insts.size).map InstId.mk).filter fun u => (f.inst u).live).flatMap fun u =>
    ((f.instr u).operands.filter fun w => w = v).map fun _ => u

lemma count_naming (f : Func) (v : Operand) (u : InstId) :
    (f.naming v).count u = if (f.inst u).live then (f.instr u).operands.count v else 0 := by
  have hslots : f.naming v =
      (((List.range f.insts.size).map InstId.mk).filter fun u => (f.inst u).live).flatMap fun w =>
        List.replicate ((f.instr w).operands.count v) w := by
    simp only [naming, map_const', count_eq_length_filter]
    rfl
  have hnd : ((List.range f.insts.size).map InstId.mk).Nodup :=
    nodup_range.map fun _ _ h => InstId.mk.inj h
  have hmem : u ∈ ((List.range f.insts.size).map InstId.mk).filter (fun u => (f.inst u).live) ↔
      (f.inst u).live := by
    simp only [mem_filter, mem_map, mem_range]
    constructor
    · exact fun h => h.2
    · intro hlive
      exact ⟨⟨u.idx, (hasInst_iff f).mp (hasInst_of_live hlive), rfl⟩, hlive⟩
  rw [hslots, count_flatMap_replicate (hnd.filter _)]
  simp only [hmem]

/-- Every use-list is exact, and what live instructions name exists. -/
structure Exact (f : Func) : Prop where
  uses : ∀ v, f.tracks v → f.UsesOf (fun u => (f.inst u).live) v
  admits : ∀ u, (f.inst u).live → ∀ v ∈ (f.instr u).operands, f.admits v

namespace Exact

variable {phi : InstId} {k : Instr} {v : Operand}

lemma users_perm (hf : f.Exact) (hv : f.tracks v) :
    (f.users v).Perm (f.naming v) := by
  rw [perm_iff_count]
  intro u
  rw [count_naming, hf.uses v hv u]

lemma tallied (hf : f.Exact) : f.Tallied (fun u => (f.inst u).live) fun _ => True where
  uses v hv _ := hf.uses v hv
  admits := hf.admits
  exist _ hu := hasInst_of_live hu

lemma of_tallied {counted : InstId → Bool} (h : f.Tallied counted fun _ => True)
    (hcounted : (fun u => (f.inst u).live) = counted) : f.Exact := by
  subst hcounted
  exact ⟨fun v hv => h.uses v hv trivial, h.admits⟩

/-! ## One edit -/

variable (hf : f.Exact)
include hf

lemma sameUses (hfg : f.SameUses g) : g.Exact :=
  .of_tallied (hf.tallied.sameUses hfg) (funext hfg.live)

lemma create {b : BlockId} {t : Ty} (hk : k.operands.all f.admitsNew) :
    (f.create b k t).Exact :=
  .of_tallied (hf.tallied.create hk) (funext (live_create f b k t))

lemma remove (i : InstId) : (f.remove i).Exact where
  uses v hv := by
    rw [tracks_remove] at hv
    have hlive := funext (live_remove f i)
    rw [hlive]
    cases hi : (f.inst i).live with
    | true => exact (hf.uses v hv).remove hv hi
    | false =>
      have hsame : (fun u => (f.inst u).live && decide (u ≠ i)) = fun u => (f.inst u).live := by grind
      rw [hsame, Func.remove, if_neg (by simp [hi])]
      exact hf.uses v hv
  admits u hu v hv := by
    rw [live_remove, and_eq_true] at hu
    rw [instr_remove] at hv
    exact admits_of_tracks (fun h => (tracks_remove f i v).trans h) (hf.admits u hu.1 v hv)

lemma foldl_remove (is : List InstId) : (is.foldl Func.remove f).Exact :=
  foldlRecOn is _ hf fun _ hf i _ => hf.remove i

lemma deleteBlock (b : BlockId) : (f.deleteBlock b).Exact :=
  (hf.foldl_remove _).sameUses (sameUses_modifyBlock _ b _)

lemma replaceInstr {i : InstId} (hi : (f.inst i).live)
    (hk : ∀ v ∈ k.operands, f.admits v) : (f.replaceInstr i k).Exact :=
  .of_tallied (hf.tallied.replaceInstr hi hk) (funext (samePlaces_replaceInstr f i k).live)

lemma replaceUses {old new : Operand} (hnew : old = new ∨ f.admits new) :
    (f.replaceUses old new).2.Exact :=
  .of_tallied (hf.tallied.replaceUses trivial hnew) (funext (samePlaces_replaceUses f old new).live)

lemma fillPhi (hphi : (f.inst phi).live) {pred : BlockId}
    (hv : f.admits v ∨ (f.fillPhi phi pred v).1 = false) :
    (f.fillPhi phi pred v).2.Exact where
  uses w hw := by
    rw [tracks_fillPhi] at hw
    have hlive := funext (samePlaces_fillPhi f phi pred v).live
    rw [hlive]
    exact (hf.uses w hw).fillPhi hw hphi pred v
  admits u hu w hw := by
    rw [(samePlaces_fillPhi f phi pred v).live] at hu
    refine admits_of_tracks (fun h => (tracks_fillPhi f phi pred v w).trans h) ?_
    obtain heq | ⟨es, es', hes, hfill, heq⟩ := fillPhi_cases f phi pred v
    · rw [heq] at hw
      exact hf.admits u hu w hw
    · rw [heq] at hv hw
      rw [instr_of_bare (bare_modifyUsers _ _ _ u)] at hw
      by_cases hup : u = phi
      · subst hup
        rw [instr, inst_modifyInst_self (hasInst_of_live hphi), Instr.operands,
          (operands_fillEntry hfill).mem_iff, mem_cons] at hw
        rcases hw with rfl | hw
        · exact hv.resolve_right (by simp)
        · refine hf.admits u hu w ?_
          rw [hes]
          exact hw
      · rw [instr, inst_modifyInst_of_ne hup] at hw
        exact hf.admits u hu w hw

lemma retainEntries {keep : BlockId → Bool}
    (hphi : (f.inst phi).live ∨ (f.retainEntries phi keep).1 = 0) :
    (f.retainEntries phi keep).2.Exact := by
  unfold Func.retainEntries at hphi ⊢
  split
  · next es hes =>
    dsimp only
    split
    · exact hf
    · next hdrop =>
      have hle : (es.filter fun e => keep e.block).length ≤ es.length := length_filter_le _ _
      rw [hes] at hphi
      simp only [hdrop, if_false] at hphi
      have hlive : (f.inst phi).live := hphi.resolve_right (by omega)
      refine hf.replaceInstr hlive fun v hv => hf.admits phi hlive v ?_
      rw [hes]
      exact (filter_sublist.filterMap _).subset hv
  · exact hf

end Exact

end Func

/-! ## Edit histories -/

namespace Edit

/-- An operation, an entry or a place is changed only of an instruction that has not been removed,
and the rest of a block goes to another block. -/
def onLive (f : Func) : Edit → Bool
  | replaceInstr i _ => (f.inst i).live
  | fillPhi p _ _ => (f.inst p).live
  | splitAfter i b => (f.inst i).live && decide (b ≠ (f.inst i).block)
  | moveToFront i _ => (f.inst i).live
  | _ => true

/-- Entries are dropped only from a phi that has not been removed. -/
def retainsLive (f : Func) : Edit → Bool
  | retainEntries p keep => (f.inst p).live || decide ((f.retainEntries p keep.contains).1 = 0)
  | _ => true

def applyAll (f : Func) (es : List Edit) : Func :=
  es.foldl (fun f e => (e.apply f).2) f

/-- Is each edit of the given kind and in range when its turn comes? -/
def allAllowed (allowed : Func → Edit → Bool) (f : Func) : List Edit → Bool
  | [] => true
  | e :: es => allowed f e && e.inRange f && allAllowed allowed (e.apply f).2 es

end Edit

namespace Func

variable {f : Func}

/-- The functions that edits of the given kind make out of one without blocks. -/
inductive Edited (allowed : Func → Edit → Bool) : Func → Prop
  | empty {f : Func} (hinsts : f.insts = #[]) (hblks : f.blocks = #[]) (hlay : f.layout = [])
    (hpar : ∀ p ∈ f.params, p.users = []) : Edited allowed f
  | edit {f g : Func} {e : Edit} {r : Reply} (hf : Edited allowed f)
    (hallowed : allowed f e) (hedit : e.perform f = .ok (r, g)) : Edited allowed g

lemma Edited.applyAll {allowed : Func → Edit → Bool} (hf : Edited allowed f) {es : List Edit}
    (hes : Edit.allAllowed allowed f es) : Edited allowed (Edit.applyAll f es) := by
  induction es generalizing f with
  | nil => exact hf
  | cons e es ih =>
    simp only [Edit.allAllowed, and_eq_true] at hes
    obtain ⟨⟨hallowed, hrange⟩, hrest⟩ := hes
    exact ih (.edit hf hallowed (if_pos hrange)) hrest

lemma Exact.empty (hinsts : f.insts = #[]) (hpar : ∀ p ∈ f.params, p.users = []) :
    f.Exact := by
  have hdead (u : InstId) : (f.inst u).live = false := by
    rw [inst_of_not_hasInst f (by simp [hasInst, hinsts])]
    rfl
  constructor
  · intro v hv u
    have hnone : f.users v = [] := by
      cases v with
      | inst i => simp [tracks, hasInst, hinsts] at hv
      | arg n =>
        have hn : n < f.params.size := by simpa [tracks] using hv
        rw [users, Array.getD_eq_getD_getElem?, Array.getElem?_eq_getElem hn]
        exact hpar _ (Array.getElem_mem hn)
      | const c => rfl
      | global c => rfl
    simp [hnone, hdead u]
  · grind

/-- No edit breaks the use-lists, except that dropping entries of a removed phi does. -/
lemma Exact.perform {g : Func} {e : Edit} {r : Reply} (hf : f.Exact) (hlive : e.onLive f)
    (hretain : e.retainsLive f) (hedit : e.perform f = .ok (r, g)) : g.Exact := by
  unfold Edit.perform at hedit
  split at hedit
  case isFalse => exact absurd hedit (by simp)
  case isTrue hrange =>
    have hg : g = (e.apply f).2 := (congrArg Prod.snd (Except.ok.inj hedit)).symm
    subst hg
    cases e with
    | addBlock l => exact hf.sameUses (sameUses_addBlock f l)
    | append b k t =>
      rw [Edit.inRange, and_eq_true] at hrange
      exact (hf.create hrange.2).sameUses (sameUses_link _ b _ _)
    | prepend b k t =>
      rw [Edit.inRange, and_eq_true] at hrange
      exact (hf.create hrange.2).sameUses (sameUses_link _ b none _)
    | insertBefore j k t =>
      rw [Edit.inRange, and_eq_true] at hrange
      exact (hf.create hrange.2).sameUses (sameUses_link _ _ _ _)
    | remove i => exact hf.remove i
    | replaceInstr i k =>
      rw [Edit.inRange, and_eq_true] at hrange
      exact hf.replaceInstr hlive (all_eq_true.mp hrange.2)
    | replaceUses old new =>
      rw [Edit.inRange, or_eq_true, decide_eq_true_eq, and_eq_true] at hrange
      exact hf.replaceUses (hrange.imp_right And.right)
    | fillPhi p b v =>
      rw [Edit.inRange, and_eq_true, or_eq_true, not_eq_true'] at hrange
      exact hf.fillPhi hlive hrange.2
    | retainEntries p keep =>
      rw [Edit.retainsLive, or_eq_true, decide_eq_true_eq] at hretain
      exact hf.retainEntries hretain
    | replacePred b old new => exact hf.sameUses (sameUses_replacePred f b old new)
    | splitAfter i b => exact hf.sameUses (sameUses_splitAfter f i b)
    | moveToFront i b => exact hf.sameUses (sameUses_moveToFront f i b)
    | deleteBlock b => exact hf.deleteBlock b

lemma Edited.exact (hf : Edited (fun f e => e.onLive f && e.retainsLive f) f) : f.Exact := by
  induction hf with
  | empty hinsts _ _ hpar => exact .empty hinsts hpar
  | edit _ hallowed hedit ih =>
    rw [and_eq_true] at hallowed
    exact ih.perform hallowed.1 hallowed.2 hedit

/-- Over a whole history of edits the use-lists tell the truth: that of an instruction, removed or
not, or of a parameter holds the live instructions that name it, once for each operand. -/
theorem Edited.users_perm_naming {f : Func}
    (hf : Edited (fun f e => e.onLive f && e.retainsLive f) f) {v : Operand}
    (hv : f.tracks v = true) : (f.users v).Perm (f.naming v) :=
  hf.exact.users_perm hv

/-- A phi that names a parameter twice and itself once, and its sum with itself. -/
def phiHistory : List Edit :=
  [.addBlock "entry", .addBlock "loop",
    .append ⟨1⟩ (.phi [⟨⟨0⟩, some (.arg 0)⟩, ⟨⟨1⟩, none⟩, ⟨⟨0⟩, some (.arg 0)⟩]) .i32,
    .append ⟨1⟩ (.binary .add (.inst ⟨0⟩) (.inst ⟨0⟩)) .i32,
    .fillPhi ⟨0⟩ ⟨1⟩ (.inst ⟨0⟩), .replaceUses (.inst ⟨0⟩) (.arg 0),
    .replacePred ⟨1⟩ ⟨1⟩ ⟨0⟩, .retainEntries ⟨0⟩ [⟨0⟩]]

theorem users_perm_naming_phiHistory :
    Edited (fun f e => e.onLive f && e.retainsLive f)
        (Edit.applyAll (new "f" .i32 [.i32]) phiHistory) ∧
      (Edit.applyAll (new "f" .i32 [.i32]) phiHistory).tracks (.arg 0) = true ∧
      ((Edit.applyAll (new "f" .i32 [.i32]) phiHistory).users (.arg 0)).Perm
        ((Edit.applyAll (new "f" .i32 [.i32]) phiHistory).naming (.arg 0)) := by
  have hedited : Edited (fun f e => e.onLive f && e.retainsLive f)
      (Edit.applyAll (new "f" .i32 [.i32]) phiHistory) :=
    .applyAll (.empty rfl rfl rfl (by decide)) (by decide)
  have htracks : (Edit.applyAll (new "f" .i32 [.i32]) phiHistory).tracks (.arg 0) = true := by
    decide
  exact ⟨hedited, htracks, hedited.users_perm_naming htracks⟩

/-- A removed phi that loses one of its two entries is a user of what the other one holds. -/
def removedPhiHistory : List Edit :=
  [.addBlock "entry", .addBlock "loop",
    .append ⟨1⟩ (.phi [⟨⟨0⟩, some (.arg 0)⟩, ⟨⟨1⟩, some (.int 1)⟩]) .i32,
    .remove ⟨0⟩, .retainEntries ⟨0⟩ [⟨0⟩]]

/-- That entries are dropped from live phis only cannot be left out. -/
theorem exists_edited_not_users_perm_naming :
    ∃ (f : Func) (v : Operand), Edited (fun f e => e.onLive f) f ∧ f.tracks v = true ∧
      ¬ (f.users v).Perm (f.naming v) := by
  refine ⟨Edit.applyAll (new "f" .i32 [.i32]) removedPhiHistory, .arg 0, ?_, ?_, ?_⟩
  · exact .applyAll (.empty rfl rfl rfl (by decide)) (by decide)
  · decide
  · decide

end Func

end MiddleEnd
