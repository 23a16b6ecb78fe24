import MiddleEnd.Proofs.Flow

/-!
# Unreachable blocks

Pruning a connected function deletes the blocks that its entry does not reach, and only those: the
other blocks keep their instructions, except that leading phis lose the entries for deleted blocks.
It never fails, the result is connected again, and every live block of it is reachable.
-/

namespace MiddleEnd

open List Bool Instr

/-! ## Dropped phi entries -/

/-- A phi with the entries whose predecessor passes; other operations stay as they are. -/
def Instr.filterEntries (keep : BlockId → Bool) : Instr → Instr
  | .phi es => .phi (es.filter fun e => keep e.block)
  | k => k

namespace Instr

variable {k : Instr} {keep : BlockId → Bool}

lemma filterEntries_filterEntries (keep : BlockId → Bool) (k : Instr) :
    (k.filterEntries keep).filterEntries keep = k.filterEntries keep := by
  cases k with
  | phi es => simp [filterEntries]
  | _ => rfl

lemma filterEntries_of_forall (h : ∀ b, keep b) (k : Instr) : k.filterEntries keep = k := by
  cases k with
  | phi es => simp [filterEntries, h]
  | _ => rfl

lemma filterEntries_of_not_isPhi (keep : BlockId → Bool) (hk : k.isPhi = false) :
    k.filterEntries keep = k := by
  cases k with
  | phi es => exact absurd hk (by simp [isPhi])
  | _ => rfl

lemma filterEntries_isPhi (keep : BlockId → Bool) (k : Instr) :
    (k.filterEntries keep).isPhi = k.isPhi := by
  cases k <;> rfl

lemma eq_of_filterEntries_eq {k' : Instr} (h : k.filterEntries keep = k')
    (hk' : k'.isPhi = false) : k = k' := by
  rw [← h, filterEntries_isPhi] at hk'
  rw [← h, filterEntries_of_not_isPhi keep hk']

lemma mem_operands_of_filterEntries {v : Operand}
    (hv : v ∈ (k.filterEntries keep).operands) : v ∈ k.operands := by
  cases k with
  | phi es =>
    simp only [filterEntries, operands, mem_filterMap, mem_filter] at hv ⊢
    obtain ⟨e, ⟨he, -⟩, hval⟩ := hv
    exact ⟨e, he, hval⟩
  | _ => exact hv

lemma filterEntries_isTerminator (keep : BlockId → Bool) (k : Instr) :
    (k.filterEntries keep).isTerminator = k.isTerminator := by
  cases k <;> rfl

end Instr

namespace Func

variable {b : BlockId} {dead : List BlockId} {P : Func → Prop} {f g : Func}

lemma instr_retainEntries (f : Func) (p : InstId) (keep : BlockId → Bool) (j : InstId) :
    (f.retainEntries p keep).2.instr j =
      if j = p then (f.instr j).filterEntries keep else f.instr j := by
  unfold retainEntries
  split
  · next es hes =>
    dsimp only
    split
    · next hall =>
      have hkept := filter_sublist.eq_of_length hall
      split
      · next hj => rw [hj, hes, filterEntries, hkept]
      · rfl
    · split
      · next hj =>
        subst hj
        rw [instr_replaceInstr_self (hasInst_of_isPhi (by rw [hes]; rfl)), hes, filterEntries]
      · next hj => rw [instr_replaceInstr_of_ne hj]
  · next hnot =>
    split
    · next hj =>
      subst hj
      have hphi : (f.instr j).isPhi = false := by
        cases hk : f.instr j with
        | phi es => exact absurd hk (hnot es)
        | _ => rfl
      rw [filterEntries_of_not_isPhi keep hphi]
    · rfl

lemma ty_retainEntries (f : Func) (p : InstId) (keep : BlockId → Bool) (j : InstId) :
    ((f.retainEntries p keep).2.inst j).ty = (f.inst j).ty := by
  unfold retainEntries
  split
  · dsimp only
    split
    · rfl
    · exact ty_replaceInstr f p _ j
  · rfl

/-- A property that stays when entries of a phi are dropped and when a block is deleted. -/
structure Prunable (P : Func → Prop) : Prop where
  retainEntries : ∀ m p keep, m.placed p → P m → P (m.retainEntries p keep).2
  deleteBlock : ∀ m b, b ∈ m.liveBlocks → P m → P (m.deleteBlock b)

lemma prunable_formed : Prunable Formed where
  retainEntries _ _ keep hp hm := hm.retainEntries hp keep
  deleteBlock _ _ hb hm := hm.deleteBlock hb

lemma foldl_retainEntries (hP : Prunable P) (hf : P f) (keep : BlockId → Bool) (ps : List InstId)
    (hps : ∀ p ∈ ps, f.placed p) :
    f.Rewritten (ps.foldl (fun f p => (f.retainEntries p keep).2) f) ∧
      P (ps.foldl (fun f p => (f.retainEntries p keep).2) f) ∧
      ∀ j, (ps.foldl (fun f p => (f.retainEntries p keep).2) f).instr j =
        if j ∈ ps then (f.instr j).filterEntries keep else f.instr j := by
  induction ps generalizing f with
  | nil => exact ⟨.refl f, hf, fun j => by simp⟩
  | cons p ps ih =>
    have hone : f.Rewritten (f.retainEntries p keep).2 :=
      ⟨samePlaces_retainEntries f p keep, ty_retainEntries f p keep⟩
    obtain ⟨hrest, hrestP, hinstr⟩ := ih (hP.retainEntries f p keep (hps p (.head _)) hf)
      fun q hq => by
        rw [hone.placed]
        exact hps q (.tail p hq)
    refine ⟨hone.trans hrest, hrestP, fun j => ?_⟩
    rw [foldl_cons, hinstr, instr_retainEntries]
    by_cases hjp : j = p
    · simp [hjp, filterEntries_filterEntries]
    · simp [hjp]

lemma SamePlaces.phis (hfg : f.SamePlaces g)
    (hkind : ∀ i, (g.instr i).isPhi = (f.instr i).isPhi) (b : BlockId) : g.phis b = f.phis b := by
  simp only [Func.phis, hfg.instsOf, hkind]

lemma Consistent.foldl_dropEntries (hf : f.Consistent) (hP : Prunable P) (hfP : P f)
    (dead : List BlockId) (bs : List BlockId) (hbs : ∀ b ∈ bs, b ∈ f.liveBlocks) :
    f.Rewritten (bs.foldl (fun f b => f.dropEntries dead b) f) ∧
      P (bs.foldl (fun f b => f.dropEntries dead b) f) ∧
      ∀ j, (bs.foldl (fun f b => f.dropEntries dead b) f).instr j =
        if ∃ b ∈ bs, j ∈ f.phis b then (f.instr j).filterEntries fun b => !dead.contains b
        else f.instr j := by
  induction bs generalizing f with
  | nil => exact ⟨.refl f, hfP, fun j => by simp⟩
  | cons b bs ih =>
    have hb := hbs b (.head _)
    obtain ⟨hone, honeP, hinstr⟩ := foldl_retainEntries hP hfP (fun b => !dead.contains b) (f.phis b)
      fun p hp => hf.placed_of_mem hb (takeWhile_subset _ hp)
    rw [← dropEntries] at hone honeP hinstr
    obtain ⟨hrest, hrestP, hinstrs⟩ := ih (hone.consistent hf) honeP fun c hc =>
      hone.liveBlocks ▸ hbs c (.tail b hc)
    have hphis := hone.phis fun i => by
        rw [hinstr]
        split
        · exact filterEntries_isPhi _ _
        · rfl
    refine ⟨hone.trans hrest, hrestP, fun j => ?_⟩
    rw [foldl_cons, hinstrs, hinstr]
    simp only [hphis, exists_mem_cons_iff]
    by_cases hjb : j ∈ f.phis b
    · simp [hjb, filterEntries_filterEntries]
    · simp [hjb]

/-! ## Deleted blocks -/

structure WithoutBlocks (f g : Func) (dead : List BlockId) : Prop extends f.SameLayout g where
  label : ∀ b, (g.block b).label = (f.block b).label
  blockDeleted : ∀ b, (g.block b).deleted = ((f.block b).deleted || decide (b ∈ dead))
  instsOf : ∀ b, g.instsOf b = if b ∈ dead then [] else f.instsOf b
  live : ∀ i, (g.inst i).live = ((f.inst i).live && decide ((f.inst i).block ∉ dead))
  ty : ∀ i, (g.inst i).ty = (f.inst i).ty
  block : ∀ i, (g.inst i).block = (f.inst i).block

lemma WithoutBlocks.refl (f : Func) : f.WithoutBlocks f [] := by
  refine ⟨.refl f, ?_, ?_, ?_, ?_, ?_, ?_⟩ <;> simp

lemma WithoutBlocks.liveBlocks (hfg : f.WithoutBlocks g dead) :
    g.liveBlocks = f.liveBlocks.filter fun b => !dead.contains b := by
  rw [Func.liveBlocks, Func.liveBlocks, hfg.layout, filter_filter]
  refine filter_congr fun b _ => ?_
  rw [hfg.blockDeleted, Bool.and_comm]
  simp

lemma Consistent.withoutBlocks_deleteBlock (hf : f.Consistent) (hblk : f.hasBlock b) :
    f.WithoutBlocks (f.deleteBlock b) [b] := by
  have hfr := sameFrame_foldl sameFrame_remove (f.instsOf b) f
  refine ⟨f.sameLayout_deleteBlock b, fun c => ?_, fun c => ?_, fun c => ?_, fun i => ?_,
    fun i => ?_, fun i => ?_⟩
  · rw [Func.deleteBlock, block_modifyBlock]
    split
    · exact hfr.label c
    · exact hfr.label c
  · rw [blockDeleted_deleteBlock]
    simp [hblk]
  · rw [hf.instsOf_deleteBlock]
    simp
  · rw [hf.live_deleteBlock]
    simp
  · exact (Consistent.record_foldl_remove _ f i).2.1
  · exact (Consistent.record_foldl_remove _ f i).2.2

lemma WithoutBlocks.trans {h : Func} {dead' : List BlockId} (hfg : f.WithoutBlocks g dead)
    (hgh : g.WithoutBlocks h dead') : f.WithoutBlocks h (dead ++ dead') where
  toSameLayout := hfg.toSameLayout.trans hgh.toSameLayout
  label b := (hgh.label b).trans (hfg.label b)
  blockDeleted b := by
    rw [hgh.blockDeleted, hfg.blockDeleted, Bool.or_assoc]
    simp
  instsOf b := by
    rw [hgh.instsOf, hfg.instsOf]
    by_cases hb : b ∈ dead
    · simp [hb]
    · simp [hb]
  live i := by
    rw [hgh.live, hfg.live, hfg.block, Bool.and_assoc]
    simp
  ty i := (hgh.ty i).trans (hfg.ty i)
  block i := (hgh.block i).trans (hfg.block i)

lemma Consistent.foldl_deleteBlock (hf : f.Consistent) (hP : Prunable P) (hfP : P f)
    (dead : List BlockId) (hnd : dead.Nodup) (hdead : ∀ b ∈ dead, b ∈ f.liveBlocks) :
    (dead.foldl Func.deleteBlock f).Consistent ∧ P (dead.foldl Func.deleteBlock f) ∧
      f.WithoutBlocks (dead.foldl Func.deleteBlock f) dead ∧
      ∀ i, (dead.foldl Func.deleteBlock f).instr i = f.instr i := by
  induction dead generalizing f with
  | nil => exact ⟨hf, hfP, .refl f, fun _ => rfl⟩
  | cons b dead ih =>
    obtain ⟨hb, hnd⟩ := nodup_cons.mp hnd
    have hlive := hdead b (.head _)
    have hblk := (hf.mem_liveBlocks.mp hlive).1
    obtain ⟨hcons, hall, hwithout, hinstr⟩ := ih (hf.deleteBlock b)
      (hP.deleteBlock f b hlive hfP) hnd fun c hc => by
        rw [liveBlocks_deleteBlock f hblk, mem_filter, decide_eq_true_eq]
        exact ⟨hdead c (.tail b hc), fun h => hb (h ▸ hc)⟩
    refine ⟨hcons, hall, (hf.withoutBlocks_deleteBlock hblk).trans hwithout, fun i => ?_⟩
    rw [foldl_cons, hinstr, instr_deleteBlock]

lemma SamePlaces.withoutBlocks {m : Func} (hfm : f.SamePlaces m)
    (hty : ∀ i, (m.inst i).ty = (f.inst i).ty) (hmg : m.WithoutBlocks g dead) :
    f.WithoutBlocks g dead where
  toSameLayout := hfm.toSameLayout.trans hmg.toSameLayout
  label b := (hmg.label b).trans (hfm.label b)
  blockDeleted b := by rw [hmg.blockDeleted, hfm.blockDeleted]
  instsOf b := by rw [hmg.instsOf, hfm.instsOf]
  live i := by rw [hmg.live, hfm.live, hfm.block]
  ty i := (hmg.ty i).trans (hty i)
  block i := (hmg.block i).trans (hfm.block i)

lemma WithoutBlocks.sameCode {m : Func} (hfm : f.WithoutBlocks m dead) (hmg : m.SameCode g) :
    f.WithoutBlocks g dead where
  toSameLayout := hfm.toSameLayout.trans hmg.toSameLayout
  label b := (hmg.label b).trans (hfm.label b)
  blockDeleted b := (hmg.blockDeleted b).trans (hfm.blockDeleted b)
  instsOf b := (hmg.instsOf b).trans (hfm.instsOf b)
  live i := by rw [hmg.inst, hfm.live]
  ty i := by rw [hmg.inst, hfm.ty]
  block i := by rw [hmg.inst, hfm.block]

/-! ## Pruned functions -/

structure Pruned (f g : Func) : Prop where
  without : f.WithoutBlocks g f.unreachable
  instr : ∀ i, (g.inst i).live → f.placed i →
    g.instr i = (f.instr i).filterEntries fun b => !f.unreachable.contains b
  other : ∀ i, f.placed i = false → g.instr i = f.instr i

lemma Connected.mem_liveBlocks_of_without (hf : f.Connected)
    (hfg : f.WithoutBlocks g f.unreachable) :
    b ∈ g.liveBlocks ↔ b ∈ f.liveBlocks ∧ f.Reachable b := by
  rw [hfg.liveBlocks, mem_filter, not_eq_true', contains_eq_mem,
    decide_eq_false_iff_not, hf.mem_unreachable]
  constructor
  · grind
  · grind

/-- Reachable blocks keep their terminator, and all targets that were live stay live. -/
lemma Connected.terminator?_of_without (hf : f.Connected) (hg : g.Consistent)
    (hfg : f.WithoutBlocks g f.unreachable)
    (hkind : ∀ i, (g.instr i).isTerminator = (f.instr i).isTerminator) (hb : b ∈ g.liveBlocks) :
    g.terminator? b = f.terminator? b := by
  have hreach := (hf.mem_liveBlocks_of_without hfg).mp hb
  have hinsts : g.instsOf b = f.instsOf b := by
    rw [hfg.instsOf, if_neg fun h => (hf.mem_unreachable.mp h).2 hreach.2]
  rw [hg.terminator?_eq, hf.terminator?_eq, hinsts]
  cases (f.instsOf b).getLast? with
  | none => rfl
  | some t => rw [Option.filter_some, Option.filter_some, hkind t]

lemma Connected.deleted_of_edge (hf : f.Connected) (hfg : f.WithoutBlocks g f.unreachable)
    {c : BlockId} (hb : b ∈ g.liveBlocks) (hc : c ∈ f.targets b) :
    (g.block c).deleted = (f.block c).deleted := by
  rw [hfg.blockDeleted]
  cases hdel : (f.block c).deleted with
  | true => rfl
  | false =>
    have hreach := (hf.mem_liveBlocks_of_without hfg).mp hb
    have hedge : f.Edge b c := ⟨hreach.1, mem_liveTargets.mpr ⟨hc, hdel⟩⟩
    have hnot : c ∉ f.unreachable := fun h => (hf.mem_unreachable.mp h).2 (hreach.2.tail hedge)
    simp [hnot]

/-- In a function without its unreachable blocks control flow can be followed as before. -/
lemma Connected.flow_of_without (hf : f.Connected) (hg : g.Consistent)
    (hfg : f.WithoutBlocks g f.unreachable)
    (hinstr : ∀ i, ∃ keep, g.instr i = (f.instr i).filterEntries keep) (hb : b ∈ g.liveBlocks) :
    g.flowError? b = none ∧ g.hasDeadBranch b = false := by
  have hreach := (hf.mem_liveBlocks_of_without hfg).mp hb
  have hterm (i : InstId) : (g.instr i).isTerminator = (f.instr i).isTerminator := by
    obtain ⟨keep, hkeep⟩ := hinstr i
    rw [hkeep, filterEntries_isTerminator]
  obtain ⟨t, ht⟩ := exists_terminator_of_flow (hf.flow b hreach.1)
  have htg := (hf.terminator?_of_without hg hfg hterm hb).trans ht
  have hsame : g.instr t = f.instr t := by
    obtain ⟨keep, hkeep⟩ := hinstr t
    have hisTerm := (hf.mem_of_terminator? ht).2
    rw [hkeep]
    cases hk : f.instr t with
    | phi es => rw [hk] at hisTerm; exact absurd hisTerm (by simp [isTerminator])
    | _ => rfl
  have hdel : ∀ c ∈ (f.instr t).targets, (g.block c).deleted = (f.block c).deleted := by
    intro c hc
    refine hf.deleted_of_edge hfg hb ?_
    rw [targets, ht]
    exact hc
  have hblk := funext hfg.hasBlock
  have hflow := hf.flow b hreach.1
  have hdead := hf.folded b hreach.1
  simp only [flowError?, hasDeadBranch, ht, htg, Option.map_some, hsame, hblk, hfg.label,
    hfg.name] at hflow hdead ⊢
  cases hk : f.instr t with
  | branch v x y =>
    rw [hk] at hflow hdead hdel
    have hx := hdel x (by simp [Instr.targets])
    have hy := hdel y (by simp [Instr.targets])
    simp only [hx, hy]
    exact ⟨hflow, hdead⟩
  | jump target =>
    rw [hk] at hflow
    cases target with
    | none => exact ⟨hflow, rfl⟩
    | some c => exact ⟨hflow, rfl⟩
  | _ =>
    rw [hk] at hflow
    exact ⟨hflow, rfl⟩

lemma Connected.reachable_of_without (hf : f.Connected) (hg : g.Consistent)
    (hfg : f.WithoutBlocks g f.unreachable)
    (hinstr : ∀ i, ∃ keep, g.instr i = (f.instr i).filterEntries keep) (hb : f.Reachable b) :
    g.Reachable b := by
  have hterm (i : InstId) : (g.instr i).isTerminator = (f.instr i).isTerminator := by
    obtain ⟨keep, hkeep⟩ := hinstr i
    rw [hkeep, filterEntries_isTerminator]
  induction hb with
  | refl => exact .refl
  | @tail b c hreach hedge ih =>
    have hblive : b ∈ g.liveBlocks := (hf.mem_liveBlocks_of_without hfg).mpr ⟨hedge.1, hreach⟩
    refine ih.tail ⟨hblive, mem_liveTargets.mpr ?_⟩
    obtain ⟨htgt, hdel⟩ := mem_liveTargets.mp hedge.2
    rw [hf.deleted_of_edge hfg hblive htgt]
    refine ⟨?_, hdel⟩
    obtain ⟨t, ht⟩ := exists_terminator_of_flow (hf.flow b hedge.1)
    have htg := (hf.terminator?_of_without hg hfg hterm hblive).trans ht
    obtain ⟨keep, hkeep⟩ := hinstr t
    rw [targets, ht] at htgt
    rw [targets, htg]
    dsimp only at htgt ⊢
    rw [hkeep]
    cases hk : f.instr t with
    | phi es => rw [hk] at htgt; exact absurd htgt (by simp [Instr.targets])
    | _ => rw [hk] at htgt; exact htgt

/-- The function after the entries for some blocks have been dropped and these blocks deleted. -/
def strip (f : Func) (dead : List BlockId) : Func :=
  dead.foldl deleteBlock
    ((f.liveBlocks.filter fun b => !dead.contains b).foldl (fun f b => f.dropEntries dead b) f)

/-- The leading phis of the blocks that stay lose the entries for the blocks that go. -/
lemma Consistent.withoutBlocks_strip (hf : f.Consistent) (hP : Prunable P) (hfP : P f)
    (hnd : dead.Nodup) (hdead : ∀ b ∈ dead, b ∈ f.liveBlocks) :
    (f.strip dead).Consistent ∧ P (f.strip dead) ∧ f.WithoutBlocks (f.strip dead) dead ∧
      ∀ i, (f.strip dead).instr i =
        if ∃ b ∈ f.liveBlocks.filter (fun b => !dead.contains b), i ∈ f.phis b then
          (f.instr i).filterEntries fun b => !dead.contains b
        else f.instr i := by
  obtain ⟨hdropped, hdroppedP, hents⟩ := hf.foldl_dropEntries hP hfP dead
    (f.liveBlocks.filter fun b => !dead.contains b) fun b hb => (mem_filter.mp hb).1
  have hdead' : ∀ b ∈ dead, b ∈ ((f.liveBlocks.filter fun b => !dead.contains b).foldl
      (fun f b => f.dropEntries dead b) f).liveBlocks := by
    rw [hdropped.liveBlocks]
    exact hdead
  obtain ⟨hcons, hall, hwithout, hinstr⟩ := (hdropped.consistent hf).foldl_deleteBlock
    hP hdroppedP dead hnd hdead'
  exact ⟨hcons, hall, hdropped.withoutBlocks hdropped.ty hwithout,
    fun i => (hinstr i).trans (hents i)⟩

lemma dropEntries_nil (f : Func) (b : BlockId) : f.dropEntries [] b = f := by
  have hone (f : Func) (p : InstId) : (f.retainEntries p
    fun c => !([] : List BlockId).contains c).2 = f := by
    unfold retainEntries
    split <;> simp
  simp only [dropEntries, hone, foldl_fixed]

lemma strip_nil (f : Func) : f.strip [] = f := by
  simp only [strip, dropEntries_nil, foldl_fixed, foldl_nil]

lemma nodup_unreachable (hf : f.Consistent) : f.unreachable.Nodup :=
  (hf.layout_nodup.filter _).filter _

lemma prune_eq (hf : f.Connected) (hconn : (f.strip f.unreachable).connect = (.ok [], g)) :
    f.prune = (.ok f.unreachable, g) := by
  by_cases hnone : f.unreachable = []
  · rw [hnone, strip_nil, hf.connect_eq] at hconn
    rw [Func.prune, hnone, isEmpty_nil, if_pos rfl, ← (Prod.mk.inj hconn).2]
  · have hne : f.unreachable.isEmpty = false := by simpa using hnone
    rw [strip] at hconn
    simp only [Func.prune, hne, false_eq_true, if_false]
    rw [hconn]

/-- Pruning succeeds on connected functions, and no branch has to be folded after it. -/
lemma Connected.prune (hf : f.Connected) (hP : Prunable P) (hfP : P f) :
    ∃ g, f.prune = (.ok f.unreachable, g) ∧ (f.strip f.unreachable).connect = (.ok [], g) ∧
      P (f.strip f.unreachable) ∧ (f.strip f.unreachable).SameCode g ∧ g.Connected ∧
      f.WithoutBlocks g f.unreachable ∧
      (∀ i, g.instr i =
        if ∃ b ∈ g.liveBlocks, i ∈ f.phis b then
          (f.instr i).filterEntries fun b => !f.unreachable.contains b
        else f.instr i) ∧
      ∀ b ∈ g.liveBlocks, g.Reachable b := by
  obtain ⟨hcons, hall, hwithout, hinstr⟩ := hf.withoutBlocks_strip hP hfP
    (nodup_unreachable hf.consistent) fun b hb => (hf.mem_unreachable.mp hb).1
  have hfilter (i : InstId) : ∃ keep, (f.strip f.unreachable).instr i =
      (f.instr i).filterEntries keep := by
    rw [hinstr]
    split
    · exact ⟨_, rfl⟩
    · exact ⟨fun _ => true, (filterEntries_of_forall (fun _ => rfl) _).symm⟩
  have hflow (b : BlockId) (hb : b ∈ (f.strip f.unreachable).liveBlocks) :=
    hf.flow_of_without hcons hwithout hfilter hb
  have hunfolded : (f.strip f.unreachable).liveBlocks.filter
      (f.strip f.unreachable).hasDeadBranch = [] :=
    filter_eq_nil_iff.mpr fun b hb => by simp [(hflow b hb).2]
  have hconn := connect_of_flow fun b hb => (hflow b hb).1
  rw [hunfolded, foldl_nil] at hconn
  have hsame := sameCode_setEdges (f.strip f.unreachable) (f.strip f.unreachable).liveBlocks
  refine ⟨_, prune_eq hf hconn, hconn, hall, hsame,
    hcons.connected_setEdges (fun b hb => (hflow b hb).1) fun b hb => (hflow b hb).2,
    hwithout.sameCode hsame, fun i => ?_, fun b hb => ?_⟩
  · rw [hsame.instr, hsame.liveBlocks, hwithout.liveBlocks, hinstr]
  · rw [hsame.liveBlocks] at hb
    have hreach := ((hf.mem_liveBlocks_of_without hwithout).mp hb).2
    rw [Reachable, hsame.edge]
    exact hf.reachable_of_without hcons hwithout hfilter hreach

lemma Routed.prune (hf : f.Routed) :
    ∃ g, f.prune = (.ok f.unreachable, g) ∧ g.Routed ∧ f.Pruned g ∧
      ∀ b ∈ g.liveBlocks, g.Reachable b := by
  obtain ⟨g, hprune, -, hform, hsame, hg, hwithout, hinstr, hreach⟩ :=
    hf.connected.prune prunable_formed hf.formed
  have hlive {b : BlockId} (hb : b ∈ g.liveBlocks) :=
    (hf.mem_liveBlocks_of_without hwithout).mp hb
  refine ⟨g, hprune, hg.routed (hform.sameCode hsame), ⟨hwithout, fun i hi hpl => ?_, fun i hpl => ?_⟩,
    hreach⟩
  · have hb : (g.inst i).block ∈ g.liveBlocks := by
      rw [hwithout.liveBlocks, hwithout.block]
      rw [hwithout.live, and_eq_true] at hi
      rw [placed, and_eq_true, not_eq_true'] at hpl
      exact mem_filter.mpr ⟨hf.mem_liveBlocks.mpr
        ⟨hf.hasBlock_of_live hpl.1, hpl.2⟩, by simpa using hi.2⟩
    rw [hinstr]
    split
    · rfl
    · next hnot =>
      refine (filterEntries_of_not_isPhi _ ?_).symm
      rw [← not_eq_true]
      intro hphi
      refine hnot ⟨_, hb, ?_⟩
      rw [hf.phis_eq (hlive hb).1, mem_filter, hwithout.block]
      exact ⟨hf.mem_of_live (Formed.live_of_placed hpl), hphi⟩
  · rw [hinstr, if_neg]
    rintro ⟨b, hb, hi⟩
    rw [hf.placed_of_mem (hlive hb).1 (takeWhile_subset _ hi)] at hpl
    exact absurd hpl (by simp)

end Func

end MiddleEnd
