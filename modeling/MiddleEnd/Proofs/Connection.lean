import Mathlib
import MiddleEnd.Proofs.History
import MiddleEnd.Proofs.Ssa

/-!
# Exact edges

Connecting a function with consistent lists succeeds exactly if control flow can be followed: every
live block ends in a terminator, which is neither pending nor a branch between deleted blocks.  It
then stores the edges between live blocks on both of their ends, and changes no instruction but the
branches with one deleted target.  Branches and jumps that do not end their block are not looked at.

Pruning a connected function deletes the blocks that the stored edges do not reach from the entry.
It always succeeds, and what was in SSA form stays so.
-/

namespace MiddleEnd.Func

open List Instr

variable {b : BlockId} {t : InstId} {f g : Func}

/-! ## When control flow can be followed -/

/-- Every live block ends in a terminator, which is neither a pending jump nor a branch between
deleted blocks. -/
def Followable (f : Func) : Prop :=
  ∀ b ∈ f.liveBlocks, ∃ t, f.terminator? b = some t ∧ f.instr t ≠ .jump none ∧
    ∀ c x y, f.instr t = .branch c x y → (f.block x).deleted = false ∨ (f.block y).deleted = false

lemma flowError?_eq_none_iff (ht : f.terminator? b = some t) :
    f.flowError? b = none ↔ f.instr t ≠ .jump none ∧
      (∀ c x y, f.instr t = .branch c x y →
        (f.block x).deleted = false ∨ (f.block y).deleted = false) ∧
      ∀ c ∈ f.targets b, f.hasBlock c := by
  have htgts : f.targets b = (f.instr t).targets := by rw [targets, ht]
  rw [flowError?, htgts, ht, Option.map_some]
  generalize f.instr t = k
  cases k with
  | branch c x y =>
    simp only [Instr.targets, mem_cons, not_mem_nil, or_false, forall_eq_or_imp, forall_eq]
    cases f.hasBlock x <;> cases f.hasBlock y <;> cases hx : (f.block x).deleted <;>
      cases hy : (f.block y).deleted <;> simp [hx, hy]
  | jump target =>
    cases target with
    | none => simp
    | some c => simp [Instr.targets]
  | _ => simp [Instr.targets]

lemma forall_flowError?_eq_none_iff
    (hrange : ∀ b ∈ f.liveBlocks, ∀ c ∈ f.targets b, f.hasBlock c) :
    (∀ b ∈ f.liveBlocks, f.flowError? b = none) ↔ f.Followable := by
  refine forall₂_congr fun b hb => ⟨fun h => ?_, ?_⟩
  · obtain ⟨t, ht⟩ := exists_terminator_of_flow h
    obtain ⟨hjump, hbranch, -⟩ := (flowError?_eq_none_iff ht).mp h
    exact ⟨t, ht, hjump, hbranch⟩
  · rintro ⟨t, ht, hjump, hbranch⟩
    exact (flowError?_eq_none_iff ht).mpr ⟨hjump, hbranch, hrange b hb⟩

/-! ## Folded branches -/

/-- The live block `b` ends in the branch `t`, whose other target than `x` is deleted. -/
def HalfDead (f : Func) (b : BlockId) (t : InstId) (x : BlockId) : Prop :=
  b ∈ f.liveBlocks ∧ f.terminator? b = some t ∧ (f.block x).deleted = false ∧
    ∃ c y, (f.block y).deleted ∧ (f.instr t = .branch c x y ∨ f.instr t = .branch c y x)

lemma HalfDead.foldInstr_eq {x : BlockId} (h : f.HalfDead b t x) :
    f.foldInstr (f.instr t) = .jump (some x) := by
  obtain ⟨-, -, hx, c, y, hy, hk | hk⟩ := h
  · simp [hk, foldInstr, hx, hy]
  · simp [hk, foldInstr, hy]

lemma exists_halfDead (hb : b ∈ f.liveBlocks) (hflow : f.flowError? b = none)
    (ht : f.terminator? b = some t) (hfold : f.foldInstr (f.instr t) ≠ f.instr t) :
    ∃ x, f.HalfDead b t x := by
  obtain ⟨-, hbranch, -⟩ := (flowError?_eq_none_iff ht).mp hflow
  cases hk : f.instr t with
  | branch c x y =>
    rcases hbranch c x y hk with hx | hy
    · refine ⟨x, hb, ht, hx, c, y, ?_, .inl hk⟩
      by_contra hy
      exact hfold (by simp [hk, foldInstr, hx, hy])
    · refine ⟨y, hb, ht, hy, c, x, ?_, .inr hk⟩
      by_contra hx
      exact hfold (by simp [hk, foldInstr, hx, hy])
  | _ => exact absurd (by rw [hk]; rfl) hfold

lemma hasDeadBranch_iff (hb : b ∈ f.liveBlocks) (hflow : f.flowError? b = none) :
    f.hasDeadBranch b ↔ ∃ t x, f.HalfDead b t x := by
  constructor
  · intro hdead
    obtain ⟨t, ht⟩ := exists_terminator_of_hasDeadBranch hdead
    refine ⟨t, exists_halfDead hb hflow ht fun hfold => ?_⟩
    rw [hasDeadBranch, ht, Option.map_some] at hdead
    cases hk : f.instr t with
    | branch c x y =>
      rw [hk] at hdead hfold
      by_cases hx : (f.block x).deleted
      · simp [foldInstr, hx] at hfold
      · have hy : (f.block y).deleted := by simpa [hx] using hdead
        simp [foldInstr, hx, hy] at hfold
    | _ => simp [hk] at hdead
  · rintro ⟨t, x, -, ht, hx, c, y, hy, hk | hk⟩
    · simp [hasDeadBranch, ht, hk, hy]
    · simp [hasDeadBranch, ht, hk, hy]

lemma Exact.fold (hf : f.Exact) (ht : f.placed t) :
    (f.replaceInstr t (f.foldInstr (f.instr t))).Exact := by
  have hlive := Formed.live_of_placed ht
  refine hf.replaceInstr hlive fun v hv => hf.admits t hlive v ?_
  cases hk : f.instr t with
  | branch c x y =>
    rw [hk, foldInstr] at hv
    split at hv
    · cases hv
    · split at hv
      · cases hv
      · exact hv
  | _ => rwa [hk] at hv

/-! ## Connecting -/

/-- What connecting `f` to `g` does, given the blocks whose branches are folded. -/
structure ConnectsTo (f : Func) (folded : List BlockId) (g : Func) : Prop where
  consistent : g.Consistent
  exact : g.Exact
  /-- The edges lead from live blocks to live targets of their terminators. -/
  mem_succs : ∀ x y, y ∈ (g.block x).succs ↔
    x ∈ g.liveBlocks ∧ y ∈ g.liveBlocks ∧ y ∈ g.targets x
  mem_preds : ∀ x y, x ∈ (g.block y).preds ↔
    x ∈ g.liveBlocks ∧ y ∈ g.liveBlocks ∧ y ∈ g.targets x
  nodup_edges : ∀ b, (g.block b).succs.Nodup ∧ (g.block b).preds.Nodup
  deleted : ∀ b, (g.block b).deleted → (g.block b).succs = [] ∧ (g.block b).preds = []
  /-- A branch with one deleted target becomes a jump to the other, which uses nothing. -/
  instr_folded : ∀ b t x, f.HalfDead b t x → g.instr t = .jump (some x)
  users_folded : ∀ b t x, f.HalfDead b t x → ∀ v, f.tracks v → t ∉ g.users v
  /-- All other instructions stay, with their uses. -/
  instr_other : ∀ i, (∀ b x, ¬ f.HalfDead b i x) → g.instr i = f.instr i
  users_other : ∀ i, (∀ b x, ¬ f.HalfDead b i x) → ∀ v, f.tracks v →
    (g.users v).count i = (f.users v).count i
  /-- Types and places of instructions stay, and so does all of a block but its edges. -/
  record : ∀ i, { g.inst i with instr := f.instr i, users := (f.inst i).users } = f.inst i
  block : ∀ b, { g.block b with preds := (f.block b).preds, succs := (f.block b).succs } = f.block b
  frame : g.name = f.name ∧ g.ret = f.ret ∧ g.external = f.external ∧ g.deleted = f.deleted ∧
    g.params.map Param.ty = f.params.map Param.ty ∧ g.insts.size = f.insts.size ∧
    g.blocks.size = f.blocks.size ∧ g.layout = f.layout
  /-- The blocks whose branches are folded, in layout order. -/
  mem_folded : ∀ b, b ∈ folded ↔ ∃ t x, f.HalfDead b t x
  sublist_folded : folded.Sublist f.layout

lemma Connected.mem_edges (hf : f.Connected) (x y : BlockId) :
    (y ∈ (f.block x).succs ↔ x ∈ f.liveBlocks ∧ y ∈ f.liveBlocks ∧ y ∈ f.targets x) ∧
      (x ∈ (f.block y).preds ↔ x ∈ f.liveBlocks ∧ y ∈ f.liveBlocks ∧ y ∈ f.targets x) := by
  have hedge : f.Edge x y ↔ x ∈ f.liveBlocks ∧ y ∈ f.liveBlocks ∧ y ∈ f.targets x := by
    constructor
    · intro h
      exact ⟨h.1, hf.mem_liveBlocks_of_edge h, (mem_liveTargets.mp h.2).1⟩
    · rintro ⟨hx, hy, htgt⟩
      exact ⟨hx, mem_liveTargets.mpr ⟨htgt, (hf.mem_liveBlocks.mp hy).2⟩⟩
  refine ⟨hf.mem_succs.trans hedge, ?_⟩
  cases hy : f.hasBlock y with
  | true => exact (hf.mem_preds hy).trans hedge
  | false =>
    rw [block_of_not_hasBlock f hy]
    refine iff_of_false not_mem_nil fun h => ?_
    exact Bool.false_ne_true (hy.symm.trans (hf.mem_liveBlocks.mp h.2.1).1)

lemma Connected.nodup_edges (hf : f.Connected) (b : BlockId) :
    (f.block b).succs.Nodup ∧ (f.block b).preds.Nodup := by
  refine ⟨hf.nodup_succs b, ?_⟩
  cases hb : f.hasBlock b with
  | true => exact hf.nodup_preds hb
  | false =>
    rw [block_of_not_hasBlock f hb]
    exact nodup_nil

lemma Connected.edges_of_deleted (hf : f.Connected) (hb : (f.block b).deleted) :
    (f.block b).succs = [] ∧ (f.block b).preds = [] := by
  have hnot : b ∉ f.liveBlocks := fun h =>
    Bool.false_ne_true ((hf.mem_liveBlocks.mp h).2.symm.trans hb)
  constructor
  · exact eq_nil_iff_forall_not_mem.mpr fun c hc => hnot ((hf.mem_edges b c).1.mp hc).1
  · exact eq_nil_iff_forall_not_mem.mpr fun c hc => hnot ((hf.mem_edges c b).2.mp hc).2.1

lemma SameCode.sameUses (hfg : f.SameCode g) : f.SameUses g :=
  .of_inst hfg.args hfg.insts fun i =>
    ⟨by rw [hfg.inst], by rw [hfg.inst], by rw [hfg.instr]⟩

lemma Rewritten.same_record (hfg : f.Rewritten g) (i : InstId) :
    { g.inst i with instr := f.instr i, users := (f.inst i).users } = f.inst i := by
  obtain ⟨hblk, hprev, hnext, hlive⟩ := hfg.record i
  dsimp only
  rw [hfg.ty, hblk, hprev, hnext, hlive]
  rfl

lemma connectsTo_of_flow (hf : f.Consistent) (hexact : f.Exact)
    (hflow : ∀ b ∈ f.liveBlocks, f.flowError? b = none) :
    ∃ folded g, f.connect = (.ok folded, g) ∧ f.ConnectsTo folded g ∧ g.Connected := by
  obtain ⟨m, hconn, hm, hmexact, hinstr, hg⟩ := hf.exists_connect hflow
    (fun _ _ ht hm => hm.fold ht) hexact
  have hsame := sameCode_setEdges m f.liveBlocks
  have hgexact := hmexact.sameUses hsame.sameUses
  have hother {i : InstId} (hi : ∀ b x, ¬ f.HalfDead b i x) :
      (m.setEdges f.liveBlocks).instr i = f.instr i := by
    rw [hsame.instr, hinstr]
    split
    · next hends =>
      obtain ⟨b, hb, ht⟩ := hends
      by_contra hfold
      obtain ⟨x, hx⟩ := exists_halfDead hb (hflow b hb) ht hfold
      exact hi b x hx
    · rfl
  have hfolded {b x : BlockId} {t : InstId} (h : f.HalfDead b t x) :
      (m.setEdges f.liveBlocks).instr t = .jump (some x) := by
    rw [hsame.instr, hinstr, if_pos ⟨b, h.1, h.2.1⟩, h.foldInstr_eq]
  have htr (v : Operand) : (m.setEdges f.liveBlocks).tracks v = f.tracks v :=
    (hsame.tracks v).trans (hm.tracks v)
  refine ⟨_, _, hconn, ?_, hg⟩
  exact {
    consistent := hg.consistent
    exact := hgexact
    mem_succs := fun x y => (hg.mem_edges x y).1
    mem_preds := fun x y => (hg.mem_edges x y).2
    nodup_edges := hg.nodup_edges
    deleted := fun _ hb => hg.edges_of_deleted hb
    instr_folded := fun _ _ _ h => hfolded h
    users_folded := fun b t x h v hv => by
      rw [← count_eq_zero, hgexact.uses v ((htr v).trans hv) t, hfolded h]
      exact ite_self _
    instr_other := fun _ hi => hother hi
    users_other := fun i hi v hv => by
      rw [hgexact.uses v ((htr v).trans hv) i, hexact.uses v hv i, hother hi]
      simp only [hsame.inst, hm.live]
    record := fun i => by
      exact hm.same_record i
    block := fun b => by
      rw [block_setEdges, hm.ends]
      split <;> rfl
    frame := ⟨hm.name, hm.ret, hm.external,
      hm.deleted, hm.params, hm.insts,
      hsame.blocks.trans hm.blocks, hm.layout⟩
    mem_folded := fun b => by
      rw [mem_filter]
      constructor
      · rintro ⟨hb, hdead⟩
        exact (hasDeadBranch_iff hb (hflow b hb)).mp hdead
      · rintro ⟨t, x, h⟩
        exact ⟨h.1, (hasDeadBranch_iff h.1 (hflow b h.1)).mpr ⟨t, x, h⟩⟩
    sublist_folded := filter_sublist.trans filter_sublist }

/-- Connecting a function with consistent lists and targets that exist succeeds exactly if control
flow can be followed.  The edges are then exactly those between live blocks, only branches with one
deleted target are changed, and connecting again changes nothing. -/
theorem Consistent.connect_exact (hf : f.Consistent) (hexact : f.Exact)
    (hrange : ∀ b ∈ f.liveBlocks, ∀ c ∈ f.targets b, f.hasBlock c = true) :
    ((∃ folded g, f.connect = (.ok folded, g)) ↔ f.Followable) ∧
      ∀ folded g, f.connect = (.ok folded, g) →
        f.ConnectsTo folded g ∧ g.connect = (.ok [], g) := by
  refine ⟨⟨?_, fun h => ?_⟩, fun folded g hconnect => ?_⟩
  · rintro ⟨folded, g, hconnect⟩
    exact (forall_flowError?_eq_none_iff hrange).mp (flow_of_connect hconnect)
  · obtain ⟨folded, g, hconnect, -⟩ := connectsTo_of_flow hf hexact
      ((forall_flowError?_eq_none_iff hrange).mpr h)
    exact ⟨folded, g, hconnect⟩
  · obtain ⟨folded', g', hconnect', hto, hg⟩ := connectsTo_of_flow hf hexact
      (flow_of_connect hconnect)
    obtain ⟨rfl, rfl⟩ : folded' = folded ∧ g' = g := by
      rw [hconnect] at hconnect'
      obtain ⟨hok, rfl⟩ := Prod.mk.inj hconnect'
      exact ⟨(Except.ok.inj hok).symm, rfl⟩
    exact ⟨hto, hg.connect_eq⟩

/-- A branch to a deleted block, a branch with one target twice and a loop of one block. -/
def forkHistory : List Edit :=
  [.addBlock "entry", .addBlock "twice", .addBlock "loop", .addBlock "gone",
    .append ⟨0⟩ (.branch (.arg 0) ⟨3⟩ ⟨1⟩) .void, .append ⟨1⟩ (.branch (.arg 0) ⟨2⟩ ⟨2⟩) .void,
    .append ⟨2⟩ (.branch (.arg 0) ⟨2⟩ ⟨1⟩) .void, .append ⟨3⟩ (.jump (some ⟨1⟩)) .void,
    .deleteBlock ⟨3⟩]

def fork : Func :=
  Edit.applyAll (new "f" .void [.i1]) forkHistory

theorem connect_exact_fork :
    fork.Consistent ∧ fork.Exact ∧
      (∀ b ∈ fork.liveBlocks, ∀ c ∈ fork.targets b, fork.hasBlock c = true) ∧ fork.Followable ∧
      fork.ConnectsTo [⟨0⟩] fork.connect.2 ∧ fork.connect.2.connect = (.ok [], fork.connect.2) := by
  have hconsistent : fork.Consistent := by decide
  have hexact : fork.Exact :=
    Edited.exact (.applyAll (.empty rfl rfl rfl (by decide)) (by decide))
  have hrange : ∀ b ∈ fork.liveBlocks, ∀ c ∈ fork.targets b, fork.hasBlock c = true := by decide
  have hconnect : fork.connect = (.ok [⟨0⟩], fork.connect.2) := rfl
  obtain ⟨hiff, hto⟩ := hconsistent.connect_exact hexact hrange
  exact ⟨hconsistent, hexact, hrange, hiff.mp ⟨_, _, hconnect⟩, hto _ _ hconnect⟩

/-- A branch between deleted blocks that does not end its block. -/
def strayHistory : List Edit :=
  [.addBlock "entry", .addBlock "one", .addBlock "two",
    .append ⟨0⟩ (.branch (.arg 0) ⟨1⟩ ⟨2⟩) .void, .append ⟨0⟩ (.ret none) .void,
    .deleteBlock ⟨1⟩, .deleteBlock ⟨2⟩]

/-- That a branch ends its block cannot be left out: no other branch keeps connecting from
succeeding. -/
theorem exists_connect_eq_ok_dead_branch :
    ∃ (f g : Func) (i : InstId) (c : Operand) (x y : BlockId), f.Consistent ∧ f.Exact ∧
      (∀ b ∈ f.liveBlocks, ∀ c ∈ f.targets b, f.hasBlock c = true) ∧ i ∈ f.liveInsts ∧
      f.instr i = .branch c x y ∧ (f.block x).deleted = true ∧ (f.block y).deleted = true ∧
      f.connect = (.ok [], g) := by
  refine ⟨Edit.applyAll (new "f" .void [.i1]) strayHistory, _, ⟨0⟩, .arg 0, ⟨1⟩, ⟨2⟩, by decide,
    Edited.exact (.applyAll (.empty rfl rfl rfl (by decide)) (by decide)), by decide, by decide,
    rfl, rfl, rfl, rfl⟩

/-! ## Pruning -/

lemma Consistent.connected_of_connect (hf : f.Consistent) {folded : List BlockId}
    (hconn : f.connect = (.ok folded, g)) : g.Connected := by
  obtain ⟨m, hconn', -, -, -, hg⟩ := hf.exists_connect (P := fun _ => True)
    (flow_of_connect hconn) (fun _ _ _ _ => trivial) trivial
  rw [hconn'] at hconn
  exact (Prod.mk.inj hconn).2 ▸ hg

lemma Connected.edge_eq (hf : f.Connected) : f.Edge = fun x y => y ∈ (f.block x).succs := by
  funext x y
  exact propext hf.mem_succs.symm

lemma Connected.liveTargets_of_without (hf : f.Connected) (hg : g.Consistent)
    (hfg : f.WithoutBlocks g f.unreachable)
    (hinstr : ∀ i, ∃ keep, g.instr i = (f.instr i).filterEntries keep) (hb : b ∈ g.liveBlocks) :
    g.liveTargets b = f.liveTargets b := by
  have htgts : g.targets b = f.targets b := by
    rw [targets, targets, hf.terminator?_of_without hg hfg (fun i => ?_) hb]
    · cases f.terminator? b with
      | none => rfl
      | some t =>
        obtain ⟨keep, hkeep⟩ := hinstr t
        dsimp only
        rw [hkeep, targets_filterEntries]
    · obtain ⟨keep, hkeep⟩ := hinstr i
      rw [hkeep, filterEntries_isTerminator]
  rw [liveTargets, htgts]
  congr 1
  refine filter_congr fun c hc => ?_
  rw [hf.deleted_of_edge hfg hb hc]

lemma Connected.prune_eq_of_reachable (hf : f.Connected)
    (hreach : ∀ b ∈ f.liveBlocks, f.Reachable b) : f.prune = (.ok [], f) := by
  have hnone : f.unreachable = [] := eq_nil_iff_forall_not_mem.mpr fun b hb =>
    (hf.mem_unreachable.mp hb).2 (hreach b (hf.mem_unreachable.mp hb).1)
  rw [Func.prune, hnone]
  rfl

/-- The stored edges lead from the entry to the block. -/
def Reached (f : Func) : BlockId → Prop :=
  Relation.ReflTransGen (fun x y => y ∈ (f.block x).succs) ⟨0⟩

/-- What pruning `f` to `g` does, given the blocks that are deleted. -/
structure PrunesTo (f : Func) (dead : List BlockId) (g : Func) : Prop where
  consistent : g.Consistent
  /-- The blocks that the entry does not reach, in layout order. -/
  mem_dead : ∀ b, b ∈ dead ↔ b ∈ f.liveBlocks ∧ ¬ f.Reached b
  sublist_dead : dead.Sublist f.layout
  mem_liveBlocks : ∀ b, b ∈ g.liveBlocks ↔ b ∈ f.liveBlocks ∧ f.Reached b
  layout : g.layout = f.layout
  /-- The edges that stay are those between blocks that stay. -/
  succs : ∀ b ∈ g.liveBlocks, (g.block b).succs = (f.block b).succs.filter (· ∈ g.liveBlocks)
  preds : ∀ b ∈ g.liveBlocks, (g.block b).preds = (f.block b).preds.filter (· ∈ g.liveBlocks)
  deleted : ∀ b, (g.block b).deleted → (g.block b).succs = [] ∧ (g.block b).preds = []
  instsOf : ∀ b ∈ g.liveBlocks, g.instsOf b = f.instsOf b
  ty : ∀ i, (g.inst i).ty = (f.inst i).ty
  /-- Leading phis lose the entries for deleted blocks. -/
  instr_phi : ∀ b ∈ g.liveBlocks, ∀ i ∈ f.phis b, ∀ es, f.instr i = .phi es →
    g.instr i = .phi (es.filter fun e => !dead.contains e.block)
  instr_other : ∀ b ∈ g.liveBlocks, ∀ i ∈ f.instsOf b, i ∉ f.phis b → g.instr i = f.instr i

lemma Connected.reached_iff (hf : f.Connected) : f.Reached b ↔ f.Reachable b := by
  rw [Reached, Reachable, hf.edge_eq]

lemma Connected.prunesTo (hf : f.Connected) {P : Func → Prop} (hP : Prunable P) (hfP : P f) :
    ∃ g, f.prune = (.ok f.unreachable, g) ∧ (f.strip f.unreachable).connect = (.ok [], g) ∧
      P (f.strip f.unreachable) ∧ (f.strip f.unreachable).SameCode g ∧ g.Connected ∧
      f.PrunesTo f.unreachable g ∧ ∀ b ∈ g.liveBlocks, g.Reachable b := by
  obtain ⟨g, hprune, hconn, hgP, hsame, hg, hwithout, hinstr, hreach⟩ := hf.prune hP hfP
  have hlive {b : BlockId} := hf.mem_liveBlocks_of_without hwithout (b := b)
  have hfilter (i : InstId) : ∃ keep, g.instr i = (f.instr i).filterEntries keep := by
    rw [hinstr]
    split
    · exact ⟨_, rfl⟩
    · exact ⟨fun _ => true, (filterEntries_of_forall (fun _ => rfl) _).symm⟩
  have htgts {b : BlockId} (hb : b ∈ g.liveBlocks) :=
    hf.liveTargets_of_without hg.consistent hwithout hfilter hb
  refine ⟨g, hprune, hconn, hgP, hsame, hg, ?_, hreach⟩
  exact {
    consistent := hg.consistent
    mem_dead := fun b => by rw [hf.mem_unreachable, hf.reached_iff]
    sublist_dead := filter_sublist.trans filter_sublist
    mem_liveBlocks := fun b => by rw [hlive, hf.reached_iff]
    layout := hwithout.layout
    succs := fun b hb => by
      rw [hg.succs, if_pos hb, htgts hb, hf.succs, if_pos (hlive.mp hb).1, filter_eq_self.mpr]
      intro c hc
      have hedge : f.Edge b c := ⟨(hlive.mp hb).1, hc⟩
      exact decide_eq_true (hlive.mpr ⟨hf.mem_liveBlocks_of_edge hedge, (hlive.mp hb).2.tail hedge⟩)
    preds := fun b hb => by
      have hhas := (hg.mem_liveBlocks.mp hb).1
      rw [hg.preds b hhas, hf.preds b (hwithout.hasBlock b ▸ hhas), hwithout.liveBlocks,
        filter_filter, filter_filter]
      refine filter_congr fun c hc => ?_
      have hkept : c ∈ g.liveBlocks ↔ c ∉ f.unreachable := by
        rw [hwithout.liveBlocks]
        simp [hc]
      by_cases hcg : c ∈ g.liveBlocks
      · simp [htgts hcg, hkept.mp hcg, hc]
      · simp [not_not.mp fun h => hcg (hkept.mpr h)]
    deleted := fun _ hb => hg.edges_of_deleted hb
    instsOf := fun b hb => by
      rw [hwithout.instsOf, if_neg fun h => (hf.mem_unreachable.mp h).2 (hlive.mp hb).2]
    ty := hwithout.ty
    instr_phi := fun b hb i hi es hes => by
      rw [hinstr, if_pos ⟨b, hb, hi⟩, hes]
      rfl
    instr_other := fun b hb i hi hnot => by
      rw [hinstr, if_neg]
      rintro ⟨c, hc, hic⟩
      have hblk := hf.block_of_mem (takeWhile_subset _ hic)
      rw [hf.block_of_mem hi] at hblk
      exact hnot (hblk ▸ hic) }

lemma prunable_exact (f : Func) : Prunable fun m => f.Exact → m.Exact where
  retainEntries _ _ _ hp hm hf := (hm hf).retainEntries (.inl (Formed.live_of_placed hp))
  deleteBlock _ b _ hm hf := (hm hf).deleteBlock b

lemma Connected.ssaFlow_prune (hf : f.Connected) (hverify : f.verify = .ok ())
    (hform : f.SsaFlow fun _ => False) {dead : List BlockId} (hprune : f.prune = (.ok dead, g)) :
    g.verify = .ok () ∧ g.SsaFlow fun _ => False := by
  obtain ⟨hformed, hcomp⟩ := hf.verify_eq_ok_iff.mp hverify
  have hrouted := hf.routed hformed
  obtain ⟨g', hprune', hg, hprun, -⟩ := hrouted.prune
  rw [hprune'] at hprune
  obtain rfl := (Prod.mk.inj hprune).2
  refine ⟨hg.verify_eq_ok_iff.mpr ⟨hg.formed, ?_⟩, ?_⟩
  · exact hprun.complete hrouted hg.formed hform hcomp
  · exact hprun.ssaFlow hrouted hg.formed hform

/-- After a function with consistent lists has been connected, pruning it succeeds and deletes
exactly the live blocks that the entry does not reach.  The rest keeps its edges and instructions,
phi entries for deleted blocks apart, and its use-lists and SSA form; pruning again changes
nothing. -/
theorem Consistent.prune_exact {folded : List BlockId} (hf : f.Consistent)
    (hconnect : f.connect = (.ok folded, g)) :
    ∃ dead h, g.prune = (.ok dead, h) ∧ (g.strip dead).connect = (.ok [], h) ∧
      g.PrunesTo dead h ∧ h.prune = (.ok [], h) ∧ (g.Exact → h.Exact) ∧
      (g.verify = .ok () → (g.SsaFlow fun _ => False) →
        h.verify = .ok () ∧ h.SsaFlow fun _ => False) := by
  have hg := hf.connected_of_connect hconnect
  obtain ⟨h, hprune, hrebuild, hexact, hsame, hh, hto, hreach⟩ :=
    hg.prunesTo (prunable_exact g) id
  exact ⟨g.unreachable, h, hprune, hrebuild, hto, hh.prune_eq_of_reachable hreach,
    fun hgexact => (hexact hgexact).sameUses hsame.sameUses,
    fun hverify hform => hg.ssaFlow_prune hverify hform hprune⟩

/-- Two blocks that nothing leads to, of which one is a predecessor of a block with a phi. -/
def islandHistory : List Edit :=
  [.addBlock "entry", .addBlock "left", .addBlock "join", .addBlock "island", .addBlock "shore",
    .append ⟨0⟩ (.branch (.arg 0) ⟨1⟩ ⟨2⟩) .void, .append ⟨1⟩ (.jump (some ⟨2⟩)) .void,
    .append ⟨3⟩ (.binary .add (.int 1) (.int 2)) .i32, .append ⟨3⟩ (.jump (some ⟨4⟩)) .void,
    .append ⟨4⟩ (.branch (.arg 0) ⟨2⟩ ⟨3⟩) .void,
    .append ⟨2⟩ (.phi [⟨⟨0⟩, some (.int 0)⟩, ⟨⟨1⟩, some (.int 1)⟩, ⟨⟨4⟩, some (.int 2)⟩]) .i32,
    .append ⟨2⟩ (.ret (some (.inst ⟨5⟩))) .void]

def island : Func :=
  Edit.applyAll (new "f" .i32 [.i1]) islandHistory

theorem prune_exact_island :
    island.Consistent ∧ island.connect = (.ok [], island.connect.2) ∧
      island.connect.2.verify = .ok () ∧ (island.connect.2.SsaFlow fun _ => False) ∧
      ∃ h, island.connect.2.prune = (.ok [⟨3⟩, ⟨4⟩], h) ∧
        (island.connect.2.strip [⟨3⟩, ⟨4⟩]).connect = (.ok [], h) ∧
        island.connect.2.PrunesTo [⟨3⟩, ⟨4⟩] h ∧ h.prune = (.ok [], h) ∧ h.verify = .ok () ∧
        h.SsaFlow fun _ => False := by
  have hconsistent : island.Consistent := by decide
  have hconnect : island.connect = (.ok [], island.connect.2) := rfl
  have hssa : island.connect.2.Ssa :=
    ssa_of_near (by cbv) (by decide)
  obtain ⟨dead, h, hprune, hrebuild, hto, hagain, -, hform⟩ := hconsistent.prune_exact hconnect
  have hdead : island.connect.2.prune.1 = .ok [⟨3⟩, ⟨4⟩] := by decide +kernel
  obtain rfl := Except.ok.inj (hdead.symm.trans (congrArg Prod.fst hprune))
  obtain ⟨hverify, hflow⟩ := hform hssa.verified hssa.form.ssaFlow
  exact ⟨hconsistent, hconnect, hssa.verified, hssa.form.ssaFlow, h, hprune, hrebuild, hto, hagain,
    hverify, hflow⟩

end MiddleEnd.Func
