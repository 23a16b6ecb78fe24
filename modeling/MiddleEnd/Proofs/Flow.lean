import MiddleEnd.Flow
import MiddleEnd.Proofs.Formed
import MiddleEnd.Proofs.Graph.Preorder

/-!
# Control flow of formed functions

Connecting a formed function folds the branches to deleted blocks and stores the edges between its
live blocks; the result is *routed*.  The graph of a routed function has the edges between its live
blocks, so what the entry reaches there is what control can reach.
-/

namespace MiddleEnd

open List Func

variable {k : Instr}

lemma Instr.targets_of_not_isTerminator (hk : k.isTerminator = false) :
    k.targets = [] := by
  cases k with
  | branch | jump => exact absurd hk (by simp [Instr.isTerminator])
  | _ => rfl

lemma Instr.isTerminator_of_mem_targets {b : BlockId} (hb : b ∈ k.targets) : k.isTerminator := by
  cases k <;> first | rfl | cases hb

lemma nodup_eraseDups {α : Type} [DecidableEq α] (l : List α) : l.eraseDups.Nodup := by
  induction hn : l.length using Nat.strongRecOn generalizing l with
  | _ n ih =>
    cases l with
    | nil => exact nodup_nil
    | cons a l =>
      rw [eraseDups_cons, nodup_cons]
      refine ⟨by simp [mem_eraseDups], ih _ ?_ _ rfl⟩
      exact hn ▸ Nat.lt_succ_of_le (length_filter_le _ l)

namespace Func

variable {b : BlockId} {t : InstId} {f g : Func} {c : BlockId} {folded : List BlockId}
  {P : Func → Prop}

/-! ## Edges -/

def Edge (f : Func) (b c : BlockId) : Prop :=
  b ∈ f.liveBlocks ∧ c ∈ f.liveTargets b

def Reachable (f : Func) : BlockId → Prop :=
  Relation.ReflTransGen f.Edge ⟨0⟩

lemma mem_liveTargets : c ∈ f.liveTargets b ↔ c ∈ f.targets b ∧ (f.block c).deleted = false := by
  simp [liveTargets, mem_eraseDups]

/-- Control flow can be followed from every live block, and the edges on the blocks are current. -/
structure Wired (f : Func) : Prop where
  flow : ∀ b ∈ f.liveBlocks, f.flowError? b = none
  succs : ∀ b, (f.block b).succs = if b ∈ f.liveBlocks then f.liveTargets b else []
  preds : ∀ b, f.hasBlock b →
    (f.block b).preds = f.liveBlocks.filter fun c => (f.liveTargets c).contains b

/-- In addition no live block branches to a deleted one. -/
structure Connected (f : Func) : Prop extends consistent : f.Consistent, wired : f.Wired where
  folded : ∀ b ∈ f.liveBlocks, f.hasDeadBranch b = false

structure Routed (f : Func) : Prop extends connected : f.Connected, formed : f.Formed

lemma Connected.routed (hf : f.Connected) (hform : f.Formed) : f.Routed :=
  { hf, hform with }

lemma lookup_map_graph {α β : Type} [DecidableEq α] (h : α → β) (as : List α) (a : α) :
    (as.map fun c => (c, h c)).lookup a = if a ∈ as then some (h a) else none := by
  induction as with
  | nil => rfl
  | cons c as ih => grind

lemma block_setEdges (f : Func) (sources : List BlockId) (b : BlockId) :
    (f.setEdges sources).block b =
      if f.hasBlock b then
        { f.block b with
          preds := sources.filter fun c => (f.liveTargets c).contains b
          succs := if b ∈ sources then f.liveTargets b else [] }
      else f.block b := by
  obtain ⟨n⟩ := b
  simp only [setEdges, block, hasBlock, Array.getD_eq_getD_getElem?, Array.getElem?_mapIdx,
    lookup_map_graph, filter_map, map_map]
  by_cases hn : n < f.blocks.size
  · simp only [Array.getElem?_eq_getElem hn, hn, decide_true, if_true, Option.map_some,
      Option.getD_some]
    congr 1
    · simp [Function.comp_def]
    · split <;> rfl
  · simp [hn]

lemma sameCode_setEdges (f : Func) (sources : List BlockId) : f.SameCode (f.setEdges sources) := by
  refine ⟨⟨⟨⟨rfl, rfl, rfl, rfl, rfl⟩, rfl, by simp [setEdges]⟩, rfl,
    fun _ => ⟨rfl, rfl, rfl, rfl⟩, fun b => ?_⟩, rfl, rfl⟩
  rw [block_setEdges]
  split <;> rfl

namespace SameCode

section

variable (hfg : f.SameCode g) (b : BlockId)
include hfg

lemma targets : g.targets b = f.targets b := by
  simp only [Func.targets, hfg.terminator?, hfg.instr]

lemma liveTargets : g.liveTargets b = f.liveTargets b := by
  simp only [Func.liveTargets, hfg.targets, hfg.blockDeleted]

lemma flowError? : g.flowError? b = f.flowError? b := by
  have hinstr : g.instr = f.instr := funext hfg.instr
  have hblk := funext hfg.hasBlock
  simp only [Func.flowError?, hfg.terminator?, hinstr, hblk, hfg.blockDeleted, hfg.label,
    hfg.name]

lemma hasDeadBranch : g.hasDeadBranch b = f.hasDeadBranch b := by
  have hinstr : g.instr = f.instr := funext hfg.instr
  simp only [Func.hasDeadBranch, hfg.terminator?, hinstr, hfg.blockDeleted]

end

lemma edge (hfg : f.SameCode g) : g.Edge = f.Edge := by
  funext b c
  simp only [Edge, hfg.liveBlocks, hfg.liveTargets]

end SameCode

lemma SameFrame.edge (hfg : f.SameFrame g)
    (htgts : ∀ b ∈ f.liveBlocks, g.targets b = f.targets b) : g.Edge = f.Edge := by
  funext b c
  rw [Edge, hfg.liveBlocks]
  refine propext (and_congr_right fun hb => ?_)
  rw [mem_liveTargets, mem_liveTargets, htgts b hb, hfg.blockDeleted]

lemma exists_terminator_of_flow (h : f.flowError? b = none) : ∃ t, f.terminator? b = some t := by
  cases ht : f.terminator? b with
  | none => simp [flowError?, ht] at h
  | some t => exact ⟨t, rfl⟩

lemma hasBlock_of_flow (h : f.flowError? b = none) : f.hasBlock b := by
  obtain ⟨t, ht⟩ := exists_terminator_of_flow h
  cases hhas : f.hasBlock b with
  | true => rfl
  | false =>
    rw [terminator?, block_of_not_hasBlock f hhas] at ht
    cases ht

lemma wired_setEdges (hflow : ∀ b ∈ f.liveBlocks, f.flowError? b = none) :
    (f.setEdges f.liveBlocks).Wired := by
  have hsame := sameCode_setEdges f f.liveBlocks
  refine ⟨fun b hb => ?_, fun b => ?_, fun b hb => ?_⟩
  · rw [hsame.flowError?]
    exact hflow b (hsame.liveBlocks ▸ hb)
  · rw [block_setEdges, hsame.liveBlocks, hsame.liveTargets]
    split
    · rfl
    · next hb =>
      rw [if_neg fun h => hb (hasBlock_of_flow (hflow b h)),
        block_of_not_hasBlock f (by simpa using hb)]
      rfl
  · rw [block_setEdges, if_pos (hsame.hasBlock b ▸ hb), hsame.liveBlocks]
    simp only [hsame.liveTargets]

lemma Consistent.connected_setEdges (hf : f.Consistent)
    (hflow : ∀ b ∈ f.liveBlocks, f.flowError? b = none)
    (hfolded : ∀ b ∈ f.liveBlocks, f.hasDeadBranch b = false) :
    (f.setEdges f.liveBlocks).Connected := by
  have hsame := sameCode_setEdges f f.liveBlocks
  refine ⟨hsame.consistent hf, wired_setEdges hflow, fun b hb => ?_⟩
  rw [hsame.hasDeadBranch, hfolded b (hsame.liveBlocks ▸ hb)]

lemma Formed.routed_setEdges (hf : f.Formed) (hflow : ∀ b ∈ f.liveBlocks, f.flowError? b = none)
    (hfolded : ∀ b ∈ f.liveBlocks, f.hasDeadBranch b = false) :
    (f.setEdges f.liveBlocks).Routed :=
  (hf.connected_setEdges hflow hfolded).routed (hf.sameCode (sameCode_setEdges f _))

/-! ## Folded branches -/

/-- The operation of an instruction once branches to deleted blocks have become jumps. -/
def foldInstr (f : Func) : Instr → Instr
  | .branch c x y =>
    if (f.block x).deleted then .jump (some y)
    else if (f.block y).deleted then .jump (some x)
    else .branch c x y
  | k => k

lemma Formed.terminator?_eq_some (hf : f.Formed) (hb : b ∈ f.liveBlocks) :
    f.terminator? b = some t ↔
      t ∈ f.instsOf b ∧ (f.instr t).isTerminator := by
  obtain ⟨l, s, hl, hterm, hnone⟩ := hf.terminated b hb
  rw [hf.terminator?_eq, hl, List.getLast?_concat, Option.filter_some, if_pos hterm,
    mem_append]
  constructor
  · grind
  · grind

lemma Formed.exists_terminator (hf : f.Formed) (hb : b ∈ f.liveBlocks) :
    ∃ t, f.terminator? b = some t := by
  obtain ⟨l, t, hl, hterm, -⟩ := hf.terminated b hb
  exact ⟨t, (hf.terminator?_eq_some hb).mpr ⟨by simp [hl], hterm⟩⟩

lemma Formed.mem_targets (hf : f.Formed) (hb : b ∈ f.liveBlocks) :
    c ∈ f.targets b ↔ ∃ i ∈ f.instsOf b, c ∈ (f.instr i).targets := by
  constructor
  · intro hc
    obtain ⟨t, ht⟩ := hf.exists_terminator hb
    rw [targets, ht] at hc
    exact ⟨t, ((hf.terminator?_eq_some hb).mp ht).1, hc⟩
  · rintro ⟨i, hi, hc⟩
    have hterm : (f.instr i).isTerminator := by
      cases hk : f.instr i with
      | branch | jump => rfl
      | _ => simp [hk, Instr.targets] at hc
    rw [targets, (hf.terminator?_eq_some hb).mpr ⟨hi, hterm⟩]
    exact hc

lemma foldInstr_isTerminator (f : Func) (k : Instr) :
    (f.foldInstr k).isTerminator = k.isTerminator := by
  cases k with
  | branch c x y =>
    rw [foldInstr]
    split_ifs <;> rfl
  | _ => rfl

lemma foldInstr_isPhi (f : Func) (k : Instr) : (f.foldInstr k).isPhi = k.isPhi := by
  cases k with
  | branch c x y =>
    rw [foldInstr]
    split_ifs <;> rfl
  | _ => rfl

lemma foldInstr_of_not_isTerminator (f : Func) (hk : k.isTerminator = false) :
    f.foldInstr k = k := by
  cases k with
  | branch c x y => exact absurd hk (by simp [Instr.isTerminator])
  | _ => rfl

lemma foldInstr_congr (h : ∀ b, (g.block b).deleted = (f.block b).deleted) :
    g.foldInstr = f.foldInstr := by
  funext k
  cases k with
  | branch c x y => simp only [foldInstr, h]
  | _ => rfl

lemma foldInstr_of_not_hasDeadBranch (ht : f.terminator? b = some t)
    (hdead : f.hasDeadBranch b = false) : f.foldInstr (f.instr t) = f.instr t := by
  rw [hasDeadBranch, ht, Option.map_some] at hdead
  cases hk : f.instr t with
  | branch c x y =>
    rw [hk] at hdead
    obtain ⟨hx, hy⟩ := Bool.or_eq_false_iff.mp hdead
    simp [foldInstr, hx, hy]
  | _ => rfl

lemma foldBranch_eq (ht : f.terminator? b = some t) (hdead : f.hasDeadBranch b) :
    f.foldBranch b = f.replaceInstr t (f.foldInstr (f.instr t)) := by
  rw [hasDeadBranch, ht, Option.map_some] at hdead
  rw [foldBranch, ht]
  cases hk : f.instr t with
  | branch c x y =>
    rw [hk] at hdead
    simp only [Bool.or_eq_true] at hdead
    rw [foldInstr]
    by_cases hx : (f.block x).deleted
    · simp [hk, hx]
    · simp [hk, hx, hdead.resolve_left hx]
  | _ => simp [hk] at hdead

lemma ty_replaceInstr (f : Func) (i : InstId) (k : Instr) (j : InstId) :
    ((f.replaceInstr i k).inst j).ty = (f.inst j).ty := by
  have hty := congrArg InstRecord.ty (bare_replaceInstr f i k j)
  rw [apply_ite InstRecord.ty] at hty
  simpa using hty

structure Rewritten (f g : Func) : Prop extends places : f.SamePlaces g where
  ty : ∀ i, (g.inst i).ty = (f.inst i).ty

lemma Rewritten.refl (f : Func) : f.Rewritten f :=
  ⟨.refl f, fun _ => rfl⟩

lemma Rewritten.trans {h : Func} (hfg : f.Rewritten g) (hgh : g.Rewritten h) : f.Rewritten h :=
  ⟨hfg.places.trans hgh.places, fun i => (hgh.ty i).trans (hfg.ty i)⟩

/-- `g` is `f` with some operations of terminators changed. -/
structure Refolded (f g : Func) : Prop extends f.Rewritten g where
  formed : g.Formed

lemma exists_terminator_of_hasDeadBranch (h : f.hasDeadBranch b) :
    ∃ t, f.terminator? b = some t := by
  cases ht : f.terminator? b with
  | none => simp [hasDeadBranch, ht] at h
  | some t => exact ⟨t, rfl⟩

lemma Consistent.mem_of_terminator? (hf : f.Consistent) (ht : f.terminator? b = some t) :
    t ∈ f.instsOf b ∧ (f.instr t).isTerminator := by
  rw [hf.terminator?_eq, Option.filter_eq_some_iff] at ht
  exact ⟨mem_of_getLast? ht.1, ht.2⟩

/-- Folding leaves no branch to a deleted block, and control flow can still be followed. -/
lemma flow_foldInstr (hflow : f.flowError? b = none) (ht : f.terminator? b = some t)
    (htg : g.terminator? b = some t) (hinstr : g.instr t = f.foldInstr (f.instr t))
    (hfr : f.SameFrame g) : g.flowError? b = none ∧ g.hasDeadBranch b = false := by
  have hblk := funext hfr.hasBlock
  simp only [flowError?, hasDeadBranch, ht, htg, Option.map_some, hinstr, hfr.blockDeleted,
    hblk] at hflow ⊢
  cases hk : f.instr t with
  | branch c x y =>
    rw [hk] at hflow
    by_cases hxy : f.hasBlock x = false ∨ f.hasBlock y = false
    · simp [hxy] at hflow
    · obtain ⟨hx, hy⟩ := not_or.mp hxy
      rw [foldInstr]
      by_cases hdx : (f.block x).deleted
      · simp [hdx, Instr.targets, hy]
      · by_cases hdy : (f.block y).deleted
        · simp [hdx, hdy, Instr.targets, hx]
        · simp [hdx, hdy, hx, hy]
  | jump target =>
    rw [hk] at hflow
    cases target with
    | none => simp at hflow
    | some c =>
      simpa [foldInstr] using hflow
  | ret v | _ =>
    rw [hk] at hflow
    exact ⟨by simpa [foldInstr] using hflow, rfl⟩

lemma foldInstr_foldInstr (f : Func) (k : Instr) :
    f.foldInstr (f.foldInstr k) = f.foldInstr k := by
  cases k with
  | branch c x y =>
    by_cases hx : (f.block x).deleted
    · simp [foldInstr, hx]
    · by_cases hy : (f.block y).deleted
      · simp [foldInstr, hx, hy]
      · simp [foldInstr, hx, hy]
  | _ => rfl

lemma hasInst_of_hasDeadBranch (ht : f.terminator? b = some t)
    (hdead : f.hasDeadBranch b) : f.hasInst t := by
  cases hhas : f.hasInst t with
  | true => rfl
  | false =>
    rw [hasDeadBranch, ht, Option.map_some, Func.instr, inst_of_not_hasInst f hhas] at hdead
    cases hdead

lemma exists_foldInstr_eq_jump (ht : f.terminator? b = some t)
    (hdead : f.hasDeadBranch b) : ∃ target, f.foldInstr (f.instr t) = .jump target := by
  rw [hasDeadBranch, ht, Option.map_some] at hdead
  cases hk : f.instr t with
  | branch c x y =>
    rw [hk] at hdead
    rcases Bool.or_eq_true_iff.mp hdead with hx | hy
    · exact ⟨some y, by simp [foldInstr, hx]⟩
    · by_cases hx : (f.block x).deleted
      · exact ⟨some y, by simp [foldInstr, hx]⟩
      · exact ⟨some x, by simp [foldInstr, hx, hy]⟩
  | _ => grind

/-- `g` is `f` with the branches at the ends of the blocks `bs` folded. -/
structure FoldsTo (f g : Func) (bs : List BlockId) : Prop extends f.Rewritten g where
  instr : ∀ i, g.instr i =
    if ∃ b ∈ bs, f.terminator? b = some i then f.foldInstr (f.instr i) else f.instr i

namespace FoldsTo

variable {bs : List BlockId} (hfg : f.FoldsTo g bs)
include hfg

lemma instr_cases (i : InstId) : g.instr i = f.instr i ∨ g.instr i = f.foldInstr (f.instr i) := by
  rw [hfg.instr]
  split
  · exact .inr rfl
  · exact .inl rfl

lemma terminator? (b : BlockId) : g.terminator? b = f.terminator? b := by
  rw [Func.terminator?, hfg.ends]
  congr 1
  funext i
  rcases hfg.instr_cases i with hi | hi
  · rw [hi]
  · rw [hi, foldInstr_isTerminator]

lemma foldBranch_cases (hdead : f.hasDeadBranch b) : ∃ t, f.terminator? b = some t ∧
    (g.hasInst t ∧ g.foldBranch b = g.replaceInstr t (g.foldInstr (g.instr t)) ∧
      g.foldInstr (g.instr t) = f.foldInstr (f.instr t) ∨
    g.foldBranch b = g ∧ g.instr t = f.foldInstr (f.instr t)) := by
  obtain ⟨t, ht⟩ := exists_terminator_of_hasDeadBranch hdead
  have htg := (hfg.terminator? b).trans ht
  have hfold := foldInstr_congr hfg.blockDeleted
  have htwice : g.foldInstr (g.instr t) = f.foldInstr (f.instr t) := by
    rcases hfg.instr_cases t with hi | hi
    · rw [hfold, hi]
    · rw [hfold, hi, foldInstr_foldInstr]
  refine ⟨t, ht, ?_⟩
  by_cases hdeadg : g.hasDeadBranch b
  · exact .inl ⟨hasInst_of_hasDeadBranch htg hdeadg, foldBranch_eq htg hdeadg, htwice⟩
  · -- the terminator has been folded before, and a jump stays as it is
    rw [foldInstr_of_not_hasDeadBranch htg (Bool.not_eq_true _ ▸ hdeadg)] at htwice
    obtain ⟨target, hjump⟩ := exists_foldInstr_eq_jump ht hdead
    refine .inr ⟨?_, htwice⟩
    rw [Func.foldBranch, htg]
    simp only [htwice, hjump]

lemma foldBranch (hdead : f.hasDeadBranch b) : f.FoldsTo (g.foldBranch b) (bs ++ [b]) := by
  obtain ⟨t, ht, hcases⟩ := hfg.foldBranch_cases hdead
  have hother {i : InstId} (hi : i ≠ t) : f.terminator? b ≠ some i := fun h =>
    hi (Option.some.inj (h.symm.trans ht))
  rcases hcases with ⟨hhas, heq, htwice⟩ | ⟨heq, htwice⟩
  · rw [heq, htwice]
    refine ⟨hfg.toRewritten.trans ⟨samePlaces_replaceInstr g t _, ty_replaceInstr g t _⟩, fun i => ?_⟩
    by_cases hi : i = t
    · rw [hi, instr_replaceInstr_self hhas, if_pos ⟨b, by simp, ht⟩]
    · rw [instr_replaceInstr_of_ne hi, hfg.instr]
      simp [or_and_right, exists_or, hother hi]
  · rw [heq]
    refine ⟨hfg.toRewritten, fun i => ?_⟩
    by_cases hi : i = t
    · rw [hi, htwice, if_pos ⟨b, by simp, ht⟩]
    · rw [hfg.instr]
      simp [or_and_right, exists_or, hother hi]

lemma flow (hflow : f.flowError? b = none) : g.flowError? b = none := by
  obtain ⟨t, ht⟩ := exists_terminator_of_flow hflow
  have htg := (hfg.terminator? b).trans ht
  rcases hfg.instr_cases t with hi | hi
  · have hhas := funext hfg.hasBlock
    simpa only [flowError?, ht, htg, Option.map_some, hi, hhas, hfg.blockDeleted,
      hfg.name, hfg.label] using hflow
  · exact (flow_foldInstr hflow ht htg hi hfg.frame).1

lemma liveTargets (hflow : f.flowError? b = none) :
    g.liveTargets b = f.liveTargets b := by
  obtain ⟨t, ht⟩ := exists_terminator_of_flow hflow
  have htg := (hfg.terminator? b).trans ht
  simp only [Func.liveTargets, targets, ht, htg, hfg.blockDeleted]
  rcases hfg.instr_cases t with hi | hi
  · rw [hi]
  · rw [hi]
    cases hk : f.instr t with
    | branch c x y =>
      have hboth : ¬ ((f.block x).deleted ∧ (f.block y).deleted) := by
        rintro ⟨hx, hy⟩
        simp only [flowError?, ht, Option.map_some, hk, hx, hy] at hflow
        split at hflow <;> cases hflow
      by_cases hx : (f.block x).deleted
      · have hy : (f.block y).deleted = false := by simpa [hx] using hboth
        simp [foldInstr, hx, hy, Instr.targets]
      · by_cases hy : (f.block y).deleted
        · simp [foldInstr, hx, hy, Instr.targets]
        · simp [foldInstr, hx, hy]
    | _ => rfl

end FoldsTo

/-- Folding changes the terminators of the given blocks only.  It keeps every property that stays
when a terminator is folded. -/
lemma foldsTo_foldl {bs : List BlockId} (hbs : ∀ b ∈ bs, b ∈ f.liveBlocks ∧ f.hasDeadBranch b)
    (hstep : ∀ m b t, f.SamePlaces m → b ∈ f.liveBlocks → f.terminator? b = some t → P m →
      P (m.replaceInstr t (m.foldInstr (m.instr t)))) (hP : P f) :
    f.FoldsTo (bs.foldl foldBranch f) bs ∧ P (bs.foldl foldBranch f) := by
  induction bs using List.reverseRecOn with
  | nil => exact ⟨⟨.refl f, fun i => by simp⟩, hP⟩
  | append_singleton bs b ih =>
    obtain ⟨hfg, hPg⟩ := ih fun c hc => hbs c (mem_append_left _ hc)
    obtain ⟨hb, hdead⟩ := hbs b (by simp)
    rw [foldl_append, foldl_cons, foldl_nil]
    refine ⟨hfg.foldBranch hdead, ?_⟩
    obtain ⟨t, ht, ⟨-, heq, -⟩ | ⟨heq, -⟩⟩ := hfg.foldBranch_cases hdead
    · exact heq ▸ hstep _ b t hfg.places hb ht hPg
    · exact heq.symm ▸ hPg

lemma connect_of_flow (hflow : ∀ b ∈ f.liveBlocks, f.flowError? b = none) :
    f.connect = (.ok (f.liveBlocks.filter f.hasDeadBranch),
      ((f.liveBlocks.filter f.hasDeadBranch).foldl foldBranch f).setEdges f.liveBlocks) := by
  have hsources : f.liveBlocks.takeWhile (fun b => (f.flowError? b).isNone) = f.liveBlocks :=
    by simp_all
  have hnone := List.findSome?_eq_none_iff.mpr hflow
  rw [connect, hsources, hnone]

lemma flow_of_connect (h : f.connect = (.ok folded, g)) :
    ∀ b ∈ f.liveBlocks, f.flowError? b = none := by
  rw [connect] at h
  split at h
  · next hnone => exact List.findSome?_eq_none_iff.mp hnone
  · exact absurd (congrArg Prod.fst h) (by simp)

lemma wired_of_connect (h : f.connect = (.ok folded, g)) :
    g.Wired ∧ ∃ m, f.FoldsTo m (f.liveBlocks.filter f.hasDeadBranch) ∧ m.SameCode g := by
  have hflow := flow_of_connect h
  rw [connect_of_flow hflow] at h
  obtain ⟨-, rfl⟩ := Prod.mk.inj h
  have hfolds := (foldsTo_foldl (P := fun _ => True) (f := f) (fun b hb => mem_filter.mp hb)
    (fun _ _ _ _ _ _ _ => trivial) trivial).1
  generalize (f.liveBlocks.filter f.hasDeadBranch).foldl foldBranch f = m at hfolds
  refine ⟨?_, m, hfolds, sameCode_setEdges m f.liveBlocks⟩
  rw [← hfolds.liveBlocks]
  refine wired_setEdges fun b hb => hfolds.flow (hflow b ?_)
  exact hfolds.liveBlocks ▸ hb

lemma liveBlocks_of_connect (h : f.connect = (.ok folded, g)) : g.liveBlocks = f.liveBlocks := by
  obtain ⟨-, m, hfolds, hsame⟩ := wired_of_connect h
  rw [hsame.liveBlocks, hfolds.liveBlocks]

lemma liveTargets_of_connect (h : f.connect = (.ok folded, g)) (hb : b ∈ f.liveBlocks) :
    g.liveTargets b = f.liveTargets b := by
  obtain ⟨-, m, hfolds, hsame⟩ := wired_of_connect h
  rw [hsame.liveTargets, hfolds.liveTargets (flow_of_connect h b hb)]

/-- The instruction is the terminator of a live block. -/
def EndsBlock (f : Func) (i : InstId) : Prop :=
  ∃ b ∈ f.liveBlocks, f.terminator? b = some i

instance (f : Func) (i : InstId) : Decidable (f.EndsBlock i) :=
  inferInstanceAs (Decidable (∃ b ∈ f.liveBlocks, f.terminator? b = some i))

/-- What connecting gives where control flow can be followed: all branches to deleted blocks are
folded, nothing else has changed, and the edges are stored. -/
lemma Consistent.exists_connect (hf : f.Consistent)
    (hflow : ∀ b ∈ f.liveBlocks, f.flowError? b = none)
    (hstep : ∀ m t, m.placed t → P m → P (m.replaceInstr t (m.foldInstr (m.instr t)))) (hP : P f) :
    ∃ m, f.connect = (.ok (f.liveBlocks.filter f.hasDeadBranch), m.setEdges f.liveBlocks) ∧
      f.Rewritten m ∧ P m ∧
      (∀ i, m.instr i = if f.EndsBlock i then f.foldInstr (f.instr i) else f.instr i) ∧
      (m.setEdges f.liveBlocks).Connected := by
  obtain ⟨hm, hPm⟩ := foldsTo_foldl (fun b hb => mem_filter.mp hb) (fun m b t hfm hb ht =>
    hstep m t (hfm.placed ▸ hf.placed_of_mem hb (hf.mem_of_terminator? ht).1)) hP
  have hconn := connect_of_flow hflow
  generalize (f.liveBlocks.filter f.hasDeadBranch).foldl foldBranch f = m at *
  have hinstr (i : InstId) :
      m.instr i = if f.EndsBlock i then f.foldInstr (f.instr i) else f.instr i := by
    rw [hm.instr]
    by_cases hi : f.EndsBlock i
    · rw [if_pos hi]
      obtain ⟨b, hb, ht⟩ := hi
      split
      · rfl
      · next hnot =>
        refine (foldInstr_of_not_hasDeadBranch ht ?_).symm
        rw [← Bool.not_eq_true]
        exact fun hdead => hnot ⟨b, mem_filter.mpr ⟨hb, hdead⟩, ht⟩
    · rw [if_neg hi, if_neg]
      rintro ⟨b, hb, ht⟩
      exact hi ⟨b, (mem_filter.mp hb).1, ht⟩
  have hrouted (b : BlockId) (hb : b ∈ m.liveBlocks) :
      m.flowError? b = none ∧ m.hasDeadBranch b = false := by
    rw [hm.liveBlocks] at hb
    obtain ⟨t, ht⟩ := exists_terminator_of_flow (hflow b hb)
    refine flow_foldInstr (hflow b hb) ht ((hm.terminator? b).trans ht) ?_ hm.frame
    rw [hinstr, if_pos ⟨b, hb, ht⟩]
  refine ⟨m, hconn, hm.toRewritten, hPm, hinstr, ?_⟩
  rw [← hm.liveBlocks]
  exact (hm.consistent hf).connected_setEdges (fun b hb => (hrouted b hb).1)
    fun b hb => (hrouted b hb).2

/-- What connecting a formed function gives: all its branches to deleted blocks are folded, nothing
else has changed, and the edges are stored. -/
lemma Formed.connect (hf : f.Formed) (hflow : ∀ b ∈ f.liveBlocks, f.flowError? b = none) :
    ∃ m g, f.connect = (.ok (f.liveBlocks.filter f.hasDeadBranch), g) ∧ f.Refolded m ∧
      (∀ i, m.instr i = if f.placed i then f.foldInstr (f.instr i) else f.instr i) ∧
      m.SameCode g ∧ g.Routed := by
  obtain ⟨m, hconn, hm, hform, hinstr, hg⟩ := hf.exists_connect hflow
    (fun m t ht hm => hm.replaceInstr ht (foldInstr_isTerminator m _) (foldInstr_isPhi m _)) hf
  have hsame := sameCode_setEdges m f.liveBlocks
  refine ⟨m, _, hconn, ⟨hm, hform⟩, fun i => ?_, hsame,
    hg.routed (hform.sameCode hsame)⟩
  rw [hinstr]
  by_cases hi : f.placed i
  · split
    · rfl
    · next hnot =>
      refine (foldInstr_of_not_isTerminator f ?_).symm
      rw [← Bool.not_eq_true]
      intro hterm
      obtain ⟨b, hb, hib⟩ := mem_flatMap.mp (hf.mem_liveInsts.mpr hi)
      exact hnot ⟨b, hb, (hf.terminator?_eq_some hb).mpr ⟨hib, hterm⟩⟩
  · rw [if_neg hi, if_neg]
    rintro ⟨b, hb, hterm⟩
    exact hi (hf.placed_of_mem hb (hf.mem_of_terminator? hterm).1)

lemma blocks_eq_of_block_eq (hsize : g.blocks.size = f.blocks.size)
    (hblk : ∀ b, g.block b = f.block b) : g.blocks = f.blocks := by
  refine Array.ext hsize fun n hg hf => ?_
  simpa [block, hg, hf] using hblk ⟨n⟩

lemma Connected.setEdges_eq (hf : f.Connected) : f.setEdges f.liveBlocks = f := by
  have hblks : (f.setEdges f.liveBlocks).blocks = f.blocks := by
    refine blocks_eq_of_block_eq (sameCode_setEdges f f.liveBlocks).blocks fun b => ?_
    rw [block_setEdges]
    split
    · next hb => rw [← hf.preds b hb, ← hf.succs b]
    · rfl
  calc f.setEdges f.liveBlocks = { f with blocks := (f.setEdges f.liveBlocks).blocks } := rfl
    _ = f := by rw [hblks]

lemma Connected.connect_eq (hf : f.Connected) : f.connect = (.ok [], f) := by
  have hnone : f.liveBlocks.filter f.hasDeadBranch = [] :=
    filter_eq_nil_iff.mpr fun b hb => by simp [hf.folded b hb]
  rw [connect_of_flow hf.flow, hnone, foldl_nil, hf.setEdges_eq]

/-! ## Reachable blocks -/

lemma successors_flowGraph (f : Func) (n : Nat) :
    f.flowGraph.successors n = (f.block ⟨n⟩).succs.map BlockId.idx := by
  simp only [Graph.successors, flowGraph, block, Array.getD_eq_getD_getElem?, Array.getElem?_map]
  cases f.blocks[n]? <;> rfl

lemma predecessors_flowGraph (f : Func) (n : Nat) :
    f.flowGraph.predecessors n = (f.block ⟨n⟩).preds.map BlockId.idx := by
  simp only [Graph.predecessors, flowGraph, block, Array.getD_eq_getD_getElem?, Array.getElem?_map]
  cases f.blocks[n]? <;> rfl

lemma size_flowGraph (f : Func) : f.flowGraph.size = f.blocks.size := by
  simp [Graph.size, flowGraph]

namespace Wired

variable {b c : BlockId}

variable (hf : f.Wired)
include hf

lemma hasBlock_of_mem_targets (hb : b ∈ f.liveBlocks) (hc : c ∈ f.targets b) : f.hasBlock c := by
  obtain ⟨t, ht⟩ := exists_terminator_of_flow (hf.flow b hb)
  have hflow := hf.flow b hb
  simp only [flowError?, ht, Option.map_some] at hflow
  simp only [targets, ht] at hc
  cases hk : f.instr t with
  | branch v x y =>
    rw [hk] at hflow hc
    by_cases hxy : f.hasBlock x = false ∨ f.hasBlock y = false
    · simp [hxy] at hflow
    · obtain ⟨hx, hy⟩ := not_or.mp hxy
      rw [Bool.not_eq_false] at hx hy
      simp only [Instr.targets, mem_cons, not_mem_nil, or_false] at hc
      rcases hc with rfl | rfl
      · exact hx
      · exact hy
  | jump target =>
    rw [hk] at hflow hc
    cases target with
    | none => exact absurd hc (by simp [Instr.targets])
    | some d =>
      obtain rfl : c = d := by simpa [Instr.targets] using hc
      simpa [Instr.targets] using hflow
  | _ =>
    rw [hk] at hc
    exact absurd hc (by simp [Instr.targets])

lemma mem_succs : c ∈ (f.block b).succs ↔ f.Edge b c := by
  rw [hf.succs]
  split
  · next hb => exact (and_iff_right hb).symm
  · next hb => exact iff_of_false not_mem_nil fun h => hb h.1

lemma mem_preds (hc : f.hasBlock c) : b ∈ (f.block c).preds ↔ f.Edge b c := by
  rw [hf.preds c hc, mem_filter, contains_iff_mem, Edge]

lemma mem_successors : c.idx ∈ f.flowGraph.successors b.idx ↔ f.Edge b c := by
  rw [successors_flowGraph, ← hf.mem_succs, mem_map]
  constructor
  · rintro ⟨⟨n⟩, hn, heq⟩
    obtain ⟨m⟩ := c
    obtain rfl : n = m := heq
    exact hn
  · exact fun h => ⟨c, h, rfl⟩

lemma closed_flowGraph : f.flowGraph.Closed := by
  intro s t ht
  obtain ⟨hs, htgt⟩ : f.Edge ⟨s⟩ ⟨t⟩ := hf.mem_successors.mp ht
  rw [size_flowGraph]
  exact (hasBlock_iff f).mp (hf.hasBlock_of_mem_targets hs (mem_liveTargets.mp htgt).1)

lemma reaches_iff : f.flowGraph.Reaches b.idx c.idx ↔ Relation.ReflTransGen f.Edge b c := by
  constructor
  · intro h
    have hgen {m n : Nat} (h : f.flowGraph.Reaches m n) : Relation.ReflTransGen f.Edge ⟨m⟩ ⟨n⟩ := by
      induction h with
      | refl => exact .refl
      | tail _ hedge ih => exact .tail ih (hf.mem_successors.mp hedge)
    exact hgen h
  · intro h
    induction h with
    | refl => exact .refl
    | tail _ hedge ih => exact .tail ih (hf.mem_successors.mpr hedge)

lemma contains_reachable (hb : f.hasBlock b) :
    (f.flowGraph.reachable 0).contains b.idx ↔ f.Reachable b := by
  have hsize : 0 < f.flowGraph.size := by
    rw [size_flowGraph]
    exact Nat.lt_of_le_of_lt (Nat.zero_le _) ((hasBlock_iff f).mp hb)
  rw [hf.closed_flowGraph.contains_reachable hsize]
  exact hf.reaches_iff (b := ⟨0⟩)

lemma mem_unreachable : b ∈ f.unreachable ↔ b ∈ f.liveBlocks ∧ ¬ f.Reachable b := by
  rw [unreachable, mem_filter]
  refine and_congr_right fun hb => ?_
  rw [Bool.not_eq_true', ← hf.contains_reachable (hasBlock_of_flow (hf.flow b hb)),
    Bool.not_eq_true]

end Wired

namespace Connected

variable {b : BlockId}

variable (hf : f.Connected) {c : BlockId}
include hf

lemma mem_liveBlocks_of_edge (h : f.Edge b c) : c ∈ f.liveBlocks := by
  obtain ⟨htgt, hdel⟩ := mem_liveTargets.mp h.2
  exact hf.mem_liveBlocks.mpr ⟨hf.hasBlock_of_mem_targets h.1 htgt, hdel⟩

lemma mem_succs : c ∈ (f.block b).succs ↔ f.Edge b c :=
  hf.wired.mem_succs

lemma mem_preds (hc : f.hasBlock c) : b ∈ (f.block c).preds ↔ f.Edge b c :=
  hf.wired.mem_preds hc

lemma nodup_preds (hb : f.hasBlock b) : (f.block b).preds.Nodup := by
  rw [hf.preds b hb]
  exact (hf.layout_nodup.filter _).filter _

lemma nodup_succs (b : BlockId) : (f.block b).succs.Nodup := by
  rw [hf.succs]
  split
  · exact nodup_eraseDups _
  · exact nodup_nil

lemma mem_unreachable : b ∈ f.unreachable ↔ b ∈ f.liveBlocks ∧ ¬ f.Reachable b :=
  hf.wired.mem_unreachable

end Connected

end Func

end MiddleEnd
