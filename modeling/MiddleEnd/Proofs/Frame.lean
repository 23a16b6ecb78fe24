import MiddleEnd.Proofs.Chain
import MiddleEnd.Proofs.Uses

/-!
# What edits leave alone

Edits of instructions keep the header of a function, its layout, and everything that a block knows
besides the ends of its chain.  Those that do not move an instruction keep the chains as well.
-/

namespace MiddleEnd

open Array

def Block.bare (d : Block) : Block :=
  { d with first := none, last := none, length := 0 }

def Block.core (d : Block) : Block :=
  { d with preds := [], succs := [], dominance := {} }

namespace Func

variable {α : Type}

/-- Functions that differ at most in their code. -/
structure SameHead (f g : Func) : Prop where
  name : g.name = f.name
  ret : g.ret = f.ret
  external : g.external = f.external
  deleted : g.deleted = f.deleted
  params : g.params.map Param.ty = f.params.map Param.ty

structure SameLayout (f g : Func) : Prop extends head : f.SameHead g where
  layout : g.layout = f.layout
  blocks : g.blocks.size = f.blocks.size

/-- Two functions that differ in instructions only. -/
structure SameFrame (f g : Func) : Prop extends f.SameLayout g where
  block : ∀ b, (g.block b).bare = (f.block b).bare

/-- Two functions whose blocks have the same lists of instructions. -/
structure SameChains (f g : Func) : Prop extends f.SameLayout g where
  insts : g.insts.size = f.insts.size
  record : ∀ i, (g.inst i).block = (f.inst i).block ∧ (g.inst i).prev = (f.inst i).prev ∧
    (g.inst i).next = (f.inst i).next ∧ (g.inst i).live = (f.inst i).live
  core : ∀ b, (g.block b).core = (f.block b).core

/-- Two functions whose instructions are in the same places. -/
structure SamePlaces (f g : Func) : Prop extends chains : f.SameChains g where
  ends : ∀ b, g.block b = f.block b

section

variable {f g h : Func}

lemma SameHead.refl (f : Func) : f.SameHead f :=
  ⟨rfl, rfl, rfl, rfl, rfl⟩

lemma SameHead.trans (hfg : f.SameHead g) (hgh : g.SameHead h) : f.SameHead h :=
  ⟨hgh.name.trans hfg.name, hgh.ret.trans hfg.ret, hgh.external.trans hfg.external,
    hgh.deleted.trans hfg.deleted, hgh.params.trans hfg.params⟩

lemma SameHead.params_size (hfg : f.SameHead g) : g.params.size = f.params.size := by
  simpa using congrArg size hfg.params

lemma SameLayout.refl (f : Func) : f.SameLayout f :=
  ⟨.refl f, rfl, rfl⟩

lemma SameLayout.trans (hfg : f.SameLayout g) (hgh : g.SameLayout h) : f.SameLayout h :=
  ⟨hfg.head.trans hgh.head, hgh.layout.trans hfg.layout, hgh.blocks.trans hfg.blocks⟩

lemma SameLayout.hasBlock (hfg : f.SameLayout g) (b : BlockId) : g.hasBlock b = f.hasBlock b := by
  simp only [Func.hasBlock, hfg.blocks]

lemma SameLayout.entry? (hfg : f.SameLayout g) : g.entry? = f.entry? := by
  unfold Func.entry?
  simp only [isEmpty_iff_size_eq_zero, hfg.blocks]

end

namespace SameFrame

variable {f g h : Func}

lemma refl (f : Func) : f.SameFrame f :=
  ⟨.refl f, fun _ => rfl⟩

variable (hfg : f.SameFrame g)
include hfg

lemma trans (hgh : g.SameFrame h) : f.SameFrame h :=
  ⟨hfg.toSameLayout.trans hgh.toSameLayout, fun b => (hgh.block b).trans (hfg.block b)⟩

lemma blockDeleted (b : BlockId) : (g.block b).deleted = (f.block b).deleted := by
  have hbare := congrArg Block.deleted (hfg.block b)
  exact hbare

lemma label (b : BlockId) : (g.block b).label = (f.block b).label := by
  have hbare := congrArg Block.label (hfg.block b)
  exact hbare

lemma preds (b : BlockId) : (g.block b).preds = (f.block b).preds := by
  have hbare := congrArg Block.preds (hfg.block b)
  exact hbare

lemma succs (b : BlockId) : (g.block b).succs = (f.block b).succs := by
  have hbare := congrArg Block.succs (hfg.block b)
  exact hbare

lemma dominance (b : BlockId) : (g.block b).dominance = (f.block b).dominance := by
  have hbare := congrArg Block.dominance (hfg.block b)
  exact hbare

lemma liveBlocks : g.liveBlocks = f.liveBlocks := by
  simp only [Func.liveBlocks, hfg.layout, hfg.blockDeleted]

end SameFrame

/-! ## Edits -/

lemma sameFrame_modifyInst (f : Func) (i : InstId) (g : InstRecord → InstRecord) :
    f.SameFrame (f.modifyInst i g) :=
  ⟨⟨⟨rfl, rfl, rfl, rfl, rfl⟩, rfl, rfl⟩, fun _ => rfl⟩

lemma sameFrame_modifyBlock (f : Func) (b : BlockId) (g : Block → Block)
    (hg : ∀ d, (g d).bare = d.bare) : f.SameFrame (f.modifyBlock b g) :=
  ⟨⟨⟨rfl, rfl, rfl, rfl, rfl⟩, rfl, by simp [modifyBlock]⟩,
    fun c => modifyBlock_project f Block.bare hg b c⟩

lemma sameFrame_modifyUsers (f : Func) (v : Operand) (g : List InstId → List InstId) :
    f.SameFrame (f.modifyUsers v g) := by
  cases v with
  | inst i => exact sameFrame_modifyInst f i _
  | arg n =>
    refine ⟨⟨⟨rfl, rfl, rfl, rfl, ?_⟩, rfl, rfl⟩, fun _ => rfl⟩
    apply ext_getElem?
    intro m
    simp only [modifyUsers, modifyParam, getElem?_map, getElem?_modify]
    split <;> simp [Function.comp_def]
  | const c => exact .refl f
  | global c => exact .refl f

lemma sameFrame_foldl {step : Func → α → Func}
    (hstep : ∀ (f : Func) (a : α), f.SameFrame (step f a)) (as : List α) (f : Func) :
    f.SameFrame (as.foldl step f) :=
  List.foldlRecOn as step (.refl f) fun g hfg a _ => hfg.trans (hstep g a)

section

variable (f : Func)

lemma sameFrame_register (i : InstId) : f.SameFrame (f.register i) :=
  sameFrame_foldl (fun f v => sameFrame_modifyUsers f v _) _ f

lemma sameFrame_unregister (i : InstId) : f.SameFrame (f.unregister i) :=
  sameFrame_foldl (fun f v => sameFrame_modifyUsers f v _) _ f

lemma sameFrame_setNext (b : BlockId) (prev next : Option InstId) :
    f.SameFrame (f.setNext b prev next) := by
  cases prev with
  | none => exact sameFrame_modifyBlock f b _ fun _ => rfl
  | some p => exact sameFrame_modifyInst f p _

lemma sameFrame_setPrev (b : BlockId) (prev next : Option InstId) :
    f.SameFrame (f.setPrev b prev next) := by
  cases next with
  | none => exact sameFrame_modifyBlock f b _ fun _ => rfl
  | some n => exact sameFrame_modifyInst f n _

lemma sameFrame_link (b : BlockId) (prev : Option InstId) (i : InstId) :
    f.SameFrame (f.link b prev i) := by
  exact (((sameFrame_modifyInst f i _).trans (sameFrame_setNext _ b prev _)).trans
    (sameFrame_setPrev _ b _ _)).trans (sameFrame_modifyBlock _ b _ fun _ => rfl)

lemma sameFrame_unlink (i : InstId) : f.SameFrame (f.unlink i) := by
  refine SameFrame.trans ?_ (sameFrame_modifyInst _ i _)
  refine SameFrame.trans ?_ (sameFrame_modifyBlock _ _ _ fun _ => rfl)
  exact (sameFrame_setNext f _ _ _).trans (sameFrame_setPrev _ _ _ _)

lemma sameFrame_create (b : BlockId) (k : Instr) (t : Ty) : f.SameFrame (f.create b k t) := by
  refine SameFrame.trans ?_ (sameFrame_register _ _)
  exact ⟨⟨⟨rfl, rfl, rfl, rfl, rfl⟩, rfl, rfl⟩, fun _ => rfl⟩

lemma sameFrame_prepend (b : BlockId) (k : Instr) (t : Ty) : f.SameFrame (f.prepend b k t) :=
  (sameFrame_create f b k t).trans (sameFrame_link _ b none _)

lemma sameFrame_remove (i : InstId) : f.SameFrame (f.remove i) := by
  unfold remove
  split
  · exact ((sameFrame_unlink f i).trans (sameFrame_unregister _ i)).trans
      (sameFrame_modifyInst _ i _)
  · exact .refl f

lemma sameFrame_replaceUses (old new : Operand) : f.SameFrame (f.replaceUses old new).2 := by
  unfold replaceUses
  split
  · exact .refl f
  · dsimp only
    refine SameFrame.trans ?_ (sameFrame_modifyUsers _ new _)
    refine SameFrame.trans (sameFrame_modifyUsers f old fun _ => []) ?_
    exact sameFrame_foldl (fun f u => sameFrame_modifyInst f u _) _ _

end

/-! ## Edits that move nothing -/

namespace SameChains

variable {f g : Func} (hfg : f.SameChains g)
include hfg

lemma hasInst (i : InstId) : g.hasInst i = f.hasInst i := by
  simp only [Func.hasInst, hfg.insts]

lemma live (i : InstId) : (g.inst i).live = (f.inst i).live :=
  (hfg.record i).2.2.2

lemma block (i : InstId) : (g.inst i).block = (f.inst i).block :=
  (hfg.record i).1

lemma ends (b : BlockId) : (g.block b).first = (f.block b).first ∧
    (g.block b).last = (f.block b).last ∧ (g.block b).length = (f.block b).length := by
  have hcore := hfg.core b
  simp only [Block.core, Block.mk.injEq] at hcore
  grind

lemma blockDeleted (b : BlockId) : (g.block b).deleted = (f.block b).deleted := by
  have hdel := congrArg Block.deleted (hfg.core b)
  exact hdel

lemma label (b : BlockId) : (g.block b).label = (f.block b).label := by
  have hlabel := congrArg Block.label (hfg.core b)
  exact hlabel

lemma liveBlocks : g.liveBlocks = f.liveBlocks := by
  simp only [Func.liveBlocks, hfg.layout, hfg.blockDeleted]

lemma chainFrom (fuel : Nat) (i : Option InstId) : g.chainFrom fuel i = f.chainFrom fuel i := by
  induction fuel generalizing i with
  | zero => rfl
  | succ fuel ih =>
    cases i with
    | none => rfl
    | some i => rw [Func.chainFrom, Func.chainFrom, (hfg.record i).2.2.1, ih]

lemma instsOf (b : BlockId) : g.instsOf b = f.instsOf b := by
  simp only [Func.instsOf, chain, hfg.insts, (hfg.ends b).1, hfg.chainFrom]

lemma threaded {lists : BlockId → List InstId} (hf : f.Threaded lists) : g.Threaded lists := by
  refine hf.congr hfg.insts (fun i => ?_) hfg.ends
  obtain ⟨hb, hp, hn, -⟩ := hfg.record i
  exact ⟨hb, hp, hn⟩

lemma consistent (hf : f.Consistent) : g.Consistent where
  threaded := by
    have hlists := funext hfg.instsOf
    rw [hlists]
    exact hfg.threaded hf.threaded
  mem_instsOf b i := by
    rw [hfg.instsOf, hfg.live, hfg.block]
    exact hf.mem_instsOf b i
  layout_nodup := hfg.layout ▸ hf.layout_nodup
  mem_layout b := by
    rw [hfg.layout, hfg.hasBlock]
    exact hf.mem_layout b
  layout_head := by
    rw [hfg.layout, hfg.entry?]
    exact hf.layout_head

end SameChains

namespace SamePlaces

variable {f g h : Func}

lemma refl (f : Func) : f.SamePlaces f :=
  ⟨⟨.refl f, rfl, fun _ => ⟨rfl, rfl, rfl, rfl⟩, fun _ => rfl⟩, fun _ => rfl⟩

lemma of_record (hlayout : f.SameLayout g) (hsize : g.insts.size = f.insts.size)
    (hrecord : ∀ i, (g.inst i).block = (f.inst i).block ∧ (g.inst i).prev = (f.inst i).prev ∧
      (g.inst i).next = (f.inst i).next ∧ (g.inst i).live = (f.inst i).live)
    (hblk : ∀ b, g.block b = f.block b) : f.SamePlaces g :=
  ⟨⟨hlayout, hsize, hrecord, fun b => congrArg Block.core (hblk b)⟩, hblk⟩

lemma frame (hfg : f.SamePlaces g) : f.SameFrame g :=
  ⟨hfg.toSameLayout, fun b => congrArg Block.bare (hfg.ends b)⟩

lemma trans (hfg : f.SamePlaces g) (hgh : g.SamePlaces h) : f.SamePlaces h := by
  refine .of_record (hfg.toSameLayout.trans hgh.toSameLayout) (hgh.insts.trans hfg.insts)
    (fun i => ?_) fun b => (hgh.ends b).trans (hfg.ends b)
  obtain ⟨hb, hp, hn, hl⟩ := hfg.record i
  obtain ⟨hb', hp', hn', hl'⟩ := hgh.record i
  exact ⟨hb'.trans hb, hp'.trans hp, hn'.trans hn, hl'.trans hl⟩

end SamePlaces

lemma samePlaces_modifyInst (f : Func) (i : InstId) (g : InstRecord → InstRecord)
    (hg : ∀ r, (g r).block = r.block ∧ (g r).prev = r.prev ∧ (g r).next = r.next ∧
      (g r).live = r.live) : f.SamePlaces (f.modifyInst i g) :=
  .of_record (sameFrame_modifyInst f i g).toSameLayout (size_modifyInst f i g)
    (fun j => ⟨modifyInst_project f InstRecord.block (fun r => (hg r).1) i j,
      modifyInst_project f InstRecord.prev (fun r => (hg r).2.1) i j,
      modifyInst_project f InstRecord.next (fun r => (hg r).2.2.1) i j,
      modifyInst_project f InstRecord.live (fun r => (hg r).2.2.2) i j⟩) fun _ => rfl

lemma samePlaces_setType (f : Func) (i : InstId) (t : Ty) : f.SamePlaces (f.setType i t) :=
  samePlaces_modifyInst f i _ fun _ => ⟨rfl, rfl, rfl, rfl⟩

lemma block_modifyUsers (f : Func) (v : Operand) (g : List InstId → List InstId) (b : BlockId) :
    (f.modifyUsers v g).block b = f.block b := by
  cases v <;> rfl

lemma samePlaces_modifyUsers (f : Func) (v : Operand) (g : List InstId → List InstId) :
    f.SamePlaces (f.modifyUsers v g) := by
  refine .of_record (sameFrame_modifyUsers f v g).toSameLayout (size_modifyUsers f v g)
    (fun i => ?_) (block_modifyUsers f v g)
  have hbare := bare_modifyUsers f v g i
  have hb := congrArg InstRecord.block hbare
  have hp := congrArg InstRecord.prev hbare
  have hn := congrArg InstRecord.next hbare
  have hl := congrArg InstRecord.live hbare
  exact ⟨hb, hp, hn, hl⟩

lemma samePlaces_foldl {step : Func → α → Func}
    (hstep : ∀ (f : Func) (a : α), f.SamePlaces (step f a)) (as : List α) (f : Func) :
    f.SamePlaces (as.foldl step f) :=
  List.foldlRecOn as step (.refl f) fun g hfg a _ => hfg.trans (hstep g a)

lemma samePlaces_register (f : Func) (i : InstId) : f.SamePlaces (f.register i) :=
  samePlaces_foldl (fun f v => samePlaces_modifyUsers f v _) _ f

lemma samePlaces_unregister (f : Func) (i : InstId) : f.SamePlaces (f.unregister i) :=
  samePlaces_foldl (fun f v => samePlaces_modifyUsers f v _) _ f

lemma samePlaces_replaceInstr (f : Func) (i : InstId) (k : Instr) :
    f.SamePlaces (f.replaceInstr i k) := by
  refine .trans (.trans (samePlaces_unregister f i) ?_) (samePlaces_register _ i)
  exact samePlaces_modifyInst _ i _ fun r => ⟨rfl, rfl, rfl, rfl⟩

lemma samePlaces_replaceUses (f : Func) (old new : Operand) :
    f.SamePlaces (f.replaceUses old new).2 := by
  unfold replaceUses
  split
  · exact .refl f
  · dsimp only
    refine .trans (.trans (samePlaces_modifyUsers f old fun _ => []) ?_)
      (samePlaces_modifyUsers _ new _)
    refine samePlaces_foldl (fun f u => ?_) _ _
    exact samePlaces_modifyInst f u _ fun r => ⟨rfl, rfl, rfl, rfl⟩

lemma samePlaces_fillPhi (f : Func) (phi : InstId) (pred : BlockId) (v : Operand) :
    f.SamePlaces (f.fillPhi phi pred v).2 := by
  unfold fillPhi
  split
  · split
    · dsimp only
      refine .trans ?_ (samePlaces_modifyUsers _ v _)
      exact samePlaces_modifyInst f phi _ fun r => ⟨rfl, rfl, rfl, rfl⟩
    · exact .refl f
  · exact .refl f

lemma samePlaces_retainEntries (f : Func) (phi : InstId) (keep : BlockId → Bool) :
    f.SamePlaces (f.retainEntries phi keep).2 := by
  unfold retainEntries
  split
  · dsimp only
    split
    · exact .refl f
    · exact samePlaces_replaceInstr f phi _
  · exact .refl f

end Func

end MiddleEnd
