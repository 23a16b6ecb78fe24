import MiddleEnd.Proofs.Verified

/-!
# Edits of formed functions

A formed function stays formed when an operation is replaced by another one that is a phi or a
terminator if the old one was, when the uses of a value become uses of another one, when a phi is put
at the start of a block, when an instruction other than a terminator is removed, when a block is
deleted, and when analyses store other edges and dominance facts on its blocks.
-/

namespace MiddleEnd

open List Bool

namespace Func

variable {f g : Func} {b : BlockId}

/-! ## Stored analyses -/

/-- Two functions that differ only in what analyses store on their blocks. -/
structure SameCode (f g : Func) : Prop extends chains : f.SameChains g where
  args : g.params = f.params
  code : g.insts = f.insts

namespace SameCode

variable (hfg : f.SameCode g)
include hfg

lemma inst (i : InstId) : g.inst i = f.inst i := by
  rw [Func.inst, Func.inst, hfg.code]

lemma instr (i : InstId) : g.instr i = f.instr i := by
  rw [Func.instr, Func.instr, hfg.inst]

lemma terminator? (b : BlockId) : g.terminator? b = f.terminator? b := by
  simp only [Func.terminator?, (hfg.ends b).2.1, hfg.instr]

lemma phis (b : BlockId) : g.phis b = f.phis b := by
  simp only [Func.phis, hfg.instsOf, hfg.instr]

lemma users (v : Operand) : g.users v = f.users v := by
  cases v <;> simp only [Func.users, hfg.inst, hfg.args]

end SameCode

/-! ## Replaced operations -/

lemma SameChains.placed (hfg : f.SameChains g) : g.placed = f.placed := by
  funext u
  simp only [Func.placed, hfg.live, hfg.block, hfg.blockDeleted]

lemma SameChains.tracks (hfg : f.SameChains g) (v : Operand) : g.tracks v = f.tracks v := by
  cases v with
  | inst i => exact hfg.hasInst i
  | arg n => simp only [Func.tracks, hfg.params_size]
  | const c => rfl
  | global c => rfl

lemma SameChains.defines (hfg : f.SameChains g) (v : Operand) : g.defines v = f.defines v := by
  cases v with
  | inst i => exact hfg.live i
  | arg n => simp only [Func.defines, hfg.params_size]
  | const c => rfl
  | global c => rfl

namespace Formed

variable {i : InstId} {k : Instr}

lemma of_sameChains (hf : f.Formed) (hfg : f.SameChains g)
    (hkind : ∀ i, f.placed i → (g.instr i).isTerminator = (f.instr i).isTerminator ∧
      (g.instr i).isPhi = (f.instr i).isPhi)
    (huses : ∀ v, f.tracks v → f.defines v → g.UsesOf f.placed v) : g.Formed where
  consistent := hfg.consistent hf.consistent
  terminated := by
    intro b hb
    rw [hfg.liveBlocks] at hb
    obtain ⟨l, t, hl, hterm, hnone⟩ := hf.terminated b hb
    have hpl {i : InstId} (hi : i ∈ f.instsOf b) := hf.placed_of_mem hb hi
    refine ⟨l, t, (hfg.instsOf b).trans hl, ?_, fun i hi => ?_⟩
    · rw [(hkind t (hpl (by simp [hl]))).1, hterm]
    · rw [(hkind i (hpl (by simp [hl, hi]))).1, hnone i hi]
  phis_first := by
    intro b hb
    rw [hfg.liveBlocks] at hb
    rw [hfg.instsOf]
    refine (hf.phis_first b hb).imp_of_mem fun {i j} hi hj hphi => ?_
    rw [(hkind i (hf.placed_of_mem hb hi)).2,
      (hkind j (hf.placed_of_mem hb hj)).2]
    exact hphi
  uses := by
    intro v htr hdefs
    rw [hfg.placed]
    exact huses v ((hfg.tracks v).symm.trans htr) ((hfg.defines v).symm.trans hdefs)

lemma sameCode (hf : f.Formed) (hfg : f.SameCode g) : g.Formed := by
  refine hf.of_sameChains hfg.chains (fun i _ => ?_) fun v htr hdefs u => ?_
  · rw [hfg.instr]
    exact ⟨rfl, rfl⟩
  · rw [hfg.users, hfg.instr]
    exact hf.uses v htr hdefs u

lemma live_of_placed (hi : f.placed i) : (f.inst i).live := by
  rw [placed, and_eq_true] at hi
  exact hi.1

variable (hf : f.Formed)
include hf

lemma replaceInstr (hi : f.placed i)
    (hterm : k.isTerminator = (f.instr i).isTerminator) (hphi : k.isPhi = (f.instr i).isPhi) :
    (f.replaceInstr i k).Formed := by
  have hhas := hasInst_of_live (live_of_placed hi)
  refine hf.of_sameChains (samePlaces_replaceInstr f i k).chains (fun j _ => ?_) fun v htr hdefs =>
    (hf.uses v htr hdefs).replaceInstr htr hhas hi k
  by_cases hj : j = i
  · subst hj
    rw [instr_replaceInstr_self hhas]
    exact ⟨hterm, hphi⟩
  · rw [instr_replaceInstr_of_ne hj]
    exact ⟨rfl, rfl⟩

lemma retainEntries {p : InstId} (hp : f.placed p) (keep : BlockId → Bool) :
    (f.retainEntries p keep).2.Formed := by
  unfold Func.retainEntries
  split
  · next es hes =>
    dsimp only
    split
    · exact hf
    · exact hf.replaceInstr hp (by rw [hes]; rfl) (by rw [hes]; rfl)
  · exact hf

lemma replaceUses {old : Operand} (htr : f.tracks old)
    (hdefs : f.defines old) (new : Operand) : (f.replaceUses old new).2.Formed := by
  have hold := hf.uses old htr hdefs
  have hhas (u : InstId) (hu : f.placed u) := hasInst_of_live (live_of_placed hu)
  refine hf.of_sameChains (samePlaces_replaceUses f old new).chains (fun j hj => ?_) fun v hv hv' =>
    hold.replaceUses htr (hf.uses v hv hv') hv hhas new
  rw [instr_replaceUses hold htr new (hhas j), if_pos hj]
  exact ⟨Instr.isTerminator_mapOperands _ _, Instr.isPhi_mapOperands _ _⟩

lemma fillPhi {phi : InstId} (hphi : f.placed phi) (pred : BlockId) (v : Operand) :
    (f.fillPhi phi pred v).2.Formed := by
  refine hf.of_sameChains (samePlaces_fillPhi f phi pred v).chains (fun j _ => ?_) fun w hw hw' =>
    (hf.uses w hw hw').fillPhi hw hphi pred v
  obtain heq | ⟨es, es', hes, hfill, -⟩ := fillPhi_cases f phi pred v
  · rw [heq]
    exact ⟨rfl, rfl⟩
  · rw [(fillPhi_of_fillEntry hes hfill).2]
    split
    · next hj =>
      rw [hj, hes]
      exact ⟨rfl, rfl⟩
    · exact ⟨rfl, rfl⟩

/-! ## New phis -/

lemma prepend (hb : b ∈ f.liveBlocks) (hk : k.isPhi) (t : Ty)
    (hnew : ∀ u, f.placed u → .inst f.nextInst ∉ (f.instr u).operands) :
    (f.prepend b k t).Formed := by
  have hblk := hf.mem_liveBlocks.mp hb
  have hfr := sameFrame_prepend f b k t
  have hinsts := hf.instsOf_prepend hblk.1 k t
  have hinstr (j : InstId) : (f.prepend b k t).instr j = if j = f.nextInst then k else f.instr j :=
    (record_prepend f b k t j).1
  have hold {c : BlockId} {j : InstId} (hj : j ∈ f.instsOf c) :
      (f.prepend b k t).instr j = f.instr j := by
    have hne : j ≠ f.nextInst := fun h => hf.nextInst_not_mem c (h ▸ hj)
    rw [hinstr, if_neg hne]
  have hterm : k.isTerminator = false := by
    cases k with
    | phi es => rfl
    | _ => exact absurd hk false_ne_true
  refine ⟨hf.consistent.prepend hblk.1 k t, fun c hc => ?_, fun c hc => ?_,
    fun v htr hdefs => ?_⟩
  · rw [hfr.liveBlocks] at hc
    obtain ⟨l, s, hl, hs, hnone⟩ := hf.terminated c hc
    have hs' : (f.prepend b k t).instr s = f.instr s := hold (c := c) (by simp [hl])
    have hnone' (i : InstId) (hi : i ∈ l) : ((f.prepend b k t).instr i).isTerminator = false := by
      rw [hold (c := c) (by simp [hl, hi]), hnone i hi]
    by_cases hcb : c = b
    · subst hcb
      refine ⟨f.nextInst :: l, s, by rw [hinsts, if_pos rfl, hl]; rfl, by rw [hs', hs], ?_⟩
      intro i hi
      rcases mem_cons.mp hi with rfl | hi
      · rw [hinstr, if_pos rfl, hterm]
      · exact hnone' i hi
    · exact ⟨l, s, by rw [hinsts, if_neg hcb, hl], by rw [hs', hs], hnone'⟩
  · rw [hfr.liveBlocks] at hc
    have hfirst : (f.instsOf c).Pairwise fun i j => ((f.prepend b k t).instr j).isPhi →
        ((f.prepend b k t).instr i).isPhi := by
      refine (hf.phis_first c hc).imp_of_mem fun {i j} hi hj hphi => ?_
      rw [hold hi, hold hj]
      exact hphi
    by_cases hcb : c = b
    · simp_all
    · grind
  · have hsame := sameUses_link (f.create b k t) b none f.nextInst
    have htracks' := (hsame.tracks v).symm.trans htr
    have hnext : f.placed f.nextInst = false := by
      rw [placed, inst_of_not_hasInst f f.not_hasInst_nextInst]
      rfl
    have hpl : (f.prepend b k t).placed = fun u => decide (u = f.nextInst) || f.placed u := by
      funext u
      obtain ⟨-, -, hu, hlive⟩ := record_prepend f b k t u
      rw [placed, placed, hu, hlive, hfr.blockDeleted]
      by_cases hun : u = f.nextInst
      · simp [hun, hblk.2]
      · simp [hun]
    have huses : f.UsesOf f.placed v := by
      rw [tracks_create, or_eq_true, decide_eq_true_eq] at htracks'
      by_cases hvn : v = .inst f.nextInst
      · intro u
        have hnone : f.users v = [] := by
          rw [hvn, users, inst_of_not_hasInst f f.not_hasInst_nextInst]
          rfl
        rw [hnone]
        split
        · next hu => exact (count_eq_zero.mpr (hvn ▸ hnew u hu)).symm
        · rfl
      · refine hf.uses v (htracks'.resolve_right hvn) ?_
        cases v with
        | inst i =>
          have hi : i ≠ f.nextInst := fun h => hvn (h ▸ rfl)
          rw [defines, (record_prepend f b k t i).2.2.2] at hdefs
          simpa [defines, hi] using hdefs
        | arg n => simpa only [defines, hfr.params_size] using hdefs
        | const c => rfl
        | global c => rfl
    rw [hpl]
    exact hsame.usesOf (huses.create hnext htracks')

/-! ## Removed instructions and blocks -/

lemma remove (hlive : (f.inst i).live) (hterm : (f.instr i).isTerminator = false) :
    (f.remove i).Formed where
  consistent := hf.consistent.remove i
  terminated := by
    intro b hb
    rw [(sameFrame_remove f i).liveBlocks] at hb
    obtain ⟨l, t, hl, ht, hnone⟩ := hf.terminated b hb
    have hit : t ≠ i := by
      rintro rfl
      rw [ht] at hterm
      exact Bool.false_ne_true hterm.symm
    refine ⟨l.erase i, t, ?_, by rw [instr_remove, ht], fun j hj => ?_⟩
    · rw [hf.instsOf_remove, hl, erase_append]
      split
      · rfl
      · next hil => rw [erase_of_not_mem hil, erase_of_not_mem (by simpa using hit.symm)]
    · rw [instr_remove]
      exact hnone j (mem_of_mem_erase hj)
  phis_first := by
    intro b hb
    rw [(sameFrame_remove f i).liveBlocks] at hb
    rw [hf.instsOf_remove]
    simp only [instr_remove]
    exact (hf.phis_first b hb).sublist erase_sublist
  uses := by
    intro v htr hdefs
    rw [tracks_remove] at htr
    have hdefines' : f.defines v := by
      cases v with
      | inst j =>
        rw [defines, live_remove, Bool.and_eq_true] at hdefs
        exact hdefs.1
      | arg n => simpa only [defines, (sameFrame_remove f i).params_size] using hdefs
      | const c => rfl
      | global c => rfl
    have hpl : (f.remove i).placed = fun u => f.placed u && decide (u ≠ i) := by
      funext u
      simp only [placed, live_remove, (record_remove f i u).2.2,
        (sameFrame_remove f i).blockDeleted, Bool.and_assoc, Bool.and_comm]
    rw [hpl]
    exact (hf.uses v htr hdefines').remove htr hlive

end Formed

lemma UsesOf.foldl_remove {counted : InstId → Bool} {v : Operand} (hv : f.UsesOf counted v)
    (htr : f.tracks v) {is : List InstId} (hnd : is.Nodup)
    (his : ∀ i ∈ is, (f.inst i).live) :
    (is.foldl Func.remove f).UsesOf (fun u => counted u && decide (u ∉ is)) v := by
  induction is generalizing f counted with
  | nil => simpa using hv
  | cons i is ih =>
    obtain ⟨hi, hnd⟩ := nodup_cons.mp hnd
    have hrest := ih (hv.remove htr (his i (.head _)))
      ((tracks_remove f i v).trans htr) hnd fun j hj => by
        have hji : j ≠ i := fun h => hi (h ▸ hj)
        rw [live_remove, his j (.tail i hj)]
        simp [hji]
    have hcnt : (fun u => counted u && decide (u ∉ i :: is)) =
        fun u => (counted u && decide (u ≠ i)) && decide (u ∉ is) := by
      funext u
      rw [Bool.and_assoc]
      simp
    rw [hcnt]
    exact hrest

lemma instr_deleteBlock (f : Func) (b : BlockId) (j : InstId) :
    (f.deleteBlock b).instr j = f.instr j :=
  (Consistent.record_foldl_remove _ f j).1

lemma sameLayout_deleteBlock (f : Func) (b : BlockId) : f.SameLayout (f.deleteBlock b) := by
  have hfr := sameFrame_foldl sameFrame_remove (f.instsOf b) f
  refine ⟨⟨hfr.name, hfr.ret, hfr.external, hfr.deleted, hfr.params⟩, hfr.layout, ?_⟩
  rw [deleteBlock, ← hfr.blocks]
  exact Array.size_modify ..

lemma blockDeleted_deleteBlock (f : Func) (b c : BlockId) :
    ((f.deleteBlock b).block c).deleted =
      ((f.block c).deleted || decide (c = b ∧ f.hasBlock b)) := by
  have hfr := sameFrame_foldl sameFrame_remove (f.instsOf b) f
  rw [deleteBlock, block_modifyBlock, hfr.hasBlock, apply_ite Block.deleted, hfr.blockDeleted]
  by_cases hc : c = b ∧ f.hasBlock b
  · simp [hc]
  · simp [hc]

lemma liveBlocks_deleteBlock (f : Func) (hb : f.hasBlock b) :
    (f.deleteBlock b).liveBlocks = f.liveBlocks.filter fun c => c ≠ b := by
  rw [liveBlocks, liveBlocks, (f.sameLayout_deleteBlock b).layout, filter_filter]
  refine filter_congr fun c _ => ?_
  rw [blockDeleted_deleteBlock]
  by_cases hc : c = b
  · simp [hc, hb]
  · simp [hc]

lemma Formed.deleteBlock (hf : f.Formed) (hb : b ∈ f.liveBlocks) : (f.deleteBlock b).Formed := by
  have hblk := (hf.mem_liveBlocks.mp hb).1
  have hinsts := hf.instsOf_deleteBlock b
  refine ⟨hf.consistent.deleteBlock b, fun c hc => ?_, fun c hc => ?_, fun v htr hdefs => ?_⟩
  · rw [liveBlocks_deleteBlock f hblk, mem_filter, decide_eq_true_eq] at hc
    simp only [instr_deleteBlock, hinsts, if_neg hc.2]
    exact hf.terminated c hc.1
  · rw [liveBlocks_deleteBlock f hblk, mem_filter, decide_eq_true_eq] at hc
    simp only [instr_deleteBlock, hinsts, if_neg hc.2]
    exact hf.phis_first c hc.1
  · have hfr := sameFrame_foldl sameFrame_remove (f.instsOf b) f
    have hplaces : f.tracks v ∧ f.defines v := by
      cases v with
      | inst i =>
        rw [defines, hf.live_deleteBlock, and_eq_true] at hdefs
        exact ⟨hasInst_of_live hdefs.1, hdefs.1⟩
      | arg n =>
        have hsize : (f.deleteBlock b).params.size = f.params.size := hfr.params_size
        rw [tracks, hsize] at htr
        exact ⟨htr, htr⟩
      | const c | global c => exact absurd htr (by simp [tracks])
    have hpl : (f.deleteBlock b).placed = fun u => f.placed u && decide (u ∉ f.instsOf b) := by
      funext u
      have hu : ((f.deleteBlock b).inst u).block = (f.inst u).block :=
        (Consistent.record_foldl_remove _ f u).2.2
      rw [placed, placed, hf.live_deleteBlock, hu, blockDeleted_deleteBlock]
      cases hlive : (f.inst u).live with
      | false => rfl
      | true =>
        have hmem : u ∈ f.instsOf b ↔ (f.inst u).block = b := by
          rw [hf.mem_instsOf]
          exact and_iff_right hlive
        by_cases hub : (f.inst u).block = b
        · simp [hub, hmem]
        · simp [hub, hmem]
    rw [hpl]
    refine (hf.uses v hplaces.1 hplaces.2).foldl_remove hplaces.1 (hf.nodup b) ?_
    exact fun i hi => hf.live_of_mem hi

end Func

end MiddleEnd
