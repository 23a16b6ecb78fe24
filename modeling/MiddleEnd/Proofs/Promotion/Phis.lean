import MiddleEnd.Proofs.Promotion.Slots

/-!
# Open phis for slots

Before renaming, each slot gets a phi in each block that needs one.  These phis are new instructions
at the start of their blocks, nothing uses them, and their entries are open.  `Ready` collects what
renaming can rely on then.
-/

namespace MiddleEnd.Promotion

open List Func Transform Prod

variable {i : InstId} {f g : Func} {ss : List Slot} {phis : SlotPhis}
  {homes : List (InstId × BlockId)}

/-! ## Insertion -/

lemma operands_openPhi (f : Func) (b : BlockId) : (openPhi f b).operands = [] := by
  simp [openPhi, Instr.operands, filterMap_map]

lemma users_prepend (f : Func) (b : BlockId) {k : Instr} (hk : k.operands = []) (t : Ty)
    (hi : f.hasInst i) : ((f.prepend b k t).inst i).users = (f.inst i).users := by
  have hne : i ≠ f.nextInst := ne_nextInst hi
  have hcreate : f.create b k t =
      { f with insts := f.insts.push { instr := k, ty := t, block := b } } := by
    rw [create, register, instr, inst_push, if_pos rfl]
    simp only [hk, foldl_nil]
  have hlink := (sameUses_link (f.create b k t) b none f.nextInst).users (.inst i)
  have husers : ((f.create b k t).inst i).users = (f.inst i).users := by
    rw [hcreate, inst_push, if_neg hne]
  exact hlink.trans husers

/-- `g` is `f` with new open phis, which are listed with their slots; `homes` lists slots and blocks
in the same order. -/
structure Inserted (f g : Func) (phis : SlotPhis) (homes : List (InstId × BlockId)) : Prop
    extends frame : f.SameFrame g, formed : g.Formed where
  old : ∀ i, f.hasInst i → g.hasInst i ∧ g.instr i = f.instr i ∧
    (g.inst i).block = (f.inst i).block ∧ (g.inst i).live = (f.inst i).live ∧
    (g.inst i).users = (f.inst i).users ∧ (g.inst i).ty = (f.inst i).ty
  new : ∀ p ∈ phis, f.hasInst p.1 = false ∧ g.placed p.1 ∧
    g.instr p.1 = openPhi f (g.inst p.1).block
  nodup : (phis.map fst).Nodup
  homes : phis.map (fun p => (p.2, (g.inst p.1).block)) = homes
  instsOf : ∀ b, ∃ l, g.instsOf b = l ++ f.instsOf b ∧ ∀ i ∈ l, i ∈ phis.map fst

lemma Inserted.refl (hf : f.Formed) : Inserted f f [] [] where
  frame := .refl f
  formed := hf
  old _ hi := ⟨hi, rfl, rfl, rfl, rfl, rfl⟩
  new _ hp := absurd hp not_mem_nil
  nodup := nodup_nil
  homes := rfl
  instsOf _ := ⟨[], rfl, nofun⟩

section

variable (h : Inserted f g phis homes)
include h

lemma Inserted.hasInst_or_mem (hf : f.Consistent) (hi : g.placed i) :
    f.placed i ∨ i ∈ phis.map Prod.fst := by
  have hlive := Func.Formed.live_of_placed hi
  obtain ⟨l, hl, hphis⟩ := h.instsOf (g.inst i).block
  have hmem := h.mem_of_live hlive
  rw [hl, mem_append] at hmem
  rcases hmem with hmem | hmem
  · exact Or.inr (hphis i hmem)
  · left
    have hblk := hf.block_of_mem hmem
    rw [Func.placed, hf.live_of_mem hmem, hblk, ← h.blockDeleted]
    rw [Func.placed, Bool.and_eq_true] at hi
    rw [hi.2]
    rfl

lemma Inserted.placed_of_placed (hi : f.placed i) : g.placed i := by
  obtain ⟨-, -, hblk, hlive, -⟩ := h.old i (f.hasInst_of_live (Formed.live_of_placed hi))
  rw [placed, hblk, hlive, h.blockDeleted]
  exact hi

lemma Inserted.nextInst_notMem (hf : f.Formed) (hcomp : f.Complete) {u : InstId}
    (hu : g.placed u) : .inst g.nextInst ∉ (g.instr u).operands := by
  intro hmem
  rcases h.hasInst_or_mem hf.consistent hu with hold | hnew
  · have hlive := Formed.live_of_placed hold
    rw [(h.old u (f.hasInst_of_live hlive)).2.1] at hmem
    obtain ⟨b, hb, hub⟩ := mem_flatMap.mp (hf.mem_liveInsts.mpr hold)
    have hdefs := hcomp b hb u hub _ hmem
    exact ne_nextInst (h.old g.nextInst (f.hasInst_of_live hdefs)).1 rfl
  · obtain ⟨p, hp, rfl⟩ := mem_map.mp hnew
    rw [(h.new p hp).2.2, operands_openPhi] at hmem
    exact not_mem_nil hmem

lemma Inserted.prepend (hf : f.Formed) (hcomp : f.Complete) {b : BlockId}
    (hb : b ∈ f.liveBlocks) (a : InstId) (t : Ty) :
    Inserted f (g.prepend b (openPhi g b) t) (phis ++ [(g.nextInst, a)]) (homes ++ [(a, b)]) := by
  have hb' : b ∈ g.liveBlocks := h.liveBlocks ▸ hb
  have hblk := h.mem_liveBlocks.mp hb'
  have hfr := Func.sameFrame_prepend g b (openPhi g b) t
  have hrec := Func.record_prepend g b (openPhi g b) t
  have hne {i : InstId} (hi : g.hasInst i) : i ≠ g.nextInst := Func.ne_nextInst hi
  have hlisted {p : InstId × InstId} (hp : p ∈ phis) : p.1 ≠ g.nextInst :=
    hne (g.hasInst_of_live (Func.Formed.live_of_placed (h.new p hp).2.1))
  refine ⟨h.trans hfr, ?_, fun i hi => ?_, fun p hp => ?_, ?_, ?_, fun c => ?_⟩
  · exact h.formed.prepend hb' rfl t fun u hu => h.nextInst_notMem hf hcomp hu
  · obtain ⟨hhas, hinstr, hiblock, hlive, husers, hty⟩ := h.old i hi
    obtain ⟨hinstr', hty', hiblock', hlive'⟩ := hrec i
    rw [if_neg (hne hhas)] at hinstr' hty' hiblock'
    rw [decide_eq_false (hne hhas), Bool.false_or] at hlive'
    refine ⟨?_, hinstr'.trans hinstr, hiblock'.trans hiblock, hlive'.trans hlive, ?_, hty'.trans hty⟩
    · have htr := Func.tracks_create g b (openPhi g b) t (.inst i)
      rw [← (Func.sameUses_link (g.create b (openPhi g b) t) b none g.nextInst).tracks] at htr
      exact htr.trans (by rw [Func.tracks, hhas]; rfl)
    · rw [users_prepend g b (operands_openPhi g b) t hhas, husers]
  · rcases mem_append.mp hp with hp | hp
    · obtain ⟨hfresh, hpl, hinstr⟩ := h.new p hp
      obtain ⟨hinstr', -, hpblock, hlive⟩ := hrec p.1
      rw [if_neg (hlisted hp)] at hinstr' hpblock
      rw [decide_eq_false (hlisted hp), Bool.false_or] at hlive
      refine ⟨hfresh, ?_, ?_⟩
      · rw [Func.placed, hlive, hpblock, hfr.blockDeleted, ← Func.placed, hpl]
      · rw [hpblock, Func.instr, hinstr', ← Func.instr, hinstr]
    · obtain rfl := mem_singleton.mp hp
      obtain ⟨hinstr', -, hpblock, hlive⟩ := hrec g.nextInst
      rw [if_pos rfl] at hinstr' hpblock
      refine ⟨?_, ?_, ?_⟩
      · cases hhas : f.hasInst g.nextInst with
        | false => rfl
        | true => exact absurd rfl (hne (h.old _ hhas).1)
      · rw [Func.placed, hlive, hpblock, hfr.blockDeleted, hblk.2]
        simp
      · rw [hpblock, Func.instr, hinstr', openPhi, openPhi, h.preds]
  · rw [map_append, map_singleton, ← concat_eq_append]
    refine h.nodup.concat fun hmem => ?_
    obtain ⟨p, hp, heq⟩ := mem_map.mp hmem
    exact hlisted hp heq
  · rw [map_append, map_singleton, (hrec g.nextInst).2.2.1, if_pos rfl, ← h.homes]
    congr 1
    refine map_congr_left fun p hp => ?_
    rw [(hrec p.1).2.2.1, if_neg (hlisted hp)]
  · obtain ⟨l, hl, hphis⟩ := h.instsOf c
    rw [h.instsOf_prepend hblk.1]
    by_cases hcb : c = b
    · subst hcb
      refine ⟨g.nextInst :: l, by rw [if_pos rfl, hl]; rfl, fun i hi => ?_⟩
      rw [map_append, mem_append]
      rcases mem_cons.mp hi with rfl | hi
      · exact Or.inr (mem_singleton_self _)
      · exact Or.inl (hphis i hi)
    · grind

/-- The use-lists of slots do not change while phis are inserted, and neither do frontiers. -/
lemma Inserted.phiBlocks_eq (hf : f.Formed) {a : InstId} (ha : f.placed a) :
    phiBlocks g a = phiBlocks f a := by
  have hlive := Func.Formed.live_of_placed ha
  have hhas := f.hasInst_of_live hlive
  have husers := (h.old a hhas).2.2.2.2.1
  have hstores : storingBlocks g a = storingBlocks f a := by
    rw [storingBlocks, husers]
    have huser {u : InstId} (hu : u ∈ (f.inst a).users) : f.hasInst u := by
      have hcnt := hf.uses (.inst a) hhas hlive u
      have hpos : 0 < (f.users (.inst a)).count u := count_pos_iff.mpr hu
      rw [hcnt] at hpos
      by_contra hnot
      rw [if_neg fun hpl => hnot (f.hasInst_of_live (Func.Formed.live_of_placed hpl))] at hpos
      exact Nat.lt_irrefl 0 hpos
    have hfilter : (f.inst a).users.filter (fun u => isStore (g.instr u)) =
        (f.inst a).users.filter fun u => isStore (f.instr u) :=
      filter_congr fun u hu => by rw [(h.old u (huser hu)).2.1]
    rw [hfilter]
    refine map_congr_left fun u hu => ?_
    rw [(h.old u (huser (mem_filter.mp hu).1)).2.2.1]
  have hfrontiers : (g.blocks.map fun b => b.dominance.frontier.map BlockId.idx) =
      f.blocks.map fun b => b.dominance.frontier.map BlockId.idx := by
    refine Array.ext (by simp [h.blocks]) fun n hn hn' => ?_
    have hfacts := h.dominance ⟨n⟩
    rw [Array.size_map] at hn hn'
    simp only [Func.block, Array.getD_eq_getD_getElem?, Array.getElem?_eq_getElem hn,
      Array.getElem?_eq_getElem hn', Option.getD_some] at hfacts
    simp [hfacts]
  rw [phiBlocks, phiBlocks, hstores, hfrontiers]

end

lemma mapM_insertPhi {w : Work} (h : Inserted f w.func phis homes) (hf : f.Formed)
    (hcomp : f.Complete) (slot : Slot) {bs : List BlockId} (hbs : ∀ b ∈ bs, b ∈ f.liveBlocks) :
    ∃ new w', bs.mapM (insertPhi slot) w = .ok new w' ∧
      Inserted f w'.func (phis ++ new) (homes ++ bs.map (slot.alloc, ·)) := by
  induction bs generalizing w phis homes with
  | nil => exact ⟨[], w, rfl, by simpa using h⟩
  | cons b bs ih =>
    have hstep := h.prepend hf hcomp (hbs b (.head _)) slot.alloc slot.ty
    obtain ⟨v, hv, hfunc⟩ : ∃ v, insertPhi slot b w = .ok (w.func.nextInst, slot.alloc) v ∧
        v.func = w.func.prepend b (openPhi w.func b) slot.ty := ⟨_, rfl, rfl⟩
    rw [← hfunc] at hstep
    obtain ⟨new, w', hrun, hins⟩ := ih hstep fun c hc => hbs c (.tail b hc)
    refine ⟨(w.func.nextInst, slot.alloc) :: new, w', ?_, ?_⟩
    · rw [mapM_cons, bind_of_ok hv, bind_of_ok hrun]
      rfl
    · simpa using hins

lemma insertPhis_eq_ok {w : Work} (h : Inserted f w.func phis homes) (hf : f.Analyzed)
    (hcomp : f.Complete) (hss : ∀ s ∈ ss, f.placed s.alloc) :
    ∃ new w', insertPhis ss w = .ok new w' ∧ Inserted f w'.func (phis ++ new)
      (homes ++ ss.flatMap fun s => (phiBlocks f s.alloc).map (s.alloc, ·)) := by
  induction ss generalizing w phis homes with
  | nil => exact ⟨[], w, rfl, by simpa using h⟩
  | cons s ss ih =>
    have hformed := hf.formed
    have hblks := h.phiBlocks_eq hformed (hss s (.head _))
    obtain ⟨new, v, hv, hins⟩ := mapM_insertPhi h hformed hcomp s
      fun b hb => ((phiBlocks_closed hf s.alloc).2 b hb).1
    obtain ⟨rest, w', hrest, hinserted'⟩ := ih hins fun t ht => hss t (.tail s ht)
    refine ⟨new ++ rest, w', ?_, by simpa using hinserted'⟩
    have hfirst : (do (phiBlocks (← func) s.alloc).mapM (insertPhi s)) w = .ok new v := by
      rw [← hv, ← hblks]
      rfl
    rw [insertPhis] at hrest ⊢
    rw [flatMapM_cons, bind_of_ok hfirst, bind_of_ok hrest]
    rfl

/-! ## Before renaming -/

lemma lookup_eq_some_iff_mem {α β : Type} [DecidableEq α] {l : List (α × β)}
    (hl : (l.map fst).Nodup) {a : α} {b : β} : l.lookup a = some b ↔ (a, b) ∈ l := by
  induction l with
  | nil => simp
  | cons p l ih =>
    obtain ⟨c, d⟩ := p
    by_cases hac : a = c
    · grind
    · grind

/-- The block has an inserted phi for the slot. -/
def HasPhi (f : Func) (phis : SlotPhis) (a : InstId) (b : BlockId) : Prop :=
  ∃ i ∈ f.instsOf b, phis.lookup i = some a

/-- A function with open phis, in SSA form but for their entries. -/
structure Ready (f : Func) (ss : List Slot) (phis : SlotPhis) : Prop
    extends analyzed : f.Analyzed where
  complete : f.Complete
  form : f.SsaForm fun i => (phis.lookup i).isSome
  slots : Slots f ss
  phi : ∀ i a, phis.lookup i = some a → f.placed i ∧
    f.instr i = openPhi f (f.inst i).block ∧ a ∈ ss.map Slot.alloc
  unique : ∀ i j a, phis.lookup i = some a → phis.lookup j = some a →
    (f.inst i).block = (f.inst j).block → i = j
  /-- Where dominance of a block that sets the slot ends, there is a phi. -/
  closed : ∀ a ∈ ss.map Slot.alloc, ∀ b c, StoresTo f a b ∨ HasPhi f phis a b →
    InFrontier f.Edge ⟨0⟩ b c → HasPhi f phis a c

namespace Inserted

variable {b : BlockId} {i a : InstId}

variable (h : Inserted f g phis homes)

include h

lemma instr_of_mem (hf : f.Consistent) (hi : i ∈ f.instsOf b) : g.instr i = f.instr i :=
  (h.old i (f.hasInst_of_live (hf.live_of_mem hi))).2.1

/-- An instruction of a block was there before, or it is a new phi. -/
lemma old_or_new (hf : f.Consistent) (hi : i ∈ g.instsOf b) :
    i ∈ f.instsOf b ∧ g.instr i = f.instr i ∨ ∃ a, (i, a) ∈ phis ∧ g.instr i = openPhi f b := by
  obtain ⟨l, hl, hphis⟩ := h.instsOf b
  have hmem := hi
  rw [hl, mem_append] at hmem
  rcases hmem with hnew | hold
  · obtain ⟨p, hp, rfl⟩ := mem_map.mp (hphis i hnew)
    exact Or.inr ⟨p.2, hp, h.block_of_mem hi ▸ (h.new p hp).2.2⟩
  · exact Or.inl ⟨hold, h.instr_of_mem hf hold⟩

lemma subset_instsOf (b : BlockId) : f.instsOf b ⊆ g.instsOf b := by
  obtain ⟨l, hl, -⟩ := h.instsOf b
  rw [hl]
  exact subset_append_right l _

lemma terminator?_eq (hf : f.Formed) (hb : b ∈ f.liveBlocks) :
    g.terminator? b = f.terminator? b := by
  obtain ⟨t, ht⟩ := hf.exists_terminator hb
  obtain ⟨hmem, hterm⟩ := (hf.terminator?_eq_some hb).mp ht
  rw [ht, h.terminator?_eq_some (h.liveBlocks ▸ hb), h.instr_of_mem hf.consistent hmem]
  exact ⟨h.subset_instsOf b hmem, hterm⟩

lemma targets_eq (hf : f.Formed) (hb : b ∈ f.liveBlocks) : g.targets b = f.targets b := by
  obtain ⟨t, ht⟩ := hf.exists_terminator hb
  obtain ⟨hmem, -⟩ := (hf.terminator?_eq_some hb).mp ht
  rw [Func.targets, Func.targets, h.terminator?_eq hf hb, ht]
  simp only [h.instr_of_mem hf.consistent hmem]

lemma edge_eq (hf : f.Formed) : g.Edge = f.Edge :=
  h.edge fun _ hb => h.targets_eq hf hb

lemma available (hf : f.Formed) {pre pre' : List InstId} {v : Operand} (hv : f.Available b pre v)
    (hsub : pre ⊆ pre') (hdefs : f.defines v) : g.Available b pre' v := by
  rintro i rfl
  rw [dom_congr (h.edge_eq hf), (h.old i (f.hasInst_of_live hdefs)).2.2.1]
  exact (hv i rfl).imp_left (hsub ·)

lemma complete (hf : f.Formed) (hcomp : f.Complete) : g.Complete := by
  intro b hb i hi v hv
  rw [h.liveBlocks] at hb
  rcases h.old_or_new hf.consistent hi with ⟨hi, hk⟩ | ⟨a, -, hk⟩
  · rw [hk] at hv
    have hdefs := hcomp b hb i hi v hv
    cases v with
    | inst d => exact (h.old d (f.hasInst_of_live hdefs)).2.2.2.1.trans hdefs
    | arg n => simpa only [defines, h.params_size] using hdefs
    | const c => rfl
    | global c => rfl
  · rw [hk, operands_openPhi] at hv
    cases hv

lemma block_mem (hhomes : ∀ p ∈ homes, p.2 ∈ phiBlocks f p.1) (hmem : (i, a) ∈ phis) :
    (g.inst i).block ∈ phiBlocks f a := by
  refine hhomes (a, (g.inst i).block) ?_
  rw [← h.homes]
  exact mem_map_of_mem hmem

lemma ssaForm (hf : f.Analyzed) (hcomp : f.Complete) (hform : f.SsaForm fun _ => False)
    (hhomes : ∀ p ∈ homes, p.2 ∈ phiBlocks f p.1) :
    g.SsaForm fun i => (phis.lookup i).isSome := by
  have hformed := hf.formed
  have hedge := h.edge_eq hformed
  have hcases {b : BlockId} {i : InstId} := h.old_or_new (b := b) (i := i) hformed.consistent
  refine ⟨fun b hb i hi => ?_, fun b hb c hc => ?_, fun i hi => ?_, fun b hb i hi hphi => ?_,
    fun b hb i hi hopen e he => ?_, fun b hb hreach pre i post hsplit hphi v hv => ?_,
    fun b hb hreach i hi e he v hv => ?_⟩
  · rw [h.liveBlocks] at hb
    rcases hcases hi with ⟨hold, hk⟩ | ⟨a, -, hk⟩
    · rw [hk]
      exact hform.resolved b hb i hold
    · rw [hk]
      rfl
  · rw [h.liveBlocks] at hb ⊢
    exact hform.targets b hb c (h.targets_eq hformed hb ▸ hc)
  · rcases hcases hi with ⟨hold, hk⟩ | ⟨a, hmem, -⟩
    · rw [hk]
      exact hform.entry i hold
    · have hblk := h.block_mem hhomes hmem
      rw [h.block_of_mem hi] at hblk
      obtain ⟨-, p, hp⟩ := (phiBlocks_closed hf a).2 _ hblk
      exact absurd hp (hf.entry p)
  · rw [h.liveBlocks] at hb
    rw [Func.Covers, hedge]
    rcases hcases hi with ⟨hold, hk⟩ | ⟨a, -, hk⟩
    · rw [hk] at hphi ⊢
      exact hform.covers b hb i hold hphi
    · have hhas := (hformed.mem_liveBlocks.mp hb).1
      have hblks : (openPhi f b).entries.map PhiEntry.block = (f.block b).preds := by
        simp [openPhi, Instr.entries, Function.comp_def]
      rw [hk, hblks]
      exact ⟨hf.nodup_preds hhas, fun p => hf.mem_preds hhas⟩
  · rw [h.liveBlocks] at hb
    rcases hcases hi with ⟨hold, hk⟩ | ⟨a, hmem, -⟩
    · rw [hk] at he
      exact hform.filled b hb i hold (fun h => h) e he
    · simp_all
  · rw [h.liveBlocks] at hb
    rw [Func.reachable_congr hedge] at hreach
    have hi : i ∈ g.instsOf b := by simp [hsplit]
    rcases hcases hi with ⟨hold, hk⟩ | ⟨a, -, hk⟩
    · rw [hk] at hphi hv
      obtain ⟨pre', post', hsplit'⟩ := append_of_mem hold
      have havail := hform.dominated b hb hreach pre' i post' hsplit' hphi v hv
      refine h.available hformed havail ?_ (hcomp b hb i hold v hv)
      -- the instructions before `i` are new phis and those that were before `i`
      obtain ⟨l, hl, -⟩ := h.instsOf b
      rw [hl, hsplit', ← append_assoc] at hsplit
      have hnd : (l ++ pre' ++ i :: post').Nodup := by
        rw [append_assoc, ← hsplit', ← hl]
        exact h.formed.nodup b
      have hnot : i ∉ l ++ pre' ∧ i ∉ post' := by
        rw [nodup_middle, nodup_cons, mem_append, not_or] at hnd
        exact hnd.1
      rw [← ((append_cons_inj_of_notMem hnot.1 hnot.2).mp hsplit).1]
      exact subset_append_right l pre'
    · rw [hk] at hphi
      exact absurd hphi (by simp [openPhi, Instr.isPhi])
  · rw [h.liveBlocks] at hb
    rw [Func.reachable_congr hedge] at hreach
    rcases hcases hi with ⟨hold, hk⟩ | ⟨a, -, hk⟩
    · rw [hk] at he
      refine h.available hformed (hform.flows b hb hreach i hold e he v hv) (h.subset_instsOf _) ?_
      exact hcomp b hb i hold v (Instr.mem_operands_of_entry he hv)
    · rw [hk] at he
      obtain ⟨p, -, rfl⟩ := mem_map.mp he
      exact absurd hv (by simp)

lemma slots (hf : f.Consistent) (hs : Slots f ss) : Slots g ss where
  nodup := hs.nodup
  placed s hmem := h.placed_of_placed (hs.placed s hmem)
  instr s hmem := by
    have hlive := Formed.live_of_placed (hs.placed s hmem)
    rw [(h.old s.alloc (f.hasInst_of_live hlive)).2.1]
    exact hs.instr s hmem
  access s hmem u hu huse := by
    rcases h.hasInst_or_mem hf hu with hold | hnew
    · have hlive := Formed.live_of_placed hold
      rw [(h.old u (f.hasInst_of_live hlive)).2.1] at huse ⊢
      exact hs.access s hmem u hold huse
    · obtain ⟨p, hp, rfl⟩ := mem_map.mp hnew
      rw [(h.new p hp).2.2, operands_openPhi] at huse
      cases huse

lemma mem_storingBlocks_of_storesTo (hf : f.Formed) (ha : f.placed a)
    (hb : b ∈ f.liveBlocks) (hstores : StoresTo g a b) : b.idx ∈ storingBlocks f a := by
  obtain ⟨i, hi, v, hk⟩ := hstores
  rcases h.old_or_new hf.consistent hi with ⟨hold, hsame⟩ | ⟨a', -, hnew⟩
  · exact mem_storingBlocks hf ha hb ⟨i, hold, v, hsame ▸ hk⟩
  · rw [hnew] at hk
    exact absurd hk (by simp [openPhi])

lemma ready (hf : f.Analyzed) (hssa : f.Ssa) (hs : Slots f ss)
    (hhomes : homes = ss.flatMap fun s => (phiBlocks f s.alloc).map (s.alloc, ·)) :
    Ready g ss phis := by
  obtain ⟨hformed, hcomp, hform⟩ := Func.ssa_iff.mp hssa
  have hmem_homes (p : InstId × BlockId) :
      p ∈ homes ↔ p.1 ∈ ss.map Slot.alloc ∧ p.2 ∈ phiBlocks f p.1 := by
    rw [hhomes, mem_flatMap]
    constructor
    · rintro ⟨s, hmem, hp⟩
      obtain ⟨b, hb, rfl⟩ := mem_map.mp hp
      exact ⟨mem_map_of_mem hmem, hb⟩
    · obtain ⟨a, b⟩ := p
      rintro ⟨ha, hb⟩
      obtain ⟨s, hmem, rfl⟩ := mem_map.mp ha
      exact ⟨s, hmem, mem_map.mpr ⟨b, hb, rfl⟩⟩
  have hnd : homes.Nodup := by
    rw [hhomes, nodup_flatMap]
    refine ⟨fun s _ => (nodup_phiBlocks f s.alloc).map fun b c heq => (Prod.mk.inj heq).2, ?_⟩
    refine (pairwise_map.mp hs.nodup).imp fun {s t} hne => ?_
    intro p hp hq
    obtain ⟨b, -, rfl⟩ := mem_map.mp hp
    obtain ⟨c, -, heq⟩ := mem_map.mp hq
    exact hne (Prod.mk.inj heq).1.symm
  have hlookup {i a : InstId} := lookup_eq_some_iff_mem h.nodup (a := i) (b := a)
  have hhome {i a : InstId} (hmem : (i, a) ∈ phis) : (a, (g.inst i).block) ∈ homes := by
    rw [← h.homes]
    exact mem_map.mpr ⟨(i, a), hmem, rfl⟩
  have hedge := h.edge_eq hformed
  have hgform := h.ssaForm hf hcomp hform fun p hp => ((hmem_homes p).mp hp).2
  refine ⟨?_, h.complete hformed hcomp, hgform, h.slots hformed.consistent hs, fun i a hi => ?_,
    fun i j a hi hj hblk => ?_, fun a ha b c hb hc => ?_⟩
  · exact hf.of_sameFrame h.frame h.formed (fun b hb => h.targets_eq hformed hb)
      fun b hb => hgform.flow h.formed (h.liveBlocks.symm ▸ hb)
  · have hmem := hlookup.mp hi
    obtain ⟨-, hpl, hinstr⟩ := h.new _ hmem
    refine ⟨hpl, ?_, ((hmem_homes _).mp (hhome hmem)).1⟩
    rw [hinstr, openPhi, openPhi, h.preds]
  · have hmap : (phis.map fun p => (p.2, (g.inst p.1).block)).Nodup := by
      rw [h.homes]
      exact hnd
    have heq := inj_on_of_nodup_map hmap (hlookup.mp hi) (hlookup.mp hj)
    exact (Prod.mk.inj (heq (by simp [hblk]))).1
  · rw [hedge] at hc
    obtain ⟨s, hmem, rfl⟩ := mem_map.mp ha
    have hpl := hs.placed s hmem
    have hblive : b ∈ f.liveBlocks := by
      obtain ⟨p, -, hp, hdom, -⟩ := hc
      refine hf.mem_liveBlocks_of_reachable ?_ (Func.exists_path_iff.mp (hdom.exists_trail hp))
      obtain ⟨c, hc, -⟩ := mem_flatMap.mp (hformed.mem_liveInsts.mpr hpl)
      exact ne_nil_of_mem hc
    have hphi : c ∈ phiBlocks f s.alloc := by
      refine (phiBlocks_closed hf s.alloc).1 b ?_ c (hf.mem_frontier b hblive c hc)
      refine hb.imp (h.mem_storingBlocks_of_storesTo hformed hpl hblive) ?_
      rintro ⟨i, hi, hlook⟩
      have hblk := h.block_mem (fun p hp => ((hmem_homes p).mp hp).2) (hlookup.mp hlook)
      rwa [h.block_of_mem hi] at hblk
    have hin : (s.alloc, c) ∈ homes := (hmem_homes _).mpr ⟨ha, hphi⟩
    rw [← h.homes] at hin
    obtain ⟨⟨i, a⟩, hmem', heq⟩ := mem_map.mp hin
    obtain ⟨rfl, rfl⟩ := Prod.mk.inj heq
    refine ⟨i, ?_, hlookup.mpr hmem'⟩
    exact h.mem_of_live (Func.Formed.live_of_placed (h.new _ hmem').2.1)

end Inserted

end MiddleEnd.Promotion
