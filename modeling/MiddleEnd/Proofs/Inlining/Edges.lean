import MiddleEnd.Proofs.Inlining.Code

/-!
# Control flow of a caller with a copy

The use-lists of a caller with a copy are exact, and every block is terminated and has its phis first.
The edges are those of the caller with the graph of the callee put into the block of the call.
-/

namespace MiddleEnd

open List Bool Instr Nat

def Func.Leaves (f : Func) (b : BlockId) : Prop :=
  b ∈ f.liveBlocks ∧ ∃ i ∈ f.instsOf b, ∃ v, f.instr i = .ret v

namespace Inlining

variable {f g m : Func} {s : Site} {n : Nat} {memset : Option FuncId} {pre post : List InstId}
  {clears merge : List (Instr × Ty)} {value : Option Operand}

lemma not_hasInst_copied {i : InstId} : f.hasInst ((s.copy f).copied i) = false := by
  rw [← not_eq_true, Func.hasInst_iff]
  exact not_lt.mpr (le_add_right _ _)

lemma found_copied {i : InstId} (hi : i ∈ s.callee.liveInsts) :
    ∃ b, Found f s pre post clears merge b ((s.copy f).copied i) := by
  cases hslot : isSlot s.callee i with
  | true => exact ⟨_, .slot hi hslot⟩
  | false =>
    obtain ⟨d, hd, hi⟩ := mem_flatMap.mp hi
    exact ⟨_, .copy hd hi hslot⟩

namespace Replaced

variable {i u : InstId} {b : BlockId}

variable (h : Replaced f s n memset pre post clears merge value m g) {c : BlockId}

include h

/-! ## Places -/

lemma mem_instsOf_old (hi : (f.inst i).live) :
    i ∈ g.instsOf (if i ∈ post then f.nextBlock else (f.inst i).block) := by
  have hf := h.fits.consistent
  split
  · next hpost =>
    rw [h.instsOf_after]
    exact mem_append_right _ hpost
  · next hpost =>
    rw [h.instsOf_old (hf.hasBlock_of_live hi)]
    refine mem_append_right _ ?_
    split
    · next hblk =>
      have hmem := hf.mem_of_live hi
      rw [hblk, h.split] at hmem
      simpa [hpost] using hmem
    · exact hf.mem_of_live hi

lemma block_old (hi : (f.inst i).live) :
    (g.inst i).block = if i ∈ post then f.nextBlock else (f.inst i).block :=
  h.consistent.block_of_mem (h.mem_instsOf_old hi)

lemma live_old (hi : f.hasInst i) (hlive : (g.inst i).live) : (f.inst i).live := by
  have hf := h.fits.caller.consistent
  have hmem := h.consistent.mem_of_live hlive
  have hhas := h.consistent.hasBlock_of_live hlive
  have hlt := f.hasInst_iff.mp hi
  rw [h.expanded.places.hasBlock] at hhas
  rcases h.expanded.spliced.block_cases h.fits.callee.consistent.layout_nodup hhas with
    hold | hafter | ⟨d, hd, hcopy⟩
  · rw [h.instsOf_old hold, mem_append] at hmem
    rcases hmem with hmem | hmem
    · split at hmem
      · obtain ⟨j, -, -, rfl⟩ := Copy.of_mem_slots h.fits.callee.consistent hmem
        rw [not_hasInst_copied] at hi
        cases hi
      · cases hmem
    · split at hmem
      · rcases mem_append.mp hmem with hpre | hcall
        · exact hf.live_of_mem (h.mem_of_mem_pre hpre)
        · rw [mem_singleton.mp hcall]
          exact h.fits.live_call
      · exact hf.live_of_mem hmem
  · rw [hafter, h.instsOf_after, mem_append] at hmem
    rcases hmem with hmem | hpost
    · grind
    · exact hf.live_of_mem (h.mem_of_mem_post hpost)
  · rw [hcopy, h.expanded.places.instsOf, h.expanded.spliced.instsOf_copy d hd, mem_append] at hmem
    rcases hmem with hmem | hmem
    · grind
    · obtain ⟨j, -, rfl⟩ := mem_map.mp (mem_of_mem_filter hmem)
      rw [not_hasInst_copied] at hi
      cases hi

lemma mem_of_found (hu : Found f s pre post clears merge b u) : u ∈ g.instsOf b := by
  have hf := h.fits.consistent
  cases hu with
  | @old b u hb hu hne hpre =>
    rw [h.instsOf_old (hf.mem_liveBlocks.mp hb).1]
    refine mem_append_right _ ?_
    split
    · next hblk => exact mem_append_left _ (hpre hblk)
    · exact hu
  | call =>
    rw [h.instsOf_old (hf.hasBlock_of_live h.fits.live_call)]
    simp
  | @slot i hi hslot =>
    rw [h.instsOf_old h.fits.hasBlock_entry]
    exact mem_append_left _ ((Copy.mem_slots h.fits.callee.consistent hi).mpr hslot)
  | rest hu =>
    rw [h.instsOf_after]
    exact mem_append_right _ hu
  | @merge k p hk =>
    rw [h.instsOf_after]
    exact mem_append_left _ (mem_map_range'.mpr ⟨k, (List.getElem?_eq_some_iff.mp hk).1, rfl⟩)
  | @copy d i hd hi hslot =>
    rw [h.instsOf_copy hd]
    refine mem_append_right _ (mem_map_of_mem (mem_filter.mpr ⟨hi, ?_⟩))
    rw [hslot]
    rfl
  | @clear k p hk =>
    rw [h.instsOf_copy h.fits.entry]
    exact mem_append_left _ (mem_map_range'.mpr ⟨k, (List.getElem?_eq_some_iff.mp hk).1, rfl⟩)

lemma mem_liveBlocks_of_live {d : BlockId} (hd : d ∈ s.callee.liveBlocks) :
    (s.copy f).block d ∈ g.liveBlocks :=
  (h.mem_liveBlocks_copy (mem_of_mem_filter hd)).mpr hd

lemma mem_liveBlocks_of_old (hb : b ∈ f.liveBlocks) : b ∈ g.liveBlocks :=
  (h.mem_liveBlocks_old (h.fits.consistent.mem_liveBlocks.mp hb).1).mpr hb

lemma mem_liveBlocks_of_found (hu : Found f s pre post clears merge b u) :
    b ∈ g.liveBlocks ∨ (g.instr u).operands = [] := by
  cases hu with
  | old hb => exact Or.inl (h.mem_liveBlocks_of_old hb)
  | call => exact Or.inl (h.mem_liveBlocks_of_old h.fits.mem_liveBlocks_call)
  | @slot i hi hslot =>
    obtain ⟨t, ht⟩ := isSlot_iff.mp hslot
    rw [h.instr_copied hi, ht]
    exact Or.inr rfl
  | rest | merge => exact Or.inl h.mem_liveBlocks_after
  | copy hd => exact Or.inl (h.mem_liveBlocks_of_live hd)
  | clear => exact Or.inl (h.mem_liveBlocks_of_live h.fits.entry)

lemma counts_of_found (hu : Found f s pre post clears merge b u) : counts f g.insts.size u := by
  have hsize := h.size_insts
  have hpl {u : InstId} (hu : f.placed u) : counts f g.insts.size u := by
    simp [counts, hu]
  refine h.of_found hu (fun u hu _ => hpl hu) (hpl h.fits.call) (fun i hi => ?_)
    (fun k p hk => ?_) fun k p hk => ?_
  · have hlt := idxOf_lt_length_iff.mpr hi
    refine counts_of_le (le_add_right _ _) ?_
    change f.insts.size + s.callee.liveInsts.idxOf i < _
    omega
  · have hlt := (List.getElem?_eq_some_iff.mp hk).1
    exact counts_of_le (by dsimp only [Site.size]; omega) (by dsimp only [Site.size]; omega)
  · have hlt := (List.getElem?_eq_some_iff.mp hk).1
    exact counts_of_le (by dsimp only [Site.size]; omega) (by dsimp only [Site.size]; omega)

lemma found_placed (hu : f.placed u) : ∃ b, Found f s pre post clears merge b u := by
  have hf := h.fits.consistent
  by_cases hcall : u = s.call
  · exact ⟨_, hcall ▸ Found.call⟩
  by_cases hpost : u ∈ post
  · exact ⟨_, .rest hpost⟩
  have hmem := hf.mem_of_live (and_eq_true_iff.mp hu).1
  refine ⟨_, .old (hf.block_mem_of_placed hu) hmem hcall fun hblk => ?_⟩
  rw [hblk, h.split] at hmem
  simpa [hcall, hpost] using hmem

lemma exists_found (hu : counts f g.insts.size u) : ∃ b, Found f s pre post clears merge b u := by
  have hsize := h.size_insts
  simp only [counts, or_eq_true, and_eq_true, decide_eq_true_eq] at hu
  rcases hu with hu | ⟨hle, hlt⟩
  · exact h.found_placed hu
  rw [hsize, add_assoc _ clears.length, ← length_append] at hlt
  rcases new_cases h.fits.callee.consistent hle hlt with ⟨i, hi, rfl⟩ | ⟨k, p, hk, rfl⟩
  · exact found_copied hi
  by_cases hclear : k < clears.length
  · exact ⟨_, .clear (List.getElem?_eq_getElem hclear)⟩
  · obtain ⟨k, rfl⟩ := Nat.exists_eq_add_of_le (Nat.not_lt.mp hclear)
    rw [List.getElem?_append_right (Nat.le_add_right _ _), Nat.add_sub_cancel_left] at hk
    rw [← add_assoc]
    exact ⟨_, .merge hk⟩

lemma placed_eq_counts (u : InstId) :
    g.placed u = counts f g.insts.size u ∨ (g.instr u).operands = [] := by
  cases hu : counts f g.insts.size u with
  | true =>
    obtain ⟨b, hfound⟩ := h.exists_found hu
    refine (h.mem_liveBlocks_of_found hfound).imp_left fun hb => ?_
    exact h.consistent.placed_of_mem hb (h.mem_of_found hfound)
  | false =>
    left
    rw [← not_eq_true]
    intro hpl
    obtain ⟨b, hb, hmem⟩ := mem_flatMap.mp (h.consistent.mem_liveInsts.mpr hpl)
    rw [h.counts_of_found (h.found hb hmem)] at hu
    cases hu

lemma formed : g.Formed where
  consistent := h.consistent
  terminated _ hb := h.terminated hb
  phis_first _ hb := h.phis_first hb
  uses v hv hdefs := by
    have htallied := (h.expanded.counted h.fits).2.tallied.congr h.placed_eq_counts fun u hu =>
      g.hasInst_of_live (and_eq_true_iff.mp hu).1
    refine htallied.uses v hv ?_
    rintro i rfl hhas
    exact h.live_old hhas hdefs

/-! ## Edges -/

lemma targets_old (hu : f.placed u) (hne : u ≠ s.call) :
    (g.instr u).targets = (f.instr u).targets := by
  rw [h.instr_old hu hne, (sameShape_mapOperands _ _).targets, targets_renameEntry]

lemma targets_copied (hi : i ∈ s.callee.liveInsts) :
    (g.instr ((s.copy f).copied i)).targets = ((s.copy f).instr (s.callee.instr i)).targets := by
  rw [h.instr_copied hi, (sameShape_mapOperands _ _).targets]

lemma grafted_of_found (hu : Found f s pre post clears merge b u)
    (hc : c ∈ (g.instr u).targets) : c ∈ g.liveBlocks ∧ Grafted f.Edge s.callee.Edge ⟨0⟩
      s.callee.Leaves (f.inst s.call).block f.nextBlock (s.copy f).block b c := by
  have hf := h.fits.consistent
  have hplain (hterm : (g.instr u).isTerminator = false) : False := by
    rw [targets_of_not_isTerminator hterm] at hc
    cases hc
  cases hu with
  | old hb hu hne hpre =>
    have hkind := h.kind_old (hf.placed_of_mem hb hu) hne
    rw [h.targets_old (hf.placed_of_mem hb hu) hne] at hc
    obtain ⟨hedge, hlive⟩ := h.fits.edge_of_target hb hu hc
    refine ⟨h.mem_liveBlocks_of_old hlive, .keep (fun hblk => hplain ?_) hedge⟩
    obtain ⟨-, -, -, -, hbefore, -⟩ := h.fits.exists_last h.split
    rw [hkind.1, hbefore _ (hpre hblk)]
  | call =>
    rw [h.instr_call] at hc
    obtain rfl := mem_singleton.mp hc
    exact ⟨h.mem_liveBlocks_of_live h.fits.entry, .enter⟩
  | slot hi hslot =>
    refine (hplain ?_).elim
    rw [(h.kind_copied hi).1, (isPhi_of_isSlot hslot).2]
  | rest hu =>
    rw [h.targets_old (h.placed_of_mem_post hu) (h.ne_call_of_mem_post hu)] at hc
    obtain ⟨hedge, hlive⟩ :=
      h.fits.edge_of_target h.fits.mem_liveBlocks_call (h.mem_of_mem_post hu) hc
    exact ⟨h.mem_liveBlocks_of_old hlive, .resume hedge⟩
  | merge hk =>
    exact (hplain (h.kind_merge hk).1).elim
  | @copy d i hd hi =>
    rw [h.targets_copied (mem_flatMap.mpr ⟨d, hd, hi⟩)] at hc
    rcases (s.copy f).instr_cases (s.callee.instr i) with ⟨v, hret, heq⟩ | ⟨-, heq⟩
    · rw [heq] at hc
      obtain rfl := mem_singleton.mp hc
      exact ⟨h.mem_liveBlocks_after, .leave ⟨hd, i, hi, v, hret⟩⟩
    · rw [heq, targets_mapBlocks, (sameShape_mapOperands _ _).targets] at hc
      obtain ⟨e, he, rfl⟩ := mem_map.mp hc
      obtain ⟨hedge, hlive⟩ := h.fits.callee.edge_of_target hd hi he
      exact ⟨h.mem_liveBlocks_of_live hlive, .inside hedge⟩
  | clear hk =>
    exact (hplain (h.kind_clear hk).1).elim

lemma found_of_grafted (hbc : Grafted f.Edge s.callee.Edge ⟨0⟩
    s.callee.Leaves (f.inst s.call).block f.nextBlock (s.copy f).block b c) :
    b ∈ g.liveBlocks ∧ ∃ u, Found f s pre post clears merge b u ∧ c ∈ (g.instr u).targets := by
  have hf := h.fits.consistent
  cases hbc with
  | keep hne hedge =>
    obtain ⟨hb, i, hi, hc⟩ := h.fits.edge_iff.mp hedge
    have hcall : i ≠ s.call := by
      rintro rfl
      exact hne (hf.block_of_mem hi).symm
    refine ⟨h.mem_liveBlocks_of_old hb, i, .old hb hi hcall fun heq => absurd heq hne, ?_⟩
    rwa [h.targets_old (hf.placed_of_mem hb hi) hcall]
  | resume hedge =>
    obtain ⟨hb, i, hi, hc⟩ := h.fits.edge_iff.mp hedge
    have hterm := isTerminator_of_mem_targets hc
    obtain ⟨-, -, -, -, hbefore, -⟩ := h.fits.exists_last h.split
    have hpost : i ∈ post := by
      rw [h.split, mem_append, mem_cons] at hi
      rcases hi with hpre | rfl | hpost
      · cases (hbefore i hpre).symm.trans hterm
      · cases h.fits.isTerminator_call.symm.trans hterm
      · exact hpost
    refine ⟨h.mem_liveBlocks_after, i, .rest hpost, ?_⟩
    rwa [h.targets_old (h.placed_of_mem_post hpost) fun heq => h.nodup_call.2.1 (heq ▸ hpost)]
  | enter =>
    refine ⟨h.mem_liveBlocks_of_old h.fits.mem_liveBlocks_call, s.call, .call, ?_⟩
    rw [h.instr_call]
    exact mem_singleton_self _
  | @inside d e hedge =>
    obtain ⟨hd, i, hi, he⟩ := h.fits.callee.edge_iff.mp hedge
    have hslot : isSlot s.callee i = false := by
      rw [← not_eq_true]
      intro hslot
      rw [targets_of_not_isTerminator (isPhi_of_isSlot hslot).2] at he
      cases he
    refine ⟨h.mem_liveBlocks_of_live hd, _, .copy hd hi hslot, ?_⟩
    rw [h.targets_copied (mem_flatMap.mpr ⟨d, hd, hi⟩)]
    rcases (s.copy f).instr_cases (s.callee.instr i) with ⟨v, hret, -⟩ | ⟨-, heq⟩
    · rw [hret] at he
      cases he
    · rw [heq, targets_mapBlocks, (sameShape_mapOperands _ _).targets]
      exact mem_map_of_mem he
  | @leave d hleaves =>
    obtain ⟨hd, i, hi, v, hret⟩ := hleaves
    have hslot : isSlot s.callee i = false := by
      rw [isSlot, hret]
    refine ⟨h.mem_liveBlocks_of_live hd, _, .copy hd hi hslot, ?_⟩
    rw [h.targets_copied (mem_flatMap.mpr ⟨d, hd, hi⟩), hret]
    exact mem_singleton_self _

lemma mem_liveBlocks_of_target (hb : b ∈ g.liveBlocks) (hu : u ∈ g.instsOf b)
    (hc : c ∈ (g.instr u).targets) : c ∈ g.liveBlocks :=
  (h.grafted_of_found (h.found hb hu) hc).1

lemma edge_eq : g.Edge = Grafted f.Edge s.callee.Edge ⟨0⟩ s.callee.Leaves (f.inst s.call).block
    f.nextBlock (s.copy f).block := by
  funext b c
  refine propext ((h.formed.edge_iff fun _ hb _ hu _ hc =>
    h.mem_liveBlocks_of_target hb hu hc).trans ⟨?_, fun hbc => ?_⟩)
  · rintro ⟨hb, u, hu, hc⟩
    exact (h.grafted_of_found (h.found hb hu) hc).2
  · obtain ⟨hb, u, hu, hc⟩ := h.found_of_grafted hbc
    exact ⟨hb, u, h.mem_of_found hu, hc⟩

lemma graft : Graft f.Edge s.callee.Edge ⟨0⟩ (f.inst s.call).block f.nextBlock (s.copy f).block
    f.hasBlock where
  site_old := h.fits.consistent.hasBlock_of_live h.fits.live_call
  edge_old _ _ hedge := ⟨(h.fits.consistent.mem_liveBlocks.mp hedge.1).1,
    (h.fits.consistent.mem_liveBlocks.mp (h.fits.mem_liveBlocks_of_edge hedge)).1⟩
  rest_new := f.not_hasBlock_nextBlock
  copy_new c := by
    rw [← not_eq_true]
    exact fun hhas => block_copy_ne (Or.inl hhas) rfl
  copy_ne_rest c := block_copy_ne (Or.inr rfl)
  entry_inj c heq := (s.copy f).block_inj (mem_of_mem_filter h.fits.entry) heq
  inner_inj _ _ _ hedge heq :=
    (s.copy f).block_inj (mem_of_mem_filter (h.fits.callee.mem_liveBlocks_of_edge hedge)) heq

end Replaced

end Inlining

end MiddleEnd
