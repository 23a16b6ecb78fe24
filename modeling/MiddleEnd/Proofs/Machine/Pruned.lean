import MiddleEnd.Proofs.Machine.Simplify
import MiddleEnd.Proofs.Ssa

/-!
# Pruned functions

A function without the blocks that control does not get to returns whatever it returned before.
-/

namespace MiddleEnd

open List Instr Operand

lemma Instr.operandFrom?_filterEntries {keep : BlockId → Bool} {p : BlockId} (hp : keep p)
    (k : Instr) : (k.filterEntries keep).operandFrom? (some p) = k.operandFrom? (some p) := by
  rw [operandFrom?, entries_filterEntries, find?_filter]
  congr 2
  funext e
  by_cases he : p = e.block
  · simp [← he, hp]
  · simp [he]

namespace Func

variable {f g : Func}

lemma Pruned.simplifies (hf : f.Routed) (hform : f.SsaForm fun _ => False) (hg : g.Formed)
    (hfg : f.Pruned g) (hent : ⟨0⟩ ∈ f.liveBlocks) :
    f.Simplifies g f.Reachable (fun _ => true) fun _ => none := by
  have hlive {b : BlockId} (hb : f.Reachable b) : b ∈ f.liveBlocks := hform.mem_liveBlocks hent hb
  have hlive' {b : BlockId} (hb : f.Reachable b) : b ∈ g.liveBlocks :=
    (hf.mem_liveBlocks_of_without hfg.without).mpr ⟨hlive hb, hb⟩
  have hinstr {b : BlockId} (hb : f.Reachable b) {i : InstId} (hi : i ∈ f.instsOf b) :
      g.instr i = (f.instr i).filterEntries fun c => !f.unreachable.contains c :=
    hfg.instr_of_mem hf hg.consistent (hlive' hb) (hfg.instsOf hf (hlive' hb) ▸ hi)
  have hfill : fill (fun _ => none) = id := funext fill_none
  constructor
  · exact .refl
  · intro b hb i hi c hc hblk
    have hmem : c ∈ f.targets b :=
      (hf.mem_targets (hlive hb)).mpr ⟨i, (mem_filter.mp hi).1, hc⟩
    have hdel := (hf.mem_liveBlocks.mp (hform.targets b (hlive hb) c hmem)).2
    exact hb.tail ⟨hlive hb, mem_liveTargets.mpr ⟨hmem, hdel⟩⟩
  · intro b _ hblk
    rw [hfg.without.hasBlock, hblk]
  · intro b hb
    rw [hg.phis_eq (hlive' hb), hf.phis_eq (hlive hb), hfg.instsOf hf (hlive' hb),
      filter_true]
    exact filter_congr fun i hi => by rw [hinstr hb hi, filterEntries_isPhi]
  · intro b hb
    rw [Func.body, hfg.instsOf hf (hlive' hb), filter_true]
    exact filter_congr fun i hi => by rw [hinstr hb hi, filterEntries_isPhi]
  · intro b hb i hi _
    exact hfg.without.ty i
  · intro b hb i hi _
    obtain ⟨hi, hphi⟩ := mem_filter.mp hi
    rw [hinstr hb hi, filterEntries_of_not_isPhi _ (by simpa using hphi), hfill]
    exact (mapOperands_id _).symm
  · intro b hb i hi _ p hp
    have hkeep : (!f.unreachable.contains p) := by
      have hnot : p ∉ f.unreachable := fun h => (hf.mem_unreachable.mp h).2 hp
      simpa using hnot
    rw [hinstr hb ((takeWhile_sublist _).subset hi), operandFrom?_filterEntries hkeep, hfill,
      Option.map_id]
    rfl
  · intro i c hc
    cases hc
  · grind
  · grind

lemma SameCode.simplifies (h : f.SameCode g) :
    f.Simplifies g (fun _ => True) (fun _ => true) fun _ => none := by
  have hfill := funext fill_none
  constructor
  all_goals simp [h.hasBlock, h.phis, Func.body, h.instsOf, h.instr, h.inst, hfill, mapOperands_id]

end Func

end MiddleEnd
