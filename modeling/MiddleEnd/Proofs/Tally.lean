import MiddleEnd.Proofs.Edits

/-!
# Use-lists that count the uses by some instructions

Edits keep use-lists exact for whatever instructions are counted, live ones or ones in live blocks, as
long as what these name exists.  Then a new instruction has no users yet.  Nothing is said about values
that are not known, for instance removed instructions.
-/

namespace MiddleEnd.Func

open Bool List

variable {f g : Func} {counted : InstId → Bool} {known : Operand → Prop}

/-- The use-lists of known values are the uses by counted instructions, and what these name exists. -/
structure Tallied (f : Func) (counted : InstId → Bool) (known : Operand → Prop) : Prop where
  uses : ∀ v, f.tracks v → known v → f.UsesOf counted v
  admits : ∀ u, counted u → ∀ v ∈ (f.instr u).operands, f.admits v
  exist : ∀ u, counted u → f.hasInst u

lemma admits_of_tracks {v : Operand} (htr : f.tracks v → g.tracks v)
    (h : f.admits v) : g.admits v := by
  cases v with
  | inst i => exact htr h
  | _ => rfl

namespace Tallied

variable (hf : f.Tallied counted known)
include hf

variable {k : Instr}

lemma sameUses (hfg : f.SameUses g) : g.Tallied counted known where
  uses v hv hknown := hfg.usesOf (hf.uses v ((hfg.tracks v).symm.trans hv) hknown)
  admits u hu v hv := by
    rw [hfg.operands] at hv
    exact admits_of_tracks (fun h => (hfg.tracks v).trans h) (hf.admits u hu v hv)
  exist u hu := (hfg.tracks (.inst u)).trans (hf.exist u hu)

lemma congr {counted' : InstId → Bool}
    (hsame : ∀ u, counted' u = counted u ∨ (f.instr u).operands = [])
    (hexist : ∀ u, counted' u → f.hasInst u) : f.Tallied counted' known where
  uses v hv hknown u := by
    rw [hf.uses v hv hknown u]
    rcases hsame u with heq | hnil
    · rw [heq]
    · simp [hnil]
  admits u hu v hv := by
    rcases hsame u with heq | hnil
    · exact hf.admits u (heq ▸ hu) v hv
    · simp_all
  exist := hexist

lemma usesOf_nextInst : f.UsesOf counted (.inst f.nextInst) := by
  intro u
  have hnone : f.users (.inst f.nextInst) = [] := by
    rw [users, inst_of_not_hasInst f f.not_hasInst_nextInst]
    rfl
  rw [hnone]
  split
  · next hu =>
    refine (count_eq_zero.mpr fun hmem => ?_).symm
    have hadmits := hf.admits u hu _ hmem
    rw [Func.admits, f.not_hasInst_nextInst] at hadmits
    exact false_ne_true hadmits
  · rfl

lemma create {b : BlockId} {t : Ty} (hk : k.operands.all f.admitsNew) :
    (f.create b k t).Tallied (fun u => decide (u = f.nextInst) || counted u) known where
  uses v hv hknown := by
    have hnew : counted f.nextInst = false := by
      rw [← not_eq_true]
      intro h
      exact false_ne_true (f.not_hasInst_nextInst.symm.trans (hf.exist _ h))
    have hold : f.UsesOf counted v := by
      have htr := hv
      rw [tracks_create, or_eq_true, decide_eq_true_eq] at htr
      rcases htr with htr | rfl
      · exact hf.uses v htr hknown
      · exact hf.usesOf_nextInst
    exact hold.create hnew hv
  admits u hu v hv := by
    rw [or_eq_true, decide_eq_true_eq] at hu
    rw [instr_create] at hv
    by_cases hnew : u = f.nextInst
    · rw [if_pos hnew] at hv
      have hadmits := all_eq_true.mp hk v hv
      cases v with
      | inst i =>
        have hle : i.idx ≤ f.insts.size := by simpa [admitsNew] using hadmits
        have htr := tracks_create f b k t (.inst i)
        rw [tracks, tracks] at htr
        rw [Func.admits, htr, or_eq_true, hasInst_iff, decide_eq_true_eq]
        rcases Nat.lt_or_eq_of_le hle with hlt | heq
        · exact .inl hlt
        · exact .inr (by rw [nextInst, ← heq])
      | _ => rfl
    · rw [if_neg hnew] at hv
      refine admits_of_tracks (fun h => ?_) (hf.admits u (hu.resolve_left hnew) v hv)
      rw [tracks_create, h, Bool.true_or]
  exist u hu := by
    have htr := tracks_create f b k t (.inst u)
    rw [tracks] at htr
    rw [htr, or_eq_true, decide_eq_true_eq]
    rw [or_eq_true, decide_eq_true_eq] at hu
    rcases hu with rfl | hu
    · exact .inr rfl
    · exact .inl (hf.exist u hu)

lemma replaceInstr {i : InstId} (hi : counted i)
    (hk : ∀ v ∈ k.operands, f.admits v) : (f.replaceInstr i k).Tallied counted known where
  uses v hv hknown := by
    rw [tracks_replaceInstr] at hv
    exact (hf.uses v hv hknown).replaceInstr hv (hf.exist i hi) hi k
  admits u hu v hv := by
    refine admits_of_tracks (fun h => (tracks_replaceInstr f i k v).trans h) ?_
    by_cases hui : u = i
    · subst hui
      rw [instr_replaceInstr_self (hf.exist u hi)] at hv
      exact hk v hv
    · rw [instr_replaceInstr_of_ne hui] at hv
      exact hf.admits u hu v hv
  exist u hu := (tracks_replaceInstr f i k (.inst u)).trans (hf.exist u hu)

lemma replaceUses {old new : Operand} (hold : known old) (hnew : old = new ∨ f.admits new) :
    (f.replaceUses old new).2.Tallied counted known := by
  by_cases hdo : old = new ∨ f.tracks old = false
  · rw [Func.replaceUses, if_pos hdo]
    exact hf
  · obtain ⟨hne, htr⟩ := not_or.mp hdo
    rw [not_eq_false] at htr
    have holdUses := hf.uses old htr hold
    constructor
    · intro v hv hknown
      rw [tracks_replaceUses] at hv
      exact holdUses.replaceUses htr (hf.uses v hv hknown) hv hf.exist new
    · intro u hu v hv
      refine admits_of_tracks (fun h => (tracks_replaceUses f old new v).trans h) ?_
      rw [instr_replaceUses holdUses htr new fun h => hf.exist u h, if_pos hu,
        Instr.operands_mapOperands] at hv
      obtain ⟨w, hw, rfl⟩ := mem_map.mp hv
      unfold subst
      split
      · exact hnew.resolve_left hne
      · exact hf.admits u hu w hw
    · exact fun u hu => (tracks_replaceUses f old new (.inst u)).trans (hf.exist u hu)

end Tallied

end MiddleEnd.Func
