import Mathlib.Data.List.Perm.Basic
import MiddleEnd.Proofs.Record

/-!
# Use-lists as multisets

Use-lists are kept in an order of their own, so they are compared by how often they name each
instruction.  `Func.UsesOf f counted v` says that the use-list of `v` names every counted
instruction once for each of its operands that is `v`, and no other instruction.  Recording and
dropping the uses of an instruction changes these numbers for that instruction alone.
-/

namespace MiddleEnd

open List

variable {α : Type}

/-! ## Dropping one entry -/

lemma eraseSwap_perm [DecidableEq α] (a : α) (xs : List α) :
    (eraseSwap a xs).Perm (xs.erase a) := by
  rcases eq_nil_or_concat xs with rfl | ⟨ys, z, rfl⟩
  · simp [eraseSwap]
  · rw [concat_eq_append]
    cases hidx : (ys ++ [z]).idxOf? a with
    | none =>
      have hnot : a ∉ ys ++ [z] := List.idxOf?_eq_none_iff.mp hidx
      simp [eraseSwap, hidx, erase_of_not_mem hnot]
    | some n =>
      obtain ⟨hn, hget, hfirst⟩ := List.idxOf?_eq_some_iff.mp hidx
      have hswap : eraseSwap a (ys ++ [z]) = ((ys ++ [z]).set n z).dropLast := by
        simp [eraseSwap, hidx]
      rw [hswap]
      by_cases hlast : n < ys.length
      · have hy : ys[n] = a := by rw [← hget, getElem_append_left hlast]
        have hmem : a ∈ ys := hy ▸ getElem_mem hlast
        rw [set_append_left n z hlast, dropLast_concat, erase_append_left _ hmem]
        -- the last element takes the place of `a` among the others
        have hcons : (a :: ys.eraseIdx n).Perm (a :: ys.erase a) := by
          have herase := getElem_cons_eraseIdx_perm hlast
          rw [hy] at herase
          exact herase.trans (perm_cons_erase hmem)
        have hset := set_perm_cons_eraseIdx hlast z
        exact (hset.trans ((perm_cons z).mpr ((perm_cons a).mp hcons))).trans
          (perm_append_singleton z _).symm
      · have hn' : n = ys.length := by
          simp only [length_append, length_singleton] at hn
          omega
        subst hn'
        have hz : z = a := by simpa using hget
        have hnot : a ∉ ys := by
          intro hmem
          obtain ⟨m, hm, hma⟩ := getElem_of_mem hmem
          exact hfirst m hm (by rw [getElem_append_left hm]; exact hma)
        subst hz
        simp [erase_append_right _ hnot]

lemma count_eraseSwap [DecidableEq α] (a b : α) (xs : List α) :
    (eraseSwap a xs).count b = xs.count b - if b = a then 1 else 0 := by
  rw [(eraseSwap_perm a xs).count_eq]
  by_cases h : b = a
  · simp [h]
  · simp [h]

lemma count_flatMap_replicate [DecidableEq α] {us : List α} (hus : us.Nodup) (c : α → Nat) (u : α) :
    (us.flatMap fun w => List.replicate (c w) w).count u = if u ∈ us then c u else 0 := by
  induction us with
  | nil => rfl
  | cons w us ih =>
    obtain ⟨hw, hus⟩ := nodup_cons.mp hus
    rw [flatMap_cons, count_append, count_replicate, ih hus]
    by_cases hwu : w = u
    · subst hwu
      simp [hw]
    · simp [hwu, Ne.symm hwu]

namespace Func

/-! ## One use-list -/

variable {w : Operand}

lemma users_modifyInst (f : Func) {g : InstRecord → InstRecord}
    (hg : ∀ r, (g r).users = r.users) (i : InstId) (v : Operand) :
    (f.modifyInst i g).users v = f.users v := by
  cases v with
  | inst j => exact modifyInst_project f InstRecord.users hg i j
  | arg n => rfl
  | const c => rfl
  | global g => rfl

lemma users_modifyUsers (f : Func) (v w : Operand) (g : List InstId → List InstId) :
    (f.modifyUsers v g).users w =
      if w = v ∧ f.tracks v then g (f.users w) else f.users w := by
  cases v with
  | inst i =>
    cases w with
    | inst j =>
      simp only [modifyUsers, users, inst_modifyInst, tracks, Operand.inst.injEq]
      split <;> rfl
    | arg n => simp [modifyUsers, users, modifyInst]
    | const c => simp [users]
    | global c => simp [users]
  | arg m =>
    cases w with
    | inst j => simp [modifyUsers, users, modifyParam, inst]
    | arg n =>
      simp only [modifyUsers, users, modifyParam, getD_modify, tracks, Operand.arg.injEq,
        decide_eq_true_eq]
      split <;> rfl
    | const c => simp [users]
    | global c => simp [users]
  | const c => simp [modifyUsers, tracks]
  | global c => simp [modifyUsers, tracks]

@[simp]
lemma tracks_modifyInst (f : Func) (i : InstId) (g : InstRecord → InstRecord) (v : Operand) :
    (f.modifyInst i g).tracks v = f.tracks v := by
  cases v with
  | inst j => exact hasInst_modifyInst f i j g
  | arg n => rfl
  | const c => rfl
  | global c => rfl

section

variable (f : Func) (v : Operand) (g : List InstId → List InstId)

@[simp]
lemma size_modifyUsers : (f.modifyUsers v g).insts.size = f.insts.size := by
  cases v with
  | inst i => exact size_modifyInst f i _
  | arg n => rfl
  | const c => rfl
  | global c => rfl

@[simp]
lemma params_size_modifyUsers : (f.modifyUsers v g).params.size = f.params.size := by
  cases v with
  | inst i => rfl
  | arg n => simp [modifyUsers, modifyParam]
  | const c => rfl
  | global c => rfl

@[simp]
lemma hasInst_modifyUsers (j : InstId) : (f.modifyUsers v g).hasInst j = f.hasInst j := by
  simp only [hasInst, size_modifyUsers]

end

@[simp]
lemma tracks_modifyUsers (f : Func) (v w : Operand) (g : List InstId → List InstId) :
    (f.modifyUsers v g).tracks w = f.tracks w := by
  cases w <;> simp only [tracks, hasInst_modifyUsers, params_size_modifyUsers]

@[simp]
lemma bare_modifyUsers (f : Func) (v : Operand) (g : List InstId → List InstId) (j : InstId) :
    ((f.modifyUsers v g).inst j).bare = (f.inst j).bare := by
  cases v with
  | inst i =>
    have hbare : ∀ r : InstRecord, { r with users := g r.users }.bare = r.bare := fun _ => rfl
    exact modifyInst_project f InstRecord.bare hbare i j
  | arg n => rfl
  | const c => rfl
  | global c => rfl

/-! ## All uses of an instruction -/

lemma bare_foldl_modifyUsers (g : List InstId → List InstId) (vs : List Operand) (f : Func)
    (j : InstId) :
    ((vs.foldl (fun f v => f.modifyUsers v g) f).inst j).bare = (f.inst j).bare := by
  induction vs generalizing f with
  | nil => rfl
  | cons v vs ih => rw [foldl_cons, ih, bare_modifyUsers]

lemma tracks_foldl_modifyUsers (g : List InstId → List InstId) (vs : List Operand) (f : Func)
    (w : Operand) : (vs.foldl (fun f v => f.modifyUsers v g) f).tracks w = f.tracks w := by
  induction vs generalizing f with
  | nil => rfl
  | cons v vs ih => rw [foldl_cons, ih, tracks_modifyUsers]

@[simp]
lemma bare_register (f : Func) (i j : InstId) : ((f.register i).inst j).bare = (f.inst j).bare :=
  bare_foldl_modifyUsers _ _ f j

@[simp]
lemma bare_unregister (f : Func) (i j : InstId) :
    ((f.unregister i).inst j).bare = (f.inst j).bare :=
  bare_foldl_modifyUsers _ _ f j

@[simp]
lemma tracks_register (f : Func) (i : InstId) (w : Operand) :
    (f.register i).tracks w = f.tracks w :=
  tracks_foldl_modifyUsers _ _ f w

@[simp]
lemma tracks_unregister (f : Func) (i : InstId) (w : Operand) :
    (f.unregister i).tracks w = f.tracks w :=
  tracks_foldl_modifyUsers _ _ f w

lemma count_users_register (f : Func) (i u : InstId) (hw : f.tracks w) :
    ((f.register i).users w).count u =
      (f.users w).count u + if u = i then (f.instr i).operands.count w else 0 := by
  have hfold (vs : List Operand) (f : Func) (hw : f.tracks w) :
      ((vs.foldl (fun f v => f.modifyUsers v (· ++ [i])) f).users w).count u =
        (f.users w).count u + if u = i then vs.count w else 0 := by
    induction vs generalizing f with
    | nil => simp
    | cons v vs ih =>
      rw [foldl_cons, ih _ (by rw [tracks_modifyUsers]; exact hw), users_modifyUsers]
      by_cases hv : w = v
      · grind
      · simp [hv, Ne.symm hv]
  exact hfold _ f hw

lemma count_users_unregister (f : Func) (i u : InstId) (hw : f.tracks w) :
    ((f.unregister i).users w).count u =
      (f.users w).count u - if u = i then (f.instr i).operands.count w else 0 := by
  have hfold (vs : List Operand) (f : Func) (hw : f.tracks w) :
      ((vs.foldl (fun f v => f.modifyUsers v (eraseSwap i)) f).users w).count u =
        (f.users w).count u - if u = i then vs.count w else 0 := by
    induction vs generalizing f with
    | nil => simp
    | cons v vs ih =>
      rw [foldl_cons, ih _ (by rw [tracks_modifyUsers]; exact hw), users_modifyUsers]
      by_cases hv : w = v
      · subst hv
        rw [if_pos ⟨rfl, hw⟩, count_eraseSwap]
        by_cases hu : u = i
        · simp [hu]
          omega
        · simp [hu]
      · simp [hv, Ne.symm hv]
  exact hfold _ f hw

/-! ## Exact use-lists -/

/-- The use-list of `v` names each counted instruction as often as that names `v`, and nothing
else. -/
def UsesOf (f : Func) (counted : InstId → Bool) (v : Operand) : Prop :=
  ∀ u, (f.users v).count u = if counted u then (f.instr u).operands.count v else 0

end Func

end MiddleEnd
