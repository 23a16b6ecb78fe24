import MiddleEnd.Proofs.Frame

/-!
# Use-lists after an edit

What each edit of a function does to operations, liveness and use-lists.  Moving an instruction
changes none of them.  Every other edit is described for one value `v` at a time: if the use-list of
`v` is exact for the counted instructions before the edit, it is exact afterwards, where a new
instruction is counted from now on and a removed one no longer.
-/

namespace MiddleEnd

open List Func Instr

/-! ## Operands of a changed operation -/

variable {pred : BlockId}

@[simp]
lemma Instr.operands_mapOperands (g : Operand → Operand) (k : Instr) :
    (k.mapOperands g).operands = k.operands.map g := by
  cases k with
  | phi es =>
    simp only [mapOperands, operands, filterMap_map, map_filterMap]
    rfl
  | ret v => cases v <;> rfl
  | _ => rfl

@[simp]
lemma Instr.operands_mapBlocks (g : BlockId → BlockId) (k : Instr) :
    (k.mapBlocks g).operands = k.operands := by
  cases k with
  | phi es =>
    simp only [mapBlocks, operands, filterMap_map]
    rfl
  | _ => rfl

lemma Instr.mapOperands_mapOperands (g h : Operand → Operand) (k : Instr) :
    (k.mapOperands g).mapOperands h = k.mapOperands fun v => h (g v) := by
  cases k with
  | phi es => simp [mapOperands, Function.comp_def]
  | ret v => cases v <;> rfl
  | _ => simp [mapOperands, Function.comp_def]

lemma Instr.mapOperands_congr {g h : Operand → Operand} {k : Instr}
    (hgh : ∀ v ∈ k.operands, g v = h v) : k.mapOperands g = k.mapOperands h := by
  cases k with
  | phi es =>
    simp only [operands, mem_filterMap] at hgh
    simp only [mapOperands, phi.injEq]
    refine map_congr_left fun e he => ?_
    cases hval : e.value with
    | none => rfl
    | some v => simp [hgh v ⟨e, he, hval⟩]
  | ret v =>
    cases v with
    | none => rfl
    | some v => simpa [mapOperands, operands] using hgh
  | _ => simp_all [mapOperands, operands]

lemma Instr.mapOperands_id (k : Instr) : (k.mapOperands fun v => v) = k := by
  cases k with
  | phi es => simp [mapOperands]
  | ret v => cases v <;> rfl
  | _ => simp [mapOperands]

lemma Instr.isTerminator_mapOperands (g : Operand → Operand) (k : Instr) :
    (k.mapOperands g).isTerminator = k.isTerminator := by
  cases k <;> rfl

lemma Instr.isPhi_mapOperands (g : Operand → Operand) (k : Instr) :
    (k.mapOperands g).isPhi = k.isPhi := by
  cases k <;> rfl

lemma operands_fillEntry {v : Operand} {es es' : List PhiEntry}
    (h : fillEntry pred v es = some es') :
    (es'.filterMap PhiEntry.value).Perm (v :: es.filterMap PhiEntry.value) := by
  induction es generalizing es' with
  | nil => exact absurd h (by simp [fillEntry])
  | cons e es ih =>
    rw [fillEntry] at h
    split at h
    · grind
    · obtain ⟨rest, hrest, rfl⟩ := Option.map_eq_some_iff.mp h
      have hperm := ih hrest
      cases hval : e.value with
      | none => simpa [hval] using hperm
      | some w => grind

namespace Func

variable {i : InstId} {new old v : Operand} {counted : InstId → Bool} {f g h : Func} {w : Operand}
  {phi j : InstId}

/-! ## Edits that make and drop no uses -/

/-- The instructions and values of `g` are used as those of `f` are. -/
structure SameUses (f g : Func) : Prop where
  tracks : ∀ v, g.tracks v = f.tracks v
  users : ∀ v, g.users v = f.users v
  operands : ∀ i, (g.instr i).operands = (f.instr i).operands
  live : ∀ i, (g.inst i).live = (f.inst i).live

namespace SameUses

lemma refl (f : Func) : f.SameUses f :=
  ⟨fun _ => rfl, fun _ => rfl, fun _ => rfl, fun _ => rfl⟩

lemma trans (hfg : f.SameUses g) (hgh : g.SameUses h) : f.SameUses h where
  tracks v := (hgh.tracks v).trans (hfg.tracks v)
  users v := (hgh.users v).trans (hfg.users v)
  operands i := (hgh.operands i).trans (hfg.operands i)
  live i := (hgh.live i).trans (hfg.live i)

lemma usesOf (hfg : f.SameUses g)
    (hv : f.UsesOf counted v) : g.UsesOf counted v := by
  intro u
  rw [hfg.users, hfg.operands]
  exact hv u

lemma of_inst (hpar : g.params = f.params) (hsize : g.insts.size = f.insts.size)
    (hinst : ∀ i, (g.inst i).users = (f.inst i).users ∧ (g.inst i).live = (f.inst i).live ∧
      (g.instr i).operands = (f.instr i).operands) : f.SameUses g where
  tracks v := by cases v <;> simp only [Func.tracks, hasInst, hsize, hpar]
  users v := by
    cases v with
    | inst i => exact (hinst i).1
    | _ => simp only [Func.users, hpar]
  operands i := (hinst i).2.2
  live i := (hinst i).2.1

end SameUses

lemma sameUses_modifyBlock (f : Func) (b : BlockId) (d : Block → Block) :
    f.SameUses (f.modifyBlock b d) :=
  .of_inst rfl rfl fun _ => ⟨rfl, rfl, rfl⟩

lemma sameUses_modifyInst (f : Func) (i : InstId) {k : InstRecord → InstRecord}
    (hk : ∀ r, (k r).users = r.users ∧ (k r).live = r.live ∧
      (k r).instr.operands = r.instr.operands) : f.SameUses (f.modifyInst i k) := by
  refine .of_inst rfl (size_modifyInst f i k) fun j => ⟨?_, ?_, ?_⟩
  · exact modifyInst_project f InstRecord.users (fun r => (hk r).1) i j
  · exact modifyInst_project f InstRecord.live (fun r => (hk r).2.1) i j
  · exact modifyInst_project f (fun r => r.instr.operands) (fun r => (hk r).2.2) i j

lemma sameUses_setNext (f : Func) (b : BlockId) (prev next : Option InstId) :
    f.SameUses (f.setNext b prev next) := by
  cases prev with
  | none => exact sameUses_modifyBlock f b _
  | some p => exact sameUses_modifyInst f p fun r => ⟨rfl, rfl, rfl⟩

lemma sameUses_setPrev (f : Func) (b : BlockId) (prev next : Option InstId) :
    f.SameUses (f.setPrev b prev next) := by
  cases next with
  | none => exact sameUses_modifyBlock f b _
  | some n => exact sameUses_modifyInst f n fun r => ⟨rfl, rfl, rfl⟩

lemma sameUses_link (f : Func) (b : BlockId) (prev : Option InstId) (i : InstId) :
    f.SameUses (f.link b prev i) := by
  refine .trans (.trans (.trans ?_ (sameUses_setNext _ b _ _)) (sameUses_setPrev _ b _ _))
    (sameUses_modifyBlock _ b _)
  exact sameUses_modifyInst f i fun r => ⟨rfl, rfl, rfl⟩

lemma sameUses_unlink (f : Func) (i : InstId) : f.SameUses (f.unlink i) := by
  refine .trans (.trans ?_ (sameUses_modifyBlock _ _ _)) (sameUses_modifyInst _ i ?_)
  · exact (sameUses_setNext f _ _ _).trans (sameUses_setPrev _ _ _ _)
  · exact fun r => ⟨rfl, rfl, rfl⟩

lemma sameUses_moveToFront (f : Func) (i : InstId) (b : BlockId) :
    f.SameUses (f.moveToFront i b) :=
  (sameUses_unlink f i).trans (sameUses_link _ b none i)

lemma sameUses_moveToBack (f : Func) (i : InstId) (b : BlockId) : f.SameUses (f.moveToBack i b) :=
  (sameUses_unlink f i).trans (sameUses_link _ b _ i)

lemma sameUses_foldl {α : Type} {step : Func → α → Func}
    (hstep : ∀ (f : Func) (a : α), f.SameUses (step f a)) (as : List α) (f : Func) :
    f.SameUses (as.foldl step f) :=
  foldlRecOn as step (.refl f) fun g hfg a _ => hfg.trans (hstep g a)

lemma sameUses_splitAfter (f : Func) (i : InstId) (into : BlockId) :
    f.SameUses (f.splitAfter i into) :=
  sameUses_foldl (fun f j => sameUses_moveToBack f j into) _ f

lemma sameUses_replacePred (f : Func) (b old new : BlockId) :
    f.SameUses (f.replacePred b old new) := by
  refine sameUses_foldl (fun f p => ?_) _ f
  exact sameUses_modifyInst f p fun r => ⟨rfl, rfl, operands_mapBlocks _ r.instr⟩

lemma sameUses_addBlock (f : Func) (label : String) : f.SameUses (f.addBlock label) :=
  .of_inst rfl rfl fun _ => ⟨rfl, rfl, rfl⟩

/-! ## New instructions -/

lemma instr_of_bare (h : (g.inst i).bare = (f.inst i).bare) : g.instr i = f.instr i := by
  simpa [instr] using congrArg InstRecord.instr h

lemma live_of_bare (h : (g.inst i).bare = (f.inst i).bare) :
    (g.inst i).live = (f.inst i).live := by
  simpa using congrArg InstRecord.live h

lemma not_hasInst_nextInst (f : Func) : f.hasInst f.nextInst = false := by
  simp [hasInst, nextInst]

lemma ne_nextInst (hi : f.hasInst i) : i ≠ f.nextInst := by
  rintro rfl
  rw [not_hasInst_nextInst] at hi
  cases hi

lemma inst_push (f : Func) (r : InstRecord) (i : InstId) :
    ({ f with insts := f.insts.push r } : Func).inst i =
      if i = f.nextInst then r else f.inst i := by
  obtain ⟨n⟩ := i
  simp only [inst, nextInst, Array.getD_eq_getD_getElem?, Array.getElem?_push, InstId.mk.injEq]
  split <;> rfl

section

variable (f : Func) (b : BlockId) (k : Instr) (t : Ty)

lemma bare_create (i : InstId) :
    ((f.create b k t).inst i).bare =
      if i = f.nextInst then { instr := k, ty := t, block := b } else (f.inst i).bare := by
  rw [create, bare_register, inst_push]
  split <;> rfl

lemma instr_create (i : InstId) :
    (f.create b k t).instr i = if i = f.nextInst then k else f.instr i := by
  have hinstr := congrArg InstRecord.instr (bare_create f b k t i)
  rw [apply_ite InstRecord.instr] at hinstr
  simpa [instr] using hinstr

lemma live_create (i : InstId) :
    ((f.create b k t).inst i).live = (decide (i = f.nextInst) || (f.inst i).live) := by
  have hlive := congrArg InstRecord.live (bare_create f b k t i)
  by_cases hi : i = f.nextInst
  · simpa [hi] using hlive
  · simpa [hi] using hlive

lemma tracks_create (v : Operand) :
    (f.create b k t).tracks v = (f.tracks v || decide (v = .inst f.nextInst)) := by
  rw [create, tracks_register]
  cases v with
  | inst i =>
    obtain ⟨n⟩ := i
    simp only [tracks, hasInst, nextInst, Array.size_push, Operand.inst.injEq, InstId.mk.injEq]
    rw [← Bool.decide_or]
    exact decide_eq_decide.mpr Nat.lt_succ_iff_lt_or_eq
  | arg n => simp [tracks]
  | const c => simp [tracks]
  | global c => simp [tracks]

end

lemma UsesOf.create (hv : f.UsesOf counted v) (hnew : counted f.nextInst = false) {b : BlockId}
    {k : Instr} {t : Ty} (htr : (f.create b k t).tracks v) :
    (f.create b k t).UsesOf (fun u => decide (u = f.nextInst) || counted u) v := by
  intro u
  have husers : ({ f with insts := f.insts.push { instr := k, ty := t, block := b } } : Func).users v
      = f.users v := by
    cases v with
    | inst i =>
      simp only [users, inst_push]
      split
      · next hi => rw [hi, inst_of_not_hasInst f f.not_hasInst_nextInst]; rfl
      · rfl
    | _ => rfl
  rw [Func.create, tracks_register] at htr
  rw [instr_create, Func.create, count_users_register _ _ _ htr, husers, hv u]
  by_cases hu : u = f.nextInst
  · simp [hu, hnew, instr, inst_push]
  · simp [hu]

/-! ## Removed instructions -/

lemma record_remove (f : Func) (i j : InstId) :
    ((f.remove i).inst j).instr = (f.inst j).instr ∧ ((f.remove i).inst j).ty = (f.inst j).ty ∧
      ((f.remove i).inst j).block = (f.inst j).block := by
  unfold remove
  split
  · have hunregister := bare_unregister (f.unlink i) i j
    have hinstr := congrArg InstRecord.instr hunregister
    have hty := congrArg InstRecord.ty hunregister
    have hblk := congrArg InstRecord.block hunregister
    rw [inst_unlink] at hinstr hty hblk
    simp only [InstRecord.instr_bare, InstRecord.ty_bare, InstRecord.block_bare] at hinstr hty hblk
    rw [inst_modifyInst]
    split
    · exact ⟨hinstr, hty, hblk⟩
    · exact ⟨hinstr, hty, hblk⟩
  · exact ⟨rfl, rfl, rfl⟩

lemma instr_remove (f : Func) (i j : InstId) : (f.remove i).instr j = f.instr j :=
  (record_remove f i j).1

lemma live_remove (f : Func) (i j : InstId) :
    ((f.remove i).inst j).live = ((f.inst j).live && decide (j ≠ i)) := by
  unfold remove
  split
  · next hlive =>
    have hi : ((f.unlink i).unregister i).hasInst i := by
      rw [(samePlaces_unregister _ i).hasInst]
      exact ((sameUses_unlink f i).tracks (.inst i)).trans (hasInst_of_live hlive)
    by_cases hj : j = i
    · subst hj
      simp [inst_modifyInst_self hi]
    · rw [inst_modifyInst_of_ne hj, live_of_bare (bare_unregister _ i j),
        (sameUses_unlink f i).live]
      simp [hj]
  · grind

lemma tracks_remove (f : Func) (i : InstId) (v : Operand) :
    (f.remove i).tracks v = f.tracks v := by
  unfold remove
  split
  · rw [tracks_modifyInst, tracks_unregister, (sameUses_unlink f i).tracks]
  · rfl

lemma count_users_remove (hlive : (f.inst i).live) (u : InstId) (htr : f.tracks v) :
    ((f.remove i).users v).count u =
      (f.users v).count u - if u = i then (f.instr i).operands.count v else 0 := by
  have hsame := sameUses_unlink f i
  have husers : (f.remove i).users v = ((f.unlink i).unregister i).users v := by
    rw [remove, if_pos hlive, users_modifyInst]
    exact fun _ => rfl
  rw [husers, count_users_unregister _ _ _ ((hsame.tracks v).trans htr), hsame.users,
    hsame.operands]

lemma UsesOf.remove (hv : f.UsesOf counted v) (htr : f.tracks v) (hlive : (f.inst i).live) :
    (f.remove i).UsesOf (fun u => counted u && decide (u ≠ i)) v := by
  intro u
  rw [instr_remove, count_users_remove hlive u htr, hv u]
  by_cases hu : u = i
  · grind
  · simp [hu]

/-! ## Replaced operations -/

lemma bare_replaceInstr (f : Func) (i : InstId) (k : Instr) (j : InstId) :
    ((f.replaceInstr i k).inst j).bare =
      if j = i ∧ f.hasInst i then { (f.inst j).bare with instr := k }
      else (f.inst j).bare := by
  rw [replaceInstr, bare_register, inst_modifyInst, (samePlaces_unregister f i).hasInst]
  have hbare := bare_unregister f i j
  split
  · rw [← hbare]
    rfl
  · exact hbare

lemma instr_replaceInstr_self (hi : f.hasInst i) (k : Instr) :
    (f.replaceInstr i k).instr i = k := by
  have hinstr := congrArg InstRecord.instr (bare_replaceInstr f i k i)
  rw [if_pos ⟨rfl, hi⟩] at hinstr
  simpa [instr] using hinstr

lemma instr_replaceInstr_of_ne (hj : j ≠ i) (k : Instr) :
    (f.replaceInstr i k).instr j = f.instr j := by
  have hbare := bare_replaceInstr f i k j
  rw [if_neg fun h => hj h.1] at hbare
  exact instr_of_bare hbare

lemma tracks_replaceInstr (f : Func) (i : InstId) (k : Instr) (v : Operand) :
    (f.replaceInstr i k).tracks v = f.tracks v := by
  rw [replaceInstr, tracks_register, tracks_modifyInst, tracks_unregister]

lemma UsesOf.replaceInstr (hv : f.UsesOf counted v) (htr : f.tracks v)
    (hi : f.hasInst i) (hcounted : counted i) (k : Instr) :
    (f.replaceInstr i k).UsesOf counted v := by
  intro u
  have hmid : ((f.unregister i).modifyInst i fun r => { r with instr := k }).tracks v := by
    rw [tracks_modifyInst, tracks_unregister, htr]
  have hinstr : ((f.unregister i).modifyInst i fun r => { r with instr := k }).instr i = k := by
    rw [instr, inst_modifyInst_self]
    rw [(samePlaces_unregister f i).hasInst, hi]
  have hcnt : ((f.replaceInstr i k).users v).count u =
      (f.users v).count u - (if u = i then (f.instr i).operands.count v else 0) +
        if u = i then k.operands.count v else 0 := by
    rw [Func.replaceInstr, count_users_register _ _ _ hmid, hinstr, users_modifyInst,
      count_users_unregister _ _ _ htr]
    exact fun _ => rfl
  rw [hcnt, hv u]
  by_cases hu : u = i
  · subst hu
    simp [hcounted, instr_replaceInstr_self hi]
  · simp [hu, instr_replaceInstr_of_ne hu]

/-! ## Replaced uses -/

/-- What stands where `v` stood once every use of `old` is one of `new`. -/
def subst (old new v : Operand) : Operand :=
  if v = old then new else v

lemma count_map_subst_new (hne : old ≠ new) (vs : List Operand) :
    (vs.map (subst old new)).count new = vs.count new + vs.count old := by
  induction vs with
  | nil => rfl
  | cons v vs ih =>
    rw [map_cons, count_cons, ih]
    by_cases hv : v = old
    · simp [subst, hv, hne, Nat.add_assoc]
    · by_cases hnew : v = new
      · simp [subst, hnew, hne.symm]
        omega
      · simp [subst, hv, hnew]

lemma count_map_subst_old (hne : old ≠ new) (vs : List Operand) :
    (vs.map (subst old new)).count old = 0 := by
  rw [count_eq_zero]
  intro hmem
  obtain ⟨v, -, hv⟩ := mem_map.mp hmem
  unfold subst at hv
  split at hv
  · exact hne hv.symm
  · contradiction

lemma count_map_subst_of_ne (hold : w ≠ old) (hnew : w ≠ new) (vs : List Operand) :
    (vs.map (subst old new)).count w = vs.count w := by
  induction vs with
  | nil => rfl
  | cons v vs ih =>
    rw [map_cons, count_cons, ih, count_cons]
    by_cases hv : v = old
    · simp [subst, hv, hold.symm, hnew.symm]
    · simp [subst, hv]

/-- Rewriting the users one by one rewrites each of them, however often it is listed. -/
lemma inst_foldl_rewrite {σ : Operand → Operand} (hσ : ∀ v, σ (σ v) = σ v) (us : List InstId)
    (f : Func) (j : InstId) :
    (us.foldl (fun f u => f.modifyInst u fun r => { r with instr := r.instr.mapOperands σ }) f).inst j
      = if j ∈ us ∧ f.hasInst j then
          { f.inst j with instr := (f.instr j).mapOperands σ }
        else f.inst j := by
  induction us generalizing f with
  | nil => simp
  | cons u us ih =>
    rw [foldl_cons, ih, hasInst_modifyInst]
    simp only [instr, inst_modifyInst, mem_cons]
    by_cases hj : f.hasInst j
    · by_cases hu : j = u
      · subst hu
        have htwice : ((f.inst j).instr.mapOperands σ).mapOperands σ =
            (f.inst j).instr.mapOperands σ := by
          rw [mapOperands_mapOperands]
          exact mapOperands_congr fun v _ => hσ v
        simp [hj, htwice]
      · simp [hj, hu]
    · grind

lemma bare_replaceUses (hne : old ≠ new) (hold : f.tracks old) (j : InstId) :
    ((f.replaceUses old new).2.inst j).bare =
      if j ∈ f.users old ∧ f.hasInst j then
        { (f.inst j).bare with instr := (f.instr j).mapOperands (subst old new) }
      else (f.inst j).bare := by
  have hσ : ∀ v, subst old new (subst old new v) = subst old new v := by
    intro v
    unfold subst
    split_ifs <;> simp_all
  have hcleared := bare_modifyUsers f old (fun _ => []) j
  rw [replaceUses, if_neg (by simp [hne, hold])]
  rw [bare_modifyUsers]
  have hfold := inst_foldl_rewrite hσ (f.users old) (f.modifyUsers old fun _ => []) j
  unfold subst at hfold ⊢
  rw [hfold, hasInst_modifyUsers, instr_of_bare hcleared]
  split
  · rw [← hcleared]
    rfl
  · exact hcleared

lemma ty_replaceUses (f : Func) (old new : Operand) (j : InstId) :
    ((f.replaceUses old new).2.inst j).ty = (f.inst j).ty := by
  by_cases h : old = new ∨ f.tracks old = false
  · rw [replaceUses, if_pos h]
  · obtain ⟨hne, htr⟩ := not_or.mp h
    have hty := congrArg InstRecord.ty (bare_replaceUses hne (by simpa using htr) j)
    rw [apply_ite InstRecord.ty] at hty
    simpa using hty

lemma tracks_replaceUses (f : Func) (old new v : Operand) :
    (f.replaceUses old new).2.tracks v = f.tracks v := by
  have hplaces := samePlaces_replaceUses f old new
  cases v with
  | inst i => exact hplaces.hasInst i
  | arg n => simp only [tracks, hplaces.params_size]
  | const c => rfl
  | global c => rfl

/-- Every counted instruction reads `new` where it read `old`; no other one is touched. -/
lemma instr_replaceUses (hold : f.UsesOf counted old) (htr : f.tracks old)
    (new : Operand) (hj : counted j → f.hasInst j) :
    (f.replaceUses old new).2.instr j =
      if counted j then (f.instr j).mapOperands (subst old new) else f.instr j := by
  have hsame (h : old ∉ (f.instr j).operands ∨ old = new) :
      (f.instr j).mapOperands (subst old new) = f.instr j := by
    have hid : ∀ v ∈ (f.instr j).operands, subst old new v = v := by
      intro v hv
      unfold subst
      split
      · grind
      · rfl
    exact (mapOperands_congr hid).trans (mapOperands_id _)
  by_cases hne : old = new
  · rw [replaceUses, if_pos (Or.inl hne), hsame (Or.inr hne), ite_self]
  · have hinstr := congrArg InstRecord.instr (bare_replaceUses hne htr j)
    simp only [InstRecord.instr_bare] at hinstr
    rw [instr, hinstr]
    have hcnt := hold j
    cases hc : counted j with
    | false =>
      rw [hc, if_neg Bool.false_ne_true, count_eq_zero] at hcnt
      simp [hcnt, instr]
    | true =>
      rw [hc] at hcnt
      by_cases hmem : j ∈ f.users old
      · simp [hmem, hj hc]
      · rw [count_eq_zero.mpr hmem] at hcnt
        simp only [hmem, false_and, if_false, if_true]
        exact (hsame (Or.inl (count_eq_zero.mp hcnt.symm))).symm

lemma users_replaceUses (hne : old ≠ new) (hold : f.tracks old) (hv : f.tracks v) :
    (f.replaceUses old new).2.users v =
      if v = old then [] else if v = new then f.users new ++ f.users old else f.users v := by
  have hfold (us : List InstId) (g : Func) :
      (us.foldl (fun f u => f.modifyInst u fun r =>
        { r with instr := r.instr.mapOperands fun w => if w = old then new else w }) g).users v =
        g.users v ∧ (us.foldl (fun f u => f.modifyInst u fun r =>
        { r with instr := r.instr.mapOperands fun w => if w = old then new else w }) g).tracks new =
        g.tracks new := by
    induction us generalizing g with
    | nil => exact ⟨rfl, rfl⟩
    | cons u us ih =>
      obtain ⟨husers, htr⟩ := ih (g.modifyInst u fun r =>
        { r with instr := r.instr.mapOperands fun w => if w = old then new else w })
      rw [foldl_cons, husers, htr, users_modifyInst, tracks_modifyInst]
      · exact ⟨rfl, rfl⟩
      · exact fun _ => rfl
  rw [replaceUses, if_neg (by simp [hne, hold])]
  rw [users_modifyUsers, (hfold _ _).1, (hfold _ _).2, users_modifyUsers, tracks_modifyUsers]
  by_cases hvold : v = old
  · subst hvold
    simp [hne, hv]
  · grind

lemma UsesOf.replaceUses (hold : f.UsesOf counted old) (htr : f.tracks old)
    (hv : f.UsesOf counted v) (hvtracks : f.tracks v)
    (hcounted : ∀ u, counted u → f.hasInst u) (new : Operand) :
    (f.replaceUses old new).2.UsesOf counted v := by
  by_cases hne : old = new
  · rw [Func.replaceUses, if_pos (Or.inl hne)]
    exact hv
  intro u
  rw [instr_replaceUses hold htr new (hcounted u), users_replaceUses hne htr hvtracks]
  have hu := hv u
  have hu' := hold u
  cases hc : counted u with
  | false =>
    rw [hc] at hu hu'
    simp only [Bool.false_eq_true, if_false] at hu hu' ⊢
    split_ifs with hvold hvnew
    · rfl
    · subst hvnew
      rw [count_append, hu, hu']
    · exact hu
  | true =>
    rw [hc] at hu hu'
    simp only [if_true, operands_mapOperands] at hu hu' ⊢
    split_ifs with hvold hvnew
    · rw [hvold, count_map_subst_old hne, count_nil]
    · subst hvnew
      rw [count_map_subst_new hne, count_append, hu, hu']
    · rw [count_map_subst_of_ne hvold hvnew, hu]

/-! ## Phi entries -/

lemma hasInst_of_isPhi (h : (f.instr i).isPhi) : f.hasInst i := by
  cases hi : f.hasInst i with
  | true => rfl
  | false =>
    rw [instr, inst_of_not_hasInst f hi] at h
    exact absurd h Bool.false_ne_true

lemma fillPhi_cases (f : Func) (phi : InstId) (pred : BlockId) (v : Operand) :
    f.fillPhi phi pred v = (false, f) ∨ ∃ es es', f.instr phi = .phi es ∧
      fillEntry pred v es = some es' ∧ f.fillPhi phi pred v =
        (true, (f.modifyInst phi fun r => { r with instr := .phi es' }).modifyUsers v
          (· ++ [phi])) := by
  unfold fillPhi
  split
  · grind
  · exact .inl rfl

lemma fillPhi_of_fillEntry {es es' : List PhiEntry}
    (hes : f.instr phi = .phi es) (hfill : fillEntry pred v es = some es') :
    (f.fillPhi phi pred v).1 ∧
      ∀ j, (f.fillPhi phi pred v).2.instr j = if j = phi then .phi es' else f.instr j := by
  have hinst : f.hasInst phi := hasInst_of_isPhi (by rw [hes]; rfl)
  rw [fillPhi, hes]
  simp only [hfill, true_and]
  intro j
  rw [instr_of_bare (bare_modifyUsers _ _ _ j), instr]
  split
  · next hj => rw [hj, inst_modifyInst_self hinst]
  · next hj => rw [inst_modifyInst_of_ne hj, instr]

lemma ty_fillPhi (f : Func) (phi : InstId) (pred : BlockId) (v : Operand) (j : InstId) :
    ((f.fillPhi phi pred v).2.inst j).ty = (f.inst j).ty := by
  obtain heq | ⟨es, es', -, -, heq⟩ := fillPhi_cases f phi pred v
  · rw [heq]
  · rw [heq]
    have hty := congrArg InstRecord.ty (bare_modifyUsers
      (f.modifyInst phi fun r => { r with instr := .phi es' }) v (· ++ [phi]) j)
    refine hty.trans ?_
    exact modifyInst_project f InstRecord.ty (g := fun r => { r with instr := .phi es' })
      (fun _ => rfl) phi j

lemma tracks_fillPhi (f : Func) (phi : InstId) (pred : BlockId) (v w : Operand) :
    (f.fillPhi phi pred v).2.tracks w = f.tracks w := by
  obtain heq | ⟨es, es', -, -, heq⟩ := fillPhi_cases f phi pred v
  · rw [heq]
  · rw [heq, tracks_modifyUsers, tracks_modifyInst]

lemma UsesOf.fillPhi (hw : f.UsesOf counted w) (htr : f.tracks w)
    (hphi : counted phi) (pred : BlockId) (v : Operand) :
    (f.fillPhi phi pred v).2.UsesOf counted w := by
  obtain heq | ⟨es, es', hes, hfill, heq⟩ := fillPhi_cases f phi pred v
  · rw [heq]
    exact hw
  intro u
  have hinst : f.hasInst phi := hasInst_of_isPhi (by rw [hes]; rfl)
  have husers : ((f.modifyInst phi fun r => { r with instr := .phi es' }).users w) = f.users w := by
    rw [users_modifyInst]
    exact fun _ => rfl
  have hu := hw u
  rw [heq, users_modifyUsers, husers, instr_of_bare (bare_modifyUsers _ _ _ u)]
  by_cases hphi' : u = phi
  · subst hphi'
    have hcnt := (operands_fillEntry hfill).count_eq w
    rw [hphi, if_pos rfl, hes, operands] at hu
    rw [hphi, instr, inst_modifyInst_self hinst, operands, hcnt, count_cons, ← hu]
    by_cases hwv : w = v
    · subst hwv
      simp [htr]
    · simp [hwv, Ne.symm hwv]
  · rw [instr, inst_modifyInst_of_ne hphi', ← instr, ← hu]
    split
    · simp [count_append, Ne.symm hphi']
    · rfl

end Func

end MiddleEnd
