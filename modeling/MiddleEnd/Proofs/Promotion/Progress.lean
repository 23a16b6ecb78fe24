import MiddleEnd.Proofs.Promotion.Phis

/-!
# Progress of renaming

While a function is renamed, part of its loads have been replaced.  `Progress` compares the function
at such a time with the one before renaming: it has the same instructions except for the loads and
stores of slots that have been seen, and reads `subst i` where it read the result of a load `i` that
has been seen.  Every value that takes part in this is settled, that is, it will not be replaced
itself.
-/

namespace MiddleEnd

open List Func Operand

def Operand.rename (subst : InstId → Operand) : Operand → Operand
  | .inst i => subst i
  | v => v

namespace Promotion

variable {i : InstId} {k : Instr} {f cur : Func} {ss : List Slot} {phis : SlotPhis} {b : BlockId}
  {pre is : List InstId} {start : Values} {a : InstId}

/-! ## Loads and stores of slots -/

/-- Is it a load from or a store to one of the slots? -/
def accesses (ss : List Slot) (k : Instr) : Bool :=
  (accessed? k).any fun a => decide (a ∈ ss.map Slot.alloc)

def isLoad : Instr → Bool
  | .load _ => true
  | _ => false

def loadsSlot (ss : List Slot) (k : Instr) : Bool :=
  isLoad k && accesses ss k

lemma accesses_eq_true : accesses ss k ↔ ∃ a ∈ ss.map Slot.alloc, accessed? k = some a := by
  rw [accesses, Option.any_eq_true]
  constructor
  · grind
  · grind

lemma loadsSlot_eq_true : loadsSlot ss k ↔ ∃ a ∈ ss.map Slot.alloc, k = .load (.inst a) := by
  rw [loadsSlot, Bool.and_eq_true, accesses_eq_true]
  constructor
  · rintro ⟨hload, a, ha, hk⟩
    cases k with
    | load p =>
      cases p with
      | inst c =>
        obtain rfl : c = a := Option.some.inj hk
        exact ⟨c, ha, rfl⟩
      | _ => cases hk
    | _ => cases hload
  · rintro ⟨a, ha, rfl⟩
    exact ⟨rfl, a, ha, rfl⟩

lemma accesses_of_loadsSlot (hk : loadsSlot ss k) : accesses ss k :=
  (Bool.and_eq_true_iff.mp hk).2

/-! ## Settled values -/

/-- A value that is not replaced while the slots are promoted, and where it comes from. -/
structure Settled (f : Func) (ss : List Slot) (phis : SlotPhis) (v : Operand) : Prop where
  load : ∀ i, v = .inst i → loadsSlot ss (f.instr i) = false
  slot : ∀ i, v = .inst i → i ∉ ss.map Slot.alloc
  origin : (∃ u, f.placed u ∧ v ∈ (f.instr u).operands) ∨
    (∃ i a, v = .inst i ∧ phis.lookup i = some a) ∨ ∃ c, v = .const c

lemma Settled.const (c : Constant) : Settled f ss phis (.const c) where
  load _ h := absurd h (by simp)
  slot _ h := absurd h (by simp)
  origin := Or.inr (Or.inr ⟨c, rfl⟩)

lemma Ready.loadsSlot_of_lookup (hr : Ready f ss phis) (hi : phis.lookup i = some a) :
    accesses ss (f.instr i) = false := by
  rw [(hr.phi i a hi).2.1]
  rfl

lemma Ready.settled_phi (hr : Ready f ss phis) (hi : phis.lookup i = some a) :
    Settled f ss phis (.inst i) where
  load j hj := by
    obtain rfl := inst.inj hj
    rw [loadsSlot, hr.loadsSlot_of_lookup hi, Bool.and_false]
  slot j hj hmem := by
    obtain rfl := inst.inj hj
    obtain ⟨t, ht⟩ := hr.slots.instr_of_mem hmem
    rw [(hr.phi i a hi).2.1] at ht
    exact absurd ht (by simp [openPhi])
  origin := Or.inr (Or.inl ⟨i, a, rfl, hi⟩)

/-- What replaces the loads that have been seen is settled, and available where the load is. -/
structure Sound (f : Func) (ss : List Slot) (phis : SlotPhis) (seen : InstId → Prop)
    (subst : InstId → Operand) : Prop where
  fixed : ∀ i, ¬ (seen i ∧ loadsSlot ss (f.instr i)) → subst i = .inst i
  settled : ∀ i, seen i → loadsSlot ss (f.instr i) → Settled f ss phis (subst i)
  available : ∀ i, seen i → loadsSlot ss (f.instr i) → ∀ pre post,
    f.instsOf (f.inst i).block = pre ++ i :: post → f.Available (f.inst i).block pre (subst i)

namespace Sound

variable {seen : InstId → Prop} {subst : InstId → Operand} {v : Operand}

lemma subst_slot (h : Sound f ss phis seen subst) (hs : Slots f ss)
    (ha : a ∈ ss.map Slot.alloc) : subst a = .inst a := by
  refine h.fixed a fun hload => ?_
  obtain ⟨t, ht⟩ := hs.instr_of_mem ha
  rw [ht] at hload
  exact absurd hload.2 Bool.false_ne_true

/-- An operand other than the address of a slot is settled once it has been renamed. -/
lemma settled_rename (h : Sound f ss phis seen subst) {u : InstId} (hu : f.placed u)
    (hv : v ∈ (f.instr u).operands) (hslot : ∀ i, v = .inst i → i ∉ ss.map Slot.alloc)
    (hseen : ∀ i, v = .inst i → loadsSlot ss (f.instr i) → seen i) :
    Settled f ss phis (v.rename subst) := by
  cases v with
  | inst i =>
    cases hload : loadsSlot ss (f.instr i) with
    | true => exact h.settled i (hseen i rfl hload) hload
    | false =>
      rw [Operand.rename, h.fixed i (by simp [hload])]
      refine ⟨fun j hj => ?_, hslot, Or.inl ⟨u, hu, hv⟩⟩
      rw [← inst.inj hj]
      exact hload
  | arg n => exact ⟨fun _ h => absurd h (by simp [Operand.rename]),
    fun _ h => absurd h (by simp [Operand.rename]),
      Or.inl ⟨u, hu, hv⟩⟩
  | const c => exact .const c
  | global c => exact ⟨fun _ h => absurd h (by simp [Operand.rename]),
    fun _ h => absurd h (by simp [Operand.rename]),
      Or.inl ⟨u, hu, hv⟩⟩

lemma available_rename (h : Sound f ss phis seen subst) (hf : f.Consistent) {post : List InstId}
    (hsplit : f.instsOf b = pre ++ post) (hb : f.Reachable b)
    (hv : f.Available b pre v) (hdefs : f.defines v) : f.Available b pre (v.rename subst) := by
  cases v with
  | inst i =>
    by_cases hload : seen i ∧ loadsSlot ss (f.instr i)
    · obtain ⟨p, q, hpq⟩ := append_of_mem (hf.mem_of_live hdefs)
      refine hv.trans hf (h.available i hload.1 hload.2 p q hpq) (fun hmem => ?_) ?_ hb
      · have hblk : (f.inst i).block = b := hf.block_of_mem (by rw [hsplit]; simp [hmem])
        refine ⟨hblk, ?_⟩
        -- what comes before `i` in the block comes before it in `pre`
        obtain ⟨p', q', rfl⟩ := append_of_mem hmem
        have hnd := hf.nodup (f.inst i).block
        rw [hblk, hsplit, append_assoc] at hpq
        rw [hblk, hsplit, append_assoc, cons_append, nodup_middle,
          nodup_cons, mem_append, not_or] at hnd
        rw [← ((append_cons_inj_of_notMem hnd.1.1 hnd.1.2).mp hpq).1]
        exact subset_append_left p' _
      · grind
    · rw [Operand.rename, h.fixed i hload]
      exact hv
  | _ => exact hv

end Sound

/-! ## The function in the middle of renaming -/

/-- What `f` has become when the loads and stores of slots that have been seen are gone. -/
structure Progress (f : Func) (ss : List Slot) (phis : SlotPhis) (seen : InstId → Prop)
    (subst : InstId → Operand) (filled : InstId → BlockId → Option Operand) (cur : Func) : Prop where
  frame : f.SameFrame cur
  formed : cur.Formed
  block : ∀ i, (cur.inst i).block = (f.inst i).block
  ty : ∀ i, (cur.inst i).ty = (f.inst i).ty
  sublist : ∀ b, (cur.instsOf b).Sublist (f.instsOf b)
  mem_instsOf : ∀ b i, i ∈ cur.instsOf b ↔
    i ∈ f.instsOf b ∧ ¬ (seen i ∧ accesses ss (f.instr i))
  sound : Sound f ss phis seen subst
  instr : ∀ i, cur.placed i → phis.lookup i = none →
    cur.instr i = (f.instr i).mapOperands (Operand.rename subst)
  phi : ∀ i a, phis.lookup i = some a →
    cur.instr i = .phi ((f.block (f.inst i).block).preds.map fun p => ⟨p, filled i p⟩)
  filled : ∀ i p v, filled i p = some v → Settled f ss phis v

namespace Progress

variable {i : InstId} {seen seen' : InstId → Prop} {subst : InstId → Operand}
  {filled : InstId → BlockId → Option Operand}

section

variable (h : Progress f ss phis seen subst filled cur)
include h

lemma congr (hseen : ∀ i, accesses ss (f.instr i) → (seen' i ↔ seen i)) :
    Progress f ss phis seen' subst filled cur where
  frame := h.frame
  formed := h.formed
  block := h.block
  ty := h.ty
  sublist := h.sublist
  mem_instsOf b i := by
    rw [h.mem_instsOf]
    exact and_congr_right fun _ => not_congr (and_congr_left fun hi => (hseen i hi).symm)
  sound := by
    have hload {i : InstId} (hi : loadsSlot ss (f.instr i)) : seen' i ↔ seen i :=
      hseen i (accesses_of_loadsSlot hi)
    refine ⟨fun i hi => h.sound.fixed i fun hi' => hi ⟨(hload hi'.2).mpr hi'.1, hi'.2⟩,
      fun i hi hi' => h.sound.settled i ((hload hi').mp hi) hi',
      fun i hi hi' => h.sound.available i ((hload hi').mp hi) hi'⟩
  instr := h.instr
  phi := h.phi
  filled := h.filled

lemma placed_iff (hf : f.Consistent) :
    cur.placed i ↔ f.placed i ∧ ¬ (seen i ∧ accesses ss (f.instr i)) := by
  simp only [← h.formed.mem_liveInsts, ← hf.mem_liveInsts, liveInsts,
    mem_flatMap, h.frame.liveBlocks, h.mem_instsOf]
  constructor
  · grind
  · grind

lemma mem_instsOf_remove {m : Func} (hm : cur.SamePlaces m) (hi : accesses ss (f.instr i))
    (b : BlockId) (j : InstId) :
    j ∈ (m.remove i).instsOf b ↔
      j ∈ f.instsOf b ∧ ¬ ((seen j ∨ j = i) ∧ accesses ss (f.instr j)) := by
  have hmc := hm.consistent h.formed.consistent
  rw [hmc.instsOf_remove, (hmc.nodup b).mem_erase_iff, hm.instsOf, h.mem_instsOf]
  constructor
  · rintro ⟨hne, hj, hnot⟩
    refine ⟨hj, fun hseen => ?_⟩
    exact hnot ⟨hseen.1.resolve_right hne, hseen.2⟩
  · rintro ⟨hj, hnot⟩
    refine ⟨?_, hj, fun hseen => hnot ⟨Or.inl hseen.1, hseen.2⟩⟩
    rintro rfl
    exact hnot ⟨Or.inr rfl, hi⟩

lemma sublist_remove {m : Func} (hm : cur.SamePlaces m) (i : InstId) (b : BlockId) :
    ((m.remove i).instsOf b).Sublist (f.instsOf b) := by
  rw [(hm.consistent h.formed.consistent).instsOf_remove, hm.instsOf]
  exact erase_sublist.trans (h.sublist b)

end

lemma not_isTerminator (hk : accesses ss k) : k.isTerminator = false := by
  cases k with
  | branch | jump | ret => exact absurd hk Bool.false_ne_true
  | _ => rfl

lemma dropStore (h : Progress f ss phis seen subst filled cur) (hr : Ready f ss phis)
    (hi : cur.placed i) (hacc : accesses ss (f.instr i)) (hload : isLoad (f.instr i) = false) :
    Progress f ss phis (fun j => seen j ∨ j = i) subst filled (cur.remove i) := by
  have hne {j : InstId} (hj : loadsSlot ss (f.instr j)) : j ≠ i := by
    rintro rfl
    rw [loadsSlot, hload] at hj
    exact Bool.false_ne_true hj
  have hlook : phis.lookup i = none := by
    rw [Option.eq_none_iff_forall_ne_some]
    intro a ha
    rw [hr.loadsSlot_of_lookup ha] at hacc
    exact Bool.false_ne_true hacc
  refine ⟨h.frame.trans (sameFrame_remove cur i), h.formed.remove (Formed.live_of_placed hi) ?_,
    fun j => ?_,
    fun j => (record_remove cur i j).2.1.trans (h.ty j), h.sublist_remove (.refl cur) i,
      h.mem_instsOf_remove (.refl cur) hacc, ?_, fun j hj hnone => ?_,
    fun j a hj => ?_, h.filled⟩
  · rw [h.instr i hi hlook, Instr.isTerminator_mapOperands]
    exact not_isTerminator hacc
  · rw [(record_remove cur i j).2.2, h.block]
  · refine ⟨fun j hj => h.sound.fixed j fun hj' => hj ⟨Or.inl hj'.1, hj'.2⟩,
      fun j hj hj' => h.sound.settled j (hj.resolve_right (hne hj')) hj',
      fun j hj hj' => h.sound.available j (hj.resolve_right (hne hj')) hj'⟩
  · rw [instr_remove]
    refine h.instr j ?_ hnone
    rw [placed, live_remove, (record_remove cur i j).2.2,
      (sameFrame_remove cur i).blockDeleted] at hj
    rw [placed, Bool.and_eq_true]
    rw [Bool.and_eq_true, Bool.and_eq_true] at hj
    exact ⟨hj.1.1, hj.2⟩
  · rw [instr_remove, h.phi j a hj]

/-- Putting a settled value in the place of a load: nothing that has been renamed before changes. -/
lemma subst_rename (h : Sound f ss phis seen subst) (hi : ¬ seen i)
    (hload : loadsSlot ss (f.instr i)) (v w : Operand) :
    Func.subst (.inst i) v (w.rename subst) = w.rename (Function.update subst i v) := by
  cases w with
  | inst j =>
    by_cases hji : j = i
    · subst hji
      rw [Operand.rename, Operand.rename, h.fixed j fun hj => hi hj.1, Function.update_self,
        Func.subst, if_pos rfl]
    · rw [Operand.rename, Operand.rename, Function.update_of_ne hji, Func.subst, if_neg]
      intro heq
      by_cases hj : seen j ∧ loadsSlot ss (f.instr j)
      · have hnot := (h.settled j hj.1 hj.2).load i heq
        rw [hload] at hnot
        exact Bool.false_ne_true hnot.symm
      · rw [h.fixed j hj] at heq
        exact hji (inst.inj heq)
  | _ => rw [Operand.rename, Operand.rename, Func.subst] <;> simp

lemma replaceLoad (h : Progress f ss phis seen subst filled cur) (hr : Ready f ss phis)
    (hi : cur.placed i) (hseen : ¬ seen i) (hload : loadsSlot ss (f.instr i))
    {v : Operand} (hv : Settled f ss phis v)
    (havail : ∀ pre post, f.instsOf (f.inst i).block = pre ++ i :: post →
      f.Available (f.inst i).block pre v) :
    Progress f ss phis (fun j => seen j ∨ j = i) (Function.update subst i v) filled
      ((cur.replaceUses (.inst i) v).2.remove i) := by
  have hlive := Func.Formed.live_of_placed hi
  have htr : cur.tracks (.inst i) := cur.hasInst_of_live hlive
  have hacc := accesses_of_loadsSlot hload
  have hlook {j a : InstId} (hj : phis.lookup j = some a) : j ≠ i := by
    rintro rfl
    rw [hr.loadsSlot_of_lookup hj] at hacc
    exact Bool.false_ne_true hacc
  have hplaces := Func.samePlaces_replaceUses cur (.inst i) v
  have hform := h.formed.replaceUses htr hlive v
  have hhas (u : InstId) (hu : cur.placed u) := cur.hasInst_of_live (Func.Formed.live_of_placed hu)
  have hinstr (j : InstId) : ((cur.replaceUses (.inst i) v).2.remove i).instr j =
      if cur.placed j then (cur.instr j).mapOperands (Func.subst (.inst i) v) else cur.instr j := by
    rw [Func.instr_remove,
      Func.instr_replaceUses (h.formed.uses _ htr hlive) htr v (hhas j)]
  have hterm : ((cur.replaceUses (.inst i) v).2.instr i).isTerminator = false := by
    rw [← Func.instr_remove _ i, hinstr, if_pos hi, Instr.isTerminator_mapOperands, h.instr i hi,
      Instr.isTerminator_mapOperands]
    · exact not_isTerminator hacc
    · rw [Option.eq_none_iff_forall_ne_some]
      exact fun a ha => hlook ha rfl
  have hsame {w : Operand} (hw : Settled f ss phis w) : Func.subst (.inst i) v w = w := by
    rw [Func.subst, if_neg]
    intro heq
    have hnot := hw.load i heq
    rw [hload] at hnot
    exact Bool.false_ne_true hnot.symm
  refine ⟨(h.frame.trans hplaces.frame).trans (Func.sameFrame_remove _ i),
    hform.remove (Func.Formed.live_of_placed (hplaces.placed ▸ hi)) hterm, fun j => ?_, fun j => ?_,
    h.sublist_remove hplaces i,
    h.mem_instsOf_remove hplaces hacc, ⟨fun j hj => ?_, fun j hj hj' => ?_, fun j hj hj' => ?_⟩,
    fun j hj hnone => ?_, fun j a hj => ?_, h.filled⟩
  · rw [(Func.record_remove _ i j).2.2, hplaces.block, h.block]
  · rw [(Func.record_remove _ i j).2.1, Func.ty_replaceUses, h.ty]
  · have hji : j ≠ i := by
      rintro rfl
      exact hj ⟨Or.inr rfl, hload⟩
    rw [Function.update_of_ne hji]
    exact h.sound.fixed j fun hj' => hj ⟨Or.inl hj'.1, hj'.2⟩
  · by_cases hji : j = i
    · simp_all
    · rw [Function.update_of_ne hji]
      exact h.sound.settled j (hj.resolve_right hji) hj'
  · by_cases hji : j = i
    · simp_all
    · rw [Function.update_of_ne hji]
      exact h.sound.available j (hj.resolve_right hji) hj'
  · have hpl : cur.placed j := by
      rw [Func.placed, Func.live_remove, (Func.record_remove _ i j).2.2,
        (Func.sameFrame_remove _ i).blockDeleted, Bool.and_eq_true, Bool.and_eq_true] at hj
      rw [← hplaces.placed, Func.placed, Bool.and_eq_true]
      exact ⟨hj.1.1, hj.2⟩
    rw [hinstr, if_pos hpl, h.instr j hpl hnone, Instr.mapOperands_mapOperands]
    exact Instr.mapOperands_congr fun w _ => subst_rename h.sound hseen hload v w
  · rw [hinstr, h.phi j a hj]
    split
    · rw [Instr.mapOperands, map_map]
      congr 1
      refine map_congr_left fun p _ => ?_
      cases hp : filled j p with
      | none => simp [hp]
      | some w => simp [hp, hsame (h.filled j p w hp)]
    · rfl

end Progress

/-! ## The current values -/

/-- The values after an instruction: a phi of a slot and a store to it set its value. -/
def track (f : Func) (phis : SlotPhis) (subst : InstId → Operand) (values : Values) (i : InstId) :
    Values :=
  match phis.lookup i with
  | some a => (a, .inst i) :: values
  | none =>
    match f.instr i with
    | .store v p =>
      match values.at? p with
      | some (a, _) => (a, v.rename subst) :: values
      | none => values
    | _ => values

lemma foldl_track_congr {subst subst' : InstId → Operand}
    (h : ∀ i ∈ is, ∀ v p, f.instr i = .store v p → v.rename subst' = v.rename subst)
    (values : Values) :
    is.foldl (track f phis subst') values = is.foldl (track f phis subst) values := by
  induction is generalizing values with
  | nil => rfl
  | cons i is ih =>
    have hstep : track f phis subst' values i = track f phis subst values i := by
      unfold track
      split
      · rfl
      · grind
    rw [foldl_cons, hstep]
    exact ih (fun j hj => h j (.tail i hj)) _

/-- Each slot has a value, which can be read after the instructions `pre` of `b`. -/
structure Current (f : Func) (ss : List Slot) (phis : SlotPhis) (b : BlockId) (pre : List InstId)
    (values : Values) : Prop where
  total : ∀ a ∈ ss.map Slot.alloc, ∃ v, values.lookup a = some v
  keys : ∀ p ∈ values, p.1 ∈ ss.map Slot.alloc
  settled : ∀ p ∈ values, Settled f ss phis p.2
  available : ∀ p ∈ values, f.Available b pre p.2

lemma mem_of_lookup_eq_some {α β : Type} [DecidableEq α] {l : List (α × β)} {a : α} {v : β}
    (h : l.lookup a = some v) : (a, v) ∈ l := by
  obtain ⟨l₁, l₂, rfl, -⟩ := lookup_eq_some_iff.mp h
  simp

namespace Current

variable {values : Values}

variable (h : Current f ss phis b pre values)
include h

lemma mono {post : List InstId} (hsub : pre ⊆ post) : Current f ss phis b post values :=
  ⟨h.total, h.keys, h.settled, fun p hp => (h.available p hp).mono hsub⟩

lemma cons (ha : a ∈ ss.map Slot.alloc) {v : Operand} (hv : Settled f ss phis v)
    (havail : f.Available b pre v) :
    Current f ss phis b pre ((a, v) :: values) where
  total c hc := by
    rw [lookup_cons]
    by_cases hca : c = a
    · exact ⟨v, by simp [hca]⟩
    · obtain ⟨w, hw⟩ := h.total c hc
      exact ⟨w, by rw [beq_false_of_ne hca]; exact hw⟩
  keys p hp := by
    rcases mem_cons.mp hp with rfl | hp
    · exact ha
    · exact h.keys p hp
  settled p hp := by
    rcases mem_cons.mp hp with rfl | hp
    · exact hv
    · exact h.settled p hp
  available p hp := by
    rcases mem_cons.mp hp with rfl | hp
    · exact havail
    · exact h.available p hp

lemma at?_inst (ha : a ∈ ss.map Slot.alloc) :
    ∃ v, values.lookup a = some v ∧ values.at? (.inst a) = some (a, v) := by
  obtain ⟨v, hv⟩ := h.total a ha
  exact ⟨v, hv, by rw [Values.at?, hv]; rfl⟩

lemma at?_eq_none {p : Operand} (hp : ∀ i, p = .inst i → i ∉ ss.map Slot.alloc) :
    values.at? p = none := by
  cases p with
  | inst i =>
    rw [Values.at?, Option.map_eq_none_iff]
    rw [Option.eq_none_iff_forall_ne_some]
    exact fun v hv => hp i rfl (h.keys _ (mem_of_lookup_eq_some hv))
  | _ => rfl

end Current

/-- Each load of a slot that is one of `is` is replaced by the value that the slot has there. -/
def LoadsMatch (f : Func) (ss : List Slot) (phis : SlotPhis) (subst : InstId → Operand)
    (start : Values) (is : List InstId) : Prop :=
  ∀ pre i post, is = pre ++ i :: post → ∀ a ∈ ss.map Slot.alloc, f.instr i = .load (.inst a) →
    (pre.foldl (track f phis subst) start).lookup a = some (subst i)

lemma LoadsMatch.congr {subst subst' : InstId → Operand} (h : LoadsMatch f ss phis subst start is)
    (hstores : ∀ i ∈ is, ∀ v p, f.instr i = .store v p → v.rename subst' = v.rename subst)
    (hloads : ∀ i ∈ is, subst' i = subst i) : LoadsMatch f ss phis subst' start is := by
  rintro pre i post rfl a ha hk
  have hmem : ∀ j ∈ pre, j ∈ pre ++ i :: post := fun j hj => mem_append_left _ hj
  rw [foldl_track_congr (fun j hj => hstores j (hmem j hj)) start, hloads i (by simp)]
  exact h pre i post rfl a ha hk

lemma LoadsMatch.concat {subst : InstId → Operand}
    (h : LoadsMatch f ss phis subst start is)
    (hi : ∀ a ∈ ss.map Slot.alloc, f.instr i = .load (.inst a) →
      (is.foldl (track f phis subst) start).lookup a = some (subst i)) :
    LoadsMatch f ss phis subst start (is ++ [i]) := by
  intro pre j post hsplit a ha hk
  rcases eq_nil_or_concat post with rfl | ⟨post, k, rfl⟩
  · obtain ⟨rfl, heq⟩ := append_inj' hsplit rfl
    obtain rfl : i = j := (List.cons.inj heq).1
    exact hi a ha hk
  · rw [concat_eq_append, ← cons_append, ← append_assoc] at hsplit
    obtain ⟨rfl, -⟩ := append_inj' hsplit rfl
    exact h pre j post rfl a ha hk

end Promotion

end MiddleEnd
