import MiddleEnd.Proofs.Promotion.Progress

/-!
# Renaming blocks

The walk over the dominator tree renames a block after all blocks that dominate it.  Within a block
the instructions are renamed in order; `Midway` says what is known after some of them.  Then the
block fills its entries in the phis of its successors.
-/

namespace MiddleEnd.Promotion

open List Function Instr Func

variable {f cur : Func} {ss : List Slot} {phis : SlotPhis} {done : BlockId → Prop} {b : BlockId}
  {subst subst₀ : InstId → Operand} {filled : InstId → BlockId → Option Operand} {start : Values}
  {pre post : List InstId} {r : Renaming}

/-! ## One instruction -/

/-- The instruction is in a block that has been renamed. -/
def Seen (f : Func) (done : BlockId → Prop) (i : InstId) : Prop :=
  (f.inst i).live ∧ done (f.inst i).block

/-- After the instructions `pre` of `b` have been renamed. -/
structure Midway (f : Func) (ss : List Slot) (phis : SlotPhis) (done : BlockId → Prop) (b : BlockId)
    (filled : InstId → BlockId → Option Operand) (subst₀ : InstId → Operand) (start : Values)
    (pre : List InstId) (r : Renaming) (subst : InstId → Operand) : Prop where
  progress : Progress f ss phis (fun i => Seen f done i ∨ i ∈ pre) subst filled r.func
  agrees : ∀ i, i ∉ f.instsOf b → subst i = subst₀ i
  values : r.values = pre.foldl (track f phis subst) start
  current : Current f ss phis b pre r.values
  loads : LoadsMatch f ss phis subst start pre

/-- The block `b` of a function that is ready is about to be renamed. -/
structure Turn (f : Func) (ss : List Slot) (phis : SlotPhis) (done : BlockId → Prop) (b : BlockId) :
    Prop where
  ready : Ready f ss phis
  mem : b ∈ f.liveBlocks
  notDone : ¬ done b
  dominators : ∀ d, f.Dom d b → d ≠ b → done d

namespace Turn

variable {i : InstId}

variable (ht : Turn f ss phis done b)
include ht

lemma consistent : f.Consistent :=
  ht.ready.consistent

lemma reachable : f.Reachable b :=
  ht.ready.reachable b ht.mem

lemma placed (hi : i ∈ f.instsOf b) : f.placed i :=
  ht.consistent.placed_of_mem ht.mem hi

section

variable (hsplit : f.instsOf b = pre ++ i :: post)
include hsplit

lemma available (hphi : (f.instr i).isPhi = false) {v : Operand} (hv : v ∈ (f.instr i).operands) :
    f.Available b pre v :=
  ht.ready.form.dominated b ht.mem ht.reachable pre i post hsplit hphi v hv

lemma seen (hphi : (f.instr i).isPhi = false) {j : InstId} (hj : .inst j ∈ (f.instr i).operands) :
    Seen f done j ∨ j ∈ pre := by
  rcases ht.available hsplit hphi hj j rfl with hmem | ⟨hne, hdom⟩
  · exact Or.inr hmem
  · refine Or.inl ⟨?_, ht.dominators _ hdom hne⟩
    exact ht.ready.complete b ht.mem i (by simp [hsplit]) _ hj

/-- What an instruction reads comes before it, so it is no later load of the block. -/
lemma ne_of_mem {j k : InstId} (hj : j ∈ pre) (hphi : (f.instr j).isPhi = false)
    (hk : .inst k ∈ (f.instr j).operands) : k ≠ i := by
  rintro rfl
  obtain ⟨p, q, rfl⟩ := append_of_mem hj
  have hsplit' : f.instsOf b = p ++ j :: (q ++ k :: post) := by
    rw [hsplit, append_assoc, cons_append]
  have hk' : k ∈ f.instsOf b := by simp [hsplit]
  have hnd := ht.consistent.nodup b
  rw [hsplit, nodup_middle, nodup_cons, mem_append, not_or] at hnd
  rcases ht.available hsplit' hphi hk k rfl with hmem | ⟨hne, -⟩
  · exact hnd.1.1 (mem_append_left _ hmem)
  · exact hne (ht.consistent.block_of_mem hk')

end

lemma lookup_eq_none (hphi : (f.instr i).isPhi = false) : phis.lookup i = none := by
  rw [Option.eq_none_iff_forall_ne_some]
  intro a ha
  rw [(ht.ready.phi i a ha).2.1] at hphi
  exact absurd hphi (by simp [openPhi, isPhi])

end Turn

namespace Midway

variable {v : Operand} {a : InstId}

variable {i : InstId}

variable (h : Midway f ss phis done b filled subst₀ start pre r subst)
include h

section

variable (ht : Turn f ss phis done b) (hsplit : f.instsOf b = pre ++ i :: post)
include ht hsplit

lemma placed : r.func.placed i ∧ ¬ (Seen f done i ∨ i ∈ pre) := by
  have hi : i ∈ f.instsOf b := by simp [hsplit]
  have hnd := ht.consistent.nodup b
  rw [hsplit, nodup_middle, nodup_cons, mem_append, not_or] at hnd
  have hnot : ¬ (Seen f done i ∨ i ∈ pre) := by
    rw [Seen, ht.consistent.block_of_mem hi]
    exact not_or.mpr ⟨fun h => ht.notDone h.2, hnd.1.1⟩
  exact ⟨(h.progress.placed_iff ht.consistent).mpr ⟨ht.placed hi, fun hi' => hnot hi'.1⟩, hnot⟩

lemma settled_rename (hphi : (f.instr i).isPhi = false) (hv : v ∈ (f.instr i).operands)
    (hslot : ∀ j, v = .inst j → j ∉ ss.map Slot.alloc) : Settled f ss phis (v.rename subst) := by
  refine h.progress.sound.settled_rename (ht.placed (by simp [hsplit])) hv hslot ?_
  rintro j rfl -
  exact ht.seen hsplit hphi hv

lemma available_rename (hphi : (f.instr i).isPhi = false) (hv : v ∈ (f.instr i).operands) :
    f.Available b pre (v.rename subst) := by
  refine h.progress.sound.available_rename ht.consistent hsplit ht.reachable
    (ht.available hsplit hphi hv) ?_
  exact ht.ready.complete b ht.mem i (by simp [hsplit]) v hv

end

lemma skip (hacc : accesses ss (f.instr i) = false)
    (hvals : track f phis subst r.values i = r.values) :
    Midway f ss phis done b filled subst₀ start (pre ++ [i]) r subst where
  progress := by
    refine h.progress.congr fun j hj => ?_
    have hji : j ≠ i := by
      rintro rfl
      rw [hacc] at hj
      exact Bool.false_ne_true hj
    simp [hji]
  agrees := h.agrees
  values := by rw [foldl_append, ← h.values, foldl_cons, hvals, foldl_nil]
  current := h.current.mono (subset_append_left pre [i])
  loads := by
    refine h.loads.concat fun a ha hk => ?_
    rw [hk] at hacc
    exact absurd (accesses_eq_true.mpr ⟨a, ha, rfl⟩) (by rw [hacc]; exact Bool.false_ne_true)

variable (ht : Turn f ss phis done b)
include ht

lemma setPhi (hi : phis.lookup i = some a) :
    Midway f ss phis done b filled subst₀ start (pre ++ [i]) (r.set a (.inst i)) subst where
  progress := by
    refine h.progress.congr fun j hj => ?_
    have hji : j ≠ i := by
      rintro rfl
      rw [ht.ready.loadsSlot_of_lookup hi] at hj
      exact Bool.false_ne_true hj
    simp [hji]
  agrees := h.agrees
  values := by
    rw [foldl_append, ← h.values, foldl_cons, track, hi]
    rfl
  current := (h.current.mono (subset_append_left pre [i])).cons (ht.ready.phi i a hi).2.2
    (ht.ready.settled_phi hi) (.of_mem (by simp))
  loads := by
    refine h.loads.concat fun c hc hk => ?_
    rw [(ht.ready.phi i a hi).2.1] at hk
    exact absurd hk (by simp [openPhi])

lemma setStore (hsplit : f.instsOf b = pre ++ i :: post) (ha : a ∈ ss.map Slot.alloc)
    (hk : f.instr i = .store v (.inst a)) :
    Midway f ss phis done b filled subst₀ start (pre ++ [i])
      ((r.set a (v.rename subst)).drop i) subst where
  progress := by
    have hacc : accesses ss (f.instr i) := accesses_eq_true.mpr ⟨a, ha, by rw [hk]; rfl⟩
    refine (h.progress.dropStore ht.ready (h.placed ht hsplit).1 hacc (by rw [hk]; rfl)).congr ?_
    simp [or_assoc]
  agrees := h.agrees
  values := by
    obtain ⟨w, -, hw⟩ := h.current.at?_inst ha
    have hphi : (f.instr i).isPhi = false := by rw [hk]; rfl
    rw [foldl_append, ← h.values, foldl_cons, track, ht.lookup_eq_none hphi, hk]
    simp only [hw]
    rfl
  current := by
    have hphi : (f.instr i).isPhi = false := by rw [hk]; rfl
    have hv : v ∈ (f.instr i).operands := by simp [hk, operands]
    have hpl := ht.placed (i := i) (by simp [hsplit])
    refine (h.current.cons ha (h.settled_rename ht hsplit hphi hv fun j hj hmem => ?_)
      (h.available_rename ht hsplit hphi hv)).mono (subset_append_left pre [i])
    exact ht.ready.slots.value_ne hmem hpl hk hj
  loads := by
    refine h.loads.concat fun c hc hk' => ?_
    rw [hk] at hk'
    cases hk'

lemma setLoad (hsplit : f.instsOf b = pre ++ i :: post) (ha : a ∈ ss.map Slot.alloc)
    (hk : f.instr i = .load (.inst a)) (hv : r.values.lookup a = some v) :
    Midway f ss phis done b filled subst₀ start (pre ++ [i]) (r.replaceLoad i v)
      (update subst i v) := by
  have hload := loadsSlot_eq_true.mpr ⟨a, ha, hk⟩
  obtain ⟨hpl, hseen⟩ := h.placed ht hsplit
  have hi : i ∈ f.instsOf b := by simp [hsplit]
  have hblk := ht.consistent.block_of_mem hi
  have hmem := mem_of_lookup_eq_some hv
  have hnd := ht.consistent.nodup b
  rw [hsplit, nodup_middle, nodup_cons, mem_append, not_or] at hnd
  -- stores that come before the load do not store its result
  have hstores (j : InstId) (hj : j ∈ pre) (w p : Operand) (hk' : f.instr j = .store w p) :
      w.rename (update subst i v) = w.rename subst := by
    cases w with
    | inst c =>
      have hne : c ≠ i := ht.ne_of_mem hsplit hj (by rw [hk']; rfl) (by simp [hk', operands])
      rw [Operand.rename, Operand.rename, Function.update_of_ne hne]
    | _ => rfl
  have hvals : r.values = pre.foldl (track f phis (update subst i v)) start := by
    rw [foldl_track_congr hstores, h.values]
  refine ⟨?_, fun j hj => ?_, ?_, h.current.mono (subset_append_left pre [i]), ?_⟩
  · refine (h.progress.replaceLoad ht.ready hpl hseen hload (h.current.settled _ hmem)
      fun p q hpq => ?_).congr fun j _ => by simp [or_assoc]
    rw [hblk] at hpq ⊢
    rw [hsplit] at hpq
    rw [← ((append_cons_inj_of_notMem hnd.1.1 hnd.1.2).mp hpq).1]
    exact h.current.available _ hmem
  · have hji : j ≠ i := fun heq => hj (heq ▸ hi)
    rw [update_of_ne hji]
    exact h.agrees j hj
  · rw [foldl_append, ← hvals, foldl_cons, track,
      ht.lookup_eq_none (by rw [hk]; rfl), hk]
    rfl
  · refine (h.loads.congr hstores fun j hj => ?_).concat fun c hc hk' => ?_
    · have hji : j ≠ i := fun heq => hnd.1.1 (heq ▸ hj)
      exact update_of_ne hji _ _
    · obtain rfl : a = c := by
        rw [hk] at hk'
        simpa using hk'
      rw [← hvals, hv, update_self]

lemma at?_rename_eq_none (hsplit : f.instsOf b = pre ++ i :: post)
    (hphi : (f.instr i).isPhi = false) {p : Operand} (hp : p ∈ (f.instr i).operands)
    (hslot : ∀ j, p = .inst j → j ∉ ss.map Slot.alloc) :
    r.values.at? p = none ∧ r.values.at? (p.rename subst) = none :=
  ⟨h.current.at?_eq_none hslot,
    h.current.at?_eq_none (h.settled_rename ht hsplit hphi hp hslot).slot⟩

lemma step (hsplit : f.instsOf b = pre ++ i :: post) :
    ∃ subst', Midway f ss phis done b filled subst₀ start (pre ++ [i]) (r.step phis i) subst' := by
  cases hlook : phis.lookup i with
  | some a =>
    rw [Renaming.step, hlook]
    exact ⟨subst, h.setPhi ht hlook⟩
  | none =>
    have hinstr := h.progress.instr i (h.placed ht hsplit).1 hlook
    cases hk : f.instr i with
    | load p =>
      rw [hk, mapOperands] at hinstr
      by_cases hslot : ∃ a ∈ ss.map Slot.alloc, p = .inst a
      · obtain ⟨a, ha, rfl⟩ := hslot
        obtain ⟨v, hv, hat⟩ := h.current.at?_inst ha
        rw [Operand.rename, h.progress.sound.subst_slot ht.ready.slots ha] at hinstr
        refine ⟨update subst i v, ?_⟩
        simp only [Renaming.step, hlook, hinstr, hat]
        exact h.setLoad ht hsplit ha hk hv
      · have hnot : ∀ j, p = .inst j → j ∉ ss.map Slot.alloc := fun j hj hmem => hslot ⟨j, hmem, hj⟩
        obtain ⟨-, hnone⟩ := h.at?_rename_eq_none ht hsplit (by rw [hk]; rfl)
          (by simp [hk, operands]) hnot
        refine ⟨subst, ?_⟩
        simp only [Renaming.step, hlook, hinstr, hnone]
        refine h.skip ?_ (by simp [track, hlook, hk])
        rw [hk]
        cases p with
        | inst j => simpa [accesses, accessed?] using hnot j rfl
        | _ => rfl
    | store v p =>
      rw [hk, mapOperands] at hinstr
      by_cases hslot : ∃ a ∈ ss.map Slot.alloc, p = .inst a
      · obtain ⟨a, ha, rfl⟩ := hslot
        obtain ⟨w, -, hat⟩ := h.current.at?_inst ha
        rw [Operand.rename, h.progress.sound.subst_slot ht.ready.slots ha] at hinstr
        refine ⟨subst, ?_⟩
        simp only [Renaming.step, hlook, hinstr, hat]
        exact h.setStore ht hsplit ha hk
      · have hnot : ∀ j, p = .inst j → j ∉ ss.map Slot.alloc := fun j hj hmem => hslot ⟨j, hmem, hj⟩
        obtain ⟨hnone', hnone⟩ := h.at?_rename_eq_none ht hsplit (by rw [hk]; rfl)
          (by simp [hk, operands]) hnot
        refine ⟨subst, ?_⟩
        simp only [Renaming.step, hlook, hinstr, hnone]
        refine h.skip ?_ (by simp [track, hlook, hk, hnone'])
        rw [hk]
        cases p with
        | inst j => simpa [accesses, accessed?] using hnot j rfl
        | _ => rfl
    | _ =>
      rw [hk] at hinstr
      refine ⟨subst, ?_⟩
      simp only [Renaming.step, hlook, hinstr]
      exact h.skip (by rw [hk]; rfl) (by simp [track, hlook, hk])

lemma run (hsplit : f.instsOf b = pre ++ post) :
    ∃ subst', Midway f ss phis done b filled subst₀ start (f.instsOf b)
      (post.foldl (Renaming.step phis) r) subst' := by
  induction post generalizing pre r subst with
  | nil => grind
  | cons i post ih =>
    obtain ⟨subst', h'⟩ := h.step ht hsplit
    exact ih h' (by rw [hsplit, append_assoc, singleton_append])

end Midway

/-! ## Phi entries -/

lemma fillEntry_map {ps : List BlockId} (hps : ps.Nodup) (hb : b ∈ ps)
    {e : BlockId → Option Operand} (hopen : e b = none) (v : Operand) :
    fillEntry b v (ps.map fun p => ⟨p, e p⟩) =
      some (ps.map fun p => ⟨p, if p = b then some v else e p⟩) := by
  induction ps with
  | nil => cases hb
  | cons p ps ih =>
    obtain ⟨hp, hps⟩ := nodup_cons.mp hps
    rw [map_cons, fillEntry, map_cons]
    by_cases hpb : p = b
    · subst hpb
      rw [if_pos ⟨rfl, hopen⟩, if_pos rfl]
      refine congrArg some (congrArg _ (map_congr_left fun q hq => ?_))
      have hqp : q ≠ p := fun heq => hp (heq ▸ hq)
      rw [if_neg hqp]
    · grind

/-- The value that flows into a phi along an edge, given the values at the end of its source. -/
def flowing (phis : SlotPhis) (values : Values) (i : InstId) : Option Operand :=
  (phis.lookup i).bind fun a => values.lookup a

lemma Current.settled_flowing {values : Values} (h : Current f ss phis b pre values) {i : InstId}
    {v : Operand} (hv : flowing phis values i = some v) : Settled f ss phis v := by
  obtain ⟨a, -, hv⟩ := Option.bind_eq_some_iff.mp hv
  exact h.settled _ (mem_of_lookup_eq_some hv)

namespace Progress

variable {seen : InstId → Prop} {filled' : InstId → BlockId → Option Operand}

lemma congr_filled (h : Progress f ss phis seen subst filled cur)
    (hsame : ∀ i a, phis.lookup i = some a → ∀ p ∈ (f.block (f.inst i).block).preds,
      filled' i p = filled i p)
    (hsettled : ∀ i p v, filled' i p = some v → Settled f ss phis v) :
    Progress f ss phis seen subst filled' cur where
  frame := h.frame
  formed := h.formed
  block := h.block
  ty := h.ty
  sublist := h.sublist
  mem_instsOf := h.mem_instsOf
  sound := h.sound
  instr := h.instr
  phi i a hi := by
    rw [h.phi i a hi]
    refine congrArg _ (map_congr_left fun p hp => ?_)
    rw [hsame i a hi p hp]
  filled := hsettled

lemma fillPhi (h : Progress f ss phis seen subst filled cur) (hr : Ready f ss phis) {i a : InstId}
    (hi : phis.lookup i = some a) (hedge : f.Edge b (f.inst i).block) (hopen : filled i b = none)
    {v : Operand} (hv : Settled f ss phis v) :
    (cur.fillPhi i b v).1 ∧ Progress f ss phis seen subst
      (fun j p => if p = b ∧ j = i then some v else filled j p) (cur.fillPhi i b v).2 := by
  have hrouted := hr.routed
  have hcons := hrouted.consistent
  have hhas := (hcons.mem_liveBlocks.mp (hrouted.mem_liveBlocks_of_edge hedge)).1
  have hfill := fillEntry_map (hrouted.nodup_preds hhas)
    ((hrouted.mem_preds hhas).mpr hedge) hopen v
  obtain ⟨hok, hinstr⟩ := fillPhi_of_fillEntry (h.phi i a hi) hfill
  have hplaces := samePlaces_fillPhi cur i b v
  have hpl : cur.placed i := by
    rw [h.placed_iff hcons, hr.loadsSlot_of_lookup hi]
    exact ⟨(hr.phi i a hi).1, fun hseen => Bool.false_ne_true hseen.2⟩
  refine ⟨hok, h.frame.trans hplaces.frame, h.formed.fillPhi hpl b v, fun j => ?_,
    fun j => (ty_fillPhi cur i b v j).trans (h.ty j), fun c => ?_, fun c j => ?_, h.sound,
      fun j hj hnone => ?_, fun j c hj => ?_, fun j p w hw => ?_⟩
  · rw [hplaces.block, h.block]
  · rw [hplaces.instsOf]
    exact h.sublist c
  · rw [hplaces.instsOf, h.mem_instsOf]
  · have hji : j ≠ i := by
      rintro rfl
      rw [hi] at hnone
      cases hnone
    rw [hinstr, if_neg hji]
    exact h.instr j (hplaces.placed ▸ hj) hnone
  · rw [hinstr]
    split
    · next hji => simp [hji]
    · next hji => simp [hji, h.phi j c hj]
  · split at hw
    · grind
    · exact h.filled j p w hw

end Progress

variable {seen : InstId → Prop} {values : Values}

lemma forM_fillPhi {w : Work} (hr : Ready f ss phis)
    (h : Progress f ss phis seen subst filled w.func) (hvals : Current f ss phis b pre values)
    {c : BlockId} (hedge : f.Edge b c) {is : List InstId} (his : ∀ i ∈ is, (f.inst i).block = c)
    (hnd : is.Nodup) (hopen : ∀ i ∈ is, filled i b = none) :
    ∃ w', is.forM (fillPhi phis values b c) w = .ok () w' ∧ Progress f ss phis seen subst
      (fun i p => if p = b ∧ i ∈ is then flowing phis values i else filled i p) w'.func := by
  induction is generalizing w filled with
  | nil => exact ⟨w, rfl, h.congr_filled (fun _ _ _ _ _ => by simp) (by simpa using h.filled)⟩
  | cons i is ih =>
    obtain ⟨hi, hnd⟩ := nodup_cons.mp hnd
    have hrest : ∀ j ∈ is, (f.inst j).block = c := fun j hj => his j (.tail i hj)
    cases hlook : phis.lookup i with
    | none =>
      -- the phi was there before and has no open entry
      have hnone : flowing phis values i = none := by rw [flowing, hlook]; rfl
      obtain ⟨w', hrun, h'⟩ := ih h hrest hnd fun j hj => hopen j (.tail i hj)
      have hstep : fillPhi phis values b c i w = .ok () w := by
        unfold flowing at hnone
        rw [fillPhi, hnone]
        rfl
      refine ⟨w', ?_, h'.congr_filled (fun j a hj p _ => ?_) fun j p v hv => ?_⟩
      · rw [Transform.forM_cons_of_ok hstep, hrun]
      · have hji : j ≠ i := by
          rintro rfl
          rw [hlook] at hj
          cases hj
        simp [hji]
      · by_cases hji : j = i
        · subst hji
          by_cases hpb : p = b
          · simp [hpb, hnone] at hv
          · simp only [hpb, false_and, if_false] at hv
            exact h.filled j p v hv
        · refine h'.filled j p v ?_
          simpa [hji] using hv
    | some a =>
      obtain ⟨v, hv⟩ := hvals.total a (hr.phi i a hlook).2.2
      have hflowing : flowing phis values i = some v := by rw [flowing, hlook]; exact hv
      have hsettled := hvals.settled _ (mem_of_lookup_eq_some hv)
      have hhome := his i (.head _)
      obtain ⟨hok, hfilled⟩ := h.fillPhi hr hlook (hhome ▸ hedge) (hopen i (.head _)) hsettled
      obtain ⟨w₁, hstep, hfunc⟩ : ∃ w₁, fillPhi phis values b c i w = .ok () w₁ ∧
          w₁.func = (w.func.fillPhi i b v).2 := by
        refine ⟨{ w with func := (w.func.fillPhi i b v).2 }, ?_, rfl⟩
        unfold flowing at hflowing
        rw [fillPhi, hflowing]
        change (if (!(w.func.fillPhi i b v).1) then _ else _ : Transform Unit) _ = _
        rw [hok]
        rfl
      rw [← hfunc] at hfilled
      obtain ⟨w', hrun, h'⟩ := ih hfilled hrest hnd fun j hj => by
        have hji : j ≠ i := fun heq => hi (heq ▸ hj)
        simp [hji, hopen j (.tail i hj)]
      refine ⟨w', ?_, h'.congr_filled (fun j a hj p _ => ?_) fun j p u hu => h'.filled j p u ?_⟩
      · rw [Transform.forM_cons_of_ok hstep, hrun]
      · by_cases hji : j = i
        · simp [hji, hi, hflowing]
        · simp [hji]
      · by_cases hji : j = i
        · subst hji
          simpa [hi, hflowing] using hu
        · simpa [hji] using hu

end MiddleEnd.Promotion
