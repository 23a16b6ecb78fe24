import Mathlib.Algebra.BigOperators.Group.Finset.Piecewise
import MiddleEnd.Proofs.Promotion.Walk
import MiddleEnd.Proofs.SsaEdits

/-!
# Cleaning up after renaming

A renamed function is in SSA form again, provided that no operand names a store: a store has no
result, but an operand that names one would be left behind when the store goes.  Then nothing reads
the slots any more, every inserted phi is filled, the phis that are not needed are read by each other
only, and folding an instruction leaves no reader of it.  So the rest of the pass succeeds and keeps
SSA form.
-/

namespace MiddleEnd.Promotion

open List Option Bool Relation Func Instr Transform

variable {i : InstId} {is : List InstId} {w : Work} {counted : InstId → Bool} {f m g : Func}
  {ss : List Slot} {phis : SlotPhis} {start : BlockId → Values} {out : BlockId → Option Values}
  {subst : InstId → Operand} {c : Constant} {j : InstId} {kept : List InstId} {n : Nat}

/-! ## Renamed functions -/

/-- Operands that name a load or store of a slot name a load. -/
def StoresUnread (f : Func) (ss : List Slot) : Prop :=
  ∀ u, f.placed u → ∀ j, .inst j ∈ (f.instr u).operands → accesses ss (f.instr j) →
    isLoad (f.instr j)

namespace Renamed

variable {a i : InstId} {b : BlockId}

variable (h : Renamed f m g ss phis start out subst) {v : Operand}

include h

lemma seen_of_live (hb : b ∈ m.liveBlocks) (hi : i ∈ m.instsOf b) :
    Seen m (fun b => (out b).isSome) i := by
  have hcons := h.inserted.consistent
  exact ⟨hcons.live_of_mem hi, (hcons.block_of_mem hi).symm ▸ h.all b hb⟩

lemma mem_instsOf :
    i ∈ g.instsOf b ↔ i ∈ m.instsOf b ∧ ¬ (b ∈ m.liveBlocks ∧ accesses ss (m.instr i)) := by
  rw [h.walk.mem_instsOf]
  refine and_congr_right fun hi => not_congr (and_congr_left fun _ => ?_)
  have hblk := h.inserted.block_of_mem hi
  constructor
  · rintro ⟨-, hdone⟩
    exact hblk ▸ h.walk.live _ hdone
  · exact fun hb => h.seen_of_live hb hi

lemma defines_of_settled (hstores : StoresUnread m ss) (hv : Settled m ss phis v) :
    g.defines v := by
  have hkept {j : InstId} (hlive : (m.inst j).live) (hnot : accesses ss (m.instr j) = false) :
      (g.inst j).live := by
    have hmem := h.inserted.mem_of_live hlive
    refine h.walk.progress.formed.live_of_mem (b := (m.inst j).block) ?_
    exact h.mem_instsOf.mpr ⟨hmem, fun hacc => by simp [hnot] at hacc⟩
  rcases hv.origin with ⟨u, hu, hmem⟩ | ⟨i, a, rfl, hi⟩ | ⟨c, rfl⟩
  · have hpl := h.inserted.mem_liveInsts.mpr hu
    obtain ⟨b, hb, hub⟩ := mem_flatMap.mp hpl
    have hdefs := h.ready.complete b hb u hub v hmem
    cases v with
    | inst j =>
      refine hkept hdefs ?_
      rw [← not_eq_true]
      intro hacc
      have hload := hv.load j rfl
      rw [loadsSlot, hstores u hu j hmem hacc, hacc] at hload
      exact absurd hload (by simp)
    | arg n => rwa [defines, h.walk.progress.frame.params_size]
    | const c => rfl
    | global c => rfl
  · exact hkept (Formed.live_of_placed (h.ready.phi i a hi).1) (h.ready.loadsSlot_of_lookup hi)
  · rfl

lemma seen_of_placed (hi : m.placed i) : Seen m (fun b => (out b).isSome) i := by
  obtain ⟨b, hb, hib⟩ := mem_flatMap.mp (h.inserted.mem_liveInsts.mpr hi)
  exact h.seen_of_live hb hib

lemma settled_rename (hb : b ∈ m.liveBlocks) (hi : i ∈ g.instsOf b)
    (hv : v ∈ (m.instr i).operands) : Settled m ss phis (v.rename subst) := by
  obtain ⟨hmem, hkept⟩ := h.mem_instsOf.mp hi
  have hpl := h.inserted.placed_of_mem hb hmem
  refine h.walk.sound.settled_rename hpl hv (fun j hj hslot => ?_) fun j hj _ => ?_
  · -- only loads and stores name a slot
    subst hj
    have hacc := h.ready.slots.accessed?_eq_some hslot hpl hv
    exact hkept ⟨hb, accesses_eq_true.mpr ⟨j, hslot, hacc⟩⟩
  · subst hj
    exact h.seen_of_placed (h.ready.placed_of_operand h.ready.form h.ready.complete hpl hv)

lemma instr_phi (hi : phis.lookup i = some a) :
    m.instr i = openPhi m (m.inst i).block ∧ g.instr i =
      .phi ((m.block (m.inst i).block).preds.map fun p => ⟨p, filledBy phis out i p⟩) :=
  ⟨(h.ready.phi i a hi).2.1, h.walk.phi i a hi⟩

lemma instr_old (hb : b ∈ m.liveBlocks) (hi : i ∈ g.instsOf b) (hnone : phis.lookup i = none) :
    g.instr i = (m.instr i).mapOperands (Operand.rename subst) := by
  refine h.walk.instr i ?_ hnone
  exact h.walk.progress.formed.placed_of_mem (h.walk.progress.frame.liveBlocks ▸ hb) hi

lemma sameShape (hb : b ∈ m.liveBlocks) (hi : i ∈ g.instsOf b) :
    (m.instr i).SameShape (g.instr i) := by
  cases hlook : phis.lookup i with
  | none =>
    rw [h.instr_old hb hi hlook]
    exact sameShape_mapOperands _ _
  | some a =>
    obtain ⟨hopen, hfilled⟩ := h.instr_phi hlook
    rw [hopen, hfilled]
    exact ⟨rfl, rfl, rfl, by simp [openPhi, entries, Function.comp_def]⟩

lemma filledBy_eq_some (hi : phis.lookup i = some a) {p : BlockId} (hp : p ∈ m.liveBlocks) :
    ∃ vp v, out p = some vp ∧ vp.lookup a = some v ∧
      filledBy phis out i p = some v := by
  obtain ⟨vp, hvp⟩ := isSome_iff_exists.mp (h.all p hp)
  obtain ⟨v, hv⟩ := (h.walk.ends p vp hvp).total a (h.ready.phi i a hi).2.2
  exact ⟨vp, v, hvp, hv, by rw [filledBy, hvp, bind_some, flowing, hi, bind_some, hv]⟩

/-- An entry of an inserted phi names a predecessor of its block and the value there. -/
lemma entry_phi (hb : b ∈ m.liveBlocks) (hib : i ∈ m.instsOf b) (hi : phis.lookup i = some a)
    {e : PhiEntry} (he : e ∈ (g.instr i).entries) :
    m.Edge e.block b ∧ ∃ vp v, out e.block = some vp ∧ vp.lookup a = some v ∧ e.value = some v := by
  have hblk := h.inserted.block_of_mem hib
  have hhas := (h.inserted.mem_liveBlocks.mp hb).1
  rw [(h.instr_phi hi).2, hblk] at he
  obtain ⟨p, hp, rfl⟩ := mem_map.mp he
  have hedge := (h.ready.mem_preds hhas).mp hp
  obtain ⟨vp, v, hvp, hv, hfilled⟩ := h.filledBy_eq_some hi hedge.1
  exact ⟨hedge, vp, v, hvp, hv, hfilled⟩

lemma settled_operand (hb : b ∈ m.liveBlocks) (hi : i ∈ g.instsOf b)
    (hv : v ∈ (g.instr i).operands) : Settled m ss phis v := by
  cases hlook : phis.lookup i with
  | none =>
    rw [h.instr_old hb hi hlook, operands_mapOperands] at hv
    obtain ⟨w, hw, rfl⟩ := mem_map.mp hv
    exact h.settled_rename hb hi hw
  | some a =>
    have hphi : (g.instr i).isPhi := by
      rw [(h.instr_phi hlook).2]
      rfl
    obtain ⟨e, he, hval⟩ := exists_entry_of_mem_operands hphi hv
    obtain ⟨-, vp, w, hvp, hw, heq⟩ := h.entry_phi hb (h.mem_instsOf.mp hi).1 hlook he
    obtain rfl : w = v := Option.some.inj (heq.symm.trans hval)
    exact (h.walk.ends _ vp hvp).settled _ (mem_of_lookup_eq_some hw)

lemma trims (hstores : StoresUnread m ss) (hent : ⟨0⟩ ∈ m.liveBlocks) : m.Trims g := by
  have hmf := h.inserted.formed
  have hgf := h.walk.formed
  have hfr := h.walk.frame
  have hmem {b : BlockId} {i : InstId} (hi : i ∈ g.instsOf b) : i ∈ m.instsOf b :=
    (h.mem_instsOf.mp hi).1
  have hedge : g.Edge = m.Edge := by
    refine hmf.edge_of_shape hgf hfr.liveBlocks hfr.blockDeleted h.walk.sublist
      (fun b hb i hi => (h.sameShape hb hi).targets) fun b hb i hi hterm => ?_
    refine h.mem_instsOf.mpr ⟨hi, fun hgone => ?_⟩
    rw [Progress.not_isTerminator hgone.2] at hterm
    exact false_ne_true hterm
  refine ⟨hfr.liveBlocks, hedge, h.walk.block, h.walk.sublist,
    fun b hb i hi => h.sameShape hb hi, fun i hi => ?_, fun b hb i hi e he => ?_,
    fun b hb i hi v hv => ?_, fun b hb hreach pre i post hsplit hi hphi v hv => ?_,
    fun b hb hreach i hi e he v hv => ?_⟩
  · rw [(h.sameShape hent hi).isPhi]
    exact h.ready.form.entry i (hmem hi)
  · cases hlook : phis.lookup i with
    | none =>
      rw [h.instr_old hb hi hlook, entries_mapOperands] at he
      obtain ⟨e', he', rfl⟩ := mem_map.mp he
      have hsome := h.ready.form.filled b hb i (hmem hi) (by simp [hlook]) e' he'
      simpa using hsome
    | some a =>
      obtain ⟨-, vp, v, -, -, hv⟩ := h.entry_phi hb (hmem hi) hlook he
      simp [hv]
  · rw [hfr.liveBlocks] at hb
    exact h.defines_of_settled hstores (h.settled_operand hb hi hv)
  · have hlook : phis.lookup i = none := by
      rw [eq_none_iff_forall_ne_some]
      intro a ha
      rw [(h.instr_phi ha).1] at hphi
      exact absurd hphi (by simp [openPhi, isPhi])
    rw [h.instr_old hb hi hlook, operands_mapOperands] at hv
    obtain ⟨w, hw, rfl⟩ := mem_map.mp hv
    exact h.walk.sound.available_rename hmf.consistent hsplit hreach
      (h.ready.form.dominated b hb hreach pre i post hsplit hphi w hw)
      (h.ready.complete b hb i (hmem hi) w hw)
  · cases hlook : phis.lookup i with
    | none =>
      have hphi : (m.instr i).isPhi := by
        rw [← (h.sameShape hb hi).isPhi]
        cases hk : g.instr i with
        | phi es => rfl
        | _ =>
          rw [hk] at he
          cases he
      rw [h.instr_old hb hi hlook, entries_mapOperands] at he
      obtain ⟨e', he', rfl⟩ := mem_map.mp he
      obtain ⟨w, hw, rfl⟩ := map_eq_some_iff.mp hv
      have hpred : m.Edge e'.block b :=
        ((h.ready.form.covers b hb i (hmem hi) hphi).2 e'.block).mp (mem_map_of_mem he')
      exact h.walk.sound.available_rename hmf.consistent (append_nil _).symm
        (h.ready.reachable _ hpred.1)
        (h.ready.form.flows b hb hreach i (hmem hi) e' he' w hw)
        (h.ready.complete b hb i (hmem hi) w (mem_operands_of_entry he' hw))
    | some a =>
      obtain ⟨-, vp, w, hvp, hw, heq⟩ := h.entry_phi hb (hmem hi) hlook he
      obtain rfl : w = v := Option.some.inj (heq.symm.trans hv)
      exact (h.walk.ends _ vp hvp).available _ (mem_of_lookup_eq_some hw)

lemma ssa (hstores : StoresUnread m ss) (hent : ⟨0⟩ ∈ m.liveBlocks) : g.Ssa := by
  have htrims := h.trims hstores hent
  exact ssa_iff.mpr ⟨h.walk.formed, htrims.complete,
    htrims.ssaForm h.ready.form h.inserted.formed h.walk.formed⟩

end Renamed

/-! ## Slots -/

lemma users_eq_nil (hf : f.Formed) (hlive : (f.inst i).live)
    (hunread : ∀ u, f.placed u → .inst i ∉ (f.instr u).operands) :
    (f.inst i).users = [] := by
  refine eq_nil_iff_forall_not_mem.mpr fun u hu => ?_
  have hcnt : (f.inst i).users.count u = _ := hf.uses (.inst i) (hasInst_of_live hlive) hlive u
  have hpos := count_pos_iff.mpr hu
  split at hcnt
  · grind
  · omega

lemma removeSlot_eq_ok {s : Slot} (husers : (w.func.inst s.alloc).users = []) :
    ∃ w', removeSlot s w = .ok () w' ∧ w'.func = w.func.remove s.alloc := by
  rw [removeSlot, func_bind, husers]
  exact ⟨_, rfl, rfl⟩

lemma forM_removeSlot (hf : w.func.Ssa) (hnd : (ss.map Slot.alloc).Nodup)
    (hss : ∀ s ∈ ss, (w.func.inst s.alloc).live ∧ w.func.instr s.alloc = .alloc s.ty ∧
      ∀ u, w.func.placed u → .inst s.alloc ∉ (w.func.instr u).operands) :
    ∃ w', ss.forM removeSlot w = .ok () w' ∧ w'.func.Ssa ∧
      w'.func = (ss.map Slot.alloc).foldl remove w.func := by
  induction ss generalizing w with
  | nil => exact ⟨w, rfl, hf, rfl⟩
  | cons s ss ih =>
    rw [map_cons, nodup_cons] at hnd
    obtain ⟨hlive, hinstr, hunread⟩ := hss s (.head _)
    obtain ⟨v, hv, hfunc⟩ := removeSlot_eq_ok
      (users_eq_nil hf.formed hlive hunread)
    have hssa : v.func.Ssa := by
      rw [hfunc]
      exact hf.remove hlive (by rw [hinstr]; rfl) hunread
    obtain ⟨w', hw', hssa', hfunc'⟩ := ih hssa hnd.2 fun s' hs' => by
      obtain ⟨hlive', hinstr', hunread'⟩ := hss s' (.tail s hs')
      have hne : s'.alloc ≠ s.alloc := fun h => hnd.1 (h ▸ mem_map_of_mem hs')
      refine ⟨?_, ?_, fun u hu => ?_⟩
      · rw [hfunc, live_remove, hlive']
        simp [hne]
      · rw [hfunc, instr_remove, hinstr']
      · rw [hfunc, instr_remove]
        have hpl := placed_foldl_remove w.func [s.alloc] u
        rw [foldl_cons, foldl_nil, ← hfunc, hu, eq_comm, and_eq_true] at hpl
        exact hunread' u hpl.1
    refine ⟨w', ?_, hssa', ?_⟩
    · rw [forM_cons_of_ok hv, hw']
    · rw [hfunc', hfunc]
      rfl

/-! ## Phis -/

lemma checkFilled_eq_ok (h : ∀ i ∈ is, ∀ e ∈ (w.func.instr i).entries, e.value ≠ none) :
    checkFilled is w = .ok () w := by
  have hnone : is.find? (hasOpenEntry w.func) = none := by
    rw [List.find?_eq_none]
    intro i hi hopen
    obtain ⟨e, he, hval⟩ := any_eq_true.mp hopen
    exact h i hi e he (isNone_iff_eq_none.mp hval)
  rw [checkFilled, func_bind, hnone]
  rfl

def unneededPhis (f : Func) (is : List InstId) : List InstId :=
  is.filter fun i => !(neededPhis f is).contains i

lemma sweepPhis_eq_ok (is : List InstId) (w : Work) :
    ∃ w', sweepPhis is w = .ok () w' ∧
      w'.func = (unneededPhis w.func is).foldl remove w.func :=
  ⟨_, rfl, rfl⟩

def keepStep (f : Func) (is kept : List InstId) : List InstId :=
  is.filter fun i => kept.contains i || feeds f kept i

lemma sublist_keepStep (f : Func) (his : is.Nodup) (hkept : kept.Sublist is) :
    kept.Sublist (keepStep f is kept) := by
  conv_lhs => rw [← filter_mem_of_sublist hkept his]
  refine monotone_filter_right is fun i hi => ?_
  simp [hi]

lemma keepOperands_closed (f : Func) (his : is.Nodup)
    (hkept : kept.Sublist is) (hn : is.length ≤ n + kept.length) :
    kept ⊆ keepOperands f is n kept ∧
      ∀ i ∈ is, feeds f (keepOperands f is n kept) i → i ∈ keepOperands f is n kept := by
  induction n generalizing kept with
  | zero =>
    obtain rfl := hkept.eq_of_length_le (by omega)
    exact ⟨fun _ h => h, fun i hi _ => hi⟩
  | succ n ih =>
    have hstep : keepOperands f is (n + 1) kept = keepOperands f is n (keepStep f is kept) := rfl
    have hsub := sublist_keepStep f his hkept
    rw [hstep]
    by_cases heq : kept = keepStep f is kept
    · -- nothing new, so the collection is closed, and stays what it is
      have hfixed (k : Nat) : keepOperands f is k kept = kept := by
        induction k with
        | zero => rfl
        | succ k ihk =>
          change keepOperands f is k (keepStep f is kept) = kept
          rw [← heq, ihk]
      rw [← heq, hfixed n]
      refine ⟨fun _ h => h, fun i hi hfeeds => ?_⟩
      rw [heq, keepStep, mem_filter]
      exact ⟨hi, by simp [hfeeds]⟩
    · have hlt :=
        lt_of_le_of_ne hsub.length_le fun h => heq (hsub.eq_of_length h)
      have hstep : (keepStep f is kept).Sublist is := filter_sublist
      obtain ⟨hmem, hclosed⟩ := ih hstep (by omega)
      exact ⟨fun i hi => hmem (hsub.mem hi), hclosed⟩

/-- The second phi is one of `is` and reads the first one. -/
def ReadBy (f : Func) (is : List InstId) (i j : InstId) : Prop :=
  j ∈ is ∧ .inst i ∈ (f.instr j).operands

/-- A counted instruction that is not one of `is` reads `i`. -/
def ReadOutside (f : Func) (counted : InstId → Bool) (is : List InstId) (i : InstId) : Prop :=
  ∃ u, u ∉ is ∧ counted u ∧ .inst i ∈ (f.instr u).operands

/-- A chain of readers leads from `i` out of `is`. -/
def ChainOut (f : Func) (counted : InstId → Bool) (is : List InstId) (i : InstId) : Prop :=
  ∃ j, ReflTransGen (ReadBy f is) i j ∧ ReadOutside f counted is j

lemma feeds_eq_true :
    feeds f kept i ↔ ∃ j ∈ kept, .inst i ∈ (f.instr j).operands := by
  simp only [feeds, List.any_eq_true, contains_iff_mem]

lemma hasOtherUser_eq_true (huses : f.UsesOf counted (.inst i)) :
    hasOtherUser f is i ↔ ReadOutside f counted is i := by
  have hmem (u : InstId) : u ∈ (f.inst i).users ↔ counted u ∧ .inst i ∈ (f.instr u).operands := by
    change u ∈ f.users (.inst i) ↔ _
    rw [← count_pos_iff, huses u, ← count_pos_iff]
    split
    · next hu => exact (and_iff_right hu).symm
    · next hu => exact iff_of_false (Nat.lt_irrefl 0) fun h => hu h.1
  simp only [hasOtherUser, List.any_eq_true, hmem, not_eq_true', contains_eq_mem,
    decide_eq_false_iff_not,
    ReadOutside]
  exact exists_congr fun u => and_comm

lemma chainOut_of_mem_keepOperands
    (hkept : ∀ j ∈ kept, j ∈ is ∧ ChainOut f counted is j)
    (hi : i ∈ keepOperands f is n kept) : ChainOut f counted is i := by
  induction n generalizing kept with
  | zero => exact (hkept i hi).2
  | succ n ih =>
    refine ih (fun k hk => ?_) hi
    rw [mem_filter, or_eq_true, contains_iff_mem, feeds_eq_true] at hk
    refine ⟨hk.1, ?_⟩
    rcases hk.2 with hold | ⟨j, hj, hread⟩
    · exact (hkept k hold).2
    · obtain ⟨hphi, last, hchain, hout⟩ := hkept j hj
      exact ⟨last, hchain.head ⟨hphi, hread⟩, hout⟩

section

variable (his : is.Nodup) (huses : ∀ i ∈ is, f.UsesOf counted (.inst i))
include his huses

/-- A phi stays if and only if a chain of readers leads from it out of the given phis. -/
lemma notMem_unneededPhis_iff (hi : i ∈ is) :
    i ∉ unneededPhis f is ↔ ChainOut f counted is i := by
  have hstart {j : InstId} :
      j ∈ is.filter (hasOtherUser f is) ↔ j ∈ is ∧ ReadOutside f counted is j := by
    rw [mem_filter]
    exact and_congr_right fun hj => hasOtherUser_eq_true (huses j hj)
  have hneeded : i ∉ unneededPhis f is ↔ i ∈ neededPhis f is := by simp [unneededPhis, hi]
  rw [hneeded]
  constructor
  · refine chainOut_of_mem_keepOperands fun j hj => ?_
    obtain ⟨hphi, hout⟩ := hstart.mp hj
    exact ⟨hphi, j, .refl, hout⟩
  · rintro ⟨last, hchain, hout⟩
    have hsublist : (is.filter (hasOtherUser f is)).Sublist is := filter_sublist
    obtain ⟨hmem, hclosed⟩ := keepOperands_closed f his (n := is.length) hsublist (by omega)
    -- along the chain from its end: each phi feeds the next one, which is needed
    clear hneeded
    induction hchain using ReflTransGen.head_induction_on with
    | refl => exact hmem (hstart.mpr ⟨hi, hout⟩)
    | head hread _ ih => exact hclosed _ hi (feeds_eq_true.mpr ⟨_, ih hread.1, hread.2⟩)

lemma notMem_operands_of_unneeded {u : InstId} (hu : counted u) (hkept : u ∉ unneededPhis f is)
    (hi : i ∈ unneededPhis f is) : .inst i ∉ (f.instr u).operands := by
  intro hread
  refine (notMem_unneededPhis_iff his huses (mem_filter.mp hi).1).mpr ?_ hi
  by_cases hphi : u ∈ is
  · obtain ⟨last, hchain, hout⟩ := (notMem_unneededPhis_iff his huses hphi).mp hkept
    exact ⟨last, hchain.head ⟨hphi, hread⟩, hout⟩
  · exact ⟨i, .refl, u, hphi, hu, hread⟩

end

lemma ssa_sweep (hf : f.Ssa) (his : is.Nodup)
    (hphis : ∀ i ∈ is, (f.inst i).live ∧ (f.instr i).isPhi) :
    ((unneededPhis f is).foldl remove f).Ssa := by
  refine hf.foldl_remove (his.filter _) (fun i hi => ?_) fun u hu hkept i hi => ?_
  · obtain ⟨hlive, hphi⟩ := hphis i (mem_filter.mp hi).1
    refine ⟨hlive, ?_⟩
    cases hk : f.instr i with
    | phi es => rfl
    | _ =>
      rw [hk] at hphi
      exact absurd hphi (by simp [isPhi])
  · refine notMem_operands_of_unneeded his (fun j hj => ?_) hu hkept hi
    exact hf.formed.uses _ (hasInst_of_live (hphis j hj).1) (hphis j hj).1

/-! ## Folding -/

/-- Puts a literal in the place of an instruction. -/
def foldAt (f : Func) (i : InstId) (c : Constant) : Func :=
  (f.replaceUses (.inst i) (.const c)).2.remove i

/-- What becomes of a function when instructions are folded one after the other. -/
inductive Folded : Func → Func → Prop
  | refl (f : Func) : Folded f f
  | step {f g : Func} {i : InstId} {c : Constant} : foldable? f i = some c →
    Folded (foldAt f i c) g → Folded f g

lemma foldable?_eq_some (h : foldable? f i = some c) :
    (f.inst i).live ∧ (f.instr i).fold? (f.inst i).ty = some c := by
  rw [foldable?] at h
  split at h
  · next hlive => exact ⟨hlive, h⟩
  · cases h

lemma not_isTerminator_of_fold? {k : Instr} {t : Ty} (h : k.fold? t = some c) :
    k.isTerminator = false ∧ k.isPhi = false := by
  cases k <;> first | exact ⟨rfl, rfl⟩ | cases h

/-- Folding with a stack, the first entry next, until the stack is empty. -/
inductive Folds : Func → List InstId → Func → Prop
  | done (f : Func) : Folds f [] f
  | skip {f g : Func} {i : InstId} {stack : List InstId} : foldable? f i = none →
    Folds f stack g → Folds f (i :: stack) g
  | fold {f g : Func} {i : InstId} {c : Constant} {stack : List InstId} :
    foldable? f i = some c → Folds (foldAt f i c) ((f.inst i).users.reverse ++ stack) g →
    Folds f (i :: stack) g

lemma Folds.folded {stack : List InstId} (h : Folds f stack g) : Folded f g := by
  induction h with
  | done => exact .refl _
  | skip _ _ ih => exact ih
  | fold hfold _ ih => exact .step hfold ih

lemma useCount_eq_sum (f : Func) :
    useCount f = ∑ n ∈ Finset.range f.insts.size, (f.inst ⟨n⟩).users.length := by
  have hlist : f.insts.toList = (List.range f.insts.size).map fun n => f.inst ⟨n⟩ := by
    refine ext_getElem (by simp) fun n hn _ => ?_
    simp at hn
    simp [inst, hn]
  rw [useCount, hlist, length_flatMap, List.map_map]
  rfl

lemma length_users_remove_le (f : Func) (i : InstId) (hj : f.hasInst j) :
    ((f.remove i).inst j).users.length ≤ (f.inst j).users.length := by
  have htr : f.tracks (.inst j) := hj
  have hsubperm : (f.remove i).users (.inst j) <+~ f.users (.inst j) := by
    refine subperm_ext_iff.mpr fun u _ => ?_
    by_cases hlive : (f.inst i).live
    · rw [count_users_remove hlive u htr]
      exact Nat.sub_le _ _
    · rw [remove, if_neg hlive]
  exact hsubperm.length_le

lemma size_insts_foldAt (f : Func) (i : InstId) (c : Constant) :
    (foldAt f i c).insts.size = f.insts.size := by
  refine eq_of_forall_lt_iff fun n => ?_
  have htr : (foldAt f i c).tracks (.inst ⟨n⟩) = f.tracks (.inst ⟨n⟩) := by
    rw [foldAt, tracks_remove, tracks_replaceUses]
  rw [tracks, tracks] at htr
  rw [← hasInst_iff f, ← hasInst_iff (foldAt f i c), htr]

lemma useCount_foldAt_le (hlive : (f.inst i).live) (c : Constant) :
    useCount (foldAt f i c) + (f.inst i).users.length ≤ useCount f := by
  have hi : f.hasInst i := hasInst_of_live hlive
  have hreplace {j : InstId} (hj : f.hasInst j) :
      ((f.replaceUses (.inst i) (.const c)).2.inst j).users =
        if j = i then [] else (f.inst j).users := by
    have hne : Operand.inst i ≠ .const c := nofun
    have husers := users_replaceUses (v := .inst j) hne hi hj
    simpa [users] using husers
  have hle {j : InstId} (hj : f.hasInst j) :
      ((foldAt f i c).inst j).users.length + (if j = i then (f.inst i).users.length else 0) ≤
        (f.inst j).users.length := by
    have hkept := (samePlaces_replaceUses f (.inst i) (.const c)).hasInst j
    have hremove := length_users_remove_le _ i (hkept.trans hj)
    rw [hreplace hj] at hremove
    by_cases hji : j = i
    · subst hji
      simpa [foldAt] using hremove
    · simpa [hji, foldAt] using hremove
  calc
    _ = ∑ n ∈ Finset.range f.insts.size, (((foldAt f i c).inst ⟨n⟩).users.length +
          if n = i.idx then (f.inst i).users.length else 0) := by
      rw [useCount_eq_sum, size_insts_foldAt, Finset.sum_add_distrib, Finset.sum_ite_eq',
        if_pos (Finset.mem_range.mpr ((hasInst_iff f).mp hi))]
    _ ≤ ∑ n ∈ Finset.range f.insts.size, (f.inst ⟨n⟩).users.length := by
      refine Finset.sum_le_sum fun n hn => ?_
      obtain ⟨k⟩ := i
      simpa only [InstId.mk.injEq] using hle ((hasInst_iff f).mpr (Finset.mem_range.mp hn))
    _ = useCount f := (useCount_eq_sum f).symm

lemma foldStack_folds (stack : List InstId) (w : Work)
    (hn : stack.length + useCount w.func ≤ n) :
    ∃ w', foldStack n stack w = .ok () w' ∧ Folds w.func stack w'.func := by
  induction n generalizing stack w with
  | zero =>
    obtain rfl : stack = [] := length_eq_zero_iff.mp (by omega)
    exact ⟨w, rfl, .done _⟩
  | succ n ih =>
    cases stack with
    | nil => exact ⟨w, rfl, .done _⟩
    | cons i stack =>
      rw [length_cons] at hn
      rw [foldStack, func_bind]
      cases hfold : foldable? w.func i with
      | none =>
        obtain ⟨w', hrun, hfolds⟩ := ih stack w (by omega)
        exact ⟨w', hrun, .skip hfold hfolds⟩
      | some c =>
        obtain ⟨v, hv, hfunc⟩ : ∃ v, replaceByConstant i c w = .ok () v ∧
            v.func = foldAt w.func i c := ⟨_, rfl, rfl⟩
        have hfewer := useCount_foldAt_le (foldable?_eq_some hfold).1 c
        obtain ⟨w', hrun, hfolds⟩ := ih ((w.func.inst i).users.reverse ++ stack) v (by
          rw [length_append, length_reverse, hfunc]
          omega)
        rw [hfunc] at hfolds
        dsimp only
        rw [bind_of_ok hv]
        exact ⟨w', hrun, .fold hfold hfolds⟩

lemma Folded.ssa (h : Folded f g) (hf : f.Ssa) : g.Ssa := by
  induction h with
  | refl => exact hf
  | @step f g i c hfold _ ih =>
    obtain ⟨hlive, hval⟩ := foldable?_eq_some hfold
    have hform := hf.formed
    have htr : f.tracks (.inst i) := hasInst_of_live hlive
    have hplaces := samePlaces_replaceUses f (.inst i) (.const c)
    have hinstr (u : InstId) := instr_replaceUses (hform.uses _ htr hlive) htr (.const c)
      (j := u) fun h => hasInst_of_live (Formed.live_of_placed h)
    have hssa : (f.replaceUses (.inst i) (.const c)).2.Ssa :=
      hf.replaceUses hlive rfl fun b pre _ _ => .of_forall_ne (by simp)
    refine ih (hssa.remove ?_ ?_ fun u hu => ?_)
    · rw [hplaces.live, hlive]
    · rw [hinstr]
      split
      · rw [isTerminator_mapOperands]
        exact (not_isTerminator_of_fold? hval).1
      · exact (not_isTerminator_of_fold? hval).1
    · rw [hinstr, ← hplaces.placed, hu, if_pos rfl, operands_mapOperands]
      exact count_eq_zero.mp (count_map_subst_old (by simp) _)

lemma live_of_foldAt (h : ((foldAt f i c).inst j).live) :
    (f.inst j).live := by
  rw [foldAt, live_remove, (samePlaces_replaceUses _ _ _).live, and_eq_true] at h
  exact h.1

lemma Folded.live (h : Folded f g) (hi : (g.inst i).live) : (f.inst i).live := by
  induction h with
  | refl => exact hi
  | step _ _ ih => exact live_of_foldAt (ih hi)

end MiddleEnd.Promotion
