import MiddleEnd.Proofs.Machine.Typing
import MiddleEnd.Proofs.Promotion.Paths
import MiddleEnd.Proofs.Promotion.Run

/-!
# Runs of promoted functions

A function and the promoted one run side by side.  At each place, the current value of a slot has in
the promoted run what the slot holds in the other one, and the value that replaces a load has what the
load yielded.  The second holds only as long as the load is available: when control comes back to a
block that dominates the load, a new value may be there before the load is made again.

On an edge into a block without a phi for a slot, the values at both ends are the same operand, since
nothing between the block and its immediate dominator sets the slot.  So a run of the promoted function
makes the same jumps and calls and leaves out the loads and stores.
-/

namespace MiddleEnd

open List Func Instr Operand Nat Local

namespace Promotion

variable {f m g : Func} {ss : List Slot} {phis : SlotPhis} {start : BlockId → Values}
  {out : BlockId → Option Values} {subst : InstId → Operand} {b c : BlockId}
  {pre post : List InstId}

/-! ## Values of slots -/

/-- The values of the slots in a block after some of its instructions. -/
def valuesAt (f : Func) (phis : SlotPhis) (subst : InstId → Operand) (start : BlockId → Values)
    (b : BlockId) (pre : List InstId) : Values :=
  pre.foldl (track f phis subst) (start b)

lemma valuesAt_concat (f : Func) (phis : SlotPhis) (subst : InstId → Operand)
    (start : BlockId → Values) (b : BlockId) (pre : List InstId) (i : InstId) :
    valuesAt f phis subst start b (pre ++ [i]) =
      track f phis subst (valuesAt f phis subst start b pre) i :=
  foldl_concat _ _ _ _

/-- Does the instruction stay?  Slots, their loads and their stores go. -/
def stays (f : Func) (ss : List Slot) (i : InstId) : Bool :=
  !accesses ss (f.instr i) && decide (i ∉ ss.map Slot.alloc)

/-- The states of a function and of the promoted one at the same place. -/
structure Agree (f : Func) (ss : List Slot) (phis : SlotPhis) (subst : InstId → Operand)
    (start : BlockId → Values) (args : List Value) (b : BlockId) (pre : List InstId) (s t : State) :
    Prop where
  regs : ∀ i, phis.lookup i = none → loadsSlot ss (f.instr i) = false → t.regs i = s.regs i
  loads : ∀ i, loadsSlot ss (f.instr i) → (f.inst i).live →
    f.Available b pre (.inst i) → ∀ x, s.regs i = some x → t.eval args (subst i) = some x
  slots : ∀ a, a ∉ ss.map Slot.alloc → t.slots a = s.slots a
  unslotted : ∀ i, loadsSlot ss (f.instr i) → s.slots i = none
  /-- A slot that is not there yet is going to hold a zero. -/
  content : ∀ c ∈ ss, ∀ v, (valuesAt f phis subst start b pre).lookup c.alloc = some v →
    t.eval args v = some ((s.slots c.alloc).getD (.initial c.ty))
  world : t.world = s.world
  room : s.room ≤ t.room

namespace Renamed

variable {s t : State} {args : List Value} {a i : InstId} {is : List InstId} {v : Operand}
  (h : Renamed f m g ss phis start out subst)

include h

lemma isSome_start (hb : b ∈ m.liveBlocks) (ha : a ∈ ss.map Slot.alloc) :
    ((start b).lookup a).isSome := by
  obtain ⟨vb, hvb⟩ := Option.isSome_iff_exists.mp (h.all b hb)
  exact Option.isSome_iff_exists.mpr ((h.walk.starts b vb hvb).total a ha)

lemma isSome_valuesAt (hb : b ∈ m.liveBlocks) (ha : a ∈ ss.map Slot.alloc) (pre : List InstId) :
    ((valuesAt m phis subst start b pre).lookup a).isSome :=
  (lookup_foldl_track m phis subst (h.isSome_start hb ha) pre).1

lemma available_rename (hb : b ∈ m.liveBlocks) (hsplit : m.instsOf b = pre ++ post)
    (hv : m.Available b pre v) (hdefs : m.defines v) : m.Available b pre (v.rename subst) :=
  h.walk.sound.available_rename h.inserted.consistent hsplit
    (h.ready.reachable b hb) hv hdefs

lemma available_valuesAt (hb : b ∈ m.liveBlocks) (hsplit : m.instsOf b = pre ++ post)
    (ha : a ∈ ss.map Slot.alloc)
    (hv : (valuesAt m phis subst start b pre).lookup a = some v) : m.Available b pre v := by
  obtain ⟨-, ⟨-, heq⟩ | ⟨p, i, q, rfl, -, ⟨-, heq⟩ | ⟨-, w, hk, heq⟩⟩⟩ :=
    lookup_foldl_track m phis subst (h.isSome_start hb ha) pre
  · obtain ⟨vb, hvb⟩ := Option.isSome_iff_exists.mp (h.all b hb)
    have hstart := (h.walk.starts b vb hvb).available (a, v)
      (mem_of_lookup_eq_some (heq.symm.trans hv))
    exact hstart.mono (nil_subset _)
  · obtain rfl := Option.some.inj (heq.symm.trans hv)
    exact .of_mem (by simp)
  · obtain rfl := Option.some.inj (heq.symm.trans hv)
    have hsplit' : m.instsOf b = p ++ i :: (q ++ post) := by simp [hsplit]
    have hmem : w ∈ (m.instr i).operands := by simp [hk, operands]
    have havail := h.ready.form.dominated b hb (h.ready.reachable b hb) p i _ hsplit'
      (by rw [hk]; rfl) w hmem
    have hdefs := h.ready.complete b hb i (by simp [hsplit']) w hmem
    exact (h.available_rename hb hsplit' havail hdefs).mono (subset_append_left _ _)

lemma mem_liveBlocks_of_edge (hedge : m.Edge b c) : c ∈ m.liveBlocks :=
  h.ready.mem_liveBlocks_of_edge hedge

lemma lookup_start_of_edge (hedge : m.Edge b c) (ha : a ∈ ss.map Slot.alloc)
    (hphi : ¬ HasPhi m phis a c) :
    (start c).lookup a = (valuesAt m phis subst start b (m.instsOf b)).lookup a := by
  have hanalyzed := h.ready.analyzed
  have hb : b ∈ m.liveBlocks := hedge.1
  have hc := h.mem_liveBlocks_of_edge hedge
  obtain ⟨l, hl⟩ := exists_path_iff.mpr (hanalyzed.reachable b hb)
  have hroot : c ≠ ⟨0⟩ := by
    rintro rfl
    exact hanalyzed.entry b hedge
  obtain ⟨d, hd⟩ := ImmediatelyDominates.exists_of_trail (hl.step hedge) hroot
  have hvals {x : BlockId} (hx : x ∈ m.liveBlocks) :
      out x = some (valuesAt m phis subst start x (m.instsOf x)) := by
    obtain ⟨vx, hvx⟩ := Option.isSome_iff_exists.mp (h.all x hx)
    rw [hvx, h.walk.values x vx hvx]
    rfl
  -- the blocks between `d` and `b` in the dominator tree do not set the slot
  have hsame {x : BlockId} {l : List BlockId} (hl : m.Path (x :: l)) (hxb : m.Dom x b)
      (hdx : m.Dom d x) : (valuesAt m phis subst start x (m.instsOf x)).lookup a =
        (valuesAt m phis subst start d (m.instsOf d)).lookup a := by
    induction hn : l.length using Nat.strongRecOn generalizing x l with
    | _ n ih =>
      by_cases hxd : x = d
      · rw [hxd]
      · have hx := hanalyzed.mem_liveBlocks_of_reachable (ne_nil_of_mem hb)
          (exists_path_iff.mp ⟨l, hl⟩)
        have hx0 : x ≠ ⟨0⟩ := by
          rintro rfl
          exact hxd (mem_singleton.mp (hdx [] .root)).symm
        obtain ⟨e, he⟩ := ImmediatelyDominates.exists_of_trail hl hx0
        have hmem : e ∈ l := (mem_cons.mp (he.1.1 l hl)).resolve_left he.1.2
        obtain ⟨q, r, rfl⟩ := append_of_mem hmem
        have hde := he.2 d ⟨hdx, Ne.symm hxd⟩
        have hfront : InFrontier m.Edge ⟨0⟩ x c := by
          refine ⟨b, hedge, exists_path_iff.mpr (hanalyzed.reachable b hb), hxb, fun hxc => ?_⟩
          exact hxd (hdx.antisymm (hd.2 x hxc) hl).symm
        have hquiet (i : InstId) (hi : i ∈ m.instsOf x) : ¬ Sets m phis a i := by
          rintro (hlook | ⟨-, v, hk⟩)
          · exact hphi (h.ready.closed a ha x c (.inr ⟨i, hi, hlook⟩) hfront)
          · exact hphi (h.ready.closed a ha x c (.inl ⟨i, hi, v, hk⟩) hfront)
        have hstart : (valuesAt m phis subst start x (m.instsOf x)).lookup a =
            (start x).lookup a := by
          obtain ⟨-, ⟨-, heq⟩ | ⟨p, i, q, hsplit, -, hset⟩⟩ :=
            lookup_foldl_track m phis subst (h.isSome_start hx ha) (m.instsOf x)
          · exact heq
          · refine absurd ?_ (hquiet i (by simp [hsplit]))
            exact hset.imp And.left fun hset => ⟨hset.1, hset.2.imp fun v hv => hv.1⟩
        have hidom := h.walk.inherits x (h.all x hx) e he
        have hpath : m.Path (e :: r) := Trail.of_append (q := x :: q) hl
        have hlive := hanalyzed.mem_liveBlocks_of_reachable (ne_nil_of_mem hb)
          (exists_path_iff.mp ⟨r, hpath⟩)
        rw [hstart, ← Option.some.inj ((hvals hlive).symm.trans hidom)]
        refine ih r.length ?_ hpath (he.1.1.trans hxb) hde rfl
        rw [← hn, length_append, length_cons]
        omega
  have hdb : m.Dom d b := hd.1.1.of_edge hd.1.2 hedge
  obtain ⟨ld, hld⟩ := hdb.exists_trail ⟨l, hl⟩
  have hdlive := hanalyzed.mem_liveBlocks_of_reachable (ne_nil_of_mem hb)
    (exists_path_iff.mp ⟨ld, hld⟩)
  rw [← Option.some.inj ((hvals hdlive).symm.trans (h.walk.inherits c (h.all c hc) d hd))]
  exact (hsame hl (.refl b) hdb).symm

/-! ## The promoted function -/

lemma frame_clearSlots : m.SameFrame (clearSlots g ss) :=
  h.walk.progress.frame.trans (sameFrame_foldl sameFrame_remove _ _)

lemma stays_of_isPhi_or_isTerminator (hi : (m.instr i).isPhi ∨ (m.instr i).isTerminator) :
    stays m ss i := by
  rw [stays, Bool.and_eq_true, decide_eq_true_iff]
  constructor
  · cases hk : m.instr i <;> rw [hk] at hi <;> first | rfl | simp [isPhi, isTerminator] at hi
  · intro hslot
    obtain ⟨t, ht⟩ := h.ready.slots.instr_of_mem hslot
    simp [ht, isPhi, isTerminator] at hi

lemma stays_of_isPhi (hi : (m.instr i).isPhi) : stays m ss i :=
  h.stays_of_isPhi_or_isTerminator (.inl hi)

lemma stays_of_isTerminator (hi : (m.instr i).isTerminator) : stays m ss i :=
  h.stays_of_isPhi_or_isTerminator (.inr hi)

lemma instsOf_clearSlots (hb : b ∈ m.liveBlocks) :
    (clearSlots g ss).instsOf b = (m.instsOf b).filter (stays m ss) := by
  have hren : g.instsOf b = (m.instsOf b).filter fun i => !accesses ss (m.instr i) := by
    rw [← filter_mem_of_sublist (h.walk.progress.sublist b) (h.inserted.formed.nodup b)]
    refine filter_congr fun i hi => ?_
    rw [Bool.eq_iff_iff, decide_eq_true_iff, h.mem_instsOf]
    simp [hi, hb]
  rw [clearSlots, h.walk.progress.formed.instsOf_foldl_remove, hren, filter_filter]
  exact filter_congr fun i _ => Bool.and_comm _ _

lemma mem_of_stays (hi : i ∈ m.instsOf b) (hstays : stays m ss i) : i ∈ g.instsOf b := by
  rw [stays, Bool.and_eq_true, Bool.not_eq_true'] at hstays
  exact h.mem_instsOf.mpr ⟨hi, fun hacc => by simp [hstays.1] at hacc⟩

lemma instr_clearSlots (hb : b ∈ m.liveBlocks) (hi : i ∈ m.instsOf b)
    (hstays : stays m ss i) (hnone : phis.lookup i = none) :
    (clearSlots g ss).instr i = (m.instr i).mapOperands (Operand.rename subst) := by
  rw [← h.instr_old hb (h.mem_of_stays hi hstays) hnone]
  exact (Consistent.record_foldl_remove _ _ i).1

lemma isPhi_clearSlots (hb : b ∈ m.liveBlocks) (hi : i ∈ m.instsOf b)
    (hstays : stays m ss i) : ((clearSlots g ss).instr i).isPhi = (m.instr i).isPhi := by
  rw [← (h.sameShape hb (h.mem_of_stays hi hstays)).isPhi]
  exact congrArg isPhi (Consistent.record_foldl_remove _ _ i).1

lemma ty_clearSlots (i : InstId) : ((clearSlots g ss).inst i).ty = (m.inst i).ty :=
  (Consistent.record_foldl_remove _ _ i).2.1.trans (h.walk.ty i)

lemma body_clearSlots (hb : b ∈ m.liveBlocks) :
    (clearSlots g ss).body b = (m.body b).filter (stays m ss) := by
  rw [body, body, h.instsOf_clearSlots hb, filter_filter, filter_filter]
  refine filter_congr fun i hi => ?_
  cases hstays : stays m ss i with
  | false => simp
  | true => simp [h.isPhi_clearSlots hb hi hstays]

lemma body_inserted (b : BlockId) : m.body b = f.body b := by
  obtain ⟨l, hl, hnew⟩ := h.inserted.instsOf b
  have hphis : l.filter (fun i => !(m.instr i).isPhi) = [] := by
    rw [filter_eq_nil_iff]
    intro i hi
    obtain ⟨p, hp, rfl⟩ := mem_map.mp (hnew i hi)
    rw [(h.inserted.new p hp).2.2]
    simp [openPhi, isPhi]
  rw [body, hl, filter_append, hphis]
  exact filter_congr fun i hi => by rw [h.inserted.instr_of_mem h.formed.consistent hi]

lemma lookup_eq_none_of_mem (hi : i ∈ f.instsOf b) : phis.lookup i = none := by
  rw [Option.eq_none_iff_forall_ne_some]
  intro a ha
  have hnew := (h.inserted.new _ (mem_of_lookup_eq_some ha)).1
  rw [f.hasInst_of_live (h.formed.live_of_mem hi)] at hnew
  cases hnew

lemma mem_phis_clearSlots (hssa : (clearSlots g ss).Formed) (hb : b ∈ m.liveBlocks) :
    i ∈ (clearSlots g ss).phis b ↔
      i ∈ f.phis b ∨ i ∈ m.instsOf b ∧ ∃ a, phis.lookup i = some a := by
  have hlive : b ∈ (clearSlots g ss).liveBlocks := h.frame_clearSlots.liveBlocks ▸ hb
  have hlive' : b ∈ f.liveBlocks := h.inserted.liveBlocks ▸ hb
  rw [hssa.phis_eq hlive, h.formed.phis_eq hlive', mem_filter, mem_filter,
    h.instsOf_clearSlots hb, mem_filter]
  constructor
  · rintro ⟨⟨hi, hstays⟩, hphi⟩
    rw [h.isPhi_clearSlots hb hi hstays] at hphi
    rcases h.inserted.old_or_new h.formed.consistent hi with ⟨hold, hk⟩ | ⟨a, ha, -⟩
    · exact .inl ⟨hold, hk ▸ hphi⟩
    · exact .inr ⟨hi, a, (lookup_eq_some_iff_mem h.inserted.nodup).mpr ha⟩
  · have hphi (hi : i ∈ m.instsOf b) (hphi : (m.instr i).isPhi) :
        (i ∈ m.instsOf b ∧ stays m ss i) ∧ ((clearSlots g ss).instr i).isPhi := by
      have hstays := h.stays_of_isPhi hphi
      rw [h.isPhi_clearSlots hb hi hstays]
      exact ⟨⟨hi, hstays⟩, hphi⟩
    rintro (⟨hi, hold⟩ | ⟨hi, a, ha⟩)
    · refine hphi (h.inserted.subset_instsOf b hi) ?_
      rwa [h.inserted.instr_of_mem h.formed.consistent hi]
    · refine hphi hi ?_
      rw [(h.ready.phi i a ha).2.1]
      rfl

/-! ## States side by side -/

lemma subst_of_not_load (hload : loadsSlot ss (m.instr i) = false) : subst i = .inst i :=
  h.walk.sound.fixed i fun hseen => by simp [hload] at hseen

lemma available_subst (hb : b ∈ m.liveBlocks) (hsplit : m.instsOf b = pre ++ post)
    (hlive : (m.inst i).live) (hi : m.Available b pre (.inst i)) :
    m.Available b pre (subst i) :=
  h.available_rename hb hsplit hi hlive

lemma lookup_eq_none_of_not_isPhi (hi : (m.instr i).isPhi = false) : phis.lookup i = none := by
  rw [Option.eq_none_iff_forall_ne_some]
  intro a ha
  rw [(h.ready.phi i a ha).2.1] at hi
  cases hi

lemma live_of_operand (hcomp : f.Complete) (hb : b ∈ f.liveBlocks) (hi : i ∈ f.instsOf b)
    {j : InstId} (hj : .inst j ∈ (f.instr i).operands) :
    (m.inst j).live ∧ phis.lookup j = none := by
  have hlive : (f.inst j).live := hcomp b hb i hi _ hj
  refine ⟨?_, h.lookup_eq_none_of_mem (h.formed.mem_of_live hlive)⟩
  rw [(h.inserted.old j (f.hasInst_of_live hlive)).2.2.2.1, hlive]

lemma mem_of_at (hat : At m b pre (i :: is)) : i ∈ f.instsOf b := by
  refine ((h.inserted.old_or_new h.formed.consistent hat.mem).resolve_right ?_).1
  rintro ⟨a, ha, -⟩
  have hlook := (lookup_eq_some_iff_mem h.inserted.nodup).mpr ha
  rw [h.lookup_eq_none_of_not_isPhi (hat.body i (.head _))] at hlook
  cases hlook

/-- The operands of an instruction that is not a phi are available, and none is a new phi. -/
lemma operand (hcomp : f.Complete) (hat : At m b pre (i :: is))
    (hv : v ∈ (m.instr i).operands) :
    m.Available b pre v ∧ ∀ j, v = .inst j → (m.inst j).live ∧ phis.lookup j = none := by
  have hold := h.mem_of_at hat
  refine ⟨h.ready.form.dominated b hat.live (h.ready.reachable b hat.live) pre i is hat.split
    (hat.body i (.head _)) v hv, fun j hj => ?_⟩
  rw [h.inserted.instr_of_mem h.formed.consistent hold] at hv
  exact h.live_of_operand hcomp (h.inserted.liveBlocks ▸ hat.live) hold (hj ▸ hv)

lemma notMem_slots (hat : At m b pre (i :: is)) (hstays : stays m ss i)
    (ha : .inst a ∈ (m.instr i).operands) : a ∉ ss.map Slot.alloc := by
  intro hslot
  have hpl := h.inserted.placed_of_mem hat.live hat.mem
  have hacc := accesses_eq_true.mpr ⟨a, hslot, h.ready.slots.accessed?_eq_some hslot hpl ha⟩
  rw [stays, hacc] at hstays
  cases hstays

lemma eval_yield (hat : At m b pre (i :: is)) (hv : m.Available b pre v) (x : Value)
    (w : World) : (t.yield i x w).eval args v = t.eval args v := by
  cases v with
  | inst j =>
    have hne : j ≠ i := by
      rintro rfl
      exact h.inserted.not_available_self hat.split hv
    simp [State.eval, State.yield, Function.update_of_ne hne]
  | _ => rfl

lemma lookup_valuesAt_concat (hat : At m b pre (i :: is))
    (hstore : ∀ v, m.instr i ≠ .store v (.inst a)) :
    (valuesAt m phis subst start b (pre ++ [i])).lookup a =
      (valuesAt m phis subst start b pre).lookup a := by
  have hnone := h.lookup_eq_none_of_not_isPhi (hat.body i (.head _))
  rw [valuesAt_concat]
  refine lookup_track.resolve_right ?_
  rintro (hlook | ⟨-, v, hk⟩)
  · grind
  · exact hstore v hk

end Renamed

namespace Agree

variable {v : Operand} {x : Value} {n : Nat} {s' : State} {ty : Ty}

variable {s t : State} {args : List Value} {i : InstId} {is : List InstId}
  (h : Renamed f m g ss phis start out subst)
  (hA : Agree m ss phis subst start args b pre s t)

include h hA

lemma eval (hold : ∀ j, v = .inst j → (m.inst j).live ∧ phis.lookup j = none)
    (hv : m.Available b pre v) (hx : s.eval args v = some x) :
    t.eval args (v.rename subst) = some x := by
  cases v with
  | inst j =>
    cases hload : loadsSlot ss (m.instr j) with
    | true => exact hA.loads j hload (hold j rfl).1 hv x hx
    | false =>
      rw [Operand.rename, h.subst_of_not_load hload, ← hx]
      exact hA.regs j (hold j rfl).2 hload
  | _ => exact hx

lemma eval_at (hcomp : f.Complete) (hat : At m b pre (i :: is)) :
    ∀ v ∈ (m.instr i).operands, ∀ x, s.eval args v = some x →
      t.eval args (v.rename subst) = some x := fun v hv _ hx => by
  obtain ⟨havail, hold⟩ := h.operand hcomp hat hv
  exact hA.eval h hold havail hx

lemma rename_of_read (hv : (s.read v).isSome) : v.rename subst = v := by
  cases v with
  | inst a =>
    refine h.subst_of_not_load (Bool.eq_false_iff.mpr fun hload => ?_)
    rw [State.read, hA.unslotted a hload] at hv
    cases hv
  | _ => rfl

lemma read (hslot : ∀ a, v = .inst a → a ∉ ss.map Slot.alloc) (hx : s.read v = some x) :
    t.read (v.rename subst) = some x := by
  rw [hA.rename_of_read h (by rw [hx]; rfl), ← hx]
  cases v with
  | inst a => exact hA.slots a (hslot a rfl)
  | global c => exact congrFun (congrArg World.globals hA.world) c
  | _ => rfl

/-! ### State changes -/

lemma yield (hat : At m b pre (i :: is)) (x : Value) (w : World) :
    Agree m ss phis subst start args b pre (s.yield i x w) (t.yield i x w) where
  regs j hnone hload := by
    by_cases hj : j = i
    · simp [State.yield, hj]
    · simp [State.yield, hj, hA.regs j hnone hload]
  loads j hload hlive hj y hy := by
    have hne : j ≠ i := by
      rintro rfl
      exact h.inserted.not_available_self hat.split hj
    rw [h.eval_yield hat (h.available_subst hat.live hat.split hlive hj)]
    refine hA.loads j hload hlive hj y ?_
    simpa [State.yield, hne] using hy
  slots := hA.slots
  unslotted := hA.unslotted
  content c hc v hv := by
    rw [h.eval_yield hat (h.available_valuesAt hat.live hat.split (mem_map_of_mem hc) hv)]
    exact hA.content c hc v hv
  world := rfl
  room := hA.room

omit h in
lemma setSlot {a : InstId} (ha : a ∉ ss.map Slot.alloc) (hload : loadsSlot ss (m.instr a) = false)
    (x : Value) : Agree m ss phis subst start args b pre (s.setSlot a x) (t.setSlot a x) where
  regs := hA.regs
  loads := hA.loads
  slots d hd := by
    by_cases hda : d = a
    · simp [State.setSlot, hda]
    · simp [State.setSlot, hda, hA.slots d hd]
  unslotted j hj := by
    have hne : j ≠ a := by
      rintro rfl
      rw [hload] at hj
      cases hj
    simp [State.setSlot, hne, hA.unslotted j hj]
  content c hc v hv := by
    have hne : c.alloc ≠ a := by
      rintro rfl
      exact ha (mem_map_of_mem hc)
    simp only [State.setSlot, Function.update_of_ne hne]
    exact hA.content c hc v hv
  world := hA.world
  room := hA.room

omit h in
lemma write {ptr : Operand} (hptr : (s.read ptr).isSome)
    (hslot : ∀ a, ptr = .inst a → a ∉ ss.map Slot.alloc) (x : Value) :
    Agree m ss phis subst start args b pre (s.write ptr x) (t.write ptr x) := by
  cases ptr with
  | inst a =>
    refine hA.setSlot (hslot a rfl) (Bool.eq_false_iff.mpr fun hload => ?_) x
    rw [State.read, hA.unslotted a hload] at hptr
    cases hptr
  | global c => exact { hA with world := by simp only [State.write, State.setGlobal, hA.world] }
  | _ => exact hA

/-! ### Steps -/

/-- Nothing is known about the result of an instruction that is not a load of a slot. -/
lemma skip (hat : At m b pre (i :: is)) (hload : loadsSlot ss (m.instr i) = false)
    (hstore : ∀ c ∈ ss, ∀ v, m.instr i ≠ .store v (.inst c.alloc)) :
    Agree m ss phis subst start args b (pre ++ [i]) s t :=
  { hA with
    loads := fun j hj hlive havail => hA.loads j hj hlive <| havail.of_concat fun heq => by
      obtain rfl := inst.inj heq
      rw [hload] at hj
      cases hj
    content := fun c hc v hv => by
      rw [h.lookup_valuesAt_concat hat (hstore c hc)] at hv
      exact hA.content c hc v hv }

lemma advances {p q : Program} {calls calls' : CallSem} (hcalls : calls.RefinedBy calls')
    (hstrs : q.strings = p.strings) (hcomp : f.Complete) (hat : At m b pre (i :: is))
    (hstays : stays m ss i)
    (hs : Advances p calls args i ty s (m.instr i) n s') :
    ∃ n' ≤ n, ∃ t', Advances q calls' args i ty t ((m.instr i).mapOperands (Operand.rename subst))
    n' t' ∧
      Agree m ss phis subst start args b (pre ++ [i]) s' t' := by
  obtain ⟨hacc, hslot⟩ : accesses ss (m.instr i) = false ∧ i ∉ ss.map Slot.alloc := by
    simpa [stays] using hstays
  have hload : loadsSlot ss (m.instr i) = false := by simp [loadsSlot, hacc]
  have hstore (c : Slot) (hc : c ∈ ss) (v : Operand) : m.instr i ≠ .store v (.inst c.alloc) := by
    intro hk
    rw [Bool.eq_false_iff] at hacc
    exact hacc (accesses_eq_true.mpr ⟨c.alloc, mem_map_of_mem hc, by rw [hk]; rfl⟩)
  have heval := hA.eval_at h hcomp hat
  have hplace {v : Operand} (hv : v ∈ (m.instr i).operands) (a : InstId) (ha : v = .inst a) :
      a ∉ ss.map Slot.alloc := h.notMem_slots hat hstays (ha ▸ hv)
  generalize hk : m.instr i = k at hs heval hplace hload hstore
  cases hs with
  | @yield _ _ v w hy =>
    obtain ⟨n', hn', hy⟩ := hy.mapOperands hcalls hstrs hA.world hA.room
      heval (fun u hu x hx => hA.read h (hplace hu) hx)
    refine ⟨n', hn', _, .yield hy, ?_⟩
    exact (hA.yield h hat v w).skip h hat (hk ▸ hload) (hk ▸ hstore)
  | @alloc ty' hcells hfree hroom =>
    refine ⟨0, le_refl _, _, .alloc hcells ?_ (lt_of_lt_of_le hroom hA.room), ?_⟩
    · rw [hA.slots i hslot]
      exact hfree
    · have hset := (hA.setSlot hslot (hk ▸ hload) (.initial ty')).skip h hat (hk ▸ hload) (hk ▸ hstore)
      exact { hset with room := Nat.sub_le_sub_right hA.room 1 }
  | @store value ptr v hv hptr =>
    have hptr' : ptr ∈ (store value ptr).operands := by simp [operands]
    refine ⟨0, le_refl _, _, .store (heval _ (.head _) v hv) ?_, ?_⟩
    · obtain ⟨x, hx⟩ := Option.isSome_iff_exists.mp hptr
      rw [hA.read h (hplace hptr') hx]
      rfl
    · rw [hA.rename_of_read h hptr]
      exact (hA.write hptr (hplace hptr') v).skip h hat (hk ▸ hload) (hk ▸ hstore)

lemma passAlloc {c : Slot} (hc : c ∈ ss) (hat : At m b pre (c.alloc :: is))
    (hfree : s.slots c.alloc = none) :
    Agree m ss phis subst start args b (pre ++ [c.alloc]) (s.reserve c.alloc c.ty) t := by
  have hk := h.ready.slots.instr c hc
  have hset : Agree m ss phis subst start args b pre (s.reserve c.alloc c.ty) t :=
    { hA with
      slots := fun a ha => by
        have hne : a ≠ c.alloc := fun heq => ha (heq ▸ mem_map_of_mem hc)
        simp [State.reserve, State.setSlot, hne, hA.slots a ha]
      unslotted := fun j hj => by
        have hne : j ≠ c.alloc := by
          rintro rfl
          rw [hk] at hj
          cases hj
        simp [State.reserve, State.setSlot, hne, hA.unslotted j hj]
      content := fun d hd v hv => by
        rw [hA.content d hd v hv]
        by_cases hdc : d.alloc = c.alloc
        · have hty : d.ty = c.ty := by
            have hk' := h.ready.slots.instr d hd
            rw [hdc, hk] at hk'
            exact (alloc.inj hk').symm
          simp [State.reserve, State.setSlot, hdc, hfree, hty]
        · simp [State.reserve, State.setSlot, hdc]
      room := le_trans (sub_le _ _) hA.room }
  refine hset.skip h hat (by rw [hk]; rfl) fun d _ v hv => ?_
  rw [hk] at hv
  cases hv

lemma passLoad {c : Slot} (hc : c ∈ ss) (hat : At m b pre (i :: is))
    (hk : m.instr i = .load (.inst c.alloc)) (hx : s.slots c.alloc = some x) :
    Agree m ss phis subst start args b (pre ++ [i]) (s.yield i x s.world) t where
  regs j hnone hload := by
    have hne : j ≠ i := by
      rintro rfl
      rw [Bool.eq_false_iff] at hload
      exact hload (loadsSlot_eq_true.mpr ⟨c.alloc, mem_map_of_mem hc, hk⟩)
    simp [State.yield, hne, hA.regs j hnone hload]
  loads j hload hlive hj y hy := by
    by_cases hji : j = i
    · subst hji
      obtain ⟨vb, hvb⟩ := Option.isSome_iff_exists.mp (h.all b hat.live)
      have hval := h.walk.loads b vb hvb pre j is hat.split c.alloc (mem_map_of_mem hc) hk
      obtain rfl : x = y := by simpa [State.yield] using hy
      rw [hA.content c hc _ hval, hx]
      rfl
    · refine hA.loads j hload hlive (hj.of_concat (by simpa using hji)) y ?_
      simpa [State.yield, hji] using hy
  slots := hA.slots
  unslotted := hA.unslotted
  content d hd v hv := by
    rw [h.lookup_valuesAt_concat hat fun u hu => by rw [hk] at hu; cases hu] at hv
    exact hA.content d hd v hv
  world := hA.world
  room := hA.room

lemma passStore (hcomp : f.Complete) {c : Slot} (hc : c ∈ ss) (hat : At m b pre (i :: is))
    (hk : m.instr i = .store v (.inst c.alloc)) (hx : s.eval args v = some x) :
    Agree m ss phis subst start args b (pre ++ [i]) (s.setSlot c.alloc x) t := by
  have hmem : v ∈ (m.instr i).operands := by simp [hk, operands]
  obtain ⟨havail, hold⟩ := h.operand hcomp hat hmem
  have hload : loadsSlot ss (m.instr i) = false := by rw [hk]; rfl
  refine ⟨hA.regs, fun j hj hlive hjpre => hA.loads j hj hlive (hjpre.of_concat fun heq => ?_),
    fun a ha => ?_,
    fun j hj => ?_, fun d hd u hu => ?_, hA.world, hA.room⟩
  · grind
  · have hne : a ≠ c.alloc := fun heq => ha (heq ▸ mem_map_of_mem hc)
    simp [State.setSlot, hne, hA.slots a ha]
  · have hne : j ≠ c.alloc := by
      rintro rfl
      rw [h.ready.slots.instr c hc] at hj
      cases hj
    simp [State.setSlot, hne, hA.unslotted j hj]
  · by_cases hdc : d.alloc = c.alloc
    · have hnone := h.lookup_eq_none_of_not_isPhi (hat.body i (.head _))
      rw [hdc, valuesAt_concat, lookup_track_store hnone hk
        (h.isSome_valuesAt hat.live (mem_map_of_mem hc) pre)] at hu
      obtain rfl := Option.some.inj hu
      simp [State.setSlot, hdc, hA.eval h hold havail hx]
    · rw [h.lookup_valuesAt_concat hat fun w hw => ?_] at hu
      · simp [State.setSlot, hdc, hA.content d hd u hu]
      · grind

lemma passes {p : Program} {calls : CallSem} (hcomp : f.Complete) (hat : At m b pre (i :: is))
    (hgoes : stays m ss i = false)
    (hs : Advances p calls args i ty s (m.instr i) n s') :
    Agree m ss phis subst start args b (pre ++ [i]) s' t := by
  rw [stays, Bool.and_eq_false_iff, Bool.not_eq_false', decide_eq_false_iff_not, not_not] at hgoes
  rcases hgoes with hacc | hslot
  · obtain ⟨a, ha, hacc⟩ := accesses_eq_true.mp hacc
    obtain ⟨c, hc, rfl⟩ := mem_map.mp ha
    cases hk : m.instr i with
    | load ptr =>
      rw [hk] at hacc hs
      cases ptr with
      | inst a =>
        obtain rfl : a = c.alloc := Option.some.inj hacc
        cases hs with
        | yield hy =>
          cases hy with
          | compute hv => cases hv
          | load hx => exact hA.passLoad h hc hat hk hx
      | _ => cases hacc
    | store v ptr =>
      rw [hk] at hacc hs
      cases ptr with
      | inst a =>
        obtain rfl : a = c.alloc := Option.some.inj hacc
        cases hs with
        | yield hy =>
          cases hy with
          | compute hv => cases hv
        | store hv => exact hA.passStore h hcomp hc hat hk hv
      | _ => cases hacc
    | _ =>
      rw [hk] at hacc
      cases hacc
  · obtain ⟨c, hc, rfl⟩ := mem_map.mp hslot
    rw [h.ready.slots.instr c hc] at hs
    cases hs with
    | yield hy =>
      cases hy with
      | compute hv => cases hv
    | alloc _ hfree => exact hA.passAlloc h hc hat hfree

end Agree

/-! ## Jumps -/

namespace Renamed

variable {s t : State} {args : List Value} (h : Renamed f m g ss phis start out subst) {v : Operand}

include h

variable {j : InstId} {d : Slot}

/-- What is available at the start of a block keeps its value when control enters it. -/
lemma eval_enter (hform : (clearSlots g ss).Formed) (hc : c ∈ m.liveBlocks)
    (hv : m.Available c [] v) :
    (t.enter (clearSlots g ss) args b c).eval args v = t.eval args v := by
  cases v with
  | inst j =>
    have hnot : j ∉ (clearSlots g ss).phis c := by
      intro hj
      have hmem : j ∈ m.instsOf c := by
        rcases (h.mem_phis_clearSlots hform hc).mp hj with hj | ⟨hj, -⟩
        · exact h.inserted.subset_instsOf c ((takeWhile_sublist _).subset hj)
        · exact hj
      rcases hv j rfl with hnil | ⟨hne, -⟩
      · cases hnil
      · exact hne (h.inserted.block_of_mem hmem)
    simp [State.eval, State.enter, hnot]
  | _ => rfl

lemma incoming_old (hcomp : f.Complete) (hedge : m.Edge b c)
    (hA : Agree m ss phis subst start args b (m.instsOf b) s t) (hj : j ∈ f.phis c)
    (hsome : (s.incoming f args b j).isSome) :
    t.incoming (clearSlots g ss) args b j = s.incoming f args b j := by
  have hc := h.mem_liveBlocks_of_edge hedge
  have hmem : j ∈ f.instsOf c := (takeWhile_sublist _).subset hj
  have hmem' := h.inserted.subset_instsOf c hmem
  have hinstr := h.inserted.instr_of_mem h.formed.consistent hmem
  have hstays := h.stays_of_isPhi (hinstr.symm ▸ f.isPhi_of_mem_phis hj)
  obtain ⟨x, hx⟩ := Option.isSome_iff_exists.mp hsome
  obtain ⟨v, hv, hvx⟩ := Option.bind_eq_some_iff.mp hx
  rw [hx, State.incoming, h.instr_clearSlots hc hmem' hstays (h.lookup_eq_none_of_mem hmem),
    operandFrom?_mapOperands, hinstr, hv]
  refine hA.eval h (fun i hi => ?_) ?_ hvx
  · refine h.live_of_operand hcomp (h.inserted.liveBlocks ▸ hc) hmem ?_
    exact hi ▸ mem_operands_of_operandFrom? hv
  · exact h.ready.form.available_of_operandFrom? hc (h.ready.reachable c hc) hmem'
      (hinstr.symm ▸ hv)

lemma incoming_new (hedge : m.Edge b c)
    (hA : Agree m ss phis subst start args b (m.instsOf b) s t)
    (hj : j ∈ m.instsOf c) (hd : d ∈ ss) (hlook : phis.lookup j = some d.alloc) :
    t.incoming (clearSlots g ss) args b j = some ((s.slots d.alloc).getD (.initial d.ty)) := by
  have hrouted := h.ready.routed
  have hc := h.mem_liveBlocks_of_edge hedge
  obtain ⟨vb, v, hvb, hv, hfilled⟩ := h.filledBy_eq_some hlook hedge.1
  have hinstr : (clearSlots g ss).instr j =
      .phi ((m.block c).preds.map fun p => ⟨p, filledBy phis out j p⟩) := by
    rw [← h.inserted.block_of_mem hj, ← (h.instr_phi hlook).2]
    exact (Consistent.record_foldl_remove _ _ j).1
  have hpred :=
    (hrouted.mem_preds (hrouted.mem_liveBlocks.mp hc).1).mpr hedge
  have hoperand : ((clearSlots g ss).instr j).operandFrom? (some b) = some v := by
    have hent := entryFor?_map hpred (filledBy phis out j)
    rw [← hinstr, hfilled, entryFor?] at hent
    rw [operandFrom?, ← hent]
    simp only [Option.some.injEq, eq_comm]
  rw [State.incoming, hoperand]
  refine hA.content d hd v ?_
  rw [← hv, h.walk.values b vb hvb]
  rfl

variable (hform : (clearSlots g ss).Formed)
include hform

lemma content_enter (hedge : m.Edge b c)
    (hA : Agree m ss phis subst start args b (m.instsOf b) s t) (hd : d ∈ ss)
    (hv : (valuesAt m phis subst start c (m.phis c)).lookup d.alloc = some v) :
    (t.enter (clearSlots g ss) args b c).eval args v =
      some ((s.slots d.alloc).getD (.initial d.ty)) := by
  have hc := h.mem_liveBlocks_of_edge hedge
  have ha : d.alloc ∈ ss.map Slot.alloc := mem_map_of_mem hd
  have hphi {i a : InstId} (hi : i ∈ m.instsOf c) (hlook : phis.lookup i = some a) : i ∈ m.phis c := by
    rw [h.inserted.phis_eq hc, mem_filter, (h.ready.phi i a hlook).2.1]
    exact ⟨hi, rfl⟩
  obtain ⟨-, ⟨hquiet, heq⟩ | ⟨p, i, q, hsplit, -, ⟨hlook, heq⟩ | ⟨-, w, hk, -⟩⟩⟩ :=
    lookup_foldl_track m phis subst (h.isSome_start hc ha) (m.phis c)
  · -- without a phi for the slot, its value is the one at the end of `b`
    have hstart := heq.symm.trans hv
    have hnot : ¬ HasPhi m phis d.alloc c := by
      rintro ⟨i, hi, hlook⟩
      exact hquiet i (hphi hi hlook) (.inl hlook)
    obtain ⟨vc, hvc⟩ := Option.isSome_iff_exists.mp (h.all c hc)
    rw [h.eval_enter hform hc
      ((h.walk.starts c vc hvc).available _ (mem_of_lookup_eq_some hstart))]
    rw [h.lookup_start_of_edge hedge ha hnot] at hstart
    exact hA.content d hd v hstart
  · have hi : i ∈ m.instsOf c := by
      have hmem : i ∈ m.phis c := by simp [hsplit]
      exact (takeWhile_sublist _).subset hmem
    obtain rfl := Option.some.inj (heq.symm.trans hv)
    have hmem := (h.mem_phis_clearSlots hform hc).mpr (.inr ⟨hi, _, hlook⟩)
    simp only [State.eval, State.enter, if_pos hmem]
    exact h.incoming_new hedge hA hi hd hlook
  · have hphi := m.isPhi_of_mem_phis (b := c) (i := i) (by simp [hsplit])
    rw [hk] at hphi
    cases hphi

lemma enter (hcomp : f.Complete) (hedge : m.Edge b c)
    (hA : Agree m ss phis subst start args b (m.instsOf b) s t)
    (hphis : ∀ j ∈ f.phis c, (s.incoming f args b j).isSome) :
    (∀ j ∈ (clearSlots g ss).phis c, (t.incoming (clearSlots g ss) args b j).isSome) ∧
      Agree m ss phis subst start args c (m.phis c) (s.enter f args b c)
        (t.enter (clearSlots g ss) args b c) := by
  have hc := h.mem_liveBlocks_of_edge hedge
  have hroot : c ≠ ⟨0⟩ := by
    rintro rfl
    exact h.ready.entry b hedge
  refine ⟨fun j hj => ?_, ⟨fun j hnone hload => ?_, fun j hload hlive hj x hx => ?_, fun a ha => ?_,
    fun j hj => ?_, fun d hd v hv => ?_, hA.world, hA.room⟩⟩
  · rcases (h.mem_phis_clearSlots hform hc).mp hj with hj | ⟨hj, a, ha⟩
    · rw [h.incoming_old hcomp hedge hA hj (hphis j hj)]
      exact hphis j hj
    · obtain ⟨d, hd, rfl⟩ := mem_map.mp (h.ready.phi j a ha).2.2
      rw [h.incoming_new hedge hA hj hd ha]
      rfl
  · by_cases hj : j ∈ f.phis c
    · have hj' := (h.mem_phis_clearSlots hform hc).mpr (.inl hj)
      simp only [State.enter, if_pos hj, if_pos hj']
      exact h.incoming_old hcomp hedge hA hj (hphis j hj)
    · have hj' : j ∉ (clearSlots g ss).phis c := by
        rw [h.mem_phis_clearSlots hform hc]
        simp [hj, hnone]
      simp only [State.enter, if_neg hj, if_neg hj']
      exact hA.regs j hnone hload
  · -- a load that is available at the start of a block is so at the end of each predecessor
    have hphi : (m.instr j).isPhi = false := by
      obtain ⟨a, -, hk⟩ := loadsSlot_eq_true.mp hload
      rw [hk]
      rfl
    have hnot : j ∉ m.phis c := fun hmem => by
      rw [m.isPhi_of_mem_phis hmem] at hphi
      cases hphi
    have hstart : m.Available c [] (.inst j) := .of_dom_block ((hj j rfl).resolve_left hnot)
    have hend := hstart.of_edge h.inserted.formed.consistent hedge hlive
    rw [h.eval_enter hform hc (h.available_subst hc (nil_append _).symm hlive hstart)]
    refine hA.loads j hload hlive hend x ?_
    have hnot' : j ∉ f.phis c := fun hmem => by
      have hphi' := f.isPhi_of_mem_phis hmem
      rw [← h.inserted.instr_of_mem h.formed.consistent ((takeWhile_sublist _).subset hmem),
        hphi] at hphi'
      cases hphi'
    simpa [State.enter, hnot'] using hx
  · simp only [State.enter, if_neg hroot]
    exact hA.slots a ha
  · simp only [State.enter, if_neg hroot]
    exact hA.unslotted j hj
  · rw [h.content_enter hform hedge hA hd hv]
    simp only [State.enter, if_neg hroot]

/-! ## Runs -/

/-- What is left of a block is run by the promoted function without the instructions that go. -/
lemma runs (hssa : f.Ssa) {p q : Program} {calls calls' : CallSem}
    (hcalls : calls.RefinedBy calls') (hstrs : q.strings = p.strings) {is : List InstId}
    {fuel : Nat} {o : Outcome} (hrun : Runs p calls f args b is s fuel o) (hat : At m b pre is)
    (hA : Agree m ss phis subst start args b pre s t) :
    ∃ n ≤ o.steps, Runs q calls' (clearSlots g ss) args b (is.filter (stays m ss)) t fuel
      { o with steps := n } := by
  have hcomp : f.Complete := hssa.complete
  have hlive {b : BlockId} (hb : b ∈ m.liveBlocks) : b ∈ f.liveBlocks :=
    h.inserted.liveBlocks ▸ hb
  -- the instruction at a place, in the function and in the promoted one
  have hinstr {b : BlockId} {pre is : List InstId} {i : InstId} (hat : At m b pre (i :: is)) :
      m.instr i = f.instr i ∧ (m.inst i).ty = (f.inst i).ty := by
    have hhas := f.hasInst_of_live (h.formed.live_of_mem (h.mem_of_at hat))
    obtain ⟨-, hinstr, -, -, -, hty⟩ := h.inserted.old i hhas
    exact ⟨hinstr, hty⟩
  have hpromoted {b : BlockId} {pre is : List InstId} {i : InstId} (hat : At m b pre (i :: is))
      (hstays : stays m ss i) :
      (clearSlots g ss).instr i = (m.instr i).mapOperands (Operand.rename subst) :=
    h.instr_clearSlots hat.live hat.mem hstays
      (h.lookup_eq_none_of_not_isPhi (hat.body i (.head _)))
  induction hrun generalizing pre t with
  | @next b i is s s' n fuel o hstep _ ih =>
    rw [← (hinstr hat).1, ← (hinstr hat).2] at hstep
    cases hstays : stays m ss i with
    | false =>
      obtain ⟨k, hk, hrun⟩ := ih hat.next (hA.passes h hcomp hat hstays hstep)
      rw [filter_cons_of_neg (by simp [hstays])]
      exact ⟨k, le_trans hk (le_add_right _ _), hrun⟩
    | true =>
      obtain ⟨n', hn', t', hstep', hA'⟩ := hA.advances h hcalls hstrs hcomp hat hstays hstep
      obtain ⟨k, hk, hrun⟩ := ih hat.next hA'
      rw [filter_cons_of_pos hstays]
      rw [← hpromoted hat hstays, ← h.ty_clearSlots] at hstep'
      exact ⟨k + (n' + 1), Nat.add_le_add hk (Nat.succ_le_succ hn'), .next hstep' hrun⟩
  | @jump b c i is s fuel o htgt hc hphis _ ih =>
    rw [← (hinstr hat).1] at htgt
    have hterm := isTerminator_of_target? htgt
    have hstays := h.stays_of_isTerminator hterm
    obtain ⟨hedge, -⟩ := hssa.edge_of_target (hlive hat.live) (h.mem_of_at hat)
      ((hinstr hat).1 ▸ target?_mem_targets htgt)
    rw [← h.inserted.edge_eq h.formed] at hedge
    have hend : m.instsOf b = pre ++ [i] := by
      rw [hat.split, hat.eq_nil h.inserted.formed hterm]
    have hA' : Agree m ss phis subst start args b (m.instsOf b) s t := by
      rw [hend]
      refine hA.skip h hat ?_ fun d _ v hv => ?_
      · rw [Bool.eq_false_iff]
        intro hload
        rw [Progress.not_isTerminator (accesses_of_loadsSlot hload)] at hterm
        cases hterm
      · rw [hv] at hterm
        cases hterm
    obtain ⟨hphis', hA''⟩ := h.enter hform hcomp hedge hA' hphis
    have hclive := h.mem_liveBlocks_of_edge hedge
    have hat' : At m c (m.phis c) (f.body c) := h.body_inserted c ▸ .start h.inserted.formed hclive
    obtain ⟨k, hk, hrun⟩ := ih hat' hA''
    rw [filter_cons_of_pos hstays]
    rw [← h.body_inserted, ← h.body_clearSlots hclive] at hrun
    refine ⟨k + 1, succ_le_succ hk, .jump ?_ ?_ hphis' hrun⟩
    · rw [hpromoted hat hstays]
      exact target?_mapOperands (hA.eval_at h hcomp hat) htgt
    · rw [h.frame_clearSlots.hasBlock, h.inserted.hasBlock, hc]
  | @ret b i is s fuel v hv =>
    rw [← (hinstr hat).1] at hv
    have hstays := h.stays_of_isTerminator (isTerminator_of_result? hv)
    rw [filter_cons_of_pos hstays, ← hA.world]
    refine ⟨1, le_refl _, .ret ?_⟩
    rw [hpromoted hat hstays]
    exact result?_mapOperands (hA.eval_at h hcomp hat) hv

lemma simulatedBy (hssa : f.Ssa) (hent : ⟨0⟩ ∈ m.liveBlocks)
    (hzero : ∀ c ∈ ss, Value.initial c.ty = .ofConstant c.zero) :
    SimulatedBy f (clearSlots g ss) := by
  rintro p q calls calls' hstrs hcalls fuel args w room o ⟨hblk, hphis, hrun⟩ room' hroom
  have hnone : m.phis ⟨0⟩ = [] := by
    rw [h.inserted.phis_eq hent, filter_eq_nil_iff]
    intro i hi
    simp [h.ready.form.entry i hi]
  have hat : At m ⟨0⟩ [] (f.body ⟨0⟩) := by
    rw [← hnone, ← h.body_inserted]
    exact .start h.inserted.formed hent
  have hA : Agree m ss phis subst start args ⟨0⟩ [] (.init w room) (.init w room') := by
    refine ⟨fun _ _ _ => rfl, fun _ _ _ _ x hx => (by cases hx), fun _ _ => rfl, fun _ _ => rfl,
      fun c hc v hv => ?_, rfl, hroom⟩
    rw [valuesAt, foldl_nil, h.walk.entry (h.all _ hent), lookup_zeros h.ready.slots hc] at hv
    obtain rfl := Option.some.inj hv
    simp [State.eval, State.init, hzero c hc]
  obtain ⟨n, hn, hrun'⟩ := h.runs hform hssa hcalls hstrs hrun hat hA
  refine ⟨n, hn, ?_, ?_, ?_⟩
  · rw [h.frame_clearSlots.hasBlock, h.inserted.hasBlock, hblk]
  · rw [eq_nil_iff_forall_not_mem]
    intro j hj
    rcases (h.mem_phis_clearSlots hform hent).mp hj with hj | ⟨hj, a, ha⟩
    · rw [hphis] at hj
      cases hj
    · have hphi := h.ready.form.entry j hj
      rw [(h.ready.phi j a ha).2.1] at hphi
      cases hphi
  · rwa [h.body_clearSlots hent, h.body_inserted]

end Renamed

end Promotion

end MiddleEnd
