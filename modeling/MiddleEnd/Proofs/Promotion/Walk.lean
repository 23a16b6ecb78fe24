import MiddleEnd.Proofs.Promotion.Rename

/-!
# The walk over the dominator tree

`Walk` describes the state between two blocks of the walk.  For each block that has been renamed it
has the values of the slots at its start and at its end.  A block starts with the values at the end
of its immediate dominator.  Renaming a block adds this block, renaming a tree adds all blocks that
its root dominates, and so renaming the function adds every live block.
-/

namespace MiddleEnd.Promotion

open List Function Transform Func

variable {f cur : Func} {ss : List Slot} {phis : SlotPhis} {b : BlockId} {subst : InstId → Operand}
  {filled : InstId → BlockId → Option Operand} {values : Values} {seen : InstId → Prop}
  {start : BlockId → Values} {out : BlockId → Option Values} {cs : List BlockId} {w : Work}

/-! ## One block -/

lemma forM_succs (hr : Ready f ss phis)
    (h : Progress f ss phis seen subst filled w.func) {pre : List InstId}
    (hvals : Current f ss phis b pre values) (hcs : ∀ c ∈ cs, f.Edge b c)
    (hnd : cs.Nodup) (hopen : ∀ i, (f.inst i).block ∈ cs → filled i b = none) :
    ∃ w', (cs.forM fun succ => do
        ((← .func).phis succ).forM (fillPhi phis values b succ) : Transform Unit) w = .ok () w' ∧
      Progress f ss phis seen subst
        (fun i p => if p = b ∧ (f.inst i).block ∈ cs then flowing phis values i else filled i p)
        w'.func := by
  induction cs generalizing w filled with
  | nil => exact ⟨w, rfl, h.congr_filled (fun _ _ _ _ _ => by simp) (by simpa using h.filled)⟩
  | cons c cs ih =>
    obtain ⟨hc, hnd⟩ := nodup_cons.mp hnd
    have hedge := hcs c (.head _)
    have hclive : c ∈ w.func.liveBlocks :=
      h.frame.liveBlocks.symm ▸ hr.analyzed.connected.mem_liveBlocks_of_edge hedge
    have hphis := h.formed.phis_eq hclive
    have hmem (i : InstId) (hi : i ∈ w.func.phis c) : (f.inst i).block = c := by
      rw [hphis, mem_filter] at hi
      rw [← h.block]
      exact h.formed.block_of_mem hi.1
    have hin {i a : InstId} (hi : phis.lookup i = some a) :
        i ∈ w.func.phis c ↔ (f.inst i).block = c := by
      refine ⟨hmem i, fun hblk => ?_⟩
      have hpl : w.func.placed i := by
        rw [h.placed_iff hr.consistent, hr.loadsSlot_of_lookup hi]
        exact ⟨(hr.phi i a hi).1, fun hseen => Bool.false_ne_true hseen.2⟩
      have hinsts := h.formed.mem_of_live (Formed.live_of_placed hpl)
      rw [h.block, hblk] at hinsts
      rw [hphis, mem_filter, h.phi i a hi]
      exact ⟨hinsts, rfl⟩
    obtain ⟨w₁, hstep, h₁⟩ := forM_fillPhi hr h hvals hedge hmem
      (by rw [hphis]; exact (h.formed.nodup c).filter _)
      fun i hi => hopen i (by rw [hmem i hi]; exact (.head _))
    have h₁' : Progress f ss phis seen subst
        (fun i p => if p = b ∧ (f.inst i).block = c then flowing phis values i else filled i p)
        w₁.func := by
      refine h₁.congr_filled (fun i a hi p _ => by simp only [hin hi]) fun i p v hv => ?_
      split at hv
      · exact hvals.settled_flowing hv
      · exact h.filled i p v hv
    obtain ⟨w', hrun, h'⟩ := ih h₁' (fun d hd => hcs d (.tail c hd)) hnd fun i hi => by
      have hne : (f.inst i).block ≠ c := fun heq => hc (heq ▸ hi)
      simp [hne, hopen i (.tail c hi)]
    refine ⟨w', ?_, ?_⟩
    · have hfirst := hstep
      exact (bind_of_ok hfirst).trans hrun
    · have hfilled : (fun i p => if p = b ∧ (f.inst i).block ∈ cs then flowing phis values i else
          if p = b ∧ (f.inst i).block = c then flowing phis values i else filled i p) =
          fun i p => if p = b ∧ (f.inst i).block ∈ c :: cs then flowing phis values i
            else filled i p := by
        funext i p
        by_cases hp : p = b
        · grind
        · simp [hp]
      exact hfilled ▸ h'

/-- The entries of phis that the values at the ends of blocks fill. -/
def filledBy (phis : SlotPhis) (out : BlockId → Option Values) (i : InstId) (p : BlockId) :
    Option Operand :=
  (out p).bind fun values => flowing phis values i

def zeros (ss : List Slot) : Values :=
  ss.map fun s => (s.alloc, .const s.zero)

/-- The blocks that have values at their end have been renamed. -/
structure Walk (f : Func) (ss : List Slot) (phis : SlotPhis) (start : BlockId → Values)
    (out : BlockId → Option Values) (subst : InstId → Operand) (cur : Func) : Prop extends
    progress : Progress f ss phis (Seen f fun b => (out b).isSome) subst (filledBy phis out) cur where
  live : ∀ b, (out b).isSome → b ∈ f.liveBlocks
  closed : ∀ b, (out b).isSome → ∀ d, f.Dom d b → (out d).isSome
  values : ∀ b v, out b = some v → v = (f.instsOf b).foldl (track f phis subst) (start b)
  starts : ∀ b v, out b = some v → Current f ss phis b [] (start b)
  ends : ∀ b v, out b = some v → Current f ss phis b (f.instsOf b) v
  loads : ∀ b v, out b = some v → LoadsMatch f ss phis subst (start b) (f.instsOf b)
  entry : (out ⟨0⟩).isSome → start ⟨0⟩ = zeros ss
  inherits : ∀ b, (out b).isSome → ∀ d, f.IDom d b → out d = some (start b)

/-- The walk comes to the block `b`, where the slots have the given values. -/
structure Entering (f : Func) (ss : List Slot) (phis : SlotPhis) (out : BlockId → Option Values)
    (b : BlockId) (values : Values) : Prop where
  mem : b ∈ f.liveBlocks
  notDone : out b = none
  dominators : ∀ d, f.Dom d b → d ≠ b → (out d).isSome
  current : Current f ss phis b [] values
  entry : b = ⟨0⟩ → values = zeros ss
  inherits : ∀ d, f.IDom d b → out d = some values

namespace Walk

/-- What a block that has been renamed reads is not in a block that is renamed later. -/
lemma notMem_of_operand (h : Walk f ss phis start out subst cur) (hr : Ready f ss phis)
    {c : BlockId} (hc : (out c).isSome) (hnot : out b = none) {i j : InstId} (hi : i ∈ f.instsOf c)
    (hphi : (f.instr i).isPhi = false) (hj : .inst j ∈ (f.instr i).operands) : j ∉ f.instsOf b := by
  intro hmem
  have hcons := hr.consistent
  have hlive := h.live c hc
  have hblk := hcons.block_of_mem hmem
  have hnotSome : ¬ (out b).isSome := by simp [hnot]
  obtain ⟨pre, post, hsplit⟩ := append_of_mem hi
  rcases hr.form.dominated c hlive (hr.analyzed.reachable c hlive) pre i post hsplit hphi _ hj j rfl
    with hpre | ⟨-, hdom⟩
  · have hcb : c = b := by
      rw [← hblk, hcons.block_of_mem (b := c) (by simp [hsplit, hpre])]
    exact hnotSome (hcb ▸ hc)
  · rw [hblk] at hdom
    exact hnotSome (h.closed c hc b hdom)

lemma renameBlock (h : Walk f ss phis start out subst w.func) (hr : Ready f ss phis)
    (hb : Entering f ss phis out b values) :
    ∃ vout foldable w' subst', renameBlock phis values b w = .ok (vout, foldable) w' ∧
      Walk f ss phis (update start b values) (update out b (some vout)) subst' w'.func := by
  have hnot := hb.notDone
  have ht : Turn f ss phis (fun c => (out c).isSome) b := ⟨hr, hb.mem, by simp [hnot], hb.dominators⟩
  have hcons := ht.consistent
  have hinsts : w.func.instsOf b = f.instsOf b := by
    refine (h.sublist b).eq_of_length (List.Perm.length_eq ?_)
    refine (perm_ext_iff_of_nodup (h.progress.formed.nodup b)
      (hcons.nodup b)).mpr fun i => ?_
    rw [h.mem_instsOf]
    refine and_iff_left_of_imp fun hi hseen => ?_
    rw [Seen, hcons.block_of_mem hi, hnot] at hseen
    exact absurd hseen.1.2 (by simp)
  have hstart : Midway f ss phis (fun c => (out c).isSome) b (filledBy phis out) subst values
      [] { func := w.func, values } subst := by
    refine ⟨h.congr fun i _ => by simp, fun _ _ => rfl, rfl, hb.current, ?_⟩
    intro pre i post hsplit
    simp at hsplit
  obtain ⟨subst', hmid⟩ := hstart.run ht (nil_append _).symm
  generalize hr' : (f.instsOf b).foldl (Renaming.step phis) { func := w.func, values } = r at hmid
  have hsuccs := hmid.progress.frame.succs b
  have hedges : ∀ c ∈ (f.block b).succs, f.Edge b c :=
    fun c hc => hr.mem_succs.mp hc
  obtain ⟨w', hrun, hprogress⟩ := forM_succs (w := { w with func := r.func }) hr hmid.progress
    hmid.current hedges (hr.nodup_succs b) fun i _ =>
      by rw [filledBy, hnot]; rfl
  refine ⟨r.values, r.foldable, w', subst', ?_, ?_⟩
  · rw [← hsuccs, ← hr', ← hinsts] at hrun
    rw [← hr', ← hinsts]
    exact bind_of_ok hrun
  have hnotSome : ¬ (out b).isSome := by simp [hnot]
  have hne {c : BlockId} (hc : (out c).isSome) : c ≠ b := fun heq => hnotSome (heq ▸ hc)
  have hsome {c : BlockId} : (update out b (some r.values) c).isSome ↔
      (out c).isSome ∨ c = b := by
    by_cases hcb : c = b
    · simp [hcb]
    · simp [hcb]
  have hcases {c : BlockId} {v : Values} (hc : update out b (some r.values) c = some v) :
      c = b ∧ v = r.values ∨ c ≠ b ∧ out c = some v := by
    by_cases hcb : c = b
    · grind
    · simp_all
  -- blocks that were renamed before do not read what changed
  have hstores {c : BlockId} (hc : (out c).isSome) (i : InstId) (hi : i ∈ f.instsOf c)
      (v p : Operand) (hk : f.instr i = .store v p) : v.rename subst' = v.rename subst := by
    cases v with
    | inst j =>
      refine hmid.agrees j (h.notMem_of_operand hr hc hnot hi (by rw [hk]; rfl) ?_)
      simp [hk, Instr.operands]
    | _ => rfl
  have hloads {c : BlockId} (hc : (out c).isSome) (i : InstId) (hi : i ∈ f.instsOf c) :
      subst' i = subst i := by
    refine hmid.agrees i fun hmem => hne hc ?_
    rw [← hcons.block_of_mem hi, hcons.block_of_mem hmem]
  refine ⟨?_, fun c hc => ?_, fun c hc d hd => ?_, fun c v hc => ?_, fun c v hc => ?_, fun c v hc => ?_,
    fun c v hc => ?_, fun h0 => ?_, fun c hc d hd => ?_⟩
  · refine (hprogress.congr fun i hi => ?_).congr_filled (fun i a hi p hp => ?_) fun i p v hv => ?_
    · rw [Seen, hsome, Seen, and_or_left, hcons.mem_instsOf]
    · rw [filledBy]
      by_cases hpb : p = b
      · subst hpb
        have hhome := hcons.hasBlock_of_live (Formed.live_of_placed (hr.phi i a hi).1)
        have hedge := (hr.mem_preds hhome).mp hp
        rw [update_self, if_pos ⟨rfl, hr.mem_succs.mpr hedge⟩]
        rfl
      · rw [update_of_ne hpb, if_neg fun heq => hpb heq.1, filledBy]
    · rw [filledBy] at hv
      by_cases hpb : p = b
      · rw [hpb, update_self] at hv
        exact hmid.current.settled_flowing hv
      · rw [update_of_ne hpb] at hv
        exact h.filled i p v hv
  · exact (hsome.mp hc).elim (h.live c) fun heq => heq ▸ hb.mem
  · rw [hsome] at hc ⊢
    by_cases hdb : d = b
    · exact Or.inr hdb
    · left
      rcases hc with hc | rfl
      · exact h.closed c hc d hd
      · exact hb.dominators d hd hdb
  · rcases hcases hc with ⟨rfl, rfl⟩ | ⟨hcb, hc⟩
    · rw [update_self]
      exact hmid.values
    · rw [update_of_ne hcb, foldl_track_congr (hstores (by simp [hc]))]
      exact h.values c v hc
  · rcases hcases hc with ⟨rfl, rfl⟩ | ⟨hcb, hc⟩
    · rw [update_self]
      exact hb.current
    · rw [update_of_ne hcb]
      exact h.starts c v hc
  · rcases hcases hc with ⟨rfl, rfl⟩ | ⟨hcb, hc⟩
    · exact hmid.current
    · exact h.ends c v hc
  · rcases hcases hc with ⟨rfl, rfl⟩ | ⟨hcb, hc⟩
    · rw [update_self]
      exact hmid.loads
    · rw [update_of_ne hcb]
      exact (h.loads c v hc).congr (hstores (by simp [hc])) (hloads (by simp [hc]))
  · by_cases hb0 : b = ⟨0⟩
    · rw [← hb0, update_self]
      exact hb.entry hb0
    · rw [update_of_ne (Ne.symm hb0)]
      exact h.entry ((hsome.mp h0).resolve_right (Ne.symm hb0))
  · by_cases hcb : c = b
    · subst hcb
      rw [update_self, update_of_ne hd.1.2]
      exact hb.inherits d hd
    · have hc' := (hsome.mp hc).resolve_right hcb
      have hdc := h.inherits c hc' d hd
      rw [update_of_ne hcb, update_of_ne, hdc]
      exact hne (by simp [hdc])

end Walk

/-! ## Trees -/

/-- The walk has gone on from `out` to `out'` with the trees below the blocks `bs`. -/
structure Extends (f : Func) (out out' : BlockId → Option Values) (bs : List BlockId) : Prop where
  keeps : ∀ c, (out c).isSome → out' c = out c
  isSome_iff : ∀ c, (out' c).isSome ↔
    (out c).isSome ∨ c ∈ f.liveBlocks ∧ ∃ b ∈ bs, f.Dom b c

namespace Walk

lemma entering (h : Walk f ss phis start out subst cur) (hr : Ready f ss phis)
    (hb : out b = some values) {c : BlockId} (hc : c ∈ f.liveBlocks) (hidom : f.IDom b c)
    (hnot : out c = none) : Entering f ss phis out c values := by
  have hreach := hr.reachable c hc
  obtain ⟨l, hl⟩ := exists_path_iff.mpr hreach
  have hends := h.ends b values hb
  refine ⟨hc, hnot, fun d hd hne => ?_, ?_, ?_, fun d hd => ?_⟩
  · exact h.closed b (by simp [hb]) d (hidom.2 d ⟨hd, hne⟩)
  · refine ⟨hends.total, hends.keys, hends.settled, fun p hp => ?_⟩
    exact (hends.available p hp).of_dom hr.consistent hidom.1.1 hidom.1.2 hreach
  · rintro rfl
    exact absurd (mem_singleton.mp (hidom.1.1 [] .root)) hidom.1.2
  · rw [hd.unique hidom hl, hb]

lemma flatMapM_children {k : BlockId → Transform (List InstId)}
    (hr : Ready f ss phis)
    (hk : ∀ {w : Work} {start out subst c}, Walk f ss phis start out subst w.func →
      Entering f ss phis out c values → f.IDom b c → ∃ foldable w' start' out' subst',
        k c w = .ok foldable w' ∧ Walk f ss phis start' out' subst' w'.func ∧ Extends f out out' [c])
    (h : Walk f ss phis start out subst w.func) (hb : out b = some values)
    (hcs : ∀ c ∈ cs, c ∈ f.liveBlocks ∧ f.IDom b c ∧ out c = none) (hnd : cs.Nodup) :
    ∃ foldable w' start' out' subst', cs.flatMapM k w = .ok foldable w' ∧
      Walk f ss phis start' out' subst' w'.func ∧ Extends f out out' cs := by
  induction cs generalizing w start out subst with
  | nil => exact ⟨[], w, start, out, subst, rfl, h, fun _ _ => rfl, fun c => by simp⟩
  | cons c cs ih =>
    obtain ⟨hc, hnd⟩ := nodup_cons.mp hnd
    obtain ⟨hclive, hidom, hnot⟩ := hcs c (.head _)
    obtain ⟨first, w₁, start₁, out₁, subst₁, hrun₁, h₁, hext₁⟩ :=
      hk h (h.entering hr hb hclive hidom hnot) hidom
    obtain ⟨rest, w', start', out', subst', hrun, h', hext⟩ := ih h₁
      ((hext₁.keeps b (by simp [hb])).trans hb) (fun d hd => by
        obtain ⟨hdlive, hdidom, hdnot⟩ := hcs d (.tail c hd)
        refine ⟨hdlive, hdidom, ?_⟩
        -- the trees below two children have no block in common
        rw [← Option.not_isSome_iff_eq_none, hext₁.isSome_iff]
        rintro (hsome | ⟨-, e, he, hdom⟩)
        · grind
        · obtain rfl := mem_singleton.mp he
          have hed : e ≠ d := fun heq => hc (heq ▸ hd)
          obtain ⟨l, hl⟩ := exists_path_iff.mpr (hr.reachable e hclive)
          exact hidom.1.2 (hidom.1.1.antisymm (hdidom.2 e ⟨hdom, hed⟩) hl)) hnd
    refine ⟨first ++ rest, w', start', out', subst', ?_, h', fun d hd => ?_, fun d => ?_⟩
    · rw [flatMapM_cons, bind_of_ok hrun₁, bind_of_ok hrun]
      rfl
    · rw [hext.keeps d ((hext₁.isSome_iff d).mpr (Or.inl hd)), hext₁.keeps d hd]
    · rw [hext.isSome_iff, hext₁.isSome_iff, or_assoc, ← and_or_left]
      simp

/-- Renaming a tree.  The blocks `above` its root show that its height is less than `n`. -/
lemma renameTree (h : Walk f ss phis start out subst w.func) (hr : Ready f ss phis)
    (n : Nat) (hb : Entering f ss phis out b values) {above : List BlockId} (hnd : above.Nodup)
    (habove : ∀ a ∈ above, a ∈ f.liveBlocks ∧ StrictlyDominates f.Edge ⟨0⟩ a b)
    (hsize : f.blocks.size ≤ n + above.length) :
    ∃ foldable w' start' out' subst', renameTree phis n values b w = .ok foldable w' ∧
      Walk f ss phis start' out' subst' w'.func ∧ Extends f out out' [b] := by
  have hcons := hr.consistent
  have hnodup' : (b :: above).Nodup := nodup_cons.mpr ⟨fun hmem => (habove b hmem).2.2 rfl, hnd⟩
  induction n generalizing w start out subst b values above with
  | zero =>
    -- there are not so many blocks
    have hrange : ((b :: above).map BlockId.idx) ⊆ List.range f.blocks.size := by
      intro m hm
      obtain ⟨c, hc, rfl⟩ := mem_map.mp hm
      have hlive : c ∈ f.liveBlocks := by
        rcases mem_cons.mp hc with rfl | hc
        · exact hb.mem
        · exact (habove c hc).1
      exact mem_range.mpr ((hasBlock_iff f).mp (hcons.mem_liveBlocks.mp hlive).1)
    have hle := ((hnodup'.map BlockId.equiv.injective).subperm hrange).length_le
    rw [length_map, length_range, length_cons] at hle
    omega
  | succ n ih =>
    obtain ⟨vout, foldable, w₁, subst₁, hrun₁, h₁⟩ := h.renameBlock hr hb
    have hchildren := hr.mem_children b hb.mem
    have hbelow (c : BlockId) (hc : c ∈ (f.block b).dominance.children) :
        c ∈ f.liveBlocks ∧ f.IDom b c ∧ update out b (some vout) c = none := by
      obtain ⟨hclive, hidom⟩ := (hchildren c).mp hc
      refine ⟨hclive, hidom, ?_⟩
      rw [update_of_ne (Ne.symm hidom.1.2), ← Option.not_isSome_iff_eq_none]
      intro hsome
      have hbsome := h.closed c hsome b hidom.1.1
      rw [hb.notDone] at hbsome
      exact absurd hbsome (by simp)
    obtain ⟨rest, w', start', out', subst', hrun, h', hext⟩ := flatMapM_children hr
      (fun {w start out subst c} h hc hidom => by
        have habove' (a : BlockId) (ha : a ∈ b :: above) :
            a ∈ f.liveBlocks ∧ StrictlyDominates f.Edge ⟨0⟩ a c := by
          rcases mem_cons.mp ha with rfl | ha
          · exact ⟨hb.mem, hidom.1⟩
          · obtain ⟨l, hl⟩ := exists_path_iff.mpr (hr.reachable c hc.mem)
            exact ⟨(habove a ha).1, .trans_left (habove a ha).2.1 hidom.1 hl⟩
        refine ih h hc hnodup' habove' ?_ ?_
        · grind
        · exact nodup_cons.mpr ⟨fun hmem => (habove' c hmem).2.2 rfl, hnodup'⟩)
      h₁ (update_self b _ out) hbelow (hr.nodup_children b hb.mem)
    refine ⟨foldable ++ rest, w', start', out', subst', ?_, h', fun c hc => ?_, fun c => ?_⟩
    · have hfacts :=
        h₁.progress.frame.dominance b
      rw [Promotion.renameTree, bind_of_ok hrun₁]
      change (((w₁.func.block b).dominance.children.flatMapM (Promotion.renameTree phis n vout)) >>=
        fun below => pure (foldable ++ below)) w₁ = _
      rw [hfacts, bind_of_ok hrun]
      rfl
    · have hcb : c ≠ b := by
        rintro rfl
        rw [hb.notDone] at hc
        exact absurd hc (by simp)
      rw [hext.keeps c (by rw [update_of_ne hcb]; exact hc), update_of_ne hcb]
    · rw [hext.isSome_iff]
      by_cases hcb : c = b
      · subst hcb
        simp only [update_self, Option.isSome_some, true_or, true_iff]
        exact Or.inr ⟨hb.mem, c, mem_singleton_self c, .refl c⟩
      · rw [update_of_ne hcb]
        refine or_congr_right (and_congr_right fun hclive => ?_)
        constructor
        · rintro ⟨d, hd, hdom⟩
          exact ⟨b, mem_singleton_self b, ((hchildren d).mp hd).2.1.1.trans hdom⟩
        · rintro ⟨d, hd, hdom⟩
          obtain rfl := mem_singleton.mp hd
          obtain ⟨l, hl⟩ := exists_path_iff.mpr (hr.reachable c hclive)
          obtain ⟨e, hidom, hec⟩ := ImmediatelyDominates.exists_below ⟨hdom, Ne.symm hcb⟩ hl
          refine ⟨e, (hchildren e).mpr ⟨?_, hidom⟩, hec⟩
          exact hr.mem_liveBlocks_of_reachable (ne_nil_of_mem hb.mem)
            (exists_path_iff.mp (hec.exists_trail ⟨l, hl⟩))

end Walk

/-! ## The function -/

lemma rename_inst (v : Operand) : v.rename .inst = v := by
  cases v <;> rfl

lemma current_zeros (ss : List Slot) (f : Func) (phis : SlotPhis) (b : BlockId) :
    Current f ss phis b [] (zeros ss) := by
  have hmem (p : InstId × Operand) (hp : p ∈ zeros ss) : ∃ s ∈ ss, p = (s.alloc, .const s.zero) := by
    obtain ⟨s, hs, rfl⟩ := mem_map.mp hp
    exact ⟨s, hs, rfl⟩
  refine ⟨fun a ha => ?_, fun p hp => ?_, fun p hp => ?_, fun p hp => ?_⟩
  · obtain ⟨s, hs, rfl⟩ := mem_map.mp ha
    rw [← Option.isSome_iff_exists, lookup_isSome_iff]
    exact ⟨(s.alloc, .const s.zero), mem_map.mpr ⟨s, hs, rfl⟩, beq_self_eq_true _⟩
  · grind
  · obtain ⟨s, hs, rfl⟩ := hmem p hp
    exact .const s.zero
  · obtain ⟨s, hs, rfl⟩ := hmem p hp
    exact .of_forall_ne fun i => by simp

lemma Ready.walk (hr : Ready f ss phis) : Walk f ss phis (fun _ => []) (fun _ => none) .inst f := by
  have hform := hr.formed
  refine ⟨⟨.refl f, hform, fun _ => rfl, fun _ => rfl, fun _ => .refl _, fun b i => ?_,
    ⟨fun _ _ => rfl, ?_, ?_⟩, ?_, ?_,
    ?_⟩, ?_, ?_, ?_, ?_, ?_, ?_, ?_, ?_⟩
  · simp [Seen]
  · exact fun i hi => absurd hi.2 (by simp)
  · exact fun i hi => absurd hi.2 (by simp)
  · intro i _ _
    refine ((Instr.mapOperands_congr fun v _ => rename_inst v).trans (Instr.mapOperands_id _)).symm
  · intro i a hi
    exact (hr.phi i a hi).2.1
  · intro i p v hv
    cases hv
  all_goals simp

lemma rename_eq_ok (hr : Ready f ss phis) (hne : f.liveBlocks ≠ []) (hw : w.func = f) :
    ∃ foldable w' start out subst, rename ss phis w = .ok foldable w' ∧
      Walk f ss phis start out subst w'.func ∧ ∀ b ∈ f.liveBlocks, (out b).isSome := by
  have hlive := hr.mem_liveBlocks_of_reachable hne .refl
  have hdom {d : BlockId} (hd : f.Dom d ⟨0⟩) : d = ⟨0⟩ := mem_singleton.mp (hd [] .root)
  have hentering : Entering f ss phis (fun _ => none) ⟨0⟩ (zeros ss) := by
    refine ⟨hlive, rfl, fun d hd hne => absurd (hdom hd) hne, current_zeros ss f phis _,
      fun _ => rfl, fun d hd => absurd (hdom hd.1.1) hd.1.2⟩
  have hwalk : Walk f ss phis (fun _ => []) (fun _ => none) .inst w.func := by
    rw [hw]
    exact hr.walk
  obtain ⟨foldable, w', start, out, subst, hrun, h, hext⟩ := hwalk.renameTree hr f.blocks.size
    hentering nodup_nil (fun _ h => absurd h not_mem_nil) le_rfl
  refine ⟨foldable, w', start, out, subst, ?_, h, fun b hb => ?_⟩
  · have hent : w.func.entry? = some ⟨0⟩ := by
      have hpos := (hasBlock_iff f).mp
        (hr.mem_liveBlocks.mp hlive).1
      rw [hw, entry?, if_neg]
      rw [Array.isEmpty_iff]
      rintro hempty
      simp [hempty] at hpos
    rw [← hrun, ← hw, rename, func_bind, hent]
    rfl
  · exact (hext.isSome_iff b).mpr (Or.inr ⟨hb, ⟨0⟩, mem_singleton_self _, .of_root b⟩)

/-- From `f` with its phis inserted, which is `m`, to `g`, in which every block has been renamed. -/
structure Renamed (f m g : Func) (ss : List Slot) (phis : SlotPhis) (start : BlockId → Values)
    (out : BlockId → Option Values) (subst : InstId → Operand) : Prop where
  formed : f.Formed
  inserted : Inserted f m phis (ss.flatMap fun s => (phiBlocks f s.alloc).map (s.alloc, ·))
  ready : Ready m ss phis
  walk : Walk m ss phis start out subst g
  all : ∀ b ∈ m.liveBlocks, (out b).isSome

lemma exists_renamed (hf : f.Analyzed) (hssa : f.Ssa) (hslots : slots f = .ok ss) (hne : ss ≠ [])
    (events : List Event) :
    ∃ phis foldable w₂ w₃ start out subst, insertPhis ss { func := f, events } = .ok phis w₂ ∧
      rename ss phis w₂ = .ok foldable w₃ ∧
      Renamed f w₂.func w₃.func ss phis start out subst := by
  obtain ⟨hform, hcomp, -⟩ := ssa_iff.mp hssa
  have hs := slots_of_eq_ok hslots hform
  obtain ⟨phis, w₂, hphis, hins⟩ := insertPhis_eq_ok (w := { func := f, events })
    (.refl hform) hf hcomp hs.placed
  have hready := hins.ready hf hssa hs rfl
  have hblks : w₂.func.liveBlocks ≠ [] := by
    obtain ⟨s, hmem⟩ := exists_mem_of_ne_nil ss hne
    obtain ⟨b, hb, -⟩ := mem_flatMap.mp (hform.mem_liveInsts.mpr (hs.placed s hmem))
    exact ne_nil_of_mem (hins.liveBlocks.symm ▸ hb)
  obtain ⟨foldable, w₃, start, out, subst, hrename, hwalk, hall⟩ := rename_eq_ok hready hblks rfl
  exact ⟨phis, foldable, w₂, w₃, start, out, subst, hphis, hrename, hform, hins, hready, hwalk,
    hall⟩

namespace Renamed

variable {m g : Func} {i : InstId}

lemma instr_eq (h : Renamed f m g ss phis start out subst) (hi : f.placed i)
    (hacc : accesses ss (f.instr i) = false) :
    g.instr i = (f.instr i).mapOperands (Operand.rename subst) := by
  have hhas := f.hasInst_of_live (Formed.live_of_placed hi)
  have hold := (h.inserted.old i hhas).2.1
  have hlook : phis.lookup i = none := by
    rw [Option.eq_none_iff_forall_ne_some]
    intro a ha
    have hnew := (h.inserted.new _ (mem_of_lookup_eq_some ha)).1
    rw [hhas] at hnew
    exact absurd hnew (by simp)
  rw [h.walk.instr i ?_ hlook, hold]
  rw [h.walk.placed_iff h.inserted.consistent, hold, hacc]
  exact ⟨h.inserted.placed_of_placed hi, by simp⟩

lemma subst_eq (h : Renamed f m g ss phis start out subst)
    (hi : loadsSlot ss (f.instr i) = false) : subst i = .inst i := by
  refine h.walk.sound.fixed i fun hseen => ?_
  obtain ⟨⟨hlive, hdone⟩, hload⟩ := hseen
  have hpl := h.inserted.placed_of_mem (h.walk.live _ hdone)
    (h.inserted.mem_of_live hlive)
  rcases h.inserted.hasInst_or_mem h.formed.consistent hpl with hold | hnew
  · rw [(h.inserted.old i (f.hasInst_of_live (Formed.live_of_placed hold))).2.1, hi] at hload
    exact Bool.false_ne_true hload
  · obtain ⟨p, hp, rfl⟩ := mem_map.mp hnew
    rw [(h.inserted.new p hp).2.2] at hload
    exact Bool.false_ne_true hload

end Renamed

end MiddleEnd.Promotion
