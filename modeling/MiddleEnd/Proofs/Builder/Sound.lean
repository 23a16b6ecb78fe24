import MiddleEnd.Proofs.Arrangement
import MiddleEnd.Proofs.Builder.Sessions
import MiddleEnd.Proofs.Connection

/-!
# The bodies that builders make

A session on a function without blocks, whose calls name only what exists, leaves a body that passes
verification and whose control flow can be followed.  Its slots stand in front of everything else in
the entry, and nothing in it is decided by literals alone.  All this is one invariant of the draft,
kept by every move and every resolved jump; the end of the session adds that each block is
terminated and that no jump is pending.
-/

namespace MiddleEnd

open List Func

namespace Func

variable {f g : Func} {i : InstId}

/-- The slots are the first instructions of the entry, and there are no others. -/
def SlotsFirst (f : Func) : Prop :=
  ∃ slots rest, f.instsOf ⟨0⟩ = slots ++ rest ∧
    ∀ c, ∀ i ∈ f.instsOf c, (f.instr i).isAlloc ↔ i ∈ slots

/-- An instruction of a draft is as the builder has added it. -/
structure Composed (f : Func) (i : InstId) : Prop where
  live : (f.inst i).live
  closed : (f.instr i).Closed f
  plain : (f.instr i).Plain (f.inst i).ty

lemma Composed.grows (hi : f.Composed i) (hfg : f.Grows g) : g.Composed i := by
  have hhas := hasInst_of_live hi.live
  refine ⟨(hfg.live i hhas).trans hi.live, ?_, ?_⟩
  · rw [hfg.instr i hhas]
    exact hfg.closed hi.closed
  · rw [hfg.instr i hhas, hfg.ty i hhas]
    exact hi.plain

lemma Composed.samePlaces (hi : f.Composed i) (hfg : f.SamePlaces g)
    (hinstr : g.instr i = f.instr i) (hty : (g.inst i).ty = (f.inst i).ty) : g.Composed i := by
  refine ⟨(hfg.live i).trans hi.live, ⟨fun v hv => ?_, fun c hc => ?_⟩, ?_⟩
  · rw [hinstr] at hv
    rw [hfg.defines, hi.closed.operands v hv]
  · rw [hinstr] at hc
    rw [hfg.hasBlock, hi.closed.targets c hc]
  · rw [hinstr, hty]
    exact hi.plain

lemma composed_nextInst {b : BlockId} {prev : Option InstId} {k : Instr} {t : Ty}
    (hclosed : k.Closed f) (hplain : k.Plain t) :
    (f.insertAt b prev k t).Composed f.nextInst := by
  obtain ⟨hinstr, hty, -, hlive⟩ := record_insertAt f b prev k t f.nextInst
  rw [if_pos rfl] at hinstr hty
  refine ⟨by rw [hlive, decide_eq_true rfl, Bool.true_or], ?_, ?_⟩
  · rw [instr, hinstr]
    exact (f.grows_insertAt b prev k t).closed hclosed
  · rw [instr, hinstr, hty]
    exact hplain

end Func

namespace Draft

variable {i : InstId} {strict : Prop} {d d' : Draft}

/-- What every move of a builder keeps, if it only names what exists. -/
structure Sound (d : Draft) : Prop where
  consistent : d.body.Consistent
  exact : d.body.Exact
  kept : ∀ c, (d.body.block c).deleted = false
  composed : ∀ i, d.body.hasInst i → d.body.Composed i
  pending : ∀ i, d.body.hasInst i → (d.body.instr i).isPendingJump → i ∈ d.pending
  /-- A terminator is the last instruction of its block. -/
  ends : ∀ c, ∀ i ∈ d.body.instsOf c, (d.body.instr i).isTerminator →
    d.body.terminator? c = some i
  slots : d.body.SlotsFirst

/-! ## One move -/

lemma Move.exact (h : Move strict d d') (hd : d.body.Exact) : d'.body.Exact := by
  cases h with
  | addBlock label => exact hd.sameUses (sameUses_addBlock _ label)
  | switchTo c hc => exact hd
  | append k t _ _ _ _ hadmits => exact (hd.create hadmits).sameUses (sameUses_link _ _ _ _)
  | reserve t hent => exact (hd.create rfl).sameUses (sameUses_link _ _ _ _)

lemma Move.composed (h : Move True d d') (hd : ∀ i, d.body.hasInst i → d.body.Composed i)
    (hi : d'.body.hasInst i) : d'.body.Composed i := by
  have hins {b : BlockId} {prev : Option InstId} {k : Instr} {t : Ty}
      (hclosed : k.Closed d.body) (hplain : k.Plain t)
      (hi : (d.body.insertAt b prev k t).hasInst i) :
      (d.body.insertAt b prev k t).Composed i := by
    rcases (d.body.hasInst_insertAt b prev k t i).mp hi with hold | rfl
    · exact (hd i hold).grows (d.body.grows_insertAt b prev k t)
    · exact composed_nextInst hclosed hplain
  cases h with
  | addBlock label => exact (hd i hi).grows (d.body.grows_addBlock label)
  | switchTo c hc => exact hd i hi
  | append k t _ _ hplain _ _ hclosed => exact hins (hclosed trivial) hplain hi
  | reserve t hent => exact hins ⟨nofun, nofun⟩ ⟨rfl, nofun, rfl⟩ hi

lemma Move.ends (h : Move strict d d') (hcons : d.body.Consistent)
    (hd : ∀ c, ∀ i ∈ d.body.instsOf c, (d.body.instr i).isTerminator →
      d.body.terminator? c = some i) {c : BlockId} (hi : i ∈ d'.body.instsOf c)
    (hterminator : (d'.body.instr i).isTerminator) : d'.body.terminator? c = some i := by
  have hold {c : BlockId} (hi : i ∈ d.body.instsOf c) : d.body.terminator? c = some i := by
    rw [h.grows.instr i (hasInst_of_live (hcons.live_of_mem hi))] at hterminator
    exact hd c i hi hterminator
  cases h with
  | addBlock label =>
    rw [(hcons.instsOf_addBlock label).1] at hi
    rw [hcons.terminator?_addBlock, hold hi]
  | switchTo b hb => exact hold hi
  | append k t hcur hopen =>
    rw [hcons.instsOf_append hcur] at hi
    rw [hcons.terminator?_append hcur]
    split at hi
    · next hc =>
      rw [if_pos hc]
      rcases mem_append.mp hi with hi | hi
      · -- an open block has no terminator
        exact absurd ((hold hi).symm.trans hopen) (Option.some_ne_none i)
      · rw [mem_singleton.mp hi, instr_append_nextInst] at hterminator
        rw [mem_singleton.mp hi, if_pos hterminator]
    · next hc => rw [if_neg hc, hold hi]
  | reserve t hent =>
    rw [hcons.instsOf_prepend hent] at hi
    rw [hcons.terminator?_prepend hent rfl]
    split at hi
    · next hc =>
      subst hc
      rcases mem_cons.mp hi with rfl | hi
      · rw [instr_prepend_nextInst] at hterminator
        cases hterminator
      · exact hold hi
    · exact hold hi

lemma Move.slotsFirst (h : Move strict d d') (hcons : d.body.Consistent)
    (hd : d.body.SlotsFirst) : d'.body.SlotsFirst := by
  obtain ⟨slots, rest, hent, hslots⟩ := hd
  have hinstr {c : BlockId} {i : InstId} (hi : i ∈ d.body.instsOf c) :
      (d'.body.instr i).isAlloc ↔ i ∈ slots := by
    rw [h.grows.instr i (hasInst_of_live (hcons.live_of_mem hi))]
    exact hslots c i hi
  have hnew : d.body.nextInst ∉ slots := fun hmem =>
    hcons.nextInst_not_mem ⟨0⟩ (hent ▸ mem_append_left rest hmem)
  cases h with
  | addBlock label =>
    rw [SlotsFirst, (hcons.instsOf_addBlock label).1]
    exact ⟨slots, rest, hent, hslots⟩
  | switchTo c hc => exact ⟨slots, rest, hent, hslots⟩
  | append k t hcur _ _ halloc =>
    have hlists := hcons.instsOf_append hcur k t
    refine ⟨slots, if ⟨0⟩ = d.current then rest ++ [d.body.nextInst] else rest, ?_, fun c i hi => ?_⟩
    · grind
    · rw [hlists] at hi
      split at hi
      · rcases mem_append.mp hi with hi | hi
        · exact hinstr hi
        · rw [mem_singleton.mp hi, instr_append_nextInst, halloc]
          exact ⟨nofun, fun hmem => absurd hmem hnew⟩
      · exact hinstr hi
  | reserve t hblk =>
    have hlists := hcons.instsOf_prepend hblk (.alloc t) (.pointer t)
    refine ⟨d.body.nextInst :: slots, rest, ?_, fun c i hi => ?_⟩
    · grind
    · rw [hlists] at hi
      have hold {c : BlockId} (hi : i ∈ d.body.instsOf c) : i ≠ d.body.nextInst :=
        fun h => hcons.nextInst_not_mem c (h ▸ hi)
      split at hi
      · rcases mem_cons.mp hi with rfl | hi
        · rw [instr_prepend_nextInst]
          exact iff_of_true rfl (.head _)
        · rw [hinstr hi, mem_cons, or_iff_right (hold hi)]
      · rw [hinstr hi, mem_cons, or_iff_right (hold hi)]

namespace Sound

variable {c : BlockId} {t : InstId}

lemma move (hd : d.Sound) (h : Move True d d') : d'.Sound where
  consistent := h.consistent hd.consistent
  exact := h.exact hd.exact
  kept c := (h.grows.deleted c).trans (hd.kept c)
  composed _ hi := h.composed hd.composed hi
  pending i := h.mem_pending (hd.pending i)
  ends _ _ hi hterminator := h.ends hd.consistent hd.ends hi hterminator
  slots := h.slotsFirst hd.consistent hd.slots

lemma moves (hd : d.Sound) (h : Moves True d d') : d'.Sound := by
  induction h with
  | refl => exact hd
  | tail _ hmove ih => exact ih.move hmove

lemma resolved (hd : d.Sound) (hi : d.body.hasInst i)
    (hpend : (d.body.instr i).isPendingJump) (hc : d.body.hasBlock c) :
    (d.resolved i c).Sound := by
  have hplaces := d.samePlaces_resolved i c
  have hlists := funext hplaces.instsOf
  refine ⟨hplaces.consistent hd.consistent, ?_, fun b => ?_, fun j hj => ?_,
    fun j => mem_pending_resolved hi (hd.pending j), fun b j hj hterminator => ?_, ?_⟩
  · exact hd.exact.replaceInstr (hd.composed i hi).live nofun
  · rw [hplaces.blockDeleted, hd.kept]
  · rw [hplaces.hasInst] at hj
    by_cases hji : j = i
    · subst hji
      refine ⟨(hplaces.live j).trans (hd.composed j hi).live, ?_, ?_⟩
      all_goals rw [instr_resolved_self hi]
      · refine ⟨nofun, fun b hb => ?_⟩
        rw [mem_singleton.mp hb, hplaces.hasBlock, hc]
      · exact ⟨rfl, nofun, rfl⟩
    · exact (hd.composed j hj).samePlaces hplaces (instr_resolved_of_ne hji c)
        (ty_replaceInstr _ _ _ _)
  · rw [hlists] at hj
    rw [(kind_resolved hi hpend c j).1] at hterminator
    rw [terminator?_resolved hi hpend]
    exact hd.ends b j hj hterminator
  · obtain ⟨slots, rest, hent, hslots⟩ := hd.slots
    rw [SlotsFirst, hlists]
    refine ⟨slots, rest, hent, fun b j hj => ?_⟩
    rw [← hslots b j hj, (kind_resolved hi hpend c j).2]

lemma new (name : String) (ret : Ty) (params : List Ty) (current : BlockId) :
    Sound ⟨.new name ret params, current, []⟩ := by
  have hnone (i : InstId) : (Func.new name ret params).hasInst i ≠ true := by
    simp [Func.hasInst, Func.new]
  have hempty (c : BlockId) (i : InstId) : i ∉ (Func.new name ret params).instsOf c := not_mem_nil
  refine ⟨(Func.Tidy.empty rfl rfl rfl).consistent, .empty rfl fun p hp => ?_, fun _ => rfl,
    fun i hi => absurd hi (hnone i), fun i hi => absurd hi (hnone i),
    fun c i hi => absurd hi (hempty c i), [], [], rfl, fun c i hi => absurd hi (hempty c i)⟩
  simp only [Func.new, mem_toArray, mem_map] at hp
  obtain ⟨t, -, rfl⟩ := hp
  rfl

/-! ## Finished bodies -/

lemma composed_of_mem (hd : d.Sound) (hi : i ∈ d.body.instsOf c) :
    d.body.Composed i :=
  hd.composed i (hasInst_of_live (hd.consistent.live_of_mem hi))

lemma terminated (hd : d.Sound) (ht : d.body.terminator? c = some t) :
    ∃ l, d.body.instsOf c = l ++ [t] ∧ (d.body.instr t).isTerminator ∧
      ∀ i ∈ l, (d.body.instr i).isTerminator = false := by
  have hlast := ht
  rw [hd.consistent.terminator?_eq, Option.filter_eq_some_iff] at hlast
  obtain ⟨l, hl⟩ := List.getLast?_eq_some_iff.mp hlast.1
  refine ⟨l, hl, hlast.2, fun i hi => ?_⟩
  by_contra hterminator
  rw [Bool.not_eq_false] at hterminator
  have hmem : i ∈ d.body.instsOf c := hl ▸ mem_append_left [t] hi
  have hit : t = i := Option.some.inj (ht.symm.trans (hd.ends c i hmem hterminator))
  have hnd := hd.consistent.nodup c
  rw [hl] at hnd
  exact disjoint_of_nodup_append hnd hi (hit ▸ (.head _))

lemma verify_eq_ok (hd : d.Sound)
    (hends : ∀ c ∈ d.body.liveBlocks, d.body.terminator? c ≠ none) : d.body.verify = .ok () := by
  have hpl : d.body.placed = fun u => (d.body.inst u).live := by
    funext u
    rw [Func.placed, hd.kept, Bool.not_false, Bool.and_true]
  refine hd.consistent.verify_eq_ok_iff.mpr ⟨⟨hd.consistent, fun c hc => ?_, fun c _ => ?_,
    fun v htr _ => ?_⟩, fun c _ i hi v hv => (hd.composed_of_mem hi).closed.operands v hv⟩
  · obtain ⟨t, ht⟩ := Option.ne_none_iff_exists'.mp (hends c hc)
    obtain ⟨l, hl, hterminated⟩ := hd.terminated ht
    exact ⟨l, t, hl, hterminated⟩
  · refine pairwise_of_forall_mem_list fun i _ j hj hphi => ?_
    rw [(hd.composed_of_mem hj).plain.phi] at hphi
    cases hphi
  · rw [hpl]
    exact hd.exact.uses v htr

lemma flowError?_eq_none (hd : d.Sound) (hpend : d.pending = [])
    (ht : d.body.terminator? c = some t) : d.body.flowError? c = none := by
  obtain ⟨l, hl, -⟩ := hd.terminated ht
  have hmem : t ∈ d.body.instsOf c := hl ▸ mem_append_right l (.head _)
  have hcomposed := hd.composed_of_mem hmem
  refine (flowError?_eq_none_iff ht).mpr ⟨fun hjump => ?_, fun _ x _ _ => .inl (hd.kept x),
    fun b hb => ?_⟩
  · have hlisted := hd.pending t (hasInst_of_live hcomposed.live) (by rw [hjump]; rfl)
    rw [hpend] at hlisted
    exact not_mem_nil hlisted
  · rw [targets, ht] at hb
    exact hcomposed.closed.targets b hb

lemma connect_eq_ok (hd : d.Sound) (hpend : d.pending = [])
    (hends : ∀ c ∈ d.body.liveBlocks, d.body.terminator? c ≠ none) :
    ∃ g, d.body.connect = (.ok [], g) := by
  have hflow : ∀ c ∈ d.body.liveBlocks, d.body.flowError? c = none := by
    intro c hc
    obtain ⟨t, ht⟩ := Option.ne_none_iff_exists'.mp (hends c hc)
    exact hd.flowError?_eq_none hpend ht
  obtain ⟨folded, g, hconn, hto, -⟩ := connectsTo_of_flow hd.consistent hd.exact hflow
  have hfolded : folded = [] := by
    refine eq_nil_iff_forall_not_mem.mpr fun b hb => ?_
    -- a folded branch has a deleted target
    obtain ⟨t, x, -, -, -, c, y, hdel, -⟩ := (hto.mem_folded b).mp hb
    rw [hd.kept] at hdel
    cases hdel
  exact ⟨g, hfolded ▸ hconn⟩

end Sound

end Draft

/-! ## Whole sessions -/

lemma Builder.sound_finish {s : Session} {f : FuncId} {name : String} {ret : Ty}
    {params : List Ty} {b b' : Builder} {steps : List BuildStep}
    (hnew : s.program.func f = .new name ret params) (hstart : start s f = .ok b)
    (hscope : b.allInScope steps) (hfinish : Build.finish (b.takeAll steps) = .ok ((), b')) :
    ∃ d : Draft, d.body = b'.session.program.func f ∧ d.pending = [] ∧ d.Sound ∧
      ∀ c ∈ d.body.liveBlocks, d.body.terminator? c ≠ none := by
  obtain ⟨hfunc, hready, hmoves⟩ := start_eq_ok True hstart
  rw [hnew] at hmoves
  have hsound : b.draft.Sound := (Draft.Sound.new name ret params b.current).moves hmoves
  obtain ⟨hfunc', hready', hsound'⟩ := takeAll_induction True (I := fun _ d => d.Sound)
    (fun _ _ _ _ _ hmoves hd => hd.moves hmoves)
    (fun _ _ _ _ hi hpend hc hd => hd.resolved hi hpend (hc trivial))
    (fun _ _ _ _ _ hd => hd) hready steps (fun _ => hscope) [] hsound
  obtain ⟨hfunc'', d, hmoves', hbody, hpend, hends⟩ :=
    Build.finish_eq_ok True hready' hsound'.consistent hfinish
  rw [← hbody] at hends
  rw [body, hfunc'', hfunc', hfunc] at hbody
  exact ⟨d, hbody, hpend, hsound'.moves hmoves', hends⟩

/-- A session on a function without blocks that names only what exists, and that ends well, leaves a
body that passes verification.  Control flow can be followed and no branch is folded on the way, the
slots are the first instructions of the entry and occur nowhere else, and no instruction is decided
by literals alone. -/
theorem Builder.wellFormed_of_finish {s : Session} {f : FuncId} {name : String} {ret : Ty}
    {params : List Ty} {b b' : Builder} {steps : List BuildStep}
    (hnew : s.program.func f = .new name ret params) (hstart : start s f = .ok b)
    (hscope : b.allInScope steps = true) (hfinish : Build.finish (b.takeAll steps) = .ok ((), b')) :
    (b'.session.program.func f).verify = .ok () ∧
    (∃ g, (b'.session.program.func f).connect = (.ok [], g)) ∧
    (b'.session.program.func f).SlotsFirst ∧
    (∀ i ∈ (b'.session.program.func f).liveInsts, ∀ c x y,
      (b'.session.program.func f).instr i = .branch c x y → c.const? = none) ∧
    ∀ i ∈ (b'.session.program.func f).liveInsts,
      ((b'.session.program.func f).instr i).fold? ((b'.session.program.func f).inst i).ty =
        none := by
  obtain ⟨d, hbody, hpending, hsound, hends⟩ := sound_finish hnew hstart hscope hfinish
  rw [← hbody]
  have hplain {i : InstId} (hi : i ∈ d.body.liveInsts) :
      (d.body.instr i).Plain (d.body.inst i).ty := by
    obtain ⟨c, -, hmem⟩ := mem_flatMap.mp hi
    exact (hsound.composed_of_mem hmem).plain
  exact ⟨hsound.verify_eq_ok hends, hsound.connect_eq_ok hpending hends, hsound.slots,
    fun i hi => (hplain hi).branch, fun i hi => (hplain hi).fold⟩

/-- A choice on an argument.  One side jumps on to the other one, which is left open. -/
def choiceSteps : List BuildStep :=
  [.spillArguments, .createBlock, .createBlock, .load (.inst ⟨0⟩),
    .icmp .lt (.inst ⟨2⟩) (.int 1), .branch (.inst ⟨3⟩) ⟨1⟩ ⟨2⟩, .switchTo ⟨1⟩, .pendingJump,
    .switchTo ⟨2⟩, .binary .add (.int 1) (.int 2), .alloc .i32, .store (.int 3) (.inst ⟨6⟩),
    .resolve ⟨5⟩ ⟨2⟩]

theorem Builder.wellFormed_of_finish_choiceSteps :
    ∃ b b', start { program := { funcs := #[.new "f" .i32 [.i32]] } } ⟨0⟩ = .ok b ∧
      b.allInScope choiceSteps = true ∧
      Build.finish (b.takeAll choiceSteps) = .ok ((), b') ∧
      (b'.session.program.func ⟨0⟩).instsOf ⟨0⟩ = [⟨6⟩, ⟨0⟩, ⟨1⟩, ⟨2⟩, ⟨3⟩, ⟨4⟩] ∧
      (b'.session.program.func ⟨0⟩).verify = .ok () ∧
      (∃ g, (b'.session.program.func ⟨0⟩).connect = (.ok [], g)) ∧
      (b'.session.program.func ⟨0⟩).SlotsFirst := by
  obtain ⟨b, hstart⟩ :
      ∃ b, start { program := { funcs := #[.new "f" .i32 [.i32]] } } ⟨0⟩ = .ok b := ⟨_, rfl⟩
  obtain ⟨b', hscope, hfinish, hlist⟩ : ∃ b', b.allInScope choiceSteps = true ∧
      Build.finish (b.takeAll choiceSteps) = .ok ((), b') ∧
      (b'.session.program.func ⟨0⟩).instsOf ⟨0⟩ = [⟨6⟩, ⟨0⟩, ⟨1⟩, ⟨2⟩, ⟨3⟩, ⟨4⟩] := by
    cases hstart
    exact ⟨_, rfl, rfl, rfl⟩
  obtain ⟨hverify, hconnect, hslots, -⟩ := wellFormed_of_finish rfl hstart hscope hfinish
  exact ⟨b, b', hstart, hscope, hfinish, hlist, hverify, hconnect, hslots⟩

end MiddleEnd
