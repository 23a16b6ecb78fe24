import MiddleEnd.Proofs.Promotion.Walk

/-!
# Promoted loads on paths

On every path from the entry to a load of a promoted slot, the value that replaces the load is the
last one stored on that path.  Which value a phi stands for depends on the path: an inserted phi is
resolved to its entry for the block through which the path last came to it.

The proof is by induction on the path.  A block with a phi for the slot takes its value from the
block before it on the path.  A block without one takes it from its immediate dominator, and
because phis are where dominance ends, no block between the two on the path changes the slot.
-/

namespace MiddleEnd

open List Instr

def Instr.entryFor? (k : Instr) (p : BlockId) : Option Operand :=
  (k.entries.find? fun e => e.block = p).bind PhiEntry.value

namespace Promotion

variable {a i : InstId} {v : Operand} {values : Values} {s : Slot} {f g : Func} {ss : List Slot}
  {phis : SlotPhis} {b : BlockId} {subst : InstId → Operand} {start : BlockId → Values}
  {out : BlockId → Option Values} {p : BlockId} {homes : List (InstId × BlockId)}
  {path q : List BlockId} {before is : List InstId}

/-! ## Values on a path -/

/-- What a value stands for at the end of a path, given last block first.  A phi of its last block
stands for what its entry for the block before stands for there; one of another block stands for
what it stood for before. -/
def resolve (g : Func) (phis : SlotPhis) : List BlockId → Operand → Operand
  | b :: p :: path, .inst i =>
    if phis.lookup i = none then .inst i
    else if (g.inst i).block = b then
      match (g.instr i).entryFor? p with
      | some v => resolve g phis (p :: path) v
      | none => .inst i
    else resolve g phis (p :: path) (.inst i)
  | _, v => v

/-- The value that an instruction stores to a slot. -/
def storedTo? (a : InstId) : Instr → Option Operand
  | .store v p => if p = .inst a then some v else none
  | _ => none

/-- The last value that one of the instructions stores to a slot. -/
def lastStored? (f : Func) (a : InstId) (is : List InstId) : Option Operand :=
  (is.filterMap fun i => storedTo? a (f.instr i)).getLast?

/-- What is in a slot after a path and the instructions `before` of its last block: the last value
stored, as what it stands for where it is stored, or zero. -/
def content (f g : Func) (phis : SlotPhis) (subst : InstId → Operand) (s : Slot) :
    List BlockId → List InstId → Operand
  | [], _ => .const s.zero
  | b :: path, before =>
    match lastStored? f s.alloc before with
    | some v => resolve g phis (b :: path) (v.rename subst)
    | none => content f g phis subst s path (path.head?.elim [] f.instsOf)

lemma resolve_of_lookup_eq_none (hv : ∀ i, v = .inst i → phis.lookup i = none)
    (path : List BlockId) : resolve g phis path v = v := by
  cases v with
  | inst i =>
    match path with
    | [] | [_] => rfl
    | _ :: _ :: _ => rw [resolve, if_pos (hv i rfl)]
  | _ =>
    match path with
    | [] | [_] => rfl
    | _ :: _ :: _ => rfl

lemma resolve_append (hq : (g.inst i).block ∉ q) (d : BlockId)
    (r : List BlockId) :
    resolve g phis (q ++ d :: r) (.inst i) = resolve g phis (d :: r) (.inst i) := by
  by_cases hi : phis.lookup i = none
  · have hnone : ∀ j, Operand.inst i = .inst j → phis.lookup j = none := by
      rintro j hj
      rw [← Operand.inst.inj hj, hi]
    rw [resolve_of_lookup_eq_none hnone, resolve_of_lookup_eq_none hnone]
  induction q with
  | nil => rfl
  | cons c q ih =>
    obtain ⟨hc, hq⟩ := ne_and_not_mem_of_not_mem_cons hq
    have hstep (p : BlockId) (path : List BlockId) :
        resolve g phis (c :: p :: path) (.inst i) = resolve g phis (p :: path) (.inst i) := by
      rw [resolve, if_neg hi, if_neg hc]
    rw [← ih hq]
    cases q with
    | nil => exact hstep d r
    | cons p q => exact hstep p (q ++ d :: r)

lemma content_append (hbefore : lastStored? f s.alloc before = none)
    (hq : ∀ c ∈ q, lastStored? f s.alloc (f.instsOf c) = none) (d : BlockId)
    (r : List BlockId) :
    content f g phis subst s (b :: q ++ d :: r) before =
      content f g phis subst s (d :: r) (f.instsOf d) := by
  induction q generalizing b before with
  | nil =>
    rw [cons_append, content, hbefore]
    rfl
  | cons c q ih =>
    rw [cons_append, content, hbefore]
    exact ih (hq c (.head _)) fun e he => hq e (.tail c he)

/-! ## Values in a block -/

/-- The instruction sets the value of the slot. -/
def Sets (f : Func) (phis : SlotPhis) (a i : InstId) : Prop :=
  phis.lookup i = some a ∨ phis.lookup i = none ∧ ∃ v, f.instr i = .store v (.inst a)

lemma lookup_track :
    (track f phis subst values i).lookup a = values.lookup a ∨ Sets f phis a i := by
  unfold track
  split
  · next c hc =>
    by_cases hca : a = c
    · exact Or.inr (Or.inl (hca ▸ hc))
    · grind
  · next hnone =>
    split
    · next v p hk =>
      split
      · next c _ hat =>
        by_cases hca : a = c
        · right
          right
          refine ⟨hnone, v, ?_⟩
          cases p with
          | inst d =>
            rw [Values.at?, Option.map_eq_some_iff] at hat
            obtain ⟨_, -, heq⟩ := hat
            rw [hk, hca, (Prod.mk.inj heq).1]
          | _ => cases hat
        · grind
      · exact Or.inl rfl
    · exact Or.inl rfl

lemma isSome_lookup_track (ha : (values.lookup a).isSome) :
    ((track f phis subst values i).lookup a).isSome := by
  have hcons (c : InstId) (v : Operand) : (((c, v) :: values).lookup a).isSome := by
    rw [lookup_cons]
    cases a == c with
    | true => rfl
    | false => exact ha
  unfold track
  split
  · exact hcons _ _
  · split
    · split
      · exact hcons _ _
      · exact ha
    · exact ha

lemma lookup_track_store (hi : phis.lookup i = none) (hk : f.instr i = .store v (.inst a))
    (ha : (values.lookup a).isSome) :
    (track f phis subst values i).lookup a = some (v.rename subst) := by
  obtain ⟨w, hw⟩ := Option.isSome_iff_exists.mp ha
  have hat : values.at? (.inst a) = some (a, w) := by
    rw [Values.at?, hw]
    rfl
  simp only [track, hi, hk, hat]
  exact lookup_cons_self

lemma lookup_foldl_track (f : Func) (phis : SlotPhis) (subst : InstId → Operand)
    (ha : (values.lookup a).isSome) (is : List InstId) :
    ((is.foldl (track f phis subst) values).lookup a).isSome ∧
      ((∀ i ∈ is, ¬ Sets f phis a i) ∧
          (is.foldl (track f phis subst) values).lookup a = values.lookup a ∨
        ∃ p i q, is = p ++ i :: q ∧ (∀ j ∈ q, ¬ Sets f phis a j) ∧
          (phis.lookup i = some a ∧
              (is.foldl (track f phis subst) values).lookup a = some (.inst i) ∨
            phis.lookup i = none ∧ ∃ v, f.instr i = .store v (.inst a) ∧
              (is.foldl (track f phis subst) values).lookup a = some (v.rename subst))) := by
  induction is using List.reverseRecOn with
  | nil => exact ⟨ha, Or.inl ⟨by simp, rfl⟩⟩
  | append_singleton is i ih =>
    obtain ⟨hsome, hcases⟩ := ih
    rw [foldl_append, foldl_cons, foldl_nil]
    refine ⟨isSome_lookup_track hsome, ?_⟩
    by_cases hsets : Sets f phis a i
    · refine Or.inr ⟨is, i, [], rfl, by simp, ?_⟩
      rcases hsets with hphi | ⟨hnone, v, hk⟩
      · left
        rw [track, hphi]
        exact ⟨rfl, lookup_cons_self⟩
      · right
        exact ⟨hnone, v, hk, lookup_track_store hnone hk hsome⟩
    · rw [lookup_track.resolve_right hsets]
      rcases hcases with ⟨hnot, heq⟩ | ⟨p, j, q, rfl, hq, hval⟩
      · grind
      · refine Or.inr ⟨p, j, q ++ [i], by simp, fun k hk => ?_, hval⟩
        rcases mem_append.mp hk with hk | hk
        · exact hq k hk
        · rwa [mem_singleton.mp hk]

lemma storedTo?_eq_some {k : Instr} : storedTo? a k = some v ↔ k = .store v (.inst a) := by
  cases k with
  | store w p =>
    rw [storedTo?]
    split
    · next hp => simp [hp]
    · next hp => simp [hp]
  | _ => simp [storedTo?]

lemma filterMap_storedTo?_eq_nil
    (h : ∀ i ∈ is, ∀ v, f.instr i ≠ .store v (.inst a)) :
    is.filterMap (fun i => storedTo? a (f.instr i)) = [] := by
  rw [filterMap_eq_nil_iff]
  intro i hi
  rw [Option.eq_none_iff_forall_ne_some]
  exact fun v hv => h i hi v (storedTo?_eq_some.mp hv)

lemma lastStored?_eq_none (h : ∀ i ∈ is, ∀ v, f.instr i ≠ .store v (.inst a)) :
    lastStored? f a is = none := by
  rw [lastStored?, filterMap_storedTo?_eq_nil h]
  rfl

lemma lastStored?_append_cons {p q : List InstId} (hi : f.instr i = .store v (.inst a))
    (hq : ∀ j ∈ q, ∀ w, f.instr j ≠ .store w (.inst a)) :
    lastStored? f a (p ++ i :: q) = some v := by
  have hcons : (i :: q).filterMap (fun i => storedTo? a (f.instr i)) = [v] := by
    rw [filterMap_cons, filterMap_storedTo?_eq_nil hq]
    simp only [storedTo?_eq_some.mpr hi]
  rw [lastStored?, filterMap_append, hcons, List.getLast?_concat]

lemma entryFor?_map {ps : List BlockId} (hp : p ∈ ps) (e : BlockId → Option Operand) :
    (phi (ps.map fun q => ⟨q, e q⟩)).entryFor? p = e p := by
  have hfind : (ps.map fun q => (⟨q, e q⟩ : PhiEntry)).find? (fun e => e.block = p) =
    some ⟨p, e p⟩ := by
    induction ps with
    | nil => cases hp
    | cons q ps ih => grind
  rw [entryFor?, entries, hfind]
  rfl

lemma lookup_zeros (hs : Slots f ss) (hmem : s ∈ ss) :
    (zeros ss).lookup s.alloc = some (.const s.zero) := by
  have hkeys : (zeros ss).map Prod.fst = ss.map Slot.alloc := by
    rw [zeros, map_map]
    rfl
  rw [lookup_eq_some_iff_mem (by rw [hkeys]; exact hs.nodup)]
  exact mem_map.mpr ⟨s, hmem, rfl⟩

/-! ## The value that replaces a load -/

lemma Ready.sets_of_store (hr : Ready f ss phis) (hk : f.instr i = .store v (.inst a)) :
    Sets f phis a i := by
  refine Or.inr ⟨?_, v, hk⟩
  rw [Option.eq_none_iff_forall_ne_some]
  intro c hc
  rw [(hr.phi i c hc).2.1] at hk
  exact absurd hk (by simp [openPhi])

namespace Walk

variable (hw : Walk f ss phis start out subst g) (hr : Ready f ss phis)

include hw hr

/-- Values at the end of the immediate dominator stand for the same on the way to the block. -/
lemma resolve_skip {d : BlockId} (hidom : f.IDom d b) {r : List BlockId}
    (hpath : f.Path (b :: q ++ d :: r)) (hd : d ∉ q) {vd : Values} (hvd : out d = some vd)
    (hv : vd.lookup a = some v) :
    resolve g phis (b :: q ++ d :: r) v = resolve g phis (d :: r) v := by
  cases v with
  | inst i =>
    refine resolve_append (fun hmem => ?_) d r
    -- the value is available at the end of `d`, so its block dominates `d`
    have hdom : f.Dom (f.inst i).block d := by
      rcases (hw.ends d vd hvd).available _ (mem_of_lookup_eq_some hv) i rfl with hin | ⟨-, hdom⟩
      · rw [hr.block_of_mem hin]
        exact .refl d
      · exact hdom
    rw [hw.block] at hmem
    have hstrict := hidom.strictlyDominates_of_mem hpath hd hmem
    exact hstrict.2 (hdom.antisymm hstrict.1 (Trail.of_append (q := b :: q) hpath)).symm
  | _ =>
    rw [resolve_of_lookup_eq_none (by simp), resolve_of_lookup_eq_none (by simp)]

/-- An inserted phi stands for the value at the end of the block that control comes from. -/
lemma resolve_phi (hi : phis.lookup i = some a) (hin : i ∈ f.instsOf b) (hedge : f.Edge p b)
    {vp : Values} (hvp : out p = some vp)
    (hv : vp.lookup a = some v) (path : List BlockId) :
    resolve g phis (b :: p :: path) (.inst i) = resolve g phis (p :: path) v := by
  have hrouted := hr.routed
  have hhome := hrouted.block_of_mem hin
  have hhas := (hrouted.mem_liveBlocks.mp
    (hrouted.mem_liveBlocks_of_edge hedge)).1
  have hent : (g.instr i).entryFor? p = some v := by
    rw [hw.phi i a hi, entryFor?_map]
    · rw [filledBy, hvp, Option.bind_some, flowing, hi, Option.bind_some, hv]
    · rw [hhome]
      exact (hrouted.mem_preds hhas).mpr hedge
  rw [resolve, if_neg (by simp [hi]), if_pos (by rw [hw.block, hhome]), hent]

lemma resolve_eq_content (hall : ∀ b ∈ f.liveBlocks, (out b).isSome)
    (hs : s ∈ ss) (hpath : f.Path (b :: path)) {pre post : List InstId}
    (hsplit : f.instsOf b = pre ++ post)
    (hphis : ∀ i ∈ f.instsOf b, phis.lookup i = some s.alloc → i ∈ pre)
    (hv : (pre.foldl (track f phis subst) (start b)).lookup s.alloc = some v) :
    resolve g phis (b :: path) v = content f g phis subst s (b :: path) pre := by
  have hform := hr.formed
  have ha : s.alloc ∈ ss.map Slot.alloc := mem_map_of_mem hs
  have hne : f.liveBlocks ≠ [] := by
    obtain ⟨c, hc, -⟩ := mem_flatMap.mp
      (hform.mem_liveInsts.mpr (hr.slots.placed s hs))
    exact ne_nil_of_mem hc
  have hout {c : BlockId} {l : List BlockId} (hc : f.Path (c :: l)) :
      c ∈ f.liveBlocks ∧ ∃ vc, out c = some vc := by
    have hlive := hr.mem_liveBlocks_of_reachable hne (Func.exists_path_iff.mp ⟨l, hc⟩)
    exact ⟨hlive, Option.isSome_iff_exists.mp (hall c hlive)⟩
  induction hn : path.length using Nat.strongRecOn generalizing b path pre post v with
  | _ n ih =>
    obtain ⟨hlive, vb, hvb⟩ := hout hpath
    obtain ⟨-, hcases⟩ := lookup_foldl_track f phis subst
      (Option.isSome_iff_exists.mpr ((hw.starts b vb hvb).total s.alloc ha)) pre
    -- the end of a block that the path came through before
    have hend {c : BlockId} {l : List BlockId} (hc : f.Path (c :: l)) (hlt : l.length < n) {u : Operand}
        {vc : Values} (hvc : out c = some vc) (hu : vc.lookup s.alloc = some u) :
        resolve g phis (c :: l) u = content f g phis subst s (c :: l) (f.instsOf c) := by
      refine ih l.length hlt hc (append_nil _).symm (fun _ hi _ => hi) ?_ rfl
      rw [← hw.values c vc hvc, hu]
    rcases hcases with ⟨hnone, hlook⟩ | ⟨p, i, q, rfl, hq, ⟨hphi, hlook⟩ | ⟨-, w, hk, hlook⟩⟩
    · -- nothing in the block has set the slot
      have hstored := lastStored?_eq_none fun j hj w hw' => hnone j hj (hr.sets_of_store hw')
      rw [hlook] at hv
      by_cases hent : b = ⟨0⟩
      · subst hent
        obtain rfl : path = [] := by
          cases hpath with
          | root => rfl
          | step _ hedge => exact absurd hedge (hr.entry _)
        rw [hw.entry (by simp [hvb]), lookup_zeros hr.slots hs] at hv
        obtain rfl := Option.some.inj hv
        rw [content, hstored]
        rfl
      · obtain ⟨d, hd⟩ := ImmediatelyDominates.exists_of_trail hpath hent
        have hmem : d ∈ path := (mem_cons.mp (hd.1.1 path hpath)).resolve_left hd.1.2
        obtain ⟨q, r, rfl, hdq⟩ := eq_append_cons_of_mem hmem
        have hvd := hw.inherits b (by simp [hvb]) d hd
        have hquiet (c : BlockId) (hc : c ∈ q) : lastStored? f s.alloc (f.instsOf c) = none := by
          refine lastStored?_eq_none fun j hj w hk => ?_
          refine hd.not_sets_of_mem (hr.closed s.alloc ha) ?_ hpath hdq c hc (Or.inl ⟨j, hj, w, hk⟩)
          rintro ⟨i, hi, hphi⟩
          exact hnone i (hphis i hi hphi) (Or.inl hphi)
        have hpath' : f.Path (d :: r) := Trail.of_append (q := b :: q) hpath
        have hlt : r.length < n := by grind
        calc resolve g phis (b :: q ++ d :: r) v
            = resolve g phis (d :: r) v := hw.resolve_skip hr hd hpath hdq hvd hv
          _ = content f g phis subst s (d :: r) (f.instsOf d) := hend hpath' hlt hvd hv
          _ = content f g phis subst s (b :: q ++ d :: r) pre :=
              (content_append hstored hquiet d r).symm
    · -- the last thing to set it is a phi, so the block has not stored to it
      obtain rfl : v = .inst i := Option.some.inj (hv.symm.trans hlook)
      have hin : i ∈ f.instsOf b := by simp [hsplit]
      have hstored : lastStored? f s.alloc (p ++ i :: q) = none := by
        refine lastStored?_eq_none fun j hj w hk => ?_
        rcases mem_append.mp hj with hj | hj
        · have hfirst := hform.phis_first b hlive
          rw [hsplit, append_assoc, pairwise_append] at hfirst
          have hjphi := hfirst.2.2 j hj i (.head _) (by rw [(hr.phi i _ hphi).2.1]; rfl)
          rw [hk] at hjphi
          exact Bool.false_ne_true hjphi
        · rcases mem_cons.mp hj with rfl | hj
          · rw [(hr.phi j _ hphi).2.1] at hk
            exact absurd hk (by simp [openPhi])
          · exact hq j hj (hr.sets_of_store hk)
      cases hpath with
      | root =>
        have hnot := hr.form.entry i hin
        rw [(hr.phi i _ hphi).2.1] at hnot
        exact absurd hnot (by simp [openPhi, isPhi])
      | @step c _ l hpath' hedge =>
        obtain ⟨-, vc, hvc⟩ := hout hpath'
        obtain ⟨u, hu⟩ := (hw.ends c vc hvc).total s.alloc ha
        have hlt : l.length < n := by grind
        rw [hw.resolve_phi hr hphi hin hedge hvc hu, hend hpath' hlt hvc hu]
        conv_rhs => rw [content, hstored]
        rfl
    · -- the last thing to set it is a store
      obtain rfl : v = w.rename subst := Option.some.inj (hv.symm.trans hlook)
      rw [content, lastStored?_append_cons hk fun j hj u hu => hq j hj (hr.sets_of_store hu)]

end Walk

/-! ## Promoted functions -/

lemma Inserted.lastStored?_eq (h : Inserted f g phis homes)
    (hf : f.Consistent) (a : InstId) {l pre : List InstId} (hl : ∀ i ∈ l, i ∈ phis.map Prod.fst)
    (hpre : pre ⊆ f.instsOf b) : lastStored? g a (l ++ pre) = lastStored? f a pre := by
  have hnone : l.filterMap (fun i => storedTo? a (g.instr i)) = [] := by
    refine filterMap_storedTo?_eq_nil fun i hi v hk => ?_
    obtain ⟨p, hp, rfl⟩ := mem_map.mp (hl i hi)
    rw [(h.new p hp).2.2] at hk
    exact absurd hk (by simp [openPhi])
  have hsame : pre.filterMap (fun i => storedTo? a (g.instr i)) =
      pre.filterMap fun i => storedTo? a (f.instr i) :=
    filterMap_congr fun i hi => by rw [h.instr_of_mem hf (hpre hi)]
  rw [lastStored?, filterMap_append, hnone, hsame, nil_append, lastStored?]

lemma Inserted.content_eq (h : Inserted f g phis homes)
    (hf : f.Consistent) {g' : Func} (s : Slot) (path : List BlockId) {l pre : List InstId}
    (hl : ∀ i ∈ l, i ∈ phis.map Prod.fst) (hpre : pre ⊆ f.instsOf b) :
    content g g' phis subst s path (l ++ pre) = content f g' phis subst s path pre := by
  induction path generalizing b l pre with
  | nil => rfl
  | cons c path ih =>
    rw [content, content, h.lastStored?_eq hf s.alloc hl hpre]
    split
    · rfl
    · cases path with
      | nil => rfl
      | cons d path =>
        obtain ⟨l', hl', hphis⟩ := h.instsOf d
        simp only [List.head?_cons, Option.elim, hl']
        exact ih hphis (List.Subset.refl _)

lemma Renamed.resolve_eq_content {m : Func} (h : Renamed f m g ss phis start out subst)
    (hf : f.Analyzed) (hs : s ∈ ss) (hpath : f.Path (b :: path))
    {after : List InstId} (hsplit : f.instsOf b = before ++ i :: after)
    (hload : f.instr i = .load (.inst s.alloc)) :
    resolve g phis (b :: path) (subst i) = content f g phis subst s (b :: path) before := by
  have hpl := h.ready.slots.placed s hs
  have hblks : f.liveBlocks ≠ [] := by
    obtain ⟨c, hc, -⟩ := mem_flatMap.mp (h.inserted.mem_liveInsts.mpr hpl)
    exact ne_nil_of_mem (h.inserted.liveBlocks ▸ hc)
  have hb := hf.mem_liveBlocks_of_reachable hblks (Func.exists_path_iff.mp ⟨path, hpath⟩)
  have hb' : b ∈ m.liveBlocks := h.inserted.liveBlocks.symm ▸ hb
  have hload' : m.instr i = .load (.inst s.alloc) := by
    rw [h.inserted.instr_of_mem h.formed.consistent (b := b) (by simp [hsplit]), hload]
  obtain ⟨l, hl, hnew⟩ := h.inserted.instsOf b
  rw [hsplit, ← append_assoc] at hl
  have hpath' : m.Path (b :: path) := by
    rw [Func.Path, h.inserted.edge_eq h.formed]
    exact hpath
  obtain ⟨vb, hvb⟩ := Option.isSome_iff_exists.mp (h.all b hb')
  have hval := h.walk.loads b vb hvb _ i after hl s.alloc (mem_map_of_mem hs) hload'
  rw [h.walk.resolve_eq_content h.ready h.all hs hpath' hl ?_ hval]
  · refine h.inserted.content_eq (b := b) h.formed.consistent s _ hnew fun j hj => ?_
    rw [hsplit]
    exact mem_append_left _ hj
  · intro j hj hphi
    -- phis come before the load
    rw [hl, mem_append] at hj
    refine hj.resolve_right fun hj => ?_
    have hjphi : (m.instr j).isPhi := by rw [(h.ready.phi j _ hphi).2.1]; rfl
    have hiphi : (m.instr i).isPhi := by
      rcases mem_cons.mp hj with rfl | hj
      · exact hjphi
      · have hfirst := h.inserted.phis_first b hb'
        rw [hl, pairwise_append, pairwise_cons] at hfirst
        exact hfirst.2.1.1 j hj hjphi
    rw [hload'] at hiphi
    exact Bool.false_ne_true hiphi

/-- On every path to a load of a promoted slot, what replaces the load stands for the value that the
path stored last, or for zero if it stored none. -/
theorem resolve_load_eq_content (hf : f.Ssa) {entry : BlockId} (hentry : f.entry? = some entry)
    (hpreds : ∀ b, ¬ f.Edge b entry) (events : List Event) :
    ∃ f₁, analyses { func := f, events } = .ok () { func := f₁, events } ∧
      ∀ ss, slots f₁ = .ok ss → ss ≠ [] →
        ∃ phis foldable w₂ w₃ subst, insertPhis ss { func := f₁, events } = .ok phis w₂ ∧
          rename ss phis w₂ = .ok foldable w₃ ∧
          (∀ i, f₁.placed i = true → accesses ss (f₁.instr i) = false →
            w₃.func.instr i = (f₁.instr i).mapOperands (Operand.rename subst)) ∧
          (∀ i, loadsSlot ss (f₁.instr i) = false → subst i = .inst i) ∧
          ∀ s ∈ ss, (f₁.instr s.alloc = .alloc s.ty ∧ Constant.zero? s.ty = some s.zero) ∧
            ∀ b path, f₁.Path (b :: path) → ∀ before i after,
              f₁.instsOf b = before ++ i :: after → f₁.instr i = .load (.inst s.alloc) →
              resolve w₃.func phis (b :: path) (subst i) =
                content f₁ w₃.func phis subst s (b :: path) before := by
  obtain ⟨f₁, hanalyses, hanalyzed, hssa, -⟩ := analyses_eq_ok hf hentry hpreds events
  refine ⟨f₁, hanalyses, fun ss hslots hne => ?_⟩
  obtain ⟨phis, foldable, w₂, w₃, start, out, subst, hphis, hrename, h⟩ :=
    exists_renamed hanalyzed hssa hslots hne events
  refine ⟨phis, foldable, w₂, w₃, subst, hphis, hrename, fun i hi haccess => h.instr_eq hi haccess,
    fun i hi => h.subst_eq hi, fun s hs => ⟨⟨?_, ?_⟩, fun b path hpath before i after hsplit hload => ?_⟩⟩
  · exact (slots_of_eq_ok hslots h.formed).instr s hs
  · exact (map_slot_of_slots hslots).2 s hs
  · exact h.resolve_eq_content hanalyzed hs hpath hsplit hload

/-- The path that runs the loop of `counter` twice. -/
theorem resolve_load_counter : ∃ phis foldable w₂ w₃ subst,
    insertPhis [⟨⟨0⟩, .i32, .int 0⟩] { func := analyzed counter } = .ok phis w₂ ∧
      rename [⟨⟨0⟩, .i32, .int 0⟩] phis w₂ = .ok foldable w₃ ∧
      resolve w₃.func phis [⟨2⟩, ⟨1⟩, ⟨1⟩, ⟨0⟩] (subst ⟨6⟩) =
        content (analyzed counter) w₃.func phis subst ⟨⟨0⟩, .i32, .int 0⟩ [⟨2⟩, ⟨1⟩, ⟨1⟩, ⟨0⟩] [] := by
  have hentry : counter.entry? = some ⟨0⟩ := by decide +kernel
  obtain ⟨f₁, hanalyses, h⟩ := resolve_load_eq_content ssa_counter hentry not_edge_counter []
  obtain rfl : analyzed counter = f₁ := by rw [analyzed, hanalyses]
  obtain ⟨phis, foldable, w₂, w₃, subst, hphis, hrename, -, -, hslot⟩ :=
    h [⟨⟨0⟩, .i32, .int 0⟩] (by decide +kernel) (cons_ne_nil _ _)
  have hedge (b c : BlockId) (h : b ∈ (analyzed counter).liveBlocks ∧
      c ∈ (analyzed counter).liveTargets b) : (analyzed counter).Edge b c := h
  have hpath : (analyzed counter).Path [⟨2⟩, ⟨1⟩, ⟨1⟩, ⟨0⟩] :=
    .step (.step (.step .root (hedge ⟨0⟩ ⟨1⟩ (by decide +kernel))) (hedge ⟨1⟩ ⟨1⟩ (by decide +kernel)))
      (hedge ⟨1⟩ ⟨2⟩ (by decide +kernel))
  refine ⟨phis, foldable, w₂, w₃, subst, hphis, hrename, ?_⟩
  exact (hslot _ (mem_singleton_self _)).2 ⟨2⟩ _ hpath [] ⟨6⟩ [⟨7⟩] (by decide +kernel)
    (by decide +kernel)

end Promotion

end MiddleEnd
