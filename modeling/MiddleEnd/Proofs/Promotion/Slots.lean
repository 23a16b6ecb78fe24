import MiddleEnd.Promotion
import MiddleEnd.Proofs.History
import MiddleEnd.Proofs.Ssa
import MiddleEnd.Proofs.Transform

/-!
# Slots that can be promoted

Promotion begins with analyses, which succeed on functions in SSA form.  A slot that is promoted is
loaded from and stored to and not used in any other way, so its address is in no other place of the
function.  The blocks where it gets a phi are closed under dominance frontiers: where dominance of a
block that stores to the slot or has a phi for it ends, there is a phi for it.
-/

namespace MiddleEnd.Promotion

open List Transform BlockId Func

variable {i : InstId} {t : Ty} {f : Func} {ss : List Slot} {b : BlockId}

/-! ## Analyses -/

/-- Recomputes edges and dominance and deletes the unreachable blocks. -/
def analyses : Transform Unit := do
  discard .connect
  discard .prune
  dominance

lemma analyses_of_ok {m g h : Func} {folded dead : List BlockId}
    (hconn : f.connect = (.ok folded, m)) (hprune : m.prune = (.ok dead, g))
    (hdominance : g.computeDominance = .ok h) (events : List Event) :
    analyses { func := f, events } = .ok () { func := h, events } := by
  have hedges : connect { func := f, events } = .ok folded { func := m, events } :=
    analyze_of_ok hconn
  have hblks : prune { func := m, events } = .ok dead { func := g, events } :=
    analyze_of_ok hprune
  rw [analyses, bind_of_ok (discard_of_ok hedges), bind_of_ok (discard_of_ok hblks)]
  exact analyze_of_ok (by rw [hdominance])

lemma analyses_eq_ok (hf : f.Ssa) {entry : BlockId} (hent : f.entry? = some entry)
    (hpreds : ∀ b, ¬ f.Edge b entry) (events : List Event) :
    ∃ g, analyses { func := f, events } = .ok () { func := g, events } ∧ g.Analyzed ∧ g.Ssa ∧
      ∀ i, g.placed i → f.placed i ∧
        ∃ keep, g.instr i = (f.instr i).filterEntries keep := by
  obtain ⟨hhas, rfl⟩ : f.hasBlock ⟨0⟩ ∧ entry = ⟨0⟩ := by
    rw [ entry?] at hent
    split at hent
    · cases hent
    · next hne =>
      refine ⟨(hasBlock_iff f).mpr (Nat.pos_of_ne_zero fun hzero => hne ?_),
        (Option.some.inj hent).symm⟩
      exact Array.isEmpty_iff_size_eq_zero.mpr hzero
  obtain ⟨folded, m, dead, g, hconn, hprune, hdominance, hanalyzed, hssa, hkept⟩ :=
    hf.analyze hhas hpreds
  exact ⟨g.withDominance, analyses_of_ok hconn hprune hdominance events, hanalyzed, hssa, hkept⟩

def analyzed (f : Func) : Func :=
  match analyses { func := f } with
  | .ok _ w => w.func
  | .error _ w => w.func

def counter : Func :=
  Edit.applyAll (.new "count" .i32 [.i1])
    [.addBlock "entry", .addBlock "loop", .addBlock "exit",
      .append ⟨0⟩ (.alloc .i32) (.pointer .i32),
      .append ⟨0⟩ (.jump (some ⟨1⟩)) .void,
      .append ⟨1⟩ (.load (.inst ⟨0⟩)) .i32,
      .append ⟨1⟩ (.binary .add (.inst ⟨2⟩) (.int 1)) .i32,
      .append ⟨1⟩ (.store (.inst ⟨3⟩) (.inst ⟨0⟩)) .void,
      .append ⟨1⟩ (.branch (.arg 0) ⟨1⟩ ⟨2⟩) .void,
      .append ⟨2⟩ (.load (.inst ⟨0⟩)) .i32,
      .append ⟨2⟩ (.ret (some (.inst ⟨6⟩))) .void]

lemma ssa_counter : counter.Ssa :=
  ssa_of_local (by cbv) (by decide +kernel)

lemma not_edge_counter (b : BlockId) : ¬ counter.Edge b ⟨0⟩ := by
  rintro ⟨hb, hedge⟩
  have hnone : ∀ c ∈ counter.liveBlocks, (⟨0⟩ : BlockId) ∉ counter.liveTargets c := by
    decide +kernel
  exact hnone b hb hedge

/-! ## Slots -/

lemma forall₂_of_mapM_eq_ok {ε α β : Type} {k : α → Except ε β} {xs : List α} {ys : List β}
    (h : xs.mapM k = .ok ys) : List.Forall₂ (fun x y => k x = .ok y) xs ys := by
  induction xs generalizing ys with
  | nil =>
    obtain rfl : [] = ys := Except.ok.inj h
    exact .nil
  | cons x xs ih =>
    rw [mapM_cons] at h
    cases hx : k x with
    | error e =>
      rw [hx] at h
      cases h
    | ok y =>
      rw [hx] at h
      cases hxs : xs.mapM k with
      | error e =>
        rw [hxs] at h
        cases h
      | ok zs =>
        rw [hxs] at h
        obtain rfl : y :: zs = ys := Except.ok.inj h
        exact .cons hx (ih hxs)

/-- The slot that a load or store names as its address. -/
def accessed? : Instr → Option InstId
  | .load (.inst s) => some s
  | .store _ (.inst s) => some s
  | _ => none

/-- Slots that are in no place but the address of a load or store. -/
structure Slots (f : Func) (ss : List Slot) : Prop where
  nodup : (ss.map Slot.alloc).Nodup
  placed : ∀ s ∈ ss, f.placed s.alloc
  instr : ∀ s ∈ ss, f.instr s.alloc = .alloc s.ty
  access : ∀ s ∈ ss, ∀ u, f.placed u → .inst s.alloc ∈ (f.instr u).operands →
    isAccess s.alloc (f.instr u)

lemma promotable?_eq_some : promotable? f i = some t ↔
    f.instr i = .alloc t ∧ t.isArray = false ∧ ∀ u ∈ (f.inst i).users, isAccess i (f.instr u) := by
  rw [promotable?]
  cases f.instr i with
  | alloc t' =>
    simp only [Instr.alloc.injEq]
    split
    · next h =>
      obtain ⟨harray, husers⟩ := by simpa using h
      rw [Option.some.injEq]
      constructor
      · rintro rfl
        exact ⟨rfl, harray, husers⟩
      · exact fun h => h.1
    · next h =>
      refine iff_of_false (by simp) ?_
      rintro ⟨rfl, harray, husers⟩
      exact h (by simpa [harray] using husers)
  | _ => simp

lemma slotOf_eq_ok {s : Slot} (h : slotOf f i t = .ok s) :
    s.alloc = i ∧ s.ty = t ∧ Constant.zero? t = some s.zero := by
  unfold slotOf at h
  split at h
  · grind
  · cases h

lemma map_slot_of_slots (h : slots f = .ok ss) :
    ss.map (fun s => (s.alloc, s.ty)) =
        f.liveInsts.filterMap (fun i => (promotable? f i).map (i, ·)) ∧
      ∀ s ∈ ss, Constant.zero? s.ty = some s.zero := by
  have hall := forall₂_of_mapM_eq_ok h
  generalize f.liveInsts.filterMap (fun i => (promotable? f i).map (i, ·)) = candidates at hall ⊢
  clear h
  induction hall with
  | nil => exact ⟨rfl, nofun⟩
  | cons hslot _ ih =>
    obtain ⟨halloc, hty, hzero⟩ := slotOf_eq_ok hslot
    refine ⟨by rw [map_cons, ih.1, halloc, hty], fun t ht => ?_⟩
    rcases mem_cons.mp ht with rfl | ht
    · rw [hty, hzero]
    · exact ih.2 t ht

lemma mem_slots_iff (h : slots f = .ok ss) (hf : f.Consistent) :
    (∃ s ∈ ss, s.alloc = i ∧ s.ty = t) ↔ f.placed i ∧ promotable? f i = some t := by
  have hmem : (∃ s ∈ ss, s.alloc = i ∧ s.ty = t) ↔
      (i, t) ∈ ss.map fun s => (s.alloc, s.ty) := by
    simp [mem_map]
  rw [hmem, (map_slot_of_slots h).1, mem_filterMap]
  simp only [Option.map_eq_some_iff, Prod.mk.injEq]
  constructor
  · rintro ⟨j, hj, t', ht, rfl, rfl⟩
    exact ⟨hf.mem_liveInsts.mp hj, ht⟩
  · rintro ⟨hpl, ht⟩
    exact ⟨i, hf.mem_liveInsts.mpr hpl, t, ht, rfl, rfl⟩

lemma slots_of_eq_ok (h : slots f = .ok ss) (hf : f.Formed) : Slots f ss := by
  have hslot {s : Slot} (hs : s ∈ ss) := (mem_slots_iff h hf.consistent).mp ⟨s, hs, rfl, rfl⟩
  refine ⟨?_, fun s hs => (hslot hs).1, fun s hs => (promotable?_eq_some.mp (hslot hs).2).1,
    fun s hs u hu huse => ?_⟩
  · have hfst : ss.map Slot.alloc = f.liveInsts.filterMap fun i => (promotable? f i).map
      fun _ => i := by
      have hmap := congrArg (List.map Prod.fst) (map_slot_of_slots h).1
      rw [map_filterMap] at hmap
      simpa [Function.comp_def] using hmap
    rw [hfst]
    refine hf.nodup_liveInsts.filterMap fun i j k hi hj => ?_
    obtain ⟨_, _, rfl⟩ := Option.map_eq_some_iff.mp hi
    obtain ⟨_, _, rfl⟩ := Option.map_eq_some_iff.mp hj
    rfl
  · have hlive := Func.Formed.live_of_placed (hslot hs).1
    have hcnt := hf.uses (.inst s.alloc) (f.hasInst_of_live hlive) hlive u
    rw [if_pos hu] at hcnt
    have hpos : 0 < (f.users (.inst s.alloc)).count u := by
      rw [hcnt]
      exact count_pos_iff.mpr huse
    exact (promotable?_eq_some.mp (hslot hs).2).2.2 u (count_pos_iff.mp hpos)

namespace Slots

variable {a u : InstId}

variable (hs : Slots f ss) (ha : a ∈ ss.map Slot.alloc)
include hs ha

lemma accessed?_eq_some (hu : f.placed u)
    (huse : .inst a ∈ (f.instr u).operands) : accessed? (f.instr u) = some a := by
  obtain ⟨s, hmem, rfl⟩ := mem_map.mp ha
  have hacc := hs.access s hmem u hu huse
  cases hk : f.instr u with
  | load p =>
    rw [hk] at hacc
    obtain rfl : p = .inst s.alloc := by simpa [isAccess] using hacc
    rfl
  | store v p =>
    rw [hk] at hacc
    obtain ⟨rfl, -⟩ : p = .inst s.alloc ∧ v ≠ .inst s.alloc := by simpa [isAccess] using hacc
    rfl
  | _ =>
    rw [hk] at hacc
    exact absurd hacc Bool.false_ne_true

lemma value_ne (hu : f.placed u) {v p : Operand} (hk : f.instr u = .store v p) :
    v ≠ .inst a := by
  rintro rfl
  obtain ⟨s, hmem, rfl⟩ := mem_map.mp ha
  have hacc := hs.access s hmem u hu (by simp [hk, Instr.operands])
  rw [hk] at hacc
  simp [isAccess] at hacc

lemma instr_of_mem : ∃ t, f.instr a = .alloc t := by
  obtain ⟨s, hmem, rfl⟩ := mem_map.mp ha
  exact ⟨s.ty, hs.instr s hmem⟩

end Slots

/-! ## Blocks with a phi -/

def StoresTo (f : Func) (a : InstId) (b : BlockId) : Prop :=
  ∃ i ∈ f.instsOf b, ∃ v, f.instr i = .store v (.inst a)

lemma mem_storingBlocks (hf : f.Formed) {a : InstId} (ha : f.placed a)
    (hb : b ∈ f.liveBlocks) (h : StoresTo f a b) : b.idx ∈ storingBlocks f a := by
  obtain ⟨i, hi, v, hk⟩ := h
  have hlive := Func.Formed.live_of_placed ha
  have hcnt := hf.uses (.inst a) (f.hasInst_of_live hlive) hlive i
  rw [if_pos (hf.placed_of_mem hb hi), hk] at hcnt
  have huser : i ∈ f.users (.inst a) := by
    rw [← count_pos_iff, hcnt]
    simp [Instr.operands]
  refine mem_map.mpr ⟨i, mem_filter.mpr ⟨huser, by rw [hk]; rfl⟩, ?_⟩
  rw [hf.block_of_mem hi]

lemma getD_frontiers (f : Func) (n : Nat) :
    (f.blocks.map fun b => b.dominance.frontier.map BlockId.idx).getD n [] =
      (f.block ⟨n⟩).dominance.frontier.map BlockId.idx := by
  simp only [Func.block, Array.getD_eq_getD_getElem?, Array.getElem?_map]
  cases f.blocks[n]? <;> rfl

lemma mem_map_idx {bs : List BlockId} {n : Nat} : n ∈ bs.map BlockId.idx ↔ ⟨n⟩ ∈ bs := by
  rw [mem_map]
  constructor
  · rintro ⟨b, hb, rfl⟩
    exact hb
  · exact fun h => ⟨⟨n⟩, h, rfl⟩

lemma mem_phiBlocks {a : InstId} : b ∈ phiBlocks f a ↔
    (Graph.iteratedFrontier (f.blocks.map fun b => b.dominance.frontier.map idx)
      (storingBlocks f a)).contains b.idx := by
  rw [phiBlocks, mem_map_mk, BitSet.mem_toList]

lemma nodup_phiBlocks (f : Func) (a : InstId) : (phiBlocks f a).Nodup :=
  nodup_map_mk (BitSet.nodup_toList _)

lemma phiBlocks_closed (hf : f.Analyzed) (a : InstId) :
    (∀ b, b.idx ∈ storingBlocks f a ∨ b ∈ phiBlocks f a →
        ∀ c ∈ (f.block b).dominance.frontier, c ∈ phiBlocks f a) ∧
      ∀ c ∈ phiBlocks f a, c ∈ f.liveBlocks ∧ ∃ p, f.Edge p c := by
  have hnd (n : Nat) : ((f.blocks.map fun b => b.dominance.frontier.map idx).getD n
      []).Nodup := by
    rw [getD_frontiers]
    refine (hf.nodup_frontier ⟨n⟩).map fun b c h => ?_
    exact equiv.injective h
  have hrange (n : Nat) : ∀ y ∈ (f.blocks.map fun b => b.dominance.frontier.map idx).getD n
      [], y < (f.blocks.map fun b => b.dominance.frontier.map idx).size := by
    intro y hy
    rw [getD_frontiers, mem_map_idx] at hy
    have hlive := (hf.frontier ⟨n⟩ ⟨y⟩ hy).1
    rw [Array.size_map]
    exact (hasBlock_iff f).mp (hf.mem_liveBlocks.mp hlive).1
  refine ⟨fun b hb c hc => ?_, fun c hc => ?_⟩
  · rw [mem_phiBlocks]
    refine Graph.mem_iteratedFrontier hnd hrange _ (hb.imp_right mem_phiBlocks.mp) ?_
    rw [getD_frontiers, mem_map_idx]
    exact hc
  · refine Graph.iteratedFrontier_least hnd hrange (storingBlocks f a)
      (fun y => (⟨y⟩ : BlockId) ∈ f.liveBlocks ∧ ∃ p, f.Edge p ⟨y⟩) (fun n _ y hy => ?_)
      (mem_phiBlocks.mp hc)
    rw [getD_frontiers, mem_map_idx] at hy
    exact hf.frontier ⟨n⟩ ⟨y⟩ hy

end MiddleEnd.Promotion
