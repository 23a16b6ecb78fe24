import Mathlib.Data.Finset.Sort
import Mathlib.Data.Finset.Lattice.Basic
import MiddleEnd.Proofs.BitSet

/-!
# Bit sets as finite sets

The same operations run on bit sets and on finite sets of numbers.  Their runs agree, with all the
changes they report, and what is read off a bit set is what holds of its members.
-/

namespace MiddleEnd

/-- Sets of indices with a capacity.  The operations that can fail say whether the set changed. -/
structure SetModel (σ : Type) where
  empty : Nat → σ
  full : Nat → σ
  clear : σ → σ
  insert : σ → Nat → Option (Bool × σ)
  erase : σ → Nat → Option (Bool × σ)
  union : σ → σ → Option (Bool × σ)
  inter : σ → σ → Option (Bool × σ)

/-- Operations on sets that are numbered in the order of their creation. -/
inductive SetOp
  | empty (capacity : Nat)
  | full (capacity : Nat)
  | clone (k : Nat)
  | clear (k : Nat)
  | insert (k i : Nat)
  | erase (k i : Nat)
  | union (k l : Nat)
  | inter (k l : Nat)

namespace SetModel

variable {σ τ : Type}

/-- One operation, with the change it reports. -/
def step (m : SetModel σ) (sets : List σ) : SetOp → Option (Option Bool × List σ)
  | .empty capacity => some (none, sets ++ [m.empty capacity])
  | .full capacity => some (none, sets ++ [m.full capacity])
  | .clone k => sets[k]?.map fun s => (none, sets ++ [s])
  | .clear k => sets[k]?.map fun s => (none, sets.set k (m.clear s))
  | .insert k i => update k (m.insert · i)
  | .erase k i => update k (m.erase · i)
  | .union k l => sets[l]?.bind fun t => update k (m.union · t)
  | .inter k l => sets[l]?.bind fun t => update k (m.inter · t)
where
  update (k : Nat) (f : σ → Option (Bool × σ)) : Option (Option Bool × List σ) :=
    (sets[k]?.bind f).map fun (changed, s) => (some changed, sets.set k s)

/-- Operations one after the other.  The first one that fails ends the run. -/
def run (m : SetModel σ) : List σ → List SetOp → Option (List (Option Bool) × List σ)
  | sets, [] => some ([], sets)
  | sets, op :: ops => do
    let (changed, sets) ← m.step sets op
    let (changes, sets) ← m.run sets ops
    return (changed :: changes, sets)

/-- The operations of `m` do to the views of sets what those of `m'` do. -/
structure Refines (m : SetModel σ) (m' : SetModel τ) (view : σ → τ) : Prop where
  empty (n : Nat) : view (m.empty n) = m'.empty n
  full (n : Nat) : view (m.full n) = m'.full n
  clear (s : σ) : view (m.clear s) = m'.clear (view s)
  insert (s : σ) (i : Nat) : (m.insert s i).map (Prod.map id view) = m'.insert (view s) i
  erase (s : σ) (i : Nat) : (m.erase s i).map (Prod.map id view) = m'.erase (view s) i
  union (s t : σ) : (m.union s t).map (Prod.map id view) = m'.union (view s) (view t)
  inter (s t : σ) : (m.inter s t).map (Prod.map id view) = m'.inter (view s) (view t)

namespace Refines

variable {m : SetModel σ} {m' : SetModel τ} {view : σ → τ} (h : m.Refines m' view)
include h

lemma step (sets : List σ) (op : SetOp) :
    (m.step sets op).map (Prod.map id (List.map view)) = m'.step (sets.map view) op := by
  have hupdate (k : Nat) {f : σ → Option (Bool × σ)} {f' : τ → Option (Bool × τ)}
      (hf : ∀ s, (f s).map (Prod.map id view) = f' (view s)) :
      (step.update sets k f).map (Prod.map id (List.map view)) =
        step.update (sets.map view) k f' := by
    rw [step.update, step.update, List.getElem?_map]
    cases sets[k]? with
    | none => rfl
    | some s =>
      rw [Option.map_some, Option.bind_some, Option.bind_some, ← hf]
      cases f s <;> simp
  cases op with
  | empty n => simp [SetModel.step, h.empty]
  | full n => simp [SetModel.step, h.full]
  | clone k => cases hk : sets[k]? <;> simp [SetModel.step, hk]
  | clear k => cases hk : sets[k]? <;> simp [SetModel.step, hk, h.clear]
  | insert k i => exact hupdate k (h.insert · i)
  | erase k i => exact hupdate k (h.erase · i)
  | union k l =>
    cases hl : sets[l]? with
    | none => simp [SetModel.step, hl]
    | some t => simpa [SetModel.step, hl] using hupdate k (h.union · t)
  | inter k l =>
    cases hl : sets[l]? with
    | none => simp [SetModel.step, hl]
    | some t => simpa [SetModel.step, hl] using hupdate k (h.inter · t)

lemma run (sets : List σ) (ops : List SetOp) :
    (m.run sets ops).map (Prod.map id (List.map view)) = m'.run (sets.map view) ops := by
  induction ops generalizing sets with
  | nil => rfl
  | cons op ops ih =>
    rw [SetModel.run, SetModel.run, ← h.step]
    cases m.step sets op with
    | none => rfl
    | some r =>
      simp only [Option.map_some, Option.bind_eq_bind, Option.bind_some, Prod.map, id, ← ih]
      cases m.run r.2 ops <;> rfl

end Refines

end SetModel

/-! ## Members -/

def BitSet.model : SetModel BitSet where
  empty := BitSet.empty
  full := BitSet.full
  clear := BitSet.clear
  insert s i := (s.insert? i).toOption
  erase s i := (s.erase? i).toOption
  union s t := (s.union? t).toOption
  inter s t := (s.inter? t).toOption

/-- Finite sets beside their capacity. -/
def finsetModel : SetModel (Nat × Finset Nat) where
  empty n := (n, ∅)
  full n := (n, Finset.range n)
  clear s := (s.1, ∅)
  insert s i := become s (i < s.1) (insert i s.2)
  erase s i := become s (i < s.1) (s.2.erase i)
  union s t := become s (t.1 = s.1) (s.2 ∪ t.2)
  inter s t := become s (t.1 = s.1) (s.2 ∩ t.2)
where
  /-- The new members, where the operation is allowed. -/
  become (s : Nat × Finset Nat) (allowed : Prop) [Decidable allowed] (new : Finset Nat) :
      Option (Bool × Nat × Finset Nat) :=
    if allowed then some (new ≠ s.2, s.1, new) else none

namespace BitSet

variable {s t : BitSet} {i : Nat}

def members (s : BitSet) : Finset Nat :=
  (Finset.range s.capacity).filter (s.contains ·)

@[simp]
lemma mem_members : i ∈ s.members ↔ s.contains i := by
  simp only [members, Finset.mem_filter, Finset.mem_range, and_iff_right_iff_imp]
  exact lt_of_contains

lemma members_inj (h : s.capacity = t.capacity) : s.members = t.members ↔ s = t := by
  constructor
  · intro heq
    refine ext h fun i => Bool.eq_iff_iff.mpr ?_
    rw [← mem_members, heq, mem_members]
  · exact congrArg members

/-- Sets of one capacity differ when their words do. -/
lemma words_inj (h : s.capacity = t.capacity) : s.words = t.words ↔ s.members = t.members := by
  rw [members_inj h]
  constructor
  · intro heq
    exact ext h fun i => by rw [contains_eq_bit, contains_eq_bit, heq]
  · exact congrArg words

@[simp]
lemma members_empty (n : Nat) : (empty n).members = ∅ := by
  ext i
  simp

/-- An operation that may fail agrees where it is allowed and reports whether the members change. -/
lemma map_toOption {r : Except Error (Bool × BitSet)} {allowed : Prop} [Decidable allowed]
    {changed : Bool} {t : BitSet} {new : Finset Nat}
    (hr : r = if allowed then .ok (changed, t) else .error .outOfRange)
    (hcap : t.capacity = s.capacity) (hnew : allowed → t.members = new)
    (hchanged : changed = decide (new ≠ s.members)) :
    r.toOption.map (Prod.map id fun s => (s.capacity, s.members)) =
      finsetModel.become (s.capacity, s.members) allowed new := by
  by_cases h : allowed
  · simp [hr, finsetModel.become, h, Except.toOption, hcap, hnew h, hchanged]
  · simp [hr, finsetModel.become, h, Except.toOption]

lemma refines_finsetModel : model.Refines finsetModel fun s => (s.capacity, s.members) where
  empty n := Prod.ext rfl (members_empty n)
  full n := Prod.ext rfl (Finset.ext fun i => by simp [model, finsetModel])
  clear s := Prod.ext rfl (members_empty s.capacity)
  insert s i := by
    refine map_toOption rfl rfl (fun hi => ?_) (by simp)
    ext j
    simp [show i < s.capacity from hi, or_comm]
  erase s i := by
    refine map_toOption rfl rfl (fun hi => ?_) (by simp)
    ext j
    by_cases hj : j = i <;> simp [erase, contains_put, show i < s.capacity from hi, hj]
  union s t := by
    by_cases h : t.capacity = s.capacity
    · have hmem : (s.union t h).members = s.members ∪ t.members := by
        ext j
        simp [contains_union]
      refine map_toOption (t := s.union t h) ((dif_pos h).trans (if_pos h).symm) rfl (fun _ => hmem) ?_
      exact decide_eq_decide.mpr (not_congr (hmem ▸ words_inj rfl))
    · exact map_toOption (t := s) ((dif_neg h).trans (if_neg h).symm) rfl (absurd · h) rfl
  inter s t := by
    have hmem : (s.inter t).members = s.members ∩ t.members := by
      ext j
      simp [contains_inter]
    refine map_toOption (t := s.inter t) rfl rfl (fun _ => hmem) ?_
    exact decide_eq_decide.mpr (not_congr (hmem ▸ words_inj rfl))

/-- A run of operations gives the sets and reports the changes that finite sets would, and every
set tells of its members. -/
theorem run_agrees_with_finsets (ops : List SetOp) :
    (model.run [] ops).map (Prod.map id (List.map fun s => (s.capacity, s.members))) =
      finsetModel.run [] ops ∧
    ∀ s t : BitSet,
      (∀ i, s.contains i ↔ i ∈ s.members) ∧ s.members ⊆ Finset.range s.capacity ∧
      s.count = s.members.card ∧
      s.toList.Pairwise (· < ·) ∧ s.toList.toFinset = s.members ∧
      (s.capacity = t.capacity → (s = t ↔ s.members = t.members)) ∧
      (s.isEmpty ↔ s.members = ∅) ∧
      (s.isSubset t ↔ s.members ⊆ t.members) := by
  have hlist (s : BitSet) : s.toList.toFinset = s.members := by
    ext i
    simp
  refine ⟨refines_finsetModel.run [] ops, fun s t => ⟨fun i => mem_members.symm,
    Finset.filter_subset _ _, ?_, Words.pairwise_indices 0 s.words, hlist s,
    fun h => (members_inj h).symm, ?_, ?_⟩⟩
  · rw [count_eq_length, ← hlist, List.toFinset_card_of_nodup s.nodup_toList]
  · simp [isEmpty_iff, Finset.eq_empty_iff_forall_notMem]
  · simp [isSubset_iff, Finset.subset_iff]

example : (model.run [] [.full 70, .empty 70, .insert 1 64, .inter 0 1]).map
    (Prod.map id (List.map toList)) = some ([none, none, some true, some true], [[64], [64]]) := by
  decide +kernel

end BitSet

end MiddleEnd
