import Mathlib.Data.List.Perm.Subperm
import MiddleEnd.BitSet

/-!
# Members of bit sets

What the operations on bit sets do to their members, and how many members a set has.
-/

namespace MiddleEnd

open List

/-! ## Words -/

namespace Words

variable {words others : Words} {i start : Nat} {w : BitVec 64}

lemma bit_cons (w : BitVec 64) (words : Words) (i : Nat) :
    bit (w :: words) i = if i < 64 then w.getLsbD i else words.bit (i - 64) := by
  split
  · next hi => simp [bit, word, Nat.div_eq_of_lt hi, Nat.mod_eq_of_lt hi]
  · next hi =>
    have hdiv : i / 64 = (i - 64) / 64 + 1 := by omega
    have hmod : i % 64 = (i - 64) % 64 := by omega
    simp [bit, word, hdiv, hmod]

lemma ext (hlen : words.length = others.length) (h : ∀ i, words.bit i = others.bit i) :
    words = others := by
  induction words generalizing others with
  | nil => exact (length_eq_zero_iff.mp hlen.symm).symm
  | cons w words ih =>
    cases others with
    | nil => cases hlen
    | cons x others =>
      congr 1
      · refine BitVec.eq_of_getLsbD_eq fun i hi => ?_
        simpa [bit_cons, hi] using h i
      · exact ih (Nat.succ.inj hlen) fun i => by
          simpa only [bit_cons, Nat.not_lt.mpr (Nat.le_add_left 64 i), if_false, Nat.add_sub_cancel]
            using h (i + 64)

lemma isZero_iff : words.isZero ↔ ∀ i, words.bit i = false := by
  have hmake : words.isZero ↔ words = make words.length fun _ => 0#64 := by
    simp [isZero, make, eq_replicate_iff]
  rw [hmake]
  constructor
  · intro h i
    rw [h, bit_make]
    simp
  · exact fun h => ext (by simp [make]) fun i => by simp [h, bit_make]

lemma ctz_le (h : w.getLsbD i) : w.ctz.toNat ≤ i := by
  by_contra hlt
  rw [BitVec.getLsbD_false_of_lt_ctz (Nat.lt_of_not_le hlt)] at h
  cases h

/-- Subtracting one sets the bits below the lowest one and clears it. -/
lemma getLsbD_and_sub_one (hw : w ≠ 0#64) (i : Nat) :
    (w &&& (w - 1#64)).getLsbD i = (w.getLsbD i && decide (i ≠ w.ctz.toNat)) := by
  rw [BitVec.getLsbD_and, ← BitVec.not_neg, BitVec.getLsbD_not, BitVec.getLsbD_neg]
  cases hi : w.getLsbD i with
  | false => rfl
  | true =>
    have hlower : (∃ j < i, w.getLsbD j) ↔ i ≠ w.ctz.toNat := by
      constructor
      · rintro ⟨j, hj, hbit⟩ rfl
        exact Nat.not_le.mpr hj (ctz_le hbit)
      · intro hne
        exact ⟨_, Nat.lt_of_le_of_ne (ctz_le hi) hne.symm, BitVec.getLsbD_true_ctz_of_ne_zero hw⟩
    simp [BitVec.lt_of_getLsbD hi, hlower]

lemma mem_ofWord : i ∈ ofWord start w ↔ ∃ k, w.getLsbD k ∧ i = start + k := by
  fun_induction ofWord start w with
  | case1 => simp
  | case2 w hw ih =>
    have hlow := BitVec.getLsbD_true_ctz_of_ne_zero hw
    simp only [mem_cons, ih, getLsbD_and_sub_one hw]
    grind

lemma pairwise_ofWord (start : Nat) (w : BitVec 64) : (ofWord start w).Pairwise (· < ·) := by
  fun_induction ofWord start w with
  | case1 => exact .nil
  | case2 w hw ih =>
    refine .cons (fun i hi => ?_) ih
    obtain ⟨k, hk, rfl⟩ := mem_ofWord.mp hi
    rw [getLsbD_and_sub_one hw, Bool.and_eq_true, decide_eq_true_eq] at hk
    have hle := ctz_le hk.1
    omega

lemma length_ofWord (start : Nat) (w : BitVec 64) : (ofWord start w).length = w.cpop.toNat := by
  have hperm : ofWord start w ~ ((range 64).filter w.getLsbD).map (start + ·) := by
    refine (perm_ext_iff_of_nodup ((pairwise_ofWord start w).imp Nat.ne_of_lt) ?_).mpr fun i => ?_
    · exact Pairwise.map _ (fun _ _ h heq => h (Nat.add_left_cancel heq)) (nodup_range.filter _)
    · simp only [mem_ofWord, mem_map, mem_filter, mem_range]
      grind [BitVec.lt_of_getLsbD]
  have hcount (n : Nat) : w.cpopNatRec n 0 = ((range n).filter w.getLsbD).length := by
    induction n with
    | zero => rfl
    | succ n ih =>
      rw [BitVec.cpopNatRec_succ, BitVec.cpopNatRec_add, ih, range_succ, filter_append, length_append]
      cases h : w.getLsbD n <;> simp [h]
  rw [hperm.length_eq, length_map, BitVec.toNat_cpop, hcount]

lemma mem_indices : i ∈ indices start words ↔ ∃ k, words.bit k ∧ i = start + k := by
  induction words generalizing start with
  | nil => simp [indices, bit, word]
  | cons w words ih =>
    simp only [indices, mem_append, mem_ofWord, ih, bit_cons]
    constructor
    · rintro (⟨k, hk, rfl⟩ | ⟨k, hk, rfl⟩)
      · exact ⟨k, by rwa [if_pos (BitVec.lt_of_getLsbD hk)], rfl⟩
      · exact ⟨64 + k, by simpa using hk, Nat.add_assoc ..⟩
    · rintro ⟨k, hk, rfl⟩
      split at hk
      · exact .inl ⟨k, hk, rfl⟩
      · exact .inr ⟨k - 64, hk, by omega⟩

lemma pairwise_indices (start : Nat) (words : Words) : (indices start words).Pairwise (· < ·) := by
  induction words generalizing start with
  | nil => exact .nil
  | cons w words ih =>
    refine pairwise_append.mpr ⟨pairwise_ofWord start w, ih _, fun i hi j hj => ?_⟩
    obtain ⟨k, hk, rfl⟩ := mem_ofWord.mp hi
    obtain ⟨l, -, rfl⟩ := mem_indices.mp hj
    have := BitVec.lt_of_getLsbD hk
    omega

lemma length_indices (start : Nat) (words : Words) (n : Nat) :
    words.foldl (fun n w => n + w.cpop.toNat) n = n + (indices start words).length := by
  induction words generalizing start n with
  | nil => rfl
  | cons w words ih => rw [foldl_cons, ih (start + 64), indices, length_append, length_ofWord, Nat.add_assoc]

end Words

namespace BitSet

variable {s t : BitSet} {i : Nat}

/-! ## Members -/

@[simp]
lemma capacity_insert (s : BitSet) (i : Nat) : (s.insert i).capacity = s.capacity := rfl

lemma contains_eq_bit (s : BitSet) (i : Nat) : s.contains i = s.words.bit i := by
  rw [contains, Bool.and_eq_right_iff_imp, decide_eq_true_eq]
  exact s.lt_of_bit i

lemma lt_of_contains (h : s.contains i) : i < s.capacity :=
  s.lt_of_bit i (s.contains_eq_bit i ▸ h)

lemma div_lt_length (h : s.words.bit i) : i / 64 < s.words.length := by
  have hi := s.lt_of_bit i h
  rw [s.length_words]
  omega

@[simp]
lemma contains_empty (capacity i : Nat) : (empty capacity).contains i = false := by
  simp [contains, empty, Words.bit_make]

@[simp]
lemma contains_full (capacity i : Nat) : (full capacity).contains i = decide (i < capacity) := by
  rw [Bool.eq_iff_iff, decide_eq_true_eq]
  refine ⟨lt_of_contains, fun hi => ?_⟩
  rw [contains_eq_bit, full, Words.bit_make, Bool.and_eq_true, decide_eq_true_eq]
  refine ⟨by omega, ?_⟩
  split
  · rw [BitVec.getLsbD_setWidth, BitVec.getLsbD_allOnes, ← Bool.decide_and, decide_eq_true_eq]
    omega
  · rw [BitVec.getLsbD_allOnes, decide_eq_true_eq]
    omega

lemma contains_put (s : BitSet) (i : Nat) (value : Bool) (j : Nat) :
    (s.put i value).contains j = if j = i ∧ i < s.capacity then value else s.contains j := by
  rw [contains_eq_bit, contains_eq_bit, put]
  split
  · next hi =>
    rw [Words.bit_put (by rw [s.length_words]; omega)]
    simp [hi]
  · next hi => simp [hi]

@[simp]
lemma contains_insert (s : BitSet) (i j : Nat) :
    (s.insert i).contains j = (s.contains j || decide (j = i ∧ i < s.capacity)) := by
  rw [insert, contains_put]
  split <;> simp [*]

lemma contains_inter (s t : BitSet) (i : Nat) :
    (s.inter t).contains i = (s.contains i && t.contains i) := by
  rw [contains_eq_bit, contains_eq_bit, contains_eq_bit, inter, Words.bit_combine,
    BitVec.getLsbD_and, ← Words.bit, ← Words.bit, Bool.and_eq_right_iff_imp, decide_eq_true_eq,
    Bool.and_eq_true]
  exact fun h => div_lt_length h.1

lemma contains_union (h : t.capacity = s.capacity) (i : Nat) :
    (s.union t h).contains i = (s.contains i || t.contains i) := by
  rw [contains_eq_bit, contains_eq_bit, contains_eq_bit, union, Words.bit_combine,
    BitVec.getLsbD_or, ← Words.bit, ← Words.bit, Bool.and_eq_right_iff_imp, decide_eq_true_eq,
    Bool.or_eq_true]
  have hlen : t.words.length = s.words.length := by rw [s.length_words, t.length_words, h]
  exact fun h => h.elim div_lt_length fun ht => hlen ▸ div_lt_length ht

lemma ext (hcap : s.capacity = t.capacity)
    (h : ∀ i, s.contains i = t.contains i) : s = t := by
  have hwords : s.words = t.words := by
    refine Words.ext (by rw [s.length_words, t.length_words, hcap]) fun i => ?_
    rw [← contains_eq_bit, ← contains_eq_bit, h]
  cases s
  cases t
  cases hcap
  cases hwords
  rfl

@[simp]
lemma mem_toList : i ∈ s.toList ↔ s.contains i := by
  simp [toList, Words.mem_indices, contains_eq_bit]

lemma nodup_toList (s : BitSet) : s.toList.Nodup :=
  (Words.pairwise_indices 0 s.words).imp Nat.ne_of_lt

lemma isEmpty_iff : s.isEmpty ↔ ∀ i, s.contains i = false := by
  simp only [isEmpty, Words.isZero_iff, contains_eq_bit]

lemma isEmpty_eq_false_iff : s.isEmpty = false ↔ ∃ i, s.contains i := by
  rw [← Bool.not_eq_true, isEmpty_iff]
  simp

lemma isSubset_iff : s.isSubset t ↔ ∀ i, s.contains i → t.contains i := by
  simp only [isSubset, Words.isZero_iff, Words.bit_combine, contains_eq_bit]
  refine forall_congr' fun i => ?_
  rw [BitVec.getLsbD_and, BitVec.getLsbD_not, ← Words.bit, ← Words.bit]
  cases hs : s.words.bit i with
  | false => simp
  | true =>
    simp [div_lt_length hs, Nat.mod_lt]

/-! ## Number of members -/

lemma count_eq_length (s : BitSet) : s.count = s.toList.length :=
  (Words.length_indices 0 s.words 0).trans (Nat.zero_add _)

lemma count_le_capacity (s : BitSet) : s.count ≤ s.capacity := by
  have hsub : s.toList ⊆ List.range s.capacity := fun i hi =>
    mem_range.mpr (lt_of_contains (mem_toList.mp hi))
  simpa [count_eq_length] using (s.nodup_toList.subperm hsub).length_le

lemma count_le_count (h : ∀ i, s.contains i → t.contains i) : s.count ≤ t.count := by
  rw [count_eq_length, count_eq_length]
  exact (s.nodup_toList.subperm fun i hi => mem_toList.mpr (h i (mem_toList.mp hi))).length_le

lemma count_insert (hi : i < s.capacity) (hnew : s.contains i = false) :
    (s.insert i).count = s.count + 1 := by
  have hperm : (s.insert i).toList.Perm (i :: s.toList) := by
    refine (perm_ext_iff_of_nodup (nodup_toList _) ?_).mpr fun j => ?_
    · exact nodup_cons.mpr ⟨by simp [hnew], s.nodup_toList⟩
    · simp only [mem_toList, contains_insert, mem_cons, Bool.or_eq_true, decide_eq_true_eq]
      tauto
  rw [count_eq_length, count_eq_length, hperm.length_eq, length_cons]

@[simp]
lemma count_empty (capacity : Nat) : (empty capacity).count = 0 := by
  rw [count_eq_length, length_eq_zero_iff, eq_nil_iff_forall_not_mem]
  simp

lemma contains_foldl_insert (is : List Nat) (s : BitSet) (j : Nat) :
    (is.foldl insert s).contains j = (s.contains j || decide (j ∈ is ∧ j < s.capacity)) := by
  induction is generalizing s with
  | nil => simp
  | cons i is ih =>
    rw [foldl_cons, ih, contains_insert, capacity_insert, Bool.or_assoc, ← Bool.decide_or]
    congr 1
    refine decide_eq_decide.mpr ?_
    constructor
    · grind
    · grind

lemma count_foldl_insert {is : List Nat} (hnd : is.Nodup)
    (hnew : ∀ i ∈ is, i < s.capacity ∧ s.contains i = false) :
    (is.foldl insert s).count = s.count + is.length := by
  induction is generalizing s with
  | nil => rfl
  | cons i is ih =>
    obtain ⟨hi, hnd⟩ := nodup_cons.mp hnd
    obtain ⟨hlt, hfresh⟩ := hnew i (.head _)
    rw [foldl_cons, ih hnd, count_insert hlt hfresh, length_cons]
    · omega
    · intro j hj
      obtain ⟨hjlt, hjnew⟩ := hnew j (.tail i hj)
      have hji : j ≠ i := fun heq => hi (heq ▸ hj)
      exact ⟨hjlt, by simp [hjnew, hji]⟩

lemma capacity_foldl_insert (is : List Nat) (s : BitSet) :
    (is.foldl insert s).capacity = s.capacity :=
  foldlRecOn (motive := fun t : BitSet => t.capacity = s.capacity) is _ rfl fun _ h _ _ => h

end BitSet

end MiddleEnd
