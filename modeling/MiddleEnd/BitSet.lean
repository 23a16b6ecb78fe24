import MiddleEnd.Error

/-!
# Bit sets

Sets of indices below a fixed capacity, one bit an index, in words of 64 bits.  The bits of the last
word beyond the capacity are clear, so that sets with the same members have the same words.
-/

namespace MiddleEnd

abbrev Words := List (BitVec 64)

namespace Words

/-- A word by its number.  Beyond the last one there are zeros. -/
def word (words : Words) (k : Nat) : BitVec 64 :=
  words.getD k 0#64

def bit (words : Words) (i : Nat) : Bool :=
  (words.word (i / 64)).getLsbD (i % 64)

/-- So many words, each from its number. -/
def make (n : Nat) (word : Nat → BitVec 64) : Words :=
  (List.range n).map word

theorem bit_make (n : Nat) (word : Nat → BitVec 64) (i : Nat) :
    (make n word).bit i = (decide (i / 64 < n) && (word (i / 64)).getLsbD (i % 64)) := by
  by_cases hk : i / 64 < n <;> simp [bit, Words.word, make, hk]

def put (words : Words) (i : Nat) (value : Bool) : Words :=
  let w := words.word (i / 64)
  let mask := BitVec.twoPow 64 (i % 64)
  words.set (i / 64) (if value then w ||| mask else w &&& ~~~ mask)

theorem bit_put {words : Words} {i : Nat} (hi : i / 64 < words.length) (value : Bool) (j : Nat) :
    (words.put i value).bit j = if j = i then value else words.bit j := by
  have hlt := Nat.mod_lt j (by decide : 64 > 0)
  by_cases hj : j = i
  · subst hj
    cases value <;> simp [bit, word, put, hi, hlt]
  · rw [if_neg hj]
    by_cases hk : i / 64 = j / 64
    · have hne : j % 64 ≠ i % 64 := by omega
      cases value <;> simp [bit, word, put, ← hk, hi, hne, hlt]
    · simp [bit, word, put, hk]

/-- Joins words one by one; missing ones are zero. -/
def combine (op : BitVec 64 → BitVec 64 → BitVec 64) : Words → Words → Words
  | [], _ => []
  | w :: words, others => op w (others.word 0) :: combine op words others.tail

theorem length_combine (op : BitVec 64 → BitVec 64 → BitVec 64) (words others : Words) :
    (combine op words others).length = words.length := by
  induction words generalizing others <;> simp [combine, *]

theorem bit_combine (op : BitVec 64 → BitVec 64 → BitVec 64) (words others : Words) (i : Nat) :
    (combine op words others).bit i = (decide (i / 64 < words.length) &&
      (op (words.word (i / 64)) (others.word (i / 64))).getLsbD (i % 64)) := by
  simp only [bit]
  generalize i / 64 = k
  induction words generalizing others k with
  | nil => simp [combine, word]
  | cons w words ih =>
    cases k with
    | zero => simp [combine, word]
    | succ k =>
      have htail : word others.tail k = others.word (k + 1) := by cases others <;> rfl
      have hrest := ih others.tail k
      rw [htail] at hrest
      simpa [combine, word] using hrest

def isZero (words : Words) : Bool :=
  words.all (· = 0#64)

/-- The indices of the bits of a word, the lowest first.  It is cleared to find the next one. -/
def ofWord (start : Nat) (w : BitVec 64) : List Nat :=
  if w = 0#64 then [] else (start + w.ctz.toNat) :: ofWord start (w &&& (w - 1#64))
termination_by w.toNat
decreasing_by
  calc (w &&& (w - 1#64)).toNat ≤ (w - 1#64).toNat := by
        rw [BitVec.toNat_and]
        exact Nat.and_le_right
    _ < w.toNat := by bv_omega

/-- The indices of all bits, where the first word starts at the index `start`. -/
def indices (start : Nat) : Words → List Nat
  | [] => []
  | w :: words => ofWord start w ++ indices (start + 64) words

end Words

structure BitSet where
  capacity : Nat
  words : Words
  length_words : words.length = (capacity + 63) / 64
  lt_of_bit : ∀ i, words.bit i → i < capacity
deriving DecidableEq

namespace BitSet

open Words

def empty (capacity : Nat) : BitSet where
  capacity
  words := make ((capacity + 63) / 64) fun _ => 0#64
  length_words := by simp [make]
  lt_of_bit i h := by simp [bit_make] at h

instance : Inhabited BitSet := ⟨empty 0⟩

/-- All indices below the capacity.  The rest of the last word is masked. -/
def full (capacity : Nat) : BitSet where
  capacity
  words := make ((capacity + 63) / 64) fun k =>
    if k = capacity / 64 then (BitVec.allOnes (capacity % 64)).setWidth 64 else BitVec.allOnes 64
  length_words := by simp [make]
  lt_of_bit i h := by
    rw [bit_make, Bool.and_eq_true, decide_eq_true_eq] at h
    obtain ⟨hi, h⟩ := h
    split at h
    · rw [BitVec.getLsbD_setWidth, BitVec.getLsbD_allOnes, Bool.and_eq_true] at h
      have := of_decide_eq_true h.2
      omega
    · omega

def contains (s : BitSet) (i : Nat) : Bool :=
  decide (i < s.capacity) && s.words.bit i

/-- Adds or removes an index.  Nothing happens beyond the capacity. -/
def put (s : BitSet) (i : Nat) (value : Bool) : BitSet where
  capacity := s.capacity
  words := if i < s.capacity then s.words.put i value else s.words
  length_words := by
    rw [← s.length_words]
    split <;> simp [Words.put]
  lt_of_bit j h := by
    split at h
    · next hi =>
      rw [bit_put (by rw [s.length_words]; omega)] at h
      split at h
      · next hij => exact hij ▸ hi
      · exact s.lt_of_bit j h
    · exact s.lt_of_bit j h

def insert (s : BitSet) (i : Nat) : BitSet :=
  s.put i true

def erase (s : BitSet) (i : Nat) : BitSet :=
  s.put i false

def clear (s : BitSet) : BitSet :=
  empty s.capacity

/-- The members in increasing order. -/
def toList (s : BitSet) : List Nat :=
  s.words.indices 0

def count (s : BitSet) : Nat :=
  s.words.foldl (fun n w => n + w.cpop.toNat) 0

def isEmpty (s : BitSet) : Bool :=
  s.words.isZero

/-- The members that also belong to `t`, which may have another capacity. -/
def inter (s t : BitSet) : BitSet where
  capacity := s.capacity
  words := s.words.combine (· &&& ·) t.words
  length_words := by rw [length_combine, s.length_words]
  lt_of_bit i h := by
    rw [bit_combine, BitVec.getLsbD_and, Bool.and_eq_true, Bool.and_eq_true] at h
    exact s.lt_of_bit i h.2.1

/-- Adds the members of a set of the same capacity. -/
def union (s t : BitSet) (h : t.capacity = s.capacity) : BitSet where
  capacity := s.capacity
  words := s.words.combine (· ||| ·) t.words
  length_words := by rw [length_combine, s.length_words]
  lt_of_bit i hi := by
    rw [bit_combine, BitVec.getLsbD_or, Bool.and_eq_true, Bool.or_eq_true] at hi
    exact hi.2.elim (s.lt_of_bit i) fun hi => h ▸ t.lt_of_bit i hi

def isSubset (s t : BitSet) : Bool :=
  isZero (s.words.combine (fun x y => x &&& ~~~ y) t.words)

/-- The members in braces. -/
def text (s : BitSet) : String :=
  "\x7b" ++ ", ".intercalate (s.toList.map toString) ++ "\x7d"

/-! ## Checked operations

These refuse an index beyond the capacity and sets of different capacities; they also say whether
the set has changed. -/

def insert? (s : BitSet) (i : Nat) : Except Error (Bool × BitSet) :=
  if i < s.capacity then .ok (!s.contains i, s.insert i) else .error .outOfRange

def erase? (s : BitSet) (i : Nat) : Except Error (Bool × BitSet) :=
  if i < s.capacity then .ok (s.contains i, s.erase i) else .error .outOfRange

def union? (s t : BitSet) : Except Error (Bool × BitSet) :=
  if h : t.capacity = s.capacity then .ok ((s.union t h).words ≠ s.words, s.union t h)
  else .error .outOfRange

def inter? (s t : BitSet) : Except Error (Bool × BitSet) :=
  if t.capacity = s.capacity then .ok ((s.inter t).words ≠ s.words, s.inter t)
  else .error .outOfRange

end BitSet

end MiddleEnd
