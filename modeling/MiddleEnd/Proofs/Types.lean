import Mathlib.Data.List.Nodup
import MiddleEnd.Proofs.Listing.Text
import MiddleEnd.Ty.Table

/-!
# Types and their texts

The text of a type can be read from left to right: a word, a type that is complete, and around it the
types of which only the beginning has been read.  Hence different types have different texts.

A table that grows by one type at a time, each after its parts, never changes what a number stands for.
-/

namespace MiddleEnd

open List

/-! ## Parts -/

namespace Ty

def parts : Ty → List Ty
  | pointer t | array _ t => [t]
  | function r ps => r :: ps
  | _ => []

end Ty

/-! ## Texts -/

namespace Ty

def ofWord (w : List Char) : Ty :=
  match String.ofList w with
  | "void" => void
  | "label" => label
  | "i1" => i1
  | "i8" => i8
  | "i32" => i32
  | _ => float

end Ty

/-! ## Tables -/

namespace TypeTable

/-- The second table has come from the first by entering types, each after its parts. -/
inductive Grows (table : TypeTable) : TypeTable → Prop
  | refl : Grows table table
  | enter {next : TypeTable} {t : Ty} (h : Grows table next)
    (ht : ∀ p ∈ t.parts, p ∈ next.entries) : Grows table (next.enter t)

variable {table next last : TypeTable} {t : Ty}

lemma Grows.trans (h : table.Grows next) (h' : next.Grows last) : table.Grows last := by
  induction h' with
  | refl => exact h
  | enter _ ht ih => exact ih.enter ht

lemma mem_entries_iff : t ∈ table.entries ↔ ∃ i, table.get? i = some t :=
  Array.mem_iff_getElem?

lemma mem_enter (table : TypeTable) (t : Ty) : t ∈ (table.enter t).entries := by
  unfold enter
  split
  · assumption
  · simp

lemma get?_enter (htable : t ∉ table.entries) (i : Nat) :
    (table.enter t).get? i = if i = table.size then some t else table.get? i := by
  rw [enter, if_neg htable]
  exact Array.getElem?_push

lemma Grows.get?_eq_some (h : table.Grows next) {i : Nat} (ht : table.get? i = some t) :
    next.get? i = some t := by
  induction h with
  | refl => exact ht
  | @enter next s _ _ ih =>
    by_cases hs : s ∈ next.entries
    · rwa [TypeTable.enter, if_pos hs]
    · have hne : i ≠ next.size := Nat.ne_of_lt (Array.getElem?_eq_some_iff.mp ih).1
      rw [get?_enter hs, if_neg hne, ih]

/-- Each type has one number, and its parts have smaller ones. -/
structure Numbered (table : TypeTable) : Prop where
  nodup : table.entries.toList.Nodup
  parts : ∀ i t, table.get? i = some t → ∀ p ∈ t.parts, ∃ j < i, table.get? j = some p

lemma Numbered.enter (h : table.Numbered) (ht : ∀ p ∈ t.parts, p ∈ table.entries) :
    (table.enter t).Numbered := by
  by_cases hmem : t ∈ table.entries
  · rwa [TypeTable.enter, if_pos hmem]
  · have hgrows : table.Grows (table.enter t) := .enter .refl ht
    refine ⟨?_, fun i s hs p hp => ?_⟩
    · rw [TypeTable.enter, if_neg hmem, Array.toList_push, nodup_append_comm]
      exact nodup_cons.mpr ⟨by simpa using hmem, h.nodup⟩
    · rw [get?_enter hmem] at hs
      split at hs
      · next hi =>
        obtain rfl := Option.some.inj hs
        obtain ⟨j, hj⟩ := mem_entries_iff.mp (ht p hp)
        exact ⟨j, hi ▸ (Array.getElem?_eq_some_iff.mp hj).1, hgrows.get?_eq_some hj⟩
      · obtain ⟨j, hlt, hj⟩ := h.parts i s hs p hp
        exact ⟨j, hlt, hgrows.get?_eq_some hj⟩

end TypeTable

end MiddleEnd
