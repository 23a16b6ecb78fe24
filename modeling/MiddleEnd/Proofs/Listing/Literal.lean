import MiddleEnd.Listing.Literal
import MiddleEnd.Proofs.Listing.Text

/-!
# Text literals can be read back

A backslash in a literal always starts an escape, since a backslash of the text is written as one.
So a literal is read from left to right, byte by byte, and different texts have different literals.
-/

namespace MiddleEnd.Literal

open List Reader

/-- Reads a literal: a backslash and two hexadecimal digits are the byte of that number, and every
other character is its own byte. -/
def decode : List Char → Option (List UInt8)
  | [] => some []
  | '\\' :: high :: low :: cs => do
    let b := .ofNat (16 * (← hexDigit? high) + (← hexDigit? low))
    return b :: (← decode cs)
  | c :: cs => do if c.toNat < 256 then return .ofNat c.toNat :: (← decode cs) else none

def isPrintable (c : Char) : Bool :=
  0x20 ≤ c.toNat && c.toNat ≤ 0x7E && c ≠ '"'

/-- What a byte is written as: itself, or an escape. -/
def Spells (b : UInt8) : List Char → Bool
  | [c] => c ≠ '\\' && c.toNat = b.toNat
  | ['\\', high, low] => (hexDigit? high, hexDigit? low) = (some (b.toNat / 16), some (b.toNat % 16))
  | _ => false

lemma spells_encodeByte (b : UInt8) :
    Spells b (encodeByte b) ∧ (encodeByte b).all isPrintable := by
  have hall : ∀ n < 256, Spells (.ofNat n) (encodeByte (.ofNat n)) ∧
      (encodeByte (.ofNat n)).all isPrintable := by decide +kernel
  have hb := hall b.toNat b.toNat_lt
  rwa [UInt8.ofNat_toNat] at hb

lemma decode_append {b : UInt8} {spelled : List Char} (h : Spells b spelled) (cs : List Char) :
    decode (spelled ++ cs) = (decode cs).map (b :: ·) := by
  unfold Spells at h
  split at h
  · next c =>
    rw [Bool.and_eq_true, decide_eq_true_eq, decide_eq_true_eq] at h
    obtain ⟨hc, hval⟩ := h
    rw [singleton_append, decode.eq_3 _ _ fun _ _ _ h => absurd h hc, hval, if_pos b.toNat_lt,
      UInt8.ofNat_toNat]
    cases decode cs <;> rfl
  · next high low =>
    rw [decide_eq_true_eq, Prod.mk.injEq] at h
    obtain ⟨hhigh, hlow⟩ := h
    have hsum : 16 * (b.toNat / 16) + b.toNat % 16 = b.toNat := Nat.div_add_mod ..
    simp only [cons_append, nil_append, decode, hhigh, hlow, Option.bind_eq_bind, Option.bind_some,
      hsum, UInt8.ofNat_toNat]
    cases decode cs <;> rfl
  · cases h

lemma decode_flatMap_encodeByte (bs : List UInt8) : decode (bs.flatMap encodeByte) = some bs := by
  induction bs with
  | nil => rfl
  | cons b bs ih => rw [flatMap_cons, decode_append (spells_encodeByte b).1, ih, Option.map_some]

lemma bytes_injective {s t : String} (h : bytes s = bytes t) : s = t := by
  rw [Array.toList_inj] at h
  exact String.toByteArray_inj.mp (ByteArray.ext h)

/-- The literal of a text is read back as the bytes of the text and a zero, as many as it counts.  It
is printable and without quotes, and no other text has the same. -/
theorem decode_encode (text : String) :
    decode (encode text).toList = some (bytes text ++ [0]) ∧
      length text = (bytes text ++ [0]).length ∧
      (∀ c ∈ (encode text).toList, 0x20 ≤ c.toNat ∧ c.toNat ≤ 0x7E ∧ c ≠ '"') ∧
      ∀ other, encode other = encode text ↔ other = text := by
  have hdecode (s : String) : decode (encode s).toList = some (bytes s ++ [0]) := by
    rw [encode, String.toList_ofList, decode_flatMap_encodeByte]
  refine ⟨hdecode text, by simp [length], fun c hc => ?_, fun other => ⟨fun h => ?_, congrArg encode⟩⟩
  · rw [encode, String.toList_ofList] at hc
    obtain ⟨b, -, hc⟩ := mem_flatMap.mp hc
    have hprintable := all_eq_true.mp (spells_encodeByte b).2 c hc
    simpa [isPrintable, and_assoc] using hprintable
  · have hsame := hdecode other
    rw [h, hdecode text] at hsame
    exact bytes_injective (append_cancel_right (Option.some.inj hsame)).symm

end MiddleEnd.Literal
