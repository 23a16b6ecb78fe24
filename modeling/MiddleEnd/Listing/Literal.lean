import MiddleEnd.Constant

/-!
# Text literals

A text is listed as an array of its bytes and a zero.  Bytes that are not printable, double quotes
and backslashes are written as a backslash and two hexadecimal digits.
-/

namespace MiddleEnd.Literal

def isPlain (b : UInt8) : Bool :=
  0x20 ≤ b && b ≤ 0x7E && b ≠ 0x22 && b ≠ 0x5C

def encodeByte (b : UInt8) : List Char :=
  if isPlain b then [.ofNat b.toNat] else '\\' :: (hexText 2 b.toNat).toList

def bytes (text : String) : List UInt8 :=
  text.toUTF8.data.toList

/-- The number of bytes, with the zero at the end. -/
def length (text : String) : Nat :=
  (bytes text).length + 1

/-- The bytes as they are written between quotes. -/
def encode (text : String) : String :=
  .ofList ((bytes text ++ [0]).flatMap encodeByte)

end MiddleEnd.Literal
