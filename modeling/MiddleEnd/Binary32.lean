/-!
# Binary floating point in 32 bits

A number is kept as its bit pattern: a sign, eight exponent bits and 23 fraction bits.  A finite
number stands for `± significand · 2 ^ exponent`.  Addition, subtraction, multiplication and
division are those of `Float32`; what depends on the pattern alone (order, remainder, conversions)
is computed on natural numbers.
-/

namespace MiddleEnd

structure Binary32 where
  bits : UInt32
deriving DecidableEq, Inhabited

namespace Binary32

def zero : Binary32 := ⟨0⟩

/-- The pattern without its sign. -/
def magnitude (x : Binary32) : Nat :=
  x.bits.toNat % 0x80000000

def isNegative (x : Binary32) : Bool :=
  0x80000000 ≤ x.bits.toNat

/-- The magnitude of infinity; larger ones are not numbers. -/
def infinity : Nat := 0x7F800000

def isNaN (x : Binary32) : Bool :=
  infinity < x.magnitude

def isInfinite (x : Binary32) : Bool :=
  x.magnitude = infinity

/-- Positive and negative zero are both zero. -/
def isZero (x : Binary32) : Bool :=
  x.magnitude = 0

def ofMagnitude (negative : Bool) (magnitude : Nat) : Binary32 :=
  ⟨.ofNat (if negative then 0x80000000 + magnitude else magnitude)⟩

/-- The significand of a finite number. -/
def significand (x : Binary32) : Nat :=
  if x.magnitude < 0x800000 then x.magnitude else 0x800000 + x.magnitude % 0x800000

/-- The exponent of a finite number; numbers below the normal range share the least one. -/
def exponent (x : Binary32) : Int :=
  max 1 (x.magnitude / 0x800000 : Nat) - 150

/-! ## Rounding -/

/-- `num / den` to the nearest natural number, a tie to the even one. -/
def roundHalfEven (num den : Nat) : Nat :=
  let q := num / den
  let r := 2 * (num % den)
  if den < r ∨ (r = den ∧ q % 2 = 1) then q + 1 else q

/-- `num / den` in units of `2 ^ e`, to the nearest natural number. -/
def roundScaled (num den : Nat) (e : Int) : Nat :=
  if 0 ≤ e then roundHalfEven num (den <<< e.toNat) else roundHalfEven (num <<< (-e).toNat) den

/-- The magnitude nearest to `num / den`.  The exponent is the one at which the quotient has 24
bits, found from the lengths of `num` and `den` and corrected by one where they mislead. -/
def nearestMagnitude (num den : Nat) : Nat :=
  if num = 0 then 0
  else
    let guess : Int := (num.log2 : Int) - den.log2
    let short : Bool :=
      if 0 ≤ guess then num < den <<< guess.toNat else num <<< (-guess).toNat < den
    let e : Int := max ((if short then guess - 1 else guess) - 23) (-149)
    -- A significand that rounds up to `2 ^ 24` carries into the exponent by this addition alone.
    let m := roundScaled num den e
    min infinity ((e + 149).toNat * 0x800000 + m)

/-- The number nearest to `± num / den`, a tie to the even significand. -/
def ofRatio (negative : Bool) (num den : Nat) : Binary32 :=
  ofMagnitude negative (nearestMagnitude num den)

def ofInt (n : Int) : Binary32 :=
  ofRatio (n < 0) n.natAbs 1

/-- The integer part of a finite number without its sign. -/
def truncated (x : Binary32) : Nat :=
  if 0 ≤ x.exponent then x.significand <<< x.exponent.toNat
  else x.significand >>> (-x.exponent).toNat

/-- Truncation toward zero.  What lies outside the range goes to its nearer end, and what is not a
number to zero. -/
def toInt32 (x : Binary32) : Int32 :=
  if x.isNaN then 0
  else if x.isInfinite then if x.isNegative then Int32.minValue else Int32.maxValue
  else if x.isNegative then .ofInt (max (-0x80000000) (-x.truncated))
  else .ofInt (min 0x7FFFFFFF x.truncated)

/-! ## Order -/

/-- A key that orders the numbers; both zeros have key zero. -/
def key (x : Binary32) : Int :=
  if x.isNegative then -x.magnitude else x.magnitude

/-- There is no order with what is not a number. -/
def compare? (x y : Binary32) : Option Ordering :=
  if x.isNaN || y.isNaN then none else some (compare x.key y.key)

/-! ## Arithmetic -/

/-- What is not a number passes through an operation with its quiet bit set. -/
def quiet (x : Binary32) : Binary32 :=
  ⟨x.bits ||| 0x00400000⟩

/-- The result of an operation that has no answer. -/
def invalid : Binary32 := ⟨0xFFC00000⟩

/-- The result of an operation on `x` and `y` that is not a number. -/
def undefinedOf (x y : Binary32) : Binary32 :=
  if x.isNaN then x.quiet else if y.isNaN then y.quiet else invalid

def lift₂ (op : Float32 → Float32 → Float32) (x y : Binary32) : Binary32 :=
  let r : Binary32 := ⟨(op (.ofBits x.bits) (.ofBits y.bits)).toBits⟩
  if r.isNaN then undefinedOf x y else r

def add : Binary32 → Binary32 → Binary32 := lift₂ (· + ·)

def sub : Binary32 → Binary32 → Binary32 := lift₂ (· - ·)

def mul : Binary32 → Binary32 → Binary32 := lift₂ (· * ·)

def div : Binary32 → Binary32 → Binary32 := lift₂ (· / ·)

/-- The remainder of the division whose quotient is rounded toward zero.  It has the sign of `x`
and is exact: both numbers are whole multiples of the smaller of their two units. -/
def rem (x y : Binary32) : Binary32 :=
  if x.isNaN || y.isNaN || x.isInfinite || y.isZero then undefinedOf x y
  else if y.isInfinite then x
  else
    let e := min x.exponent y.exponent
    let r := x.significand <<< (x.exponent - e).toNat % y.significand <<< (y.exponent - e).toNat
    if 0 ≤ e then ofRatio x.isNegative (r <<< e.toNat) 1
    else ofRatio x.isNegative r (1 <<< (-e).toNat)

/-! ## Widening -/

/-- The fraction and exponent bits of the same number in 64 bits. -/
def widenedMagnitude (x : Binary32) : Nat :=
  if x.isNaN then 0x7FF8000000000000 ||| (x.magnitude % 0x800000) <<< 29
  else if x.isInfinite then 0x7FF0000000000000
  else if x.isZero then 0
  else
    -- Numbers below the normal range become normal: the leading bit moves to the top.
    let top := x.significand.log2
    let fraction := (x.significand - 1 <<< top) <<< (52 - top)
    ((x.exponent + top + 1023).toNat <<< 52) + fraction

/-- The pattern of the same number in 64 bits. -/
def widened (x : Binary32) : Nat :=
  if x.isNegative then 0x8000000000000000 + x.widenedMagnitude else x.widenedMagnitude

end Binary32

end MiddleEnd
