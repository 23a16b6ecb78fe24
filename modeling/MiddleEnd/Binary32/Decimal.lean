import MiddleEnd.Binary32

/-!
# Decimal text of binary numbers

A number is printed with the fewest digits that read back as the same number, and of those with
the digits nearest to it.  Printing is positional: no exponent is written, and a whole number has
no point.  Reading takes digits with an optional point and exponent and rounds to the nearest
number.
-/

namespace MiddleEnd.Binary32

/-! ## Printing -/

/-- The real numbers that round to `m · 2 ^ e` reach from `low` to `high` quarters of `2 ^ e`; the
ends belong to them if the significand is even. -/
structure Span where
  low : Nat
  middle : Nat
  high : Nat
  closed : Bool

/-- Below a power of two the neighbour is only half as far. -/
def span (m : Nat) : Span where
  low := if m = 0x800000 then 4 * m - 1 else 4 * m - 2
  middle := 4 * m
  high := 4 * m + 2
  closed := m % 2 = 0

/-- A decimal number `digits · 10 ^ scale`. -/
structure Decimal where
  digits : Nat
  scale : Int

/-- Does `d` units lie in the span, where a unit of the span is `spanUnit` and one of `d` is
`unit`? -/
def Span.holds (s : Span) (spanUnit unit d : Nat) : Bool :=
  if s.closed then s.low * spanUnit ≤ d * unit && d * unit ≤ s.high * spanUnit
  else s.low * spanUnit < d * unit && d * unit < s.high * spanUnit

/-- The multiple of `10 ^ scale` in the span that is nearest to its middle, if there is one; the
middle is `middle · 2 ^ e`.  Only the two neighbours of the middle can be nearest, and a tie goes
to the larger. -/
def onGrid (s : Span) (e scale : Int) : Option Nat :=
  let spanUnit := Nat.pow 10 (-scale).toNat <<< e.toNat
  let unit := Nat.pow 10 scale.toNat <<< (-e).toNat
  let d := s.middle * spanUnit / unit
  let rest := s.middle * spanUnit % unit
  match s.holds spanUnit unit d, s.holds spanUnit unit (d + 1) with
  | true, true => some (if rest = 0 ∨ 2 * rest < unit then d else d + 1)
  | true, false => some d
  | false, true => some (d + 1)
  | false, false => none

/-- Tries ever finer grids. -/
def refine (s : Span) (e : Int) : Nat → Int → Decimal
  | 0, scale => ⟨(onGrid s e scale).getD 0, scale⟩
  | more + 1, scale =>
    match onGrid s e scale with
    | some d => ⟨d, scale⟩
    | none => refine s e more (scale - 1)

/-- The shortest decimal number that reads back as `m · 2 ^ e`.  The first grid is coarser than any
number of 32 bits, and 2 ^ -149 is a whole multiple of the last. -/
def shortest (m : Nat) (e : Int) : Decimal :=
  refine (span m) (e - 2) 200 39

/-- A decimal number without exponent. -/
def Decimal.text (d : Decimal) : String :=
  let digits := Nat.toDigits 10 d.digits
  if 0 ≤ d.scale then String.ofList (digits ++ List.replicate d.scale.toNat '0')
  else
    let places := (-d.scale).toNat
    let padded := List.replicate (places + 1 - digits.length) '0' ++ digits
    let whole := padded.take (padded.length - places)
    let fraction := padded.drop (padded.length - places)
    String.ofList (whole ++ '.' :: fraction)

def text (x : Binary32) : String :=
  if x.isNaN then "NaN"
  else
    let digits :=
      if x.isInfinite then "inf"
      else if x.isZero then "0"
      else (shortest x.significand x.exponent).text
    if x.isNegative then "-" ++ digits else digits

/-! ## Reading -/

def digitsValue (cs : List Char) : Nat :=
  cs.foldl (fun n c => 10 * n + (c.toNat - '0'.toNat)) 0

/-- The exponent part of a number: nothing, or a mark, an optional sign and digits. -/
def readExponent : List Char → Option Int
  | [] => some 0
  | c :: cs =>
    if c ≠ 'e' ∧ c ≠ 'E' then none
    else
      let (negative, digits) := match cs with
        | '-' :: ds => (true, ds)
        | '+' :: ds => (false, ds)
        | ds => (false, ds)
      if digits.isEmpty || !digits.all Char.isDigit then none
      else if negative then some (-digitsValue digits)
      else some (digitsValue digits)

/-- Digits with an optional point, at least one digit, and an optional exponent. -/
def readDecimal (cs : List Char) : Option Decimal :=
  let whole := cs.takeWhile Char.isDigit
  let (fraction, rest) := match cs.dropWhile Char.isDigit with
    | '.' :: ds => (ds.takeWhile Char.isDigit, ds.dropWhile Char.isDigit)
    | ds => ([], ds)
  if whole.isEmpty && fraction.isEmpty then none
  else (readExponent rest).map fun e => ⟨digitsValue (whole ++ fraction), e - fraction.length⟩

/-- The nearest number to a decimal number.  Beyond 10 ^ 60 every number is infinite, and below
10 ^ -60 every number is zero, whatever the exponent. -/
def ofDecimal (negative : Bool) (d : Decimal) : Binary32 :=
  let top : Int := (Nat.toDigits 10 d.digits).length + d.scale
  if d.digits = 0 ∨ top < -60 then ofMagnitude negative 0
  else if 60 < top then ofMagnitude negative infinity
  else if 0 ≤ d.scale then ofRatio negative (d.digits * Nat.pow 10 d.scale.toNat) 1
  else ofRatio negative d.digits (Nat.pow 10 (-d.scale).toNat)

/-- Reads an optional sign and a decimal number, `inf`, `infinity` or `nan` in any case. -/
def read? (cs : List Char) : Option Binary32 :=
  let (negative, body) := match cs with
    | '-' :: ds => (true, ds)
    | '+' :: ds => (false, ds)
    | ds => (false, ds)
  match readDecimal body with
  | some d => some (ofDecimal negative d)
  | none =>
    let word := body.map Char.toLower
    if word = "inf".toList ∨ word = "infinity".toList then some (ofMagnitude negative infinity)
    else if word = "nan".toList then some (ofMagnitude negative 0x7FC00000)
    else none

end MiddleEnd.Binary32
