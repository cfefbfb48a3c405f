/-!
# Binary64 numbers, exactly

A finite binary64 number is a sign and a magnitude `significand · 2 ^ exponent`, kept as whole
numbers, so every operation here is exact integer arithmetic followed by one rounding:

    Magnitude.nearest? num den     the magnitude closest to `num / den`, a half going to the even one
    Magnitude.mul? x n             `x · n`, rounded
    Magnitude.div x n              `x / n`, rounded

`none` means that the result lies beyond the largest finite number.
-/

namespace SyntaxToC

/-- The lowest exponent. -/
def Magnitude.minExponent : Int := -1074

/-- The highest exponent. -/
def Magnitude.maxExponent : Int := 971

/-- `2 ^ 52`, the smallest significand of 53 bits. -/
def Magnitude.leadingBit : Nat := 4503599627370496

/-- A non-negative binary64 number `significand · 2 ^ exponent`.  Above the lowest exponent the
significand has exactly 53 bits. -/
structure Magnitude where
  significand : Nat
  exponent : Int
  significand_lt : significand < 2 * Magnitude.leadingBit
  min_le : Magnitude.minExponent ≤ exponent
  le_max : exponent ≤ Magnitude.maxExponent
  full : exponent = Magnitude.minExponent ∨ Magnitude.leadingBit ≤ significand
deriving DecidableEq, Repr

/-- A finite binary64 number; zero carries a sign as well. -/
structure Binary64 where
  negative : Bool
  magnitude : Magnitude
deriving DecidableEq, Repr

namespace Magnitude

def zero : Magnitude := ⟨0, minExponent, by decide, by decide, by decide, .inl rfl⟩

/-- `significand · 2 ^ exponent`, if these are the parts of a magnitude. -/
def ofParts? (significand : Nat) (exponent : Int) : Option Magnitude :=
  if h : (significand < 2 * leadingBit ∧ minExponent ≤ exponent) ∧ exponent ≤ maxExponent ∧
      (exponent = minExponent ∨ leadingBit ≤ significand) then
    some ⟨significand, exponent, h.1.1, h.1.2, h.2.1, h.2.2⟩
  else none

def isZero (x : Magnitude) : Bool := x.significand == 0

/-! ## Rounding -/

/-- `num / den` rounded to a whole number, a half going to the even neighbour. -/
def divRound (num den : Nat) : Nat :=
  let q := num / den
  let r := num % den
  if 2 * r < den ∨ (2 * r = den ∧ q % 2 = 0) then q else q + 1

/-- `num / den / 2 ^ e` as a fraction of whole numbers. -/
def shifted (num den : Nat) (e : Int) : Nat × Nat :=
  if 0 ≤ e then (num, den * Nat.pow 2 e.toNat) else (num * Nat.pow 2 (-e).toNat, den)

/-- The exponent that gives `num / den` a significand of 53 bits. -/
def unitExponent (num den : Nat) : Int :=
  let e : Int := (num.log2 : Int) - den.log2 - 52
  let (n, d) := shifted num den e
  if n < d * leadingBit then e - 1 else e

/-- The magnitude closest to `num / den`, or `none` beyond the largest finite one. -/
def nearest? (num den : Nat) : Option Magnitude :=
  if num = 0 then some zero else
    let e := max minExponent (unitExponent num den)
    let (n, d) := shifted num den e
    let q := divRound n d
    if q < 2 * leadingBit then ofParts? q e else ofParts? leadingBit (e + 1)

/-! ## Operations -/

/-- The magnitude as a fraction of whole numbers. -/
def ratio (x : Magnitude) : Nat × Nat :=
  if 0 ≤ x.exponent then (x.significand * Nat.pow 2 x.exponent.toNat, 1)
  else (x.significand, Nat.pow 2 (-x.exponent).toNat)

/-- The magnitude closest to a whole number below `2 ^ 1024`. -/
def ofNat (n : Nat) : Magnitude := (nearest? n 1).getD zero

/-- `x · n`, rounded. -/
def mul? (x : Magnitude) (n : Nat) : Option Magnitude :=
  nearest? (x.ratio.1 * n) x.ratio.2

/-- `x / n`, rounded; a quotient by `n ≥ 1` is never too large. -/
def div (x : Magnitude) (n : Nat) : Magnitude :=
  (nearest? x.ratio.1 (x.ratio.2 * n)).getD zero

/-- The binary64 number closest to `10 ^ k`, which is a whole number, for `k ≤ 308`. -/
def powerOfTen (k : Nat) : Nat :=
  let (n, d) := (ofNat (Nat.pow 10 k)).ratio
  n / d

/-- `x · 10 ^ e` in the steps of a table of powers up to `10 ^ 308`: a smaller exponent is brought
into range by dividing by `10 ^ 308`, each step rounding, and a larger one is out of range. -/
def scale? (x : Magnitude) (e : Int) : Option Magnitude :=
  if e < -308 then
    if x.isZero then some x else scale? (x.div (powerOfTen 308)) (e + 308)
  else if e < 0 then some (x.div (powerOfTen (-e).toNat))
  else if e ≤ 308 then x.mul? (powerOfTen e.toNat)
  else if x.isZero then some x else none
termination_by (-e).toNat

end Magnitude

end SyntaxToC
