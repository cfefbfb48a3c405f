import SyntaxToC.Decimal.Binary64

/-!
# The shortest decimal that reads back

The reals that round to a magnitude form an interval around it.  `Magnitude.shortest` walks the
grids `10 ^ k` from coarse to fine and stops at the first one with a point in that interval; only
the two grid points next to the value need a look.  Of two such points the nearer one is taken, and
an exact tie is left to the caller (`Tie`).

Two layouts write the result: `positional`, which never uses an exponent, and `scientific`.
-/

namespace SyntaxToC

/-- Which neighbour an exact tie goes to. -/
inductive Tie where
  | up
  | even
deriving DecidableEq, Repr

/-- The decimal `digits · 10 ^ exponent`. -/
structure Decimal where
  digits : Nat
  exponent : Int
deriving DecidableEq, Repr

/-! ## Search -/

/-- The interval of reals that round to a magnitude, in quarters of its last binary place. -/
structure Interval where
  low : Nat
  value : Nat
  high : Nat
  /-- The ends belong to it. -/
  closed : Bool

/-- The gap below a power of two is half the gap above it. -/
def Magnitude.interval (x : Magnitude) : Interval where
  low := if x.significand = leadingBit ∧ minExponent < x.exponent then 4 * x.significand - 1
    else 4 * x.significand - 2
  value := 4 * x.significand
  high := 4 * x.significand + 2
  closed := x.significand % 2 == 0

/-- `2 ^ e / 10 ^ k` as a fraction of whole numbers. -/
def gridStep (e k : Int) : Nat × Nat :=
  (Nat.pow 2 e.toNat * Nat.pow 10 (-k).toNat, Nat.pow 2 (-e).toNat * Nat.pow 10 k.toNat)

namespace Interval

/-- Whether the grid point `d`, in units of the grid, lies in the interval scaled by `p / q`. -/
def contains (i : Interval) (p q d : Nat) : Bool :=
  if i.closed then i.low * p ≤ d * q && d * q ≤ i.high * p
  else i.low * p < d * q && d * q < i.high * p

/-- The point of the grid to use, if one next to the value lies in the interval. -/
def pick? (i : Interval) (tie : Tie) (p q : Nat) : Option Nat :=
  let d := i.value * p / q
  match i.contains p q d, i.contains p q (d + 1) with
  | false, false => none
  | true, false => some d
  | false, true => some (d + 1)
  | true, true =>
    match compare (2 * (i.value * p)) ((2 * d + 1) * q), tie with
    | .lt, _ => some d
    | .gt, _ => some (d + 1)
    | .eq, .up => some (d + 1)
    | .eq, .even => some (if d % 2 = 0 then d else d + 1)

/-- The first grid at or below `10 ^ k` with a point in the interval, `steps` grids at most. -/
def firstGrid (i : Interval) (tie : Tie) (e : Int) : (steps : Nat) → (k : Int) → Decimal
  | 0, k => ⟨0, k⟩
  | steps + 1, k =>
    let (p, q) := gridStep e k
    match i.pick? tie p q with
    | some d => ⟨d, k⟩
    | none => firstGrid i tie e steps (k - 1)

end Interval

/-- The fewest digits that read back.  Every magnitude lies below `10 ^ 309` and, being a multiple
of `2 ^ (-1074)`, on the grid `10 ^ (-1074)`. -/
def Magnitude.shortest (x : Magnitude) (tie : Tie) : Decimal :=
  if x.isZero then ⟨0, 0⟩ else x.interval.firstGrid tie (x.exponent - 2) 1384 309

/-! ## Layouts -/

namespace Decimal

def zeros (n : Nat) : List Char := List.replicate n '0'

def digitChars (d : Decimal) : List Char := Nat.toDigits 10 d.digits

/-- The digits before and after the point, without an exponent. -/
def places (d : Decimal) : String × String :=
  let ds := d.digitChars
  if 0 ≤ d.exponent then (String.ofList (ds ++ zeros d.exponent.toNat), "")
  else
    let k := (-d.exponent).toNat
    if k < ds.length then
      (String.ofList (ds.take (ds.length - k)), String.ofList (ds.drop (ds.length - k)))
    else ("0", String.ofList (zeros (k - ds.length) ++ ds))

/-- `digits · 10 ^ exponent` without an exponent, and with a point only before a fraction. -/
def positional (d : Decimal) : String :=
  match d.places with
  | (whole, "") => whole
  | (whole, fraction) => whole ++ "." ++ fraction

/-- The power of ten of the first digit. -/
def leading (d : Decimal) : Int := d.exponent + d.digitChars.length - 1

/-- One digit, the others after a point, and a signed exponent. -/
def scientific (d : Decimal) : String :=
  let mantissa := match d.digitChars with
    | first :: rest@(_ :: _) => String.ofList (first :: '.' :: rest)
    | ds => String.ofList ds
  mantissa ++ (if d.leading < 0 then "e-" else "e+") ++ toString d.leading.natAbs

end Decimal

end SyntaxToC
