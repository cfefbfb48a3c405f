import SyntaxToC.Json.Fault
import SyntaxToC.Json.Value

/-!
# Numerals

A numeral is read one character at a time.  Its digits gather in a significand below `2 ^ 64`;
digits that no longer fit are dropped, and `scale` keeps the power of ten that the point and the
dropped digits stand for.  `Numeral.step` says what the next character does to the numeral, and
`Numeral.number` what the numeral means once it is over.

A numeral without point and exponent is an integer if it fits a 64-bit word, signed when it has a
sign.  Every other numeral is `significand · 10 ^ scale` as computed by `Magnitude.scale?`.
-/

namespace SyntaxToC.Json

/-- How far a numeral has been read. -/
inductive Stage where
  /-- Only the minus sign. -/
  | sign
  /-- The digit zero in front, which no other digit may follow. -/
  | leadingZero
  | whole
  /-- The significand is full, and further digits before the point are only counted. -/
  | wholeFull
  /-- The point, with no digit after it yet. -/
  | point
  | fraction
  /-- The significand is full, and further digits after the point have no effect. -/
  | fractionFull
  /-- The letter that announces the exponent. -/
  | mark
  | exponentSign (negative : Bool)
  | exponent (negative : Bool) (written : Nat)
  /-- The exponent is too large to be written down, and the number is zero. -/
  | vanished
deriving DecidableEq, Repr

structure Numeral where
  negative : Bool
  significand : Nat
  scale : Int
  stage : Stage
deriving DecidableEq, Repr

/-- What a character does to a numeral. -/
inductive Reaction where
  | take (n : Numeral)
  /-- The character does not belong to the numeral, which is over. -/
  | stop
  | refuse (cause : Cause)
deriving DecidableEq, Repr

/-- Significands stay below `2 ^ 64`. -/
def significandLimit : Nat := 18446744073709551616

/-- The largest magnitude of a negative integer, `2 ^ 63`. -/
def maxNegative : Nat := 9223372036854775808

/-- Written exponents stay below `2 ^ 31`. -/
def exponentLimit : Nat := 2147483648

def digit? (c : Char) : Option Nat := if c.isDigit then some (c.toNat - '0'.toNat) else none

def isExponentMark (c : Char) : Bool := c == 'e' || c == 'E'

namespace Numeral

/-- The numeral that a character begins. -/
def ofFirst? (c : Char) : Option Numeral :=
  if c = '-' then some ⟨true, 0, 0, .sign⟩
  else match digit? c with
    | some 0 => some ⟨false, 0, 0, .leadingZero⟩
    | some d => some ⟨false, d, 0, .whole⟩
    | none => none

/-- The significand with one more digit, if it still fits. -/
def push? (n : Numeral) (d : Nat) : Option Nat :=
  if 10 * n.significand + d < significandLimit then some (10 * n.significand + d) else none

/-! ## One character -/

def takeDigit (n : Numeral) (d : Nat) : Reaction :=
  match n.stage with
  | .sign => .take { n with significand := d, stage := if d = 0 then .leadingZero else .whole }
  | .leadingZero => .refuse .invalidNumber
  | .whole =>
    match n.push? d with
    | some s => .take { n with significand := s }
    | none => .take { n with scale := n.scale + 1, stage := .wholeFull }
  | .wholeFull => .take { n with scale := n.scale + 1 }
  | .point | .fraction =>
    match n.push? d with
    | some s => .take { n with significand := s, scale := n.scale - 1, stage := .fraction }
    | none => .take { n with stage := .fractionFull }
  | .fractionFull => .take n
  | .mark => .take { n with stage := .exponent false d }
  | .exponentSign negative => .take { n with stage := .exponent negative d }
  | .exponent negative written =>
    if 10 * written + d < exponentLimit then
      .take { n with stage := .exponent negative (10 * written + d) }
    else if n.significand = 0 ∨ negative then .take { n with stage := .vanished }
    else .refuse .numberOutOfRange
  | .vanished => .take n

def takeOther (n : Numeral) (c : Char) : Reaction :=
  match n.stage with
  | .sign | .point | .exponentSign _ => .refuse .invalidNumber
  | .leadingZero | .whole | .wholeFull =>
    if c = '.' then .take { n with stage := .point }
    else if isExponentMark c then .take { n with stage := .mark }
    else .stop
  | .fraction | .fractionFull =>
    if isExponentMark c then .take { n with stage := .mark } else .stop
  | .mark =>
    if c = '+' then .take { n with stage := .exponentSign false }
    else if c = '-' then .take { n with stage := .exponentSign true }
    else .refuse .invalidNumber
  | .exponent _ _ | .vanished => .stop

def step (n : Numeral) (c : Char) : Reaction :=
  match digit? c with
  | some d => n.takeDigit d
  | none => n.takeOther c

/-! ## Meaning -/

/-- A whole number keeps its value if it fits; minus zero is not a whole number. -/
def integer (n : Numeral) : Number :=
  if !n.negative then .integer n.significand
  else if 0 < n.significand ∧ n.significand ≤ maxNegative then .integer (-n.significand)
  else .real ⟨true, .ofNat n.significand⟩

def real (n : Numeral) (exponent : Int) : Except Cause Number :=
  match (Magnitude.ofNat n.significand).scale? (n.scale + exponent) with
  | some x => .ok (.real ⟨n.negative, x⟩)
  | none => .error .numberOutOfRange

/-- The number that the numeral stands for, if no digit is missing. -/
def number (n : Numeral) : Except Cause Number :=
  match n.stage with
  | .sign | .point | .mark | .exponentSign _ => .error .endInValue
  | .leadingZero | .whole => .ok n.integer
  | .wholeFull | .fraction | .fractionFull => n.real 0
  | .exponent negative written => n.real (if negative then -written else written)
  | .vanished => .ok (.real ⟨n.negative, .zero⟩)

end Numeral

end SyntaxToC.Json
