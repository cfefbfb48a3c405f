import Mathlib.Algebra.Order.Field.Power
import Mathlib.Tactic.Linarith
import Mathlib.Tactic.NormNum
import Mathlib.Tactic.Positivity
import Mathlib.Tactic.Ring
import SyntaxToC.Decimal.Shortest

/-!
# Rounding to binary64

A number rounds to the nearest number of 53 bits, and half way between two of them to the one with
the even significand (`Magnitude.Rounds`).  Exponents end at `-1074` below; they are taken to have no
end above, so that a number beyond the largest magnitude by half a place or more rounds to none.

The numbers that round to a magnitude lie between the middles to its two neighbours, and
`Magnitude.nearest?` finds the magnitude that a fraction rounds to:

    x.Rounds r ↔ x.interval.Mem x.quarter r                             (rounds_iff_mem)
    nearest? num den = some x ↔ x.Rounds (num / den)                    (nearest?_eq_some_iff)
-/

namespace SyntaxToC.Magnitude

/-! ## Numbers of 53 bits -/

/-- The number itself. -/
def value (x : Magnitude) : ℚ := x.significand * 2 ^ x.exponent

/-- The numbers of 53 bits. -/
def IsBinary (y : ℚ) : Prop :=
  ∃ (m : ℕ) (e : ℤ), m < 2 * leadingBit ∧ minExponent ≤ e ∧ y = m * 2 ^ e

/-- Every other number of 53 bits is farther from `r`, or as far and `x` is even. -/
def Rounds (x : Magnitude) (r : ℚ) : Prop :=
  ∀ y, IsBinary y → y ≠ x.value →
    |r - x.value| < |r - y| ∨ |r - x.value| = |r - y| ∧ x.significand % 2 = 0

/-- A quarter of the last place. -/
def quarter (x : Magnitude) : ℚ := 2 ^ (x.exponent - 2)

theorem quarter_pos (x : Magnitude) : 0 < x.quarter := by
  unfold quarter
  positivity

theorem two_zpow_exponent (x : Magnitude) : (2 : ℚ) ^ x.exponent = 4 * x.quarter := by
  have hsplit : x.exponent = x.exponent - 2 + 2 := by omega
  rw [quarter, hsplit, zpow_add₀ two_ne_zero, Int.add_sub_cancel]
  norm_num
  ring

theorem value_eq (x : Magnitude) : x.value = x.interval.value * x.quarter := by
  rw [value, two_zpow_exponent, interval]
  push_cast
  ring

theorem value_nonneg (x : Magnitude) : 0 ≤ x.value := by
  unfold value
  positivity

theorem isBinary_value (x : Magnitude) : IsBinary x.value :=
  ⟨x.significand, x.exponent, x.significand_lt, x.min_le, rfl⟩

theorem rounds_value (x : Magnitude) : x.Rounds x.value := by
  intro y _ hne
  rw [sub_self, abs_zero]
  exact .inl (abs_pos.2 (sub_ne_zero.2 (Ne.symm hne)))

/-! ## Neighbours -/

/-- The next number of 53 bits. -/
def above (x : Magnitude) : ℚ := (x.significand + 1) * 2 ^ x.exponent

/-- The gap below a power of two is half the gap above it. -/
def gapBelow (x : Magnitude) : ℚ :=
  if x.significand = leadingBit ∧ minExponent < x.exponent then 2 ^ (x.exponent - 1)
  else 2 ^ x.exponent

theorem isBinary_above (x : Magnitude) : IsBinary x.above := by
  by_cases hlast : x.significand + 1 < 2 * leadingBit
  · exact ⟨x.significand + 1, x.exponent, hlast, x.min_le, by simp [above]⟩
  · -- the next number has one bit more and begins the next exponent
    have hfull : x.significand + 1 = 2 * leadingBit := by
      have hlt := x.significand_lt
      omega
    have hcast : (x.significand : ℚ) + 1 = 2 * leadingBit := by exact_mod_cast hfull
    refine ⟨leadingBit, x.exponent + 1, by decide, ?_, ?_⟩
    · have hmin := x.min_le
      omega
    · rw [above, hcast, zpow_add_one₀ two_ne_zero]
      ring

theorem isBinary_below {x : Magnitude} (hx : x.significand ≠ 0) :
    IsBinary (x.value - x.gapBelow) := by
  by_cases hpower : x.significand = leadingBit ∧ minExponent < x.exponent
  · obtain ⟨hsignificand, hexponent⟩ := hpower
    refine ⟨2 * leadingBit - 1, x.exponent - 1, by decide, by omega, ?_⟩
    have hsplit : x.exponent = x.exponent - 1 + 1 := by omega
    rw [value, gapBelow, if_pos ⟨hsignificand, hexponent⟩, hsignificand, hsplit,
      zpow_add_one₀ two_ne_zero, Int.add_sub_cancel, Nat.cast_sub (by decide)]
    push_cast
    ring
  · have hlt := x.significand_lt
    refine ⟨x.significand - 1, x.exponent, by omega, x.min_le, ?_⟩
    rw [value, gapBelow, if_neg hpower, Nat.cast_sub (by omega)]
    push_cast
    ring

/-- A number of 53 bits is a multiple of a given unit, or its exponent is lower. -/
theorem IsBinary.multiple_or {y : ℚ} (hy : IsBinary y) (e : ℤ) :
    (∃ k : ℕ, y = k * 2 ^ e) ∨ minExponent < e ∧ y ≤ (2 * leadingBit - 1) * 2 ^ (e - 1) := by
  obtain ⟨m, e', hm, hmin, rfl⟩ := hy
  by_cases hle : e ≤ e'
  · refine .inl ⟨m * 2 ^ (e' - e).toNat, ?_⟩
    have hsplit : e' = (e' - e).toNat + e := by omega
    rw [hsplit, zpow_add₀ two_ne_zero, zpow_natCast]
    push_cast
    rw [show ((e' - e).toNat + e - e).toNat = (e' - e).toNat by omega]
    ring
  · refine .inr ⟨by omega, ?_⟩
    have hm' : (m : ℚ) ≤ 2 * leadingBit - 1 := by
      have hcast : ((m + 1 : ℕ) : ℚ) ≤ ((2 * leadingBit : ℕ) : ℚ) := by exact_mod_cast hm
      push_cast at hcast
      linarith
    have hpower : (2 : ℚ) ^ e' ≤ 2 ^ (e - 1) := zpow_le_zpow_right₀ one_le_two (by omega)
    exact mul_le_mul hm' hpower (by positivity) (by linarith [Nat.cast_nonneg (α := ℚ) m])

/-- No number of 53 bits lies between a magnitude and its neighbours. -/
theorem IsBinary.le_below_or_above_le {y : ℚ} (hy : IsBinary y) {x : Magnitude} (hne : y ≠ x.value) :
    y ≤ x.value - x.gapBelow ∨ x.above ≤ y := by
  have hpos : (0 : ℚ) < 2 ^ x.exponent := by positivity
  have hhalf : (2 : ℚ) ^ x.exponent = 2 * 2 ^ (x.exponent - 1) := by
    rw [← zpow_one_add₀ two_ne_zero]
    congr 1
    omega
  have hgap : x.gapBelow ≤ 2 ^ x.exponent := by
    unfold gapBelow
    split
    · rw [hhalf]
      linarith [show (0 : ℚ) < 2 ^ (x.exponent - 1) by positivity]
    · exact le_rfl
  rcases hy.multiple_or x.exponent with ⟨k, rfl⟩ | ⟨hmin, hle⟩
  · have hk : k ≠ x.significand := by
      rintro rfl
      exact hne rfl
    rcases Nat.lt_or_gt_of_ne hk with hlt | hgt
    · left
      have hcast : (k : ℚ) + 1 ≤ x.significand := by exact_mod_cast hlt
      have hmul : ((k : ℚ) + 1) * 2 ^ x.exponent ≤ x.value :=
        mul_le_mul_of_nonneg_right hcast hpos.le
      linarith
    · right
      have hcast : (x.significand : ℚ) + 1 ≤ k := by exact_mod_cast hgt
      exact mul_le_mul_of_nonneg_right hcast hpos.le
  · left
    have hfull : leadingBit ≤ x.significand := by
      rcases x.full with h | h
      · omega
      · exact h
    have hlower : (2 * (leadingBit : ℚ) - 1) * 2 ^ (x.exponent - 1) =
        leadingBit * 2 ^ x.exponent - 2 ^ (x.exponent - 1) := by
      rw [hhalf]
      ring
    rw [hlower] at hle
    by_cases hpower : x.significand = leadingBit
    · rw [gapBelow, if_pos ⟨hpower, hmin⟩, value, hpower]
      exact hle
    · have hcast : (leadingBit : ℚ) + 1 ≤ x.significand := by
        exact_mod_cast Nat.lt_of_le_of_ne hfull (Ne.symm hpower)
      have hmul : ((leadingBit : ℚ) + 1) * 2 ^ x.exponent ≤ x.value :=
        mul_le_mul_of_nonneg_right hcast hpos.le
      have hhalf_pos : (0 : ℚ) < 2 ^ (x.exponent - 1) := by positivity
      linarith

/-! ## The interval of a magnitude -/

end SyntaxToC.Magnitude

namespace SyntaxToC

/-- The interval in a given unit; its ends belong to it if it is closed. -/
def Interval.Mem (i : Interval) (unit r : ℚ) : Prop :=
  (i.low * unit < r ∨ i.low * unit = r ∧ i.closed = true) ∧
    (r < i.high * unit ∨ r = i.high * unit ∧ i.closed = true)

/-- An interval has no gaps. -/
theorem Interval.Mem.between {i : Interval} {unit a r b : ℚ} (ha : i.Mem unit a)
    (hb : i.Mem unit b) (har : a ≤ r) (hrb : r ≤ b) : i.Mem unit r := by
  obtain ⟨halow, -⟩ := ha
  obtain ⟨-, hbhigh⟩ := hb
  constructor
  · rcases halow with h | ⟨h, hclosed⟩
    · exact .inl (by linarith)
    · rcases har.lt_or_eq with hlt | rfl
      · exact .inl (by linarith)
      · exact .inr ⟨h, hclosed⟩
  · rcases hbhigh with h | ⟨h, hclosed⟩
    · exact .inl (by linarith)
    · rcases hrb.lt_or_eq with hlt | rfl
      · exact .inl (by linarith)
      · exact .inr ⟨h, hclosed⟩

namespace Magnitude

variable {x : Magnitude}

theorem interval_closed_iff : x.interval.closed = true ↔ x.significand % 2 = 0 := by
  simp [interval]

theorem interval_high : (x.interval.high : ℚ) = 4 * x.significand + 2 := by
  simp [interval]

theorem interval_low_of_power (h : x.significand = leadingBit ∧ minExponent < x.exponent) :
    (x.interval.low : ℚ) = 4 * leadingBit - 1 := by
  rw [interval, if_pos h, h.1, Nat.cast_sub (by decide)]
  push_cast
  rfl

theorem interval_low_of_not_power (hx : x.significand ≠ 0)
    (h : ¬ (x.significand = leadingBit ∧ minExponent < x.exponent)) :
    (x.interval.low : ℚ) = 4 * x.significand - 2 := by
  rw [interval, if_neg h, Nat.cast_sub (by omega)]
  push_cast
  rfl

theorem two_mul_high : 2 * (x.interval.high * x.quarter) = x.value + x.above := by
  rw [value, above, two_zpow_exponent, interval_high]
  ring

theorem two_mul_low (hx : x.significand ≠ 0) :
    2 * (x.interval.low * x.quarter) = x.value + (x.value - x.gapBelow) := by
  by_cases hpower : x.significand = leadingBit ∧ minExponent < x.exponent
  · have hgap : x.gapBelow = 2 * x.quarter := by
      rw [gapBelow, if_pos hpower, quarter, ← zpow_one_add₀ two_ne_zero]
      congr 1
      omega
    rw [hgap, interval_low_of_power hpower, value, hpower.1, two_zpow_exponent]
    ring
  · have hgap : x.gapBelow = 4 * x.quarter := by
      rw [gapBelow, if_neg hpower, two_zpow_exponent]
    rw [hgap, interval_low_of_not_power hx hpower, value, two_zpow_exponent]
    ring

/-- Which of two numbers is nearer depends on the side of their middle. -/
theorem nearer_iff_of_lt {a b r : ℚ} (h : a < b) :
    (|r - a| < |r - b| ↔ 2 * r < a + b) ∧ (|r - a| = |r - b| ↔ 2 * r = a + b) ∧
      (|r - b| < |r - a| ↔ a + b < 2 * r) := by
  rcases abs_cases (r - a) with ⟨ha, ha'⟩ | ⟨ha, ha'⟩ <;>
    rcases abs_cases (r - b) with ⟨hb, hb'⟩ | ⟨hb, hb'⟩ <;> rw [ha, hb] <;>
    refine ⟨⟨fun _ => ?_, fun _ => ?_⟩, ⟨fun _ => ?_, fun _ => ?_⟩, ⟨fun _ => ?_, fun _ => ?_⟩⟩ <;>
    linarith

theorem gapBelow_pos (x : Magnitude) : 0 < x.gapBelow := by
  unfold gapBelow
  split <;> positivity

theorem value_lt_above (x : Magnitude) : x.value < x.above := by
  have hpos : (0 : ℚ) < 2 ^ x.exponent := by positivity
  rw [value, above]
  linarith

theorem IsBinary.nonneg {y : ℚ} (hy : IsBinary y) : 0 ≤ y := by
  obtain ⟨m, e, -, -, rfl⟩ := hy
  positivity

theorem rounds_iff_mem {r : ℚ} (hr : 0 ≤ r) : x.Rounds r ↔ x.interval.Mem x.quarter r := by
  have hhigh := two_mul_high (x := x)
  have hclosed := interval_closed_iff (x := x)
  have habove := x.value_lt_above
  have hgap := x.gapBelow_pos
  constructor
  · intro h
    constructor
    · by_cases hx : x.significand = 0
      · -- there is nothing below zero
        have hzero : x.interval.low * x.quarter = 0 := by simp [interval, hx]
        rw [hzero]
        rcases hr.lt_or_eq with hpos | heq
        · exact .inl hpos
        · exact .inr ⟨heq, hclosed.2 (by rw [hx])⟩
      · have hlow := two_mul_low hx
        obtain ⟨-, heq, hmore⟩ := nearer_iff_of_lt (a := x.value - x.gapBelow) (b := x.value)
          (r := r) (by linarith)
        rcases h _ (isBinary_below hx) (by linarith) with hlt | ⟨hdist, heven⟩
        · exact .inl (by linarith [hmore.1 hlt])
        · exact .inr ⟨by linarith [heq.1 hdist.symm], hclosed.2 heven⟩
    · obtain ⟨hless, heq, -⟩ := nearer_iff_of_lt (r := r) habove
      rcases h _ (isBinary_above x) (by linarith) with hlt | ⟨hdist, heven⟩
      · exact .inl (by linarith [hless.1 hlt])
      · exact .inr ⟨by linarith [heq.1 hdist], hclosed.2 heven⟩
  · rintro ⟨hl, hh⟩ y hy hne
    rcases hy.le_below_or_above_le hne with hle | hle
    · have hx : x.significand ≠ 0 := by
        intro hx
        have hzero : x.value = 0 := by simp [value, hx]
        linarith [hy.nonneg]
      have hlow := two_mul_low hx
      obtain ⟨-, heq, hmore⟩ := nearer_iff_of_lt (a := y) (b := x.value) (r := r) (by linarith)
      rcases hl with hlt | ⟨hend, hc⟩
      · exact .inl (hmore.2 (by linarith))
      · rcases hle.lt_or_eq with hfar | rfl
        · exact .inl (hmore.2 (by linarith))
        · exact .inr ⟨(heq.2 (by linarith)).symm, hclosed.1 hc⟩
    · obtain ⟨hless, heq, -⟩ := nearer_iff_of_lt (a := x.value) (b := y) (r := r) (by linarith)
      rcases hh with hlt | ⟨hend, hc⟩
      · exact .inl (hless.2 (by linarith))
      · rcases hle.lt_or_eq with hfar | rfl
        · exact .inl (hless.2 (by linarith))
        · exact .inr ⟨heq.2 (by linarith), hclosed.1 hc⟩

/-! ## A number rounds to one magnitude at most -/

theorem value_lt_of_exponent_lt {x y : Magnitude} (h : x.exponent < y.exponent) :
    x.value < y.value := by
  have hfull : leadingBit ≤ y.significand := by
    have hmin := x.min_le
    exact y.full.resolve_left (by omega)
  have hlt : (x.significand : ℚ) < 2 * leadingBit := by exact_mod_cast x.significand_lt
  have hle : (leadingBit : ℚ) ≤ y.significand := by exact_mod_cast hfull
  have hpower : (2 : ℚ) ^ (x.exponent + 1) ≤ 2 ^ y.exponent := zpow_le_zpow_right₀ one_le_two h
  calc x.value < 2 * leadingBit * 2 ^ x.exponent := mul_lt_mul_of_pos_right hlt (by positivity)
    _ = leadingBit * 2 ^ (x.exponent + 1) := by rw [zpow_add_one₀ two_ne_zero]; ring
    _ ≤ y.value := mul_le_mul hle hpower (by positivity) (by positivity)

theorem eq_of_value_eq {x y : Magnitude} (h : x.value = y.value) : x = y := by
  have hexponent : x.exponent = y.exponent := by
    rcases lt_trichotomy x.exponent y.exponent with hlt | heq | hgt
    · exact absurd h (value_lt_of_exponent_lt hlt).ne
    · exact heq
    · exact absurd h (value_lt_of_exponent_lt hgt).ne'
  have hsignificand : x.significand = y.significand := by
    rw [value, value, hexponent] at h
    exact_mod_cast mul_right_cancel₀ (by positivity) h
  obtain ⟨m, e, _⟩ := x
  obtain ⟨m', e', _⟩ := y
  cases hexponent
  cases hsignificand
  rfl

/-- Of two neighbours one is odd. -/
theorem not_rounds_of_value_lt {x y : Magnitude} (hlt : x.value < y.value) {r : ℚ}
    (hx : x.Rounds r) : ¬ y.Rounds r := by
  intro hy
  obtain ⟨hless, heq, hmore⟩ := nearer_iff_of_lt (r := r) hlt
  obtain ⟨hmiddle, heven, heven'⟩ :
      2 * r = x.value + y.value ∧ x.significand % 2 = 0 ∧ y.significand % 2 = 0 := by
    rcases hx _ (isBinary_value y) hlt.ne' with hnear | ⟨hdist, heven⟩ <;>
      rcases hy _ (isBinary_value x) hlt.ne with hnear' | ⟨hdist', heven'⟩
    · linarith [hless.1 hnear, hmore.1 hnear']
    · linarith [hless.1 hnear, heq.1 hdist'.symm]
    · linarith [heq.1 hdist, hmore.1 hnear']
    · exact ⟨heq.1 hdist, heven, heven'⟩
  -- nothing lies between the two, so `y` comes next, and its significand is odd
  have habove : y.value = x.above := by
    rcases (isBinary_value y).le_below_or_above_le hlt.ne' with hle | hle
    · linarith [x.gapBelow_pos]
    · refine le_antisymm (not_lt.1 fun hfar => ?_) hle
      obtain ⟨hless', heq', -⟩ := nearer_iff_of_lt (r := r) x.value_lt_above
      rcases hx _ (isBinary_above x) x.value_lt_above.ne' with hnear | ⟨hdist, -⟩
      · linarith [hless'.1 hnear]
      · linarith [heq'.1 hdist]
  have hlast : x.significand + 1 < 2 * leadingBit := by
    have hbit : leadingBit = 4503599627370496 := rfl
    have hlt := x.significand_lt
    omega
  have hfull : x.exponent = minExponent ∨ leadingBit ≤ x.significand + 1 :=
    x.full.imp_right Nat.le_succ_of_le
  have hnext : y = ⟨x.significand + 1, x.exponent, hlast, x.min_le, x.le_max, hfull⟩ :=
    eq_of_value_eq (habove.trans (by simp [value, above]))
  rw [hnext] at heven'
  dsimp only at heven'
  omega

theorem Rounds.unique {x y : Magnitude} {r : ℚ} (hx : x.Rounds r) (hy : y.Rounds r) : x = y := by
  rcases lt_trichotomy x.value y.value with hlt | heq | hgt
  · exact absurd hy (not_rounds_of_value_lt hlt hx)
  · exact eq_of_value_eq heq
  · exact absurd hx (not_rounds_of_value_lt hgt hy)

/-! ## The nearest magnitude -/

/-- `q` is the whole number nearest to `v`, and the even one of two. -/
def NearestNat (v : ℚ) (q : ℕ) : Prop :=
  (q - 1 / 2 < v ∨ q - 1 / 2 = v ∧ q % 2 = 0) ∧ (v < q + 1 / 2 ∨ v = q + 1 / 2 ∧ q % 2 = 0)

theorem nearestNat_divRound (num : ℕ) {den : ℕ} (hden : 0 < den) :
    NearestNat (num / den) (divRound num den) := by
  have hden' : (0 : ℚ) < den := by exact_mod_cast hden
  have hsplit : (num : ℚ) / den = (num / den : ℕ) + ((num % den : ℕ) : ℚ) / den := by
    rw [div_eq_iff hden'.ne', add_mul, div_mul_cancel₀ _ hden'.ne']
    exact_mod_cast (Nat.div_add_mod' num den).symm
  have hnonneg : 0 ≤ ((num % den : ℕ) : ℚ) / den := by positivity
  have hlt : ((num % den : ℕ) : ℚ) / den < 1 := by
    rw [div_lt_one hden']
    exact_mod_cast Nat.mod_lt num hden
  have hhalf : ∀ {r : ℕ}, (2 * r < den ↔ (r : ℚ) / den < 1 / 2) ∧
      (2 * r = den ↔ (r : ℚ) / den = 1 / 2) := by
    intro r
    rw [div_lt_div_iff₀ hden' two_pos, div_eq_div_iff hden'.ne' two_ne_zero, one_mul,
      mul_comm (r : ℚ) 2]
    exact ⟨by exact_mod_cast Iff.rfl, by exact_mod_cast Iff.rfl⟩
  simp only [divRound]
  rw [hsplit]
  split
  · next hdown =>
    refine ⟨.inl (by linarith), ?_⟩
    rcases hdown with hless | ⟨heq, heven⟩
    · exact .inl (by linarith [hhalf.1.1 hless])
    · exact .inr ⟨by rw [hhalf.2.1 heq], heven⟩
  · next hup =>
    have hcast : ((num / den + 1 : ℕ) : ℚ) = (num / den : ℕ) + 1 := Nat.cast_succ _
    refine ⟨?_, .inl (by linarith)⟩
    have hge : (1 : ℚ) / 2 ≤ ((num % den : ℕ) : ℚ) / den :=
      not_lt.1 fun hless => hup (.inl (hhalf.1.2 hless))
    rcases hge.lt_or_eq with hmore | heq
    · exact .inl (by linarith)
    · have hodd : num / den % 2 ≠ 0 := fun heven => hup (.inr ⟨hhalf.2.2 heq.symm, heven⟩)
      exact .inr ⟨by linarith, by omega⟩

theorem shifted_pos (num : ℕ) {den : ℕ} (hden : 0 < den) (e : ℤ) : 0 < (shifted num den e).2 := by
  unfold shifted
  split
  · exact Nat.mul_pos hden (Nat.pow_pos (by decide))
  · exact hden

theorem shifted_eq (num den : ℕ) (e : ℤ) :
    ((shifted num den e).1 : ℚ) / (shifted num den e).2 = num / den / 2 ^ e := by
  unfold shifted
  split
  · next he =>
    obtain ⟨k, rfl⟩ := Int.eq_ofNat_of_zero_le he
    simp [div_div]
  · next he =>
    obtain ⟨k, rfl⟩ : ∃ k : ℕ, e = -(k : ℤ) := ⟨(-e).toNat, by omega⟩
    simp [div_eq_mul_inv, mul_right_comm]

theorem leadingBit_mul (e : ℤ) : (leadingBit : ℚ) * 2 ^ e = 2 ^ (e + 52) := by
  have hbit : (leadingBit : ℚ) = 2 ^ (52 : ℤ) := by
    rw [show leadingBit = 2 ^ 52 from rfl]
    norm_num
  rw [hbit, ← zpow_add₀ two_ne_zero, add_comm]

/-- The quotient of two numbers lies within a factor of two of the quotient of their first bits. -/
theorem div_bounds_log2 {num den : ℕ} (hnum : 0 < num) (hden : 0 < den) :
    (2 : ℚ) ^ ((num.log2 : ℤ) - den.log2 - 1) ≤ num / den ∧
      (num : ℚ) / den < 2 ^ ((num.log2 : ℤ) - den.log2 + 1) := by
  have hden' : (0 : ℚ) < den := by exact_mod_cast hden
  have hnum_ge : (2 : ℚ) ^ num.log2 ≤ num := by exact_mod_cast Nat.log2_self_le hnum.ne'
  have hnum_lt : (num : ℚ) < 2 ^ (num.log2 + 1) := by exact_mod_cast Nat.lt_log2_self (n := num)
  have hden_ge : (2 : ℚ) ^ den.log2 ≤ den := by exact_mod_cast Nat.log2_self_le hden.ne'
  have hden_le : (den : ℚ) ≤ 2 ^ (den.log2 + 1) := by
    exact_mod_cast (Nat.lt_log2_self (n := den)).le
  have hmul : ∀ (e : ℤ) (k l : ℕ), e + k = l → (2 : ℚ) ^ e * 2 ^ k = 2 ^ l := by
    intro e k l h
    rw [← zpow_natCast, ← zpow_natCast, ← zpow_add₀ two_ne_zero, h]
  rw [le_div_iff₀ hden', div_lt_iff₀ hden']
  constructor
  · calc (2 : ℚ) ^ ((num.log2 : ℤ) - den.log2 - 1) * den
        ≤ 2 ^ ((num.log2 : ℤ) - den.log2 - 1) * 2 ^ (den.log2 + 1) :=
          mul_le_mul_of_nonneg_left hden_le (by positivity)
      _ = 2 ^ num.log2 := hmul _ _ _ (by push_cast; omega)
      _ ≤ num := hnum_ge
  · calc (num : ℚ) < 2 ^ (num.log2 + 1) := hnum_lt
      _ = 2 ^ ((num.log2 : ℤ) - den.log2 + 1) * 2 ^ den.log2 :=
          (hmul _ _ _ (by push_cast; omega)).symm
      _ ≤ 2 ^ ((num.log2 : ℤ) - den.log2 + 1) * den :=
          mul_le_mul_of_nonneg_left hden_ge (by positivity)

/-- At this exponent the significand has 53 bits before it is rounded. -/
theorem unitExponent_spec {num den : ℕ} (hnum : 0 < num) (hden : 0 < den) :
    leadingBit * 2 ^ unitExponent num den ≤ (num : ℚ) / den ∧
      (num : ℚ) / den < 2 * (leadingBit * 2 ^ unitExponent num den) := by
  obtain ⟨hlow, hhigh⟩ := div_bounds_log2 hnum hden
  obtain ⟨e, he⟩ : ∃ e : ℤ, (num.log2 : ℤ) - den.log2 - 52 = e := ⟨_, rfl⟩
  have hdouble : ∀ i : ℤ, (2 : ℚ) ^ (i + 1) = 2 * 2 ^ i := fun i => by
    rw [zpow_add_one₀ two_ne_zero, mul_comm]
  have hcompare : (shifted num den e).1 < (shifted num den e).2 * leadingBit ↔
      (num : ℚ) / den < leadingBit * 2 ^ e := by
    have hpos : (0 : ℚ) < (shifted num den e).2 := by exact_mod_cast shifted_pos num hden e
    rw [← div_lt_iff₀ (by positivity), ← shifted_eq, div_lt_iff₀ hpos, mul_comm (leadingBit : ℚ)]
    exact_mod_cast Iff.rfl
  simp only [unitExponent, he, hcompare]
  split
  · next hless =>
    rw [leadingBit_mul] at hless ⊢
    rw [show e - 1 + 52 = (num.log2 : ℤ) - den.log2 - 1 by omega, ← hdouble]
    refine ⟨hlow, ?_⟩
    rwa [show (num.log2 : ℤ) - den.log2 - 1 + 1 = e + 52 by omega]
  · next hmore =>
    refine ⟨not_lt.1 hmore, ?_⟩
    rw [leadingBit_mul, ← hdouble]
    rwa [show e + 52 + 1 = (num.log2 : ℤ) - den.log2 + 1 by omega]

theorem ofParts?_eq (m : ℕ) (e : ℤ) (hm : m < 2 * leadingBit) (hmin : minExponent ≤ e)
    (hfull : e = minExponent ∨ leadingBit ≤ m) :
    ofParts? m e =
      if hmax : e ≤ maxExponent then some ⟨m, e, hm, hmin, hmax, hfull⟩ else none := by
  unfold ofParts?
  by_cases hmax : e ≤ maxExponent
  · rw [dif_pos ⟨⟨hm, hmin⟩, hmax, hfull⟩, dif_pos hmax]
  · rw [dif_neg fun h => hmax h.2.1, dif_neg hmax]

/-- A significand that was rounded without a carry. -/
theorem rounds_of_nearestNat {v : ℚ} (hv : 0 ≤ v) (h : NearestNat v x.significand)
    (hlow : minExponent < x.exponent → leadingBit ≤ v) : x.Rounds (v * 2 ^ x.exponent) := by
  have hquarter := x.quarter_pos
  rw [rounds_iff_mem (by positivity), two_zpow_exponent]
  constructor
  · by_cases hpower : x.significand = leadingBit ∧ minExponent < x.exponent
    · have hle := hlow hpower.2
      rw [interval_low_of_power hpower]
      exact .inl (by nlinarith)
    · by_cases hzero : x.significand = 0
      · have hend : (x.interval.low : ℚ) = 0 := by simp [interval, hzero]
        rw [hend, zero_mul]
        rcases hv.lt_or_eq with hpos | rfl
        · exact .inl (by positivity)
        · exact .inr ⟨by ring, interval_closed_iff.2 (by rw [hzero])⟩
      · rw [interval_low_of_not_power hzero hpower]
        rcases h.1 with hlt | ⟨heq, heven⟩
        · exact .inl (by nlinarith)
        · exact .inr ⟨by rw [← heq]; ring, interval_closed_iff.2 heven⟩
  · rw [interval_high]
    rcases h.2 with hlt | ⟨heq, heven⟩
    · exact .inl (by nlinarith)
    · exact .inr ⟨by rw [heq]; ring, interval_closed_iff.2 heven⟩

/-- A significand that was rounded up to 54 bits: the power of two is the next exponent's first. -/
theorem rounds_of_carry {v : ℚ} (hlow : 2 * leadingBit - 1 / 2 ≤ v) (hhigh : v < 2 * leadingBit)
    (hx : x.significand = leadingBit) (hmin : minExponent < x.exponent) :
    x.Rounds (v * 2 ^ (x.exponent - 1)) := by
  have hquarter := x.quarter_pos
  have hbit : (1 : ℚ) ≤ leadingBit := by norm_num [leadingBit]
  have hhalf : (2 : ℚ) ^ (x.exponent - 1) = 2 * x.quarter := by
    rw [quarter, ← zpow_one_add₀ two_ne_zero]
    congr 1
    omega
  rw [rounds_iff_mem (mul_nonneg (by linarith) (by positivity)), hhalf]
  constructor
  · rw [interval_low_of_power ⟨hx, hmin⟩]
    rcases hlow.lt_or_eq with hlt | rfl
    · exact .inl (by nlinarith)
    · exact .inr ⟨by ring, interval_closed_iff.2 (by rw [hx]; rfl)⟩
  · rw [interval_high, hx]
    exact .inl (by nlinarith)

/-- The middle between the largest magnitude and the next power of two. -/
def limit : ℚ := (4 * leadingBit - 1) * 2 ^ (maxExponent - 1)

theorem Rounds.lt_limit {r : ℚ} (hr : 0 ≤ r) (h : x.Rounds r) : r < limit := by
  have hquarter : 2 * x.quarter ≤ 2 ^ (maxExponent - 1) := by
    have hmax := x.le_max
    rw [quarter, ← zpow_one_add₀ two_ne_zero]
    exact zpow_le_zpow_right₀ one_le_two (by omega)
  have hpos := x.quarter_pos
  have hbound : ∀ {a b : ℚ}, 0 ≤ b → a ≤ 2 * b → a * x.quarter ≤ b * 2 ^ (maxExponent - 1) := by
    intro a b hb hab
    nlinarith
  have hbit : leadingBit = 4503599627370496 := rfl
  have hlt := x.significand_lt
  have hbit' : (1 : ℚ) ≤ leadingBit := by norm_num [leadingBit]
  unfold limit
  rcases ((rounds_iff_mem hr).1 h).2 with hless | ⟨heq, heven⟩
  · have hcast : (x.significand : ℚ) + 1 ≤ 2 * leadingBit := by exact_mod_cast hlt
    rw [interval_high] at hless
    exact hless.trans_le (hbound (by linarith) (by linarith))
  · -- the largest significand is odd
    have heven' := interval_closed_iff.1 heven
    have hcast : (x.significand : ℚ) + 2 ≤ 2 * leadingBit := by
      exact_mod_cast show x.significand + 2 ≤ 2 * leadingBit by omega
    have hle : (4 * x.significand + 2 : ℚ) * x.quarter ≤
        (4 * leadingBit - 3) * 2 ^ (maxExponent - 1) := hbound (by linarith) (by linarith)
    have hpower : (0 : ℚ) < 2 ^ (maxExponent - 1) := by positivity
    rw [heq, interval_high]
    linarith

/-- The exponent that the significand is rounded at. -/
theorem scaled_bounds {num den : ℕ} (hnum : 0 < num) (hden : 0 < den) {e : ℤ}
    (he : max minExponent (unitExponent num den) = e) :
    (num : ℚ) / den / 2 ^ e < 2 * leadingBit ∧
      (e = minExponent ∨ leadingBit ≤ (num : ℚ) / den / 2 ^ e) := by
  obtain ⟨hlow, hhigh⟩ := unitExponent_spec hnum hden
  have hpos : (0 : ℚ) < 2 ^ e := by positivity
  rw [div_lt_iff₀ hpos, le_div_iff₀ hpos]
  rcases le_total minExponent (unitExponent num den) with hle | hle
  · rw [max_eq_right hle] at he
    subst he
    exact ⟨by linarith, .inr hlow⟩
  · rw [max_eq_left hle] at he
    have hpower : (2 : ℚ) ^ unitExponent num den ≤ 2 ^ e := zpow_le_zpow_right₀ one_le_two (he ▸ hle)
    have hbit : (0 : ℚ) ≤ leadingBit := by positivity
    exact ⟨by nlinarith, .inl he.symm⟩

/-- What a rounded significand comes to: a magnitude, or none from the limit on. -/
theorem ofParts?_of_nearestNat {v : ℚ} {q : ℕ} {e : ℤ} (hv : 0 ≤ v) (hmin : minExponent ≤ e)
    (hfull : e = minExponent ∨ leadingBit ≤ v) (h : NearestNat v q) (hq : q < 2 * leadingBit) :
    (∃ x, ofParts? q e = some x ∧ x.Rounds (v * 2 ^ e)) ∨
      ofParts? q e = none ∧ limit ≤ v * 2 ^ e := by
  have hfull' : e = minExponent ∨ leadingBit ≤ q := by
    refine hfull.imp_right fun hle => ?_
    have hhigh : v ≤ q + 1 / 2 := h.2.elim le_of_lt fun h => h.1.le
    have hcast : (leadingBit : ℚ) < (q + 1 : ℕ) := by push_cast; linarith
    exact Nat.lt_succ_iff.1 (by exact_mod_cast hcast)
  rw [ofParts?_eq q e hq hmin hfull']
  by_cases hmax : e ≤ maxExponent
  · rw [dif_pos hmax]
    exact .inl ⟨_, rfl, rounds_of_nearestNat hv h fun hgt => hfull.resolve_left hgt.ne'⟩
  · rw [dif_neg hmax]
    refine .inr ⟨rfl, ?_⟩
    have hle : (leadingBit : ℚ) ≤ v :=
      hfull.resolve_left fun heq => hmax (heq ▸ (by decide : minExponent ≤ maxExponent))
    have hpower : 4 * (2 : ℚ) ^ (maxExponent - 1) ≤ 2 ^ e := by
      have hsplit : 4 * (2 : ℚ) ^ (maxExponent - 1) = 2 ^ (maxExponent + 1) := by
        rw [show maxExponent + 1 = 2 + (maxExponent - 1) by omega, zpow_add₀ two_ne_zero]
        norm_num
      rw [hsplit]
      exact zpow_le_zpow_right₀ one_le_two (by omega)
    have hpos : (0 : ℚ) < 2 ^ (maxExponent - 1) := by positivity
    unfold limit
    nlinarith

theorem ofParts?_of_carry {v : ℚ} {e : ℤ} (hmin : minExponent ≤ e)
    (hlow : 2 * leadingBit - 1 / 2 ≤ v) (hhigh : v < 2 * leadingBit) :
    (∃ x, ofParts? leadingBit (e + 1) = some x ∧ x.Rounds (v * 2 ^ e)) ∨
      ofParts? leadingBit (e + 1) = none ∧ limit ≤ v * 2 ^ e := by
  have hbit : leadingBit < 2 * leadingBit := by decide
  have hmin' : minExponent < e + 1 := by omega
  rw [ofParts?_eq leadingBit (e + 1) hbit hmin'.le (.inr le_rfl)]
  by_cases hmax : e + 1 ≤ maxExponent
  · rw [dif_pos hmax]
    have hrounds := rounds_of_carry (x := ⟨leadingBit, e + 1, hbit, hmin'.le, hmax, .inr le_rfl⟩)
      hlow hhigh rfl hmin'
    rw [Int.add_sub_cancel] at hrounds
    exact .inl ⟨_, rfl, hrounds⟩
  · rw [dif_neg hmax]
    refine .inr ⟨rfl, ?_⟩
    have hpower : 2 * (2 : ℚ) ^ (maxExponent - 1) ≤ 2 ^ e := by
      rw [← zpow_one_add₀ two_ne_zero]
      exact zpow_le_zpow_right₀ one_le_two (by omega)
    have hone : (1 : ℚ) ≤ leadingBit := by norm_num [leadingBit]
    calc limit = (2 * leadingBit - 1 / 2) * (2 * 2 ^ (maxExponent - 1)) := by rw [limit]; ring
      _ ≤ v * 2 ^ e := mul_le_mul hlow hpower (by positivity) (by linarith)

theorem nearest?_of_pos {num : ℕ} (den : ℕ) (hnum : 0 < num) {e : ℤ}
    (he : max minExponent (unitExponent num den) = e) {q : ℕ}
    (hq : divRound (shifted num den e).1 (shifted num den e).2 = q) :
    nearest? num den =
      if q < 2 * leadingBit then ofParts? q e else ofParts? leadingBit (e + 1) := by
  unfold nearest?
  rw [if_neg hnum.ne', he]
  dsimp only
  generalize shifted num den e = p at hq ⊢
  obtain ⟨n, d⟩ := p
  rw [← hq]

theorem nearest?_spec (num : ℕ) {den : ℕ} (hden : 0 < den) :
    (∃ x, nearest? num den = some x ∧ x.Rounds (num / den)) ∨
      nearest? num den = none ∧ limit ≤ (num : ℚ) / den := by
  rcases Nat.eq_zero_or_pos num with rfl | hnum
  · refine .inl ⟨zero, rfl, ?_⟩
    have hzero : ((0 : ℕ) : ℚ) / den = zero.value := by simp [value, zero]
    exact hzero ▸ zero.rounds_value
  · obtain ⟨e, he⟩ : ∃ e, max minExponent (unitExponent num den) = e := ⟨_, rfl⟩
    have hmin : minExponent ≤ e := he ▸ le_max_left _ _
    obtain ⟨v, hv⟩ : ∃ v : ℚ, v = num / den / 2 ^ e := ⟨_, rfl⟩
    obtain ⟨q, hq⟩ : ∃ q, divRound (shifted num den e).1 (shifted num den e).2 = q := ⟨_, rfl⟩
    have hnearest : NearestNat v q := by
      rw [hv, ← shifted_eq, ← hq]
      exact nearestNat_divRound _ (shifted_pos num hden e)
    have hvalue : (num : ℚ) / den = v * 2 ^ e := by
      rw [hv, div_mul_cancel₀ _ (by positivity)]
    obtain ⟨hhigh, hfull⟩ := scaled_bounds hnum hden he
    rw [← hv] at hhigh hfull
    rw [nearest?_of_pos den hnum he hq, hvalue]
    by_cases hcarry : q < 2 * leadingBit
    · rw [if_pos hcarry]
      exact ofParts?_of_nearestNat (by rw [hv]; positivity) hmin hfull hnearest hcarry
    · have hlow : (q : ℚ) - 1 / 2 ≤ v := hnearest.1.elim le_of_lt fun h => h.1.le
      have hcast : (2 * leadingBit : ℚ) ≤ q := by exact_mod_cast not_lt.1 hcarry
      rw [if_neg hcarry]
      exact ofParts?_of_carry hmin (by linarith) hhigh

/-- Rounding comes to the magnitude that the number rounds to, if there is one. -/
theorem nearest?_eq_some_iff {num den : ℕ} (hden : 0 < den) :
    nearest? num den = some x ↔ x.Rounds (num / den) := by
  have hr : (0 : ℚ) ≤ num / den := by positivity
  rcases nearest?_spec num hden with ⟨y, hy, hrounds⟩ | ⟨hnone, hlimit⟩
  · rw [hy, Option.some_inj]
    constructor
    · rintro rfl
      exact hrounds
    · exact hrounds.unique
  · rw [hnone]
    exact iff_of_false (by simp) fun h => absurd (h.lt_limit hr) (not_lt.2 hlimit)

end SyntaxToC.Magnitude
