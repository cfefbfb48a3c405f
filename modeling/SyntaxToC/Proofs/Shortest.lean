import Mathlib.Tactic.LinearCombination
import SyntaxToC.Proofs.Rounding

/-!
# The shortest decimal of a magnitude

Among the decimals that round to a magnitude, `Magnitude.shortest` gives the one that lies on the
coarsest grid of powers of ten, and on this grid the one nearest to the magnitude, a tie going as
asked for (`IsShortest`).  There is only one such number (`IsShortest.value_unique`), and no decimal
with fewer digits rounds to the magnitude (`IsShortest.length_digitChars_le`).  Rounding it gives the
magnitude back (`nearest?_of_eq_shortest`).

One grid is settled by `Interval.pick?`.  A point of the grid in the interval, if there is one, can
be moved to one of the two points next to the magnitude, because the magnitude lies in the interval
as well.  `Interval.firstGrid` tries the grids one after another.
-/

namespace SyntaxToC

/-- The number itself. -/
def Decimal.value (d : Decimal) : ℚ := d.digits * 10 ^ d.exponent

theorem Decimal.value_nonneg (d : Decimal) : 0 ≤ d.value := by
  unfold value
  positivity

/-- How a tie goes: `d` is taken, and not `n` at the same distance. -/
def Tie.Prefers : Tie → (d n : ℕ) → Prop
  | .up, d, n => n < d
  | .even, d, _ => d % 2 = 0

/-- `d` is the decimal for `x`. -/
structure Decimal.IsShortest (d : Decimal) (tie : Tie) (x : Magnitude) : Prop where
  rounds : x.Rounds d.value
  coarsest : ∀ (n : ℕ) (k : ℤ), 0 < n → d.exponent < k → ¬ x.Rounds (n * 10 ^ k)
  nearest : ∀ n : ℕ, n ≠ d.digits → x.Rounds (n * 10 ^ d.exponent) →
    |d.value - x.value| < |n * 10 ^ d.exponent - x.value| ∨
      |d.value - x.value| = |n * 10 ^ d.exponent - x.value| ∧ tie.Prefers d.digits n

/-! ## One grid -/

/-- `p / q` is `unit / step`, so that whole numbers compare multiples of the unit with multiples of
the step. -/
structure Scales (p q : ℕ) (unit step : ℚ) : Prop where
  unit_pos : 0 < unit
  step_pos : 0 < step
  den_pos : 0 < q
  eq : p * step = q * unit

namespace Scales

variable {p q : ℕ} {unit step : ℚ} (h : Scales p q unit step) (a n : ℕ)

include h

theorem le_iff_of_mul_eq {i j : ℕ} {x y : ℚ} (hi : i * step = q * x) (hj : j * step = q * y) :
    i ≤ j ↔ x ≤ y := by
  have hq : (0 : ℚ) < q := by exact_mod_cast h.den_pos
  rw [← Nat.cast_le (α := ℚ), ← mul_le_mul_iff_left₀ h.step_pos, hi, hj, mul_le_mul_iff_right₀ hq]

theorem unit_eq : ((a * p : ℕ) : ℚ) * step = q * (a * unit) := by
  rw [Nat.cast_mul, mul_assoc, h.eq]
  ring

omit h in
theorem step_eq : ((n * q : ℕ) : ℚ) * step = q * (n * step) := by
  rw [Nat.cast_mul]
  ring

theorem le_iff : a * p ≤ n * q ↔ a * unit ≤ n * step :=
  h.le_iff_of_mul_eq (h.unit_eq a) (step_eq n)

theorem ge_iff : n * q ≤ a * p ↔ n * step ≤ a * unit :=
  h.le_iff_of_mul_eq (step_eq n) (h.unit_eq a)

theorem lt_iff : a * p < n * q ↔ a * unit < n * step := by
  rw [← not_le, ← not_le, h.ge_iff]

theorem gt_iff : n * q < a * p ↔ n * step < a * unit := by
  rw [← not_le, ← not_le, h.le_iff]

end Scales

theorem scales_gridStep (e k : ℤ) :
    Scales (gridStep e k).1 (gridStep e k).2 (2 ^ e) (10 ^ k) := by
  have hzpow : ∀ (b : ℕ) (i : ℤ), b ≠ 0 → (b : ℚ) ^ i.toNat = b ^ (-i).toNat * (b : ℚ) ^ i := by
    intro b i hb
    have hb' : (b : ℚ) ≠ 0 := by exact_mod_cast hb
    rw [← zpow_natCast, ← zpow_natCast, ← zpow_add₀ hb']
    congr 1
    omega
  refine ⟨by positivity, by positivity, ?_, ?_⟩
  · exact Nat.mul_pos (Nat.pow_pos (by decide)) (Nat.pow_pos (by decide))
  · have htwo := hzpow 2 e (by decide)
    have hten := hzpow 10 k (by decide)
    simp only [gridStep, Nat.pow_eq]
    push_cast at htwo hten ⊢
    rw [htwo, hten]
    ring

namespace Interval

variable {i : Interval} {tie : Tie} {p q : ℕ} {unit step : ℚ}

theorem contains_iff (h : Scales p q unit step) (n : ℕ) :
    i.contains p q n = true ↔ i.Mem unit (n * step) := by
  unfold contains Mem
  cases i.closed with
  | true =>
    simp only [if_true, Bool.and_eq_true, decide_eq_true_eq, h.le_iff, h.ge_iff, and_true,
      le_iff_lt_or_eq]
  | false =>
    simp only [Bool.false_eq_true, if_false, Bool.and_eq_true, decide_eq_true_eq, h.lt_iff, h.gt_iff,
      and_false, or_false]

/-- The value of the interval lies inside. -/
structure Proper (i : Interval) : Prop where
  low_lt : i.low < i.value
  lt_high : i.value < i.high

theorem Proper.mem_value (hi : i.Proper) (hunit : 0 < unit) : i.Mem unit (i.value * unit) := by
  have hlow : (i.low : ℚ) < i.value := by exact_mod_cast hi.low_lt
  have hhigh : (i.value : ℚ) < i.high := by exact_mod_cast hi.lt_high
  exact ⟨.inl (mul_lt_mul_of_pos_right hlow hunit), .inl (mul_lt_mul_of_pos_right hhigh hunit)⟩

/-- The value lies between the point `n` of the grid and the next. -/
structure Floor (i : Interval) (unit step : ℚ) (n : ℕ) : Prop where
  le : n * step ≤ i.value * unit
  lt : i.value * unit < (n + 1) * step

theorem floor_div (h : Scales p q unit step) : i.Floor unit step (i.value * p / q) := by
  have hlt : i.value * p < (i.value * p / q + 1) * q := by
    rw [Nat.add_mul, Nat.one_mul]
    exact Nat.lt_div_mul_add h.den_pos
  refine ⟨(h.ge_iff _ _).1 (Nat.div_mul_le_self _ _), ?_⟩
  exact_mod_cast (h.lt_iff _ _).1 hlt

namespace Floor

variable {f : ℕ} (hf : i.Floor unit step f)

include hf

theorem dist_of_le (hstep : 0 < step) {n : ℕ} (hn : n ≤ f) :
    |n * step - i.value * unit| = i.value * unit - n * step := by
  have hcast : (n : ℚ) * step ≤ f * step :=
    mul_le_mul_of_nonneg_right (by exact_mod_cast hn) hstep.le
  rw [abs_sub_comm, abs_of_nonneg (by linarith [hf.le])]

theorem dist_of_lt (hstep : 0 < step) {n : ℕ} (hn : f < n) :
    |n * step - i.value * unit| = n * step - i.value * unit := by
  have hcast : ((f : ℚ) + 1) * step ≤ n * step :=
    mul_le_mul_of_nonneg_right (by exact_mod_cast hn) hstep.le
  rw [abs_of_nonneg (by linarith [hf.lt])]

/-- A point in the interval can be moved next to the value. -/
theorem mem_or (hi : i.Proper) (h : Scales p q unit step) {n : ℕ} (hn : i.Mem unit (n * step)) :
    (n ≤ f → i.Mem unit (f * step)) ∧ (f < n → i.Mem unit ((f + 1 : ℕ) * step)) := by
  have hvalue := hi.mem_value h.unit_pos
  constructor
  · intro hle
    exact hn.between hvalue (mul_le_mul_of_nonneg_right (by exact_mod_cast hle) h.step_pos.le) hf.le
  · intro hlt
    have hle : ((f + 1 : ℕ) : ℚ) * step ≤ n * step :=
      mul_le_mul_of_nonneg_right (by exact_mod_cast hlt) h.step_pos.le
    exact hvalue.between hn (by push_cast; exact hf.lt.le) hle

end Floor

/-- The point to take on a grid. -/
structure Best (i : Interval) (tie : Tie) (unit step : ℚ) (d : ℕ) : Prop where
  mem : i.Mem unit (d * step)
  nearest : ∀ n : ℕ, n ≠ d → i.Mem unit (n * step) →
    |d * step - i.value * unit| < |n * step - i.value * unit| ∨
      |d * step - i.value * unit| = |n * step - i.value * unit| ∧ tie.Prefers d n

section

variable (hi : i.Proper) (h : Scales p q unit step) {f : ℕ} (hf : i.Floor unit step f)

include hi h hf

theorem best_floor (hmem : i.Mem unit (f * step))
    (hother : ¬ i.Mem unit ((f + 1 : ℕ) * step) ∨
      2 * (i.value * unit) < (2 * f + 1) * step ∨
      2 * (i.value * unit) = (2 * f + 1) * step ∧ tie.Prefers f (f + 1)) :
    i.Best tie unit step f := by
  have hpos := h.step_pos
  refine ⟨hmem, fun n hne hn => ?_⟩
  rw [hf.dist_of_le hpos le_rfl]
  rcases Nat.lt_or_gt_of_ne hne with hlt | hgt
  · have hless : (n : ℚ) * step < f * step :=
      mul_lt_mul_of_pos_right (by exact_mod_cast hlt) hpos
    rw [hf.dist_of_le hpos hlt.le]
    exact .inl (by linarith)
  · have hmore : ((f : ℚ) + 1) * step ≤ n * step :=
      mul_le_mul_of_nonneg_right (by exact_mod_cast hgt) hpos.le
    rw [hf.dist_of_lt hpos hgt]
    rcases hother with hout | hless | ⟨hmiddle, hprefers⟩
    · exact absurd ((hf.mem_or hi h hn).2 hgt) hout
    · exact .inl (by linarith)
    · rcases Nat.lt_or_eq_of_le hgt with hfar | rfl
      · have hfar' : ((f : ℚ) + 1) * step < n * step :=
          mul_lt_mul_of_pos_right (by exact_mod_cast hfar) hpos
        exact .inl (by linarith)
      · exact .inr ⟨by push_cast; linarith, hprefers⟩

theorem best_succ (hmem : i.Mem unit ((f + 1 : ℕ) * step))
    (hother : ¬ i.Mem unit (f * step) ∨ (2 * f + 1) * step < 2 * (i.value * unit) ∨
      2 * (i.value * unit) = (2 * f + 1) * step ∧ tie.Prefers (f + 1) f) :
    i.Best tie unit step (f + 1) := by
  have hpos := h.step_pos
  refine ⟨hmem, fun n hne hn => ?_⟩
  rw [hf.dist_of_lt hpos (Nat.lt_succ_self f)]
  push_cast
  rcases Nat.lt_or_gt_of_ne hne with hlt | hgt
  · have hle : n ≤ f := Nat.le_of_lt_succ hlt
    have hless : (n : ℚ) * step ≤ f * step :=
      mul_le_mul_of_nonneg_right (by exact_mod_cast hle) hpos.le
    rw [hf.dist_of_le hpos hle]
    rcases hother with hout | hmore | ⟨hmiddle, hprefers⟩
    · exact absurd ((hf.mem_or hi h hn).1 hle) hout
    · exact .inl (by linarith)
    · rcases Nat.lt_or_eq_of_le hle with hfar | rfl
      · have hfar' : (n : ℚ) * step < f * step :=
          mul_lt_mul_of_pos_right (by exact_mod_cast hfar) hpos
        exact .inl (by linarith)
      · exact .inr ⟨by linarith, hprefers⟩
  · have hmore : ((f : ℚ) + 1) * step < n * step :=
      mul_lt_mul_of_pos_right (by exact_mod_cast hgt) hpos
    rw [hf.dist_of_lt hpos (Nat.lt_of_succ_lt hgt)]
    exact .inl (by linarith)

end

theorem not_mem_of_pick?_eq_none (hi : i.Proper) (h : Scales p q unit step)
    (hnone : i.pick? tie p q = none) (n : ℕ) : ¬ i.Mem unit (n * step) := by
  have hf : i.Floor unit step (i.value * p / q) := floor_div h
  unfold pick? at hnone
  generalize i.value * p / q = f at hnone hf
  intro hn
  obtain ⟨hlow, hhigh⟩ := hf.mem_or hi h hn
  rcases Nat.lt_or_ge f n with hgt | hle
  · dsimp only at hnone
    rw [(contains_iff h (f + 1)).2 (hhigh hgt)] at hnone
    cases hcontains : i.contains p q f <;> rw [hcontains] at hnone <;> grind
  · dsimp only at hnone
    rw [(contains_iff h f).2 (hlow hle)] at hnone
    cases hcontains : i.contains p q (f + 1) <;> rw [hcontains] at hnone <;> grind

theorem best_of_pick? (hi : i.Proper) (h : Scales p q unit step) {d : ℕ}
    (hd : i.pick? tie p q = some d) : i.Best tie unit step d := by
  have hf : i.Floor unit step (i.value * p / q) := floor_div h
  unfold pick? at hd
  generalize i.value * p / q = f at hd hf
  have hlow := contains_iff (i := i) h f
  have hhigh := contains_iff (i := i) h (f + 1)
  have hless : 2 * (i.value * p) < (2 * f + 1) * q ↔
      2 * (i.value * unit) < (2 * f + 1) * step := by
    rw [← Nat.mul_assoc, ← mul_assoc]
    exact_mod_cast h.lt_iff (2 * i.value) (2 * f + 1)
  have hmore : (2 * f + 1) * q < 2 * (i.value * p) ↔
      (2 * f + 1) * step < 2 * (i.value * unit) := by
    rw [← Nat.mul_assoc, ← mul_assoc]
    exact_mod_cast h.gt_iff (2 * i.value) (2 * f + 1)
  dsimp only at hd
  cases hc : i.contains p q f <;> cases hc' : i.contains p q (f + 1) <;>
    rw [hc, hc'] at hd <;> dsimp only at hd <;> rw [hc] at hlow <;> rw [hc'] at hhigh
  · cases hd
  · cases hd
    exact best_succ hi h hf (hhigh.1 rfl) (.inl fun hmem => by simpa using hlow.2 hmem)
  · cases hd
    exact best_floor hi h hf (hlow.1 rfl) (.inl fun hmem => by simpa using hhigh.2 hmem)
  · -- both points lie in the interval, so the distances decide
    cases hcompare : compare (2 * (i.value * p)) ((2 * f + 1) * q) with
    | lt =>
      rw [hcompare] at hd
      cases hd
      exact best_floor hi h hf (hlow.1 rfl) (.inr (.inl (hless.1 (Nat.compare_eq_lt.1 hcompare))))
    | gt =>
      rw [hcompare] at hd
      cases hd
      exact best_succ hi h hf (hhigh.1 rfl) (.inr (.inl (hmore.1 (Nat.compare_eq_gt.1 hcompare))))
    | eq =>
      have heq := Nat.compare_eq_eq.1 hcompare
      have hmiddle : 2 * (i.value * unit) = (2 * f + 1) * step :=
        le_antisymm (not_lt.1 fun hgt => by have := hmore.2 hgt; omega)
          (not_lt.1 fun hlt => by have := hless.2 hlt; omega)
      rw [hcompare] at hd
      cases tie with
      | up =>
        cases hd
        exact best_succ hi h hf (hhigh.1 rfl) (.inr (.inr ⟨hmiddle, Nat.lt_succ_self f⟩))
      | even =>
        dsimp only at hd
        split at hd
        · next heven =>
          cases hd
          exact best_floor hi h hf (hlow.1 rfl) (.inr (.inr ⟨hmiddle, heven⟩))
        · next hodd =>
          cases hd
          refine best_succ hi h hf (hhigh.1 rfl) (.inr (.inr ⟨hmiddle, ?_⟩))
          show (f + 1) % 2 = 0
          omega

/-! ## The grids in turn -/

/-- The grid that the search stops at, if one of the grids to try has a point in the interval. -/
theorem firstGrid_spec (tie : Tie) (e : ℤ) (hi : i.Proper) {steps : ℕ} {k : ℤ}
    (hsome : ∃ j : ℤ, k - steps < j ∧ j ≤ k ∧ ∃ n : ℕ, i.Mem (2 ^ e) (n * 10 ^ j)) :
    i.Best tie (2 ^ e) (10 ^ (i.firstGrid tie e steps k).exponent) (i.firstGrid tie e steps k).digits ∧
      ∀ j, (i.firstGrid tie e steps k).exponent < j → j ≤ k →
        ∀ n : ℕ, ¬ i.Mem (2 ^ e) (n * 10 ^ j) := by
  induction steps generalizing k with
  | zero =>
    obtain ⟨j, hlow, hhigh, -⟩ := hsome
    omega
  | succ steps ih =>
    cases hpick : i.pick? tie (gridStep e k).1 (gridStep e k).2 with
    | some d =>
      have hfirst : i.firstGrid tie e (steps + 1) k = ⟨d, k⟩ := by simp [firstGrid, hpick]
      rw [hfirst]
      exact ⟨best_of_pick? hi (scales_gridStep e k) hpick,
        fun j hlow hhigh => absurd hhigh (not_le.2 hlow)⟩
    | none =>
      have hfirst : i.firstGrid tie e (steps + 1) k = i.firstGrid tie e steps (k - 1) := by
        simp [firstGrid, hpick]
      have hempty := not_mem_of_pick?_eq_none hi (scales_gridStep e k) hpick
      obtain ⟨j, hlow, hhigh, n, hn⟩ := hsome
      have hne : j ≠ k := by
        rintro rfl
        exact hempty n hn
      push_cast at hlow
      obtain ⟨hbest, hcoarser⟩ := ih (k := k - 1) ⟨j, by omega, by omega, n, hn⟩
      rw [hfirst]
      refine ⟨hbest, fun j' hlow' hhigh' => ?_⟩
      rcases Int.lt_or_eq_of_le hhigh' with hlt | rfl
      · exact hcoarser j' hlow' (by omega)
      · exact hempty

end Interval

/-! ## The shortest decimal -/

namespace Magnitude

variable {x : Magnitude}

theorem proper_interval (hx : x.significand ≠ 0) : x.interval.Proper := by
  constructor
  · simp only [interval]
    split <;> omega
  · simp only [interval]
    omega

theorem interval_low_pos (hx : x.significand ≠ 0) : 0 < x.interval.low := by
  simp only [interval]
  split <;> omega

/-- Every number that rounds to a magnitude lies below `10 ^ 309`. -/
theorem lt_of_mem {r : ℚ} (h : x.interval.Mem x.quarter r) : r < 10 ^ (309 : ℤ) := by
  have hhigh : r ≤ x.interval.high * x.quarter := by
    rcases h.2 with hlt | ⟨heq, -⟩
    · exact hlt.le
    · exact heq.le
  have hsignificand : (x.interval.high : ℚ) ≤ 2 ^ 55 := by
    have hlt := x.significand_lt
    have hbit : leadingBit = 2 ^ 52 := rfl
    have hnat : x.interval.high ≤ 2 ^ 55 := by
      simp only [interval]
      omega
    exact_mod_cast hnat
  have hquarter : x.quarter ≤ 2 ^ 969 := by
    have hmax := x.le_max
    have hmax' : maxExponent = 971 := rfl
    rw [quarter, ← zpow_natCast]
    exact zpow_le_zpow_right₀ one_le_two (by push_cast; omega)
  calc r ≤ x.interval.high * x.quarter := hhigh
    _ ≤ 2 ^ 55 * 2 ^ 969 := mul_le_mul hsignificand hquarter x.quarter_pos.le (by positivity)
    _ < 10 ^ (309 : ℤ) := by
      have hnat : 2 ^ 55 * 2 ^ 969 < 10 ^ 309 := by decide +kernel
      exact_mod_cast hnat

/-- A magnitude with an exponent of at least `-b` lies on the grid `10 ^ (-b)`. -/
theorem exists_value_eq_grid {b : ℕ} (hb : -(b : ℤ) ≤ x.exponent) :
    ∃ n : ℕ, x.value = n * 10 ^ (-(b : ℤ)) := by
  refine ⟨x.significand * (2 ^ (x.exponent + b).toNat * 5 ^ b), ?_⟩
  have htwo : (2 : ℚ) ^ x.exponent = 2 ^ (x.exponent + b).toNat * 2 ^ (-(b : ℤ)) := by
    rw [← zpow_natCast, ← zpow_add₀ two_ne_zero]
    congr 1
    omega
  have hten : (10 : ℚ) ^ (-(b : ℤ)) = 2 ^ (-(b : ℤ)) * 5 ^ (-(b : ℤ)) := by
    rw [← mul_zpow]
    norm_num
  have hfive : (5 : ℚ) ^ b * 5 ^ (-(b : ℤ)) = 1 := by
    rw [zpow_neg, zpow_natCast]
    exact mul_inv_cancel₀ (by positivity)
  rw [value, htwo, hten]
  push_cast
  linear_combination -(x.significand : ℚ) * (2 ^ (x.exponent + b).toNat * 2 ^ (-(b : ℤ))) * hfive

/-- Zero rounds to no magnitude but zero. -/
theorem not_rounds_zero (hx : x.significand ≠ 0) : ¬ x.Rounds 0 := by
  intro h
  have hlow : (0 : ℚ) < x.interval.low := by exact_mod_cast interval_low_pos hx
  have hpos := mul_pos hlow x.quarter_pos
  rcases ((rounds_iff_mem le_rfl).1 h).1 with hlt | ⟨heq, -⟩ <;> linarith

/-- No decimal other than zero on a grid of whole numbers rounds to zero. -/
theorem not_rounds_of_significand_eq_zero (hx : x.significand = 0) {n : ℕ} (hn : 0 < n) {k : ℤ}
    (hk : 0 < k) : ¬ x.Rounds (n * 10 ^ k) := by
  intro h
  have hvalue : x.value = 0 := by simp [value, hx]
  have hone : IsBinary 1 := ⟨1, 0, by decide, by decide, by simp⟩
  have hr : (1 : ℚ) < n * 10 ^ k := by
    have hn' : (1 : ℚ) ≤ n := by exact_mod_cast hn
    have hten : (1 : ℚ) < 10 ^ k := one_lt_zpow₀ (by norm_num) hk
    nlinarith
  have hdist := h 1 hone (by rw [hvalue]; norm_num)
  rw [hvalue, sub_zero, abs_of_pos (by linarith), abs_of_pos (by linarith)] at hdist
  rcases hdist with hlt | ⟨heq, -⟩ <;> linarith

theorem isShortest_shortest (x : Magnitude) (tie : Tie) : (x.shortest tie).IsShortest tie x := by
  by_cases hx : x.significand = 0
  · have hshortest : x.shortest tie = ⟨0, 0⟩ := by simp [shortest, isZero, hx]
    have hvalue : x.value = Decimal.value ⟨0, 0⟩ := by simp [value, Decimal.value, hx]
    rw [hshortest]
    refine ⟨hvalue ▸ x.rounds_value, fun n k hn hk => not_rounds_of_significand_eq_zero hx hn hk,
      fun n hn _ => .inl ?_⟩
    rw [hvalue, sub_self, abs_zero, abs_pos, Decimal.value]
    simpa using hn
  · have hshortest : x.shortest tie = x.interval.firstGrid tie (x.exponent - 2) 1384 309 := by
      simp [shortest, isZero, hx]
    have hgrid : ∃ j : ℤ, 309 - (1384 : ℕ) < j ∧ j ≤ 309 ∧
        ∃ n : ℕ, x.interval.Mem (2 ^ (x.exponent - 2)) (n * 10 ^ j) := by
      obtain ⟨n, hn⟩ := exists_value_eq_grid (b := 1074) x.min_le
      have hmem := (rounds_iff_mem x.value_nonneg).1 x.rounds_value
      exact ⟨-1074, by decide, by decide, n, hn ▸ hmem⟩
    obtain ⟨hbest, hcoarser⟩ :=
      Interval.firstGrid_spec tie (x.exponent - 2) (proper_interval hx) hgrid
    rw [← hshortest] at hbest hcoarser
    refine ⟨(rounds_iff_mem (Decimal.value_nonneg _)).2 hbest.mem, fun n k hn hk hrounds => ?_,
      fun n hne hrounds => ?_⟩
    · have hmem := (rounds_iff_mem (by positivity)).1 hrounds
      rcases lt_or_ge 309 k with hlarge | hsmall
      · have hn' : (1 : ℚ) ≤ n := by exact_mod_cast hn
        have hten : (10 : ℚ) ^ (309 : ℤ) ≤ 10 ^ k := zpow_le_zpow_right₀ (by norm_num) hlarge.le
        exact absurd (lt_of_mem hmem)
          (not_lt.2 (hten.trans (le_mul_of_one_le_left (by positivity) hn')))
      · exact hcoarser k hk hsmall n hmem
    · have hnearest := hbest.nearest n hne ((rounds_iff_mem (by positivity)).1 hrounds)
      rwa [← show x.value = x.interval.value * 2 ^ (x.exponent - 2) from x.value_eq] at hnearest

/-- The shortest decimal reads back: rounded, it is the magnitude again. -/
theorem nearest?_of_eq_shortest {tie : Tie} {num den : ℕ} (hden : 0 < den)
    (h : (num : ℚ) / den = (x.shortest tie).value) : nearest? num den = some x :=
  (nearest?_eq_some_iff hden).2 (h ▸ (x.isShortest_shortest tie).rounds)

theorem Rounds.between {a r b : ℚ} (ha : x.Rounds a) (hb : x.Rounds b) (hpos : 0 ≤ a) (har : a ≤ r)
    (hrb : r ≤ b) : x.Rounds r :=
  (rounds_iff_mem (hpos.trans har)).2 (((rounds_iff_mem hpos).1 ha).between
    ((rounds_iff_mem (hpos.trans (har.trans hrb))).1 hb) har hrb)

end Magnitude

/-! ## What it comes to -/

namespace Decimal.IsShortest

variable {d d' : Decimal} {tie : Tie} {x : Magnitude}

theorem digits_pos (h : d.IsShortest tie x) (hx : x.significand ≠ 0) : 0 < d.digits := by
  refine Nat.pos_of_ne_zero fun hzero => Magnitude.not_rounds_zero hx ?_
  have hrounds := h.rounds
  rwa [Decimal.value, hzero, Nat.cast_zero, zero_mul] at hrounds

/-- The last digit is not zero: without it the decimal would lie on a coarser grid. -/
theorem digits_mod_ten_ne_zero (h : d.IsShortest tie x) (hx : x.significand ≠ 0) :
    d.digits % 10 ≠ 0 := by
  intro hmod
  have hpos := h.digits_pos hx
  have hten : d.digits = d.digits / 10 * 10 := by omega
  refine h.coarsest (d.digits / 10) (d.exponent + 1) (by omega) (by omega) ?_
  have hvalue : d.value = (d.digits / 10 : ℕ) * 10 ^ (d.exponent + 1) := by
    rw [Decimal.value, zpow_add_one₀ (by norm_num)]
    nth_rewrite 1 [hten]
    push_cast
    ring
  exact hvalue ▸ h.rounds

/-- No decimal with fewer digits rounds to the magnitude. -/
theorem length_digitChars_le (h : d.IsShortest tie x) (hx : x.significand ≠ 0)
    (hd' : x.Rounds d'.value) : d.digitChars.length ≤ d'.digitChars.length := by
  by_contra hlt
  -- between the two numbers there is a power of ten, which lies on a coarser grid
  obtain ⟨l, hl⟩ : ∃ l, d'.digitChars.length = l := ⟨_, rfl⟩
  have hl_pos : 0 < l := hl ▸ Nat.length_toDigits_pos
  have hless : d'.digits < 10 ^ l := (Nat.length_toDigits_le_iff (by decide) hl_pos).1 hl.le
  have hmore : 10 ^ l ≤ d.digits := by
    refine not_lt.1 fun hsmall => hlt ?_
    exact ((Nat.length_toDigits_le_iff (by decide) hl_pos).2 hsmall).trans hl.ge
  have hpos : 0 < d'.digits := by
    refine Nat.pos_of_ne_zero fun hzero => Magnitude.not_rounds_zero hx ?_
    rwa [Decimal.value, hzero, Nat.cast_zero, zero_mul] at hd'
  have hexponent : d'.exponent ≤ d.exponent :=
    not_lt.1 fun hfiner => h.coarsest d'.digits d'.exponent hpos hfiner hd'
  have hpower : (10 : ℚ) ^ (d.exponent + l) = 10 ^ l * 10 ^ d.exponent := by
    rw [zpow_add₀ (by norm_num), zpow_natCast]
    ring
  refine h.coarsest 1 (d.exponent + l) Nat.one_pos (by omega) ?_
  rw [Nat.cast_one, one_mul, hpower]
  refine hd'.between h.rounds d'.value_nonneg ?_ ?_
  · have hcast : (d'.digits : ℚ) ≤ 10 ^ l := by exact_mod_cast hless.le
    have hgrid : (10 : ℚ) ^ d'.exponent ≤ 10 ^ d.exponent :=
      zpow_le_zpow_right₀ (by norm_num) hexponent
    exact mul_le_mul hcast hgrid (by positivity) (by positivity)
  · have hcast : (10 : ℚ) ^ l ≤ d.digits := by exact_mod_cast hmore
    exact mul_le_mul_of_nonneg_right hcast (by positivity)

/-- A decimal on a finer grid than another one: both are zero. -/
theorem value_eq_zero_of_lt (h : d.IsShortest .up x) (h' : d'.IsShortest .up x)
    (hlt : d.exponent < d'.exponent) : d.value = 0 ∧ d'.value = 0 := by
  have hzero : d'.digits = 0 :=
    Nat.eq_zero_of_not_pos fun hpos => h.coarsest _ _ hpos hlt h'.rounds
  have hvalue' : d'.value = 0 := by rw [Decimal.value, hzero, Nat.cast_zero, zero_mul]
  have hrounds : x.Rounds 0 := hvalue' ▸ h'.rounds
  have hx : x.significand = 0 := by
    by_contra hx
    exact Magnitude.not_rounds_zero hx hrounds
  have hvalue : x.value = 0 := by simp [Magnitude.value, hx]
  refine ⟨?_, hvalue'⟩
  by_cases hdigits : d.digits = 0
  · rw [Decimal.value, hdigits, Nat.cast_zero, zero_mul]
  · have hnearest := h.nearest 0 (Ne.symm hdigits) (by simpa using hrounds)
    rw [hvalue, Nat.cast_zero, zero_mul, sub_zero, sub_zero, abs_zero] at hnearest
    rcases hnearest with hneg | ⟨hzero, -⟩
    · exact absurd hneg (not_lt.2 (abs_nonneg _))
    · exact abs_eq_zero.1 hzero

theorem value_unique (h : d.IsShortest .up x) (h' : d'.IsShortest .up x) : d.value = d'.value := by
  rcases lt_trichotomy d.exponent d'.exponent with hlt | heq | hgt
  · obtain ⟨hzero, hzero'⟩ := h.value_eq_zero_of_lt h' hlt
    rw [hzero, hzero']
  · have hvalue : d.value = d.digits * 10 ^ d'.exponent := by rw [Decimal.value, heq]
    have hvalue' : d'.value = d'.digits * 10 ^ d.exponent := by rw [Decimal.value, heq]
    by_cases hdigits : d.digits = d'.digits
    · rw [hvalue, hdigits, Decimal.value]
    · -- each of the two would be nearer, or the greater one of two at the same distance
      have hnearest := h.nearest d'.digits (Ne.symm hdigits) (hvalue' ▸ h'.rounds)
      have hnearest' := h'.nearest d.digits hdigits (hvalue ▸ h.rounds)
      rw [← hvalue'] at hnearest
      rw [← hvalue] at hnearest'
      simp only [Tie.Prefers] at hnearest hnearest'
      rcases hnearest with hlt | ⟨hdist, hlt⟩ <;> rcases hnearest' with hlt' | ⟨hdist', hlt'⟩
      · exact absurd hlt' (not_lt.2 hlt.le)
      · exact absurd hlt hdist'.not_gt
      · exact absurd hlt' hdist.not_gt
      · omega
  · obtain ⟨hzero', hzero⟩ := h'.value_eq_zero_of_lt h hgt
    rw [hzero, hzero']

end Decimal.IsShortest

end SyntaxToC
