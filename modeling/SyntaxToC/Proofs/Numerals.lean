import Mathlib.Tactic.FieldSimp
import SyntaxToC.Proofs.Shortest

/-!
# Numbers in decimal

The text of a number without an exponent: a whole number in decimal, or one followed by a point and
the digits of a fraction, the last of which is not zero (`IsNumeral`).  A number has one such text at
most (`IsNumeral.unique`), and `Decimal.positional` writes it:

    IsNumeral d.value d.positional                                    (isNumeral_positional)
-/

namespace SyntaxToC

/-- What the digits behind a point stand for. -/
def fractionValue : List Char → ℚ
  | [] => 0
  | c :: cs => ((c.toNat - '0'.toNat : ℕ) + fractionValue cs) / 10

/-- The digits of a fraction, none missing and none to spare. -/
structure IsFraction (cs : List Char) : Prop where
  digits : ∀ c ∈ cs, c.isDigit = true
  trimmed : cs.getLast? ≠ some '0'

/-- The text of a number in decimal. -/
inductive IsNumeral (r : ℚ) : String → Prop
  | whole {n : ℕ} : r = n → IsNumeral r (toString n)
  | fraction {n : ℕ} {cs : List Char} :
      cs ≠ [] → IsFraction cs → r = n + fractionValue cs →
      IsNumeral r (toString n ++ "." ++ String.ofList cs)

/-! ## A number has one text -/

theorem fractionValue_nonneg (cs : List Char) : 0 ≤ fractionValue cs := by
  induction cs with
  | nil => exact le_rfl
  | cons c cs ih =>
    rw [fractionValue]
    positivity

theorem isDigit_iff {c : Char} : c.isDigit = true ↔ '0'.toNat ≤ c.toNat ∧ c.toNat ≤ '0'.toNat + 9 := by
  simp [Char.isDigit, UInt32.le_iff_toNat_le]

theorem fractionValue_lt_one {cs : List Char} (h : ∀ c ∈ cs, c.isDigit = true) :
    fractionValue cs < 1 := by
  induction cs with
  | nil => exact zero_lt_one
  | cons c cs ih =>
    obtain ⟨hc, hcs⟩ := List.forall_mem_cons.1 h
    have hdigit : ((c.toNat - '0'.toNat : ℕ) : ℚ) ≤ 9 := by
      have hrange := isDigit_iff.1 hc
      exact_mod_cast show c.toNat - '0'.toNat ≤ 9 by omega
    rw [fractionValue]
    linarith [ih hcs]

namespace IsFraction

theorem tail {c : Char} {cs : List Char} (h : IsFraction (c :: cs)) : IsFraction cs := by
  refine ⟨(List.forall_mem_cons.1 h.digits).2, fun hlast => h.trimmed ?_⟩
  rw [List.getLast?_cons, hlast]
  rfl

theorem pos {cs : List Char} (h : IsFraction cs) (hne : cs ≠ []) : 0 < fractionValue cs := by
  induction cs with
  | nil => exact absurd rfl hne
  | cons c cs ih =>
    rw [fractionValue]
    cases cs with
    | nil =>
      have hrange := isDigit_iff.1 (h.digits c List.mem_cons_self)
      have hne : c.toNat ≠ '0'.toNat := fun heq => h.trimmed (by rw [Char.toNat_inj.1 heq]; rfl)
      have hpos : 0 < c.toNat - '0'.toNat := by omega
      rw [fractionValue, add_zero]
      positivity
    | cons c' cs =>
      have htail := ih h.tail (by simp)
      positivity

end IsFraction

/-- A whole part and a fraction are told apart. -/
theorem eq_of_add_eq {m n : ℕ} {a b : ℚ} (ha : 0 ≤ a ∧ a < 1) (hb : 0 ≤ b ∧ b < 1)
    (h : m + a = n + b) : m = n ∧ a = b := by
  have hle : ∀ {m n : ℕ} {a b : ℚ}, 0 ≤ a → b < 1 → m + a = n + b → m ≤ n := by
    intro m n a b ha hb h
    have hlt : (m : ℚ) < n + 1 := by linarith
    exact Nat.lt_succ_iff.1 (by exact_mod_cast hlt)
  have hmn : m = n := Nat.le_antisymm (hle ha.1 hb.2 h) (hle hb.1 ha.2 h.symm)
  refine ⟨hmn, ?_⟩
  rw [hmn] at h
  linarith

/-- The digits of a fraction are told by its value. -/
theorem IsFraction.unique {cs cs' : List Char} (h : IsFraction cs) (h' : IsFraction cs')
    (heq : fractionValue cs = fractionValue cs') : cs = cs' := by
  have hempty : ∀ {cs : List Char}, IsFraction cs → fractionValue cs = 0 → cs = [] := by
    intro cs h hzero
    by_contra hne
    exact absurd hzero (h.pos hne).ne'
  induction cs generalizing cs' with
  | nil => exact (hempty h' heq.symm).symm
  | cons c cs ih =>
    cases cs' with
    | nil => exact hempty h heq
    | cons c' cs' =>
      have hparts : ((c.toNat - '0'.toNat : ℕ) : ℚ) + fractionValue cs =
          (c'.toNat - '0'.toNat : ℕ) + fractionValue cs' := by
        rw [fractionValue, fractionValue] at heq
        linarith
      obtain ⟨hdigit, htail⟩ := eq_of_add_eq
        ⟨fractionValue_nonneg cs, fractionValue_lt_one h.tail.digits⟩
        ⟨fractionValue_nonneg cs', fractionValue_lt_one h'.tail.digits⟩ hparts
      have hrange := isDigit_iff.1 (h.digits c List.mem_cons_self)
      have hrange' := isDigit_iff.1 (h'.digits c' List.mem_cons_self)
      have hchar : c = c' := Char.toNat_inj.1 (by omega)
      rw [hchar, ih h.tail h'.tail htail]

theorem IsNumeral.unique {r : ℚ} {s s' : String} (h : IsNumeral r s) (h' : IsNumeral r s') :
    s = s' := by
  have hnone : (0 : ℚ) ≤ 0 ∧ (0 : ℚ) < 1 := ⟨le_rfl, zero_lt_one⟩
  have hsome : ∀ {cs : List Char}, IsFraction cs → 0 ≤ fractionValue cs ∧ fractionValue cs < 1 :=
    fun h => ⟨fractionValue_nonneg _, fractionValue_lt_one h.digits⟩
  cases h with
  | @whole n hn =>
    cases h' with
    | @whole n' hn' =>
      have heq : n = n' := by exact_mod_cast hn.symm.trans hn'
      rw [heq]
    | @fraction n' cs' hne' hcs' hn' =>
      have hparts : (n : ℚ) + 0 = n' + fractionValue cs' := by rw [add_zero, ← hn, ← hn']
      have hzero := (eq_of_add_eq hnone (hsome hcs') hparts).2
      exact absurd hzero (hcs'.pos hne').ne
  | @fraction n cs hne hcs hn =>
    cases h' with
    | @whole n' hn' =>
      have hparts : (n' : ℚ) + 0 = n + fractionValue cs := by rw [add_zero, ← hn, ← hn']
      have hzero := (eq_of_add_eq hnone (hsome hcs) hparts).2
      exact absurd hzero (hcs.pos hne).ne
    | @fraction n' cs' hne' hcs' hn' =>
      obtain ⟨hwhole, hfraction⟩ := eq_of_add_eq (hsome hcs) (hsome hcs') (hn.symm.trans hn')
      rw [hwhole, hcs.unique hcs' hfraction]

/-! ## Digits -/

theorem fractionValue_append (cs cs' : List Char) :
    fractionValue (cs ++ cs') = fractionValue cs + fractionValue cs' / 10 ^ cs.length := by
  induction cs with
  | nil => simp [fractionValue]
  | cons c cs ih =>
    rw [List.cons_append, fractionValue, fractionValue, ih, List.length_cons, pow_succ]
    field_simp
    ring

theorem fractionValue_zeros (n : ℕ) : fractionValue (Decimal.zeros n) = 0 := by
  induction n with
  | zero => rfl
  | succ n ih =>
    rw [Decimal.zeros, List.replicate_succ, fractionValue, ← Decimal.zeros, ih]
    simp

theorem fractionValue_toDigits (n : ℕ) :
    fractionValue (Nat.toDigits 10 n) = n / 10 ^ (Nat.toDigits 10 n).length := by
  have hdigit : ∀ d : ℕ, d < 10 → fractionValue [d.digitChar] = d / 10 := by
    intro d hd
    have hvalue : d.digitChar.toNat - '0'.toNat = d := Nat.toNat_digitChar_sub_48_of_lt_ten hd
    rw [fractionValue, fractionValue, hvalue, add_zero]
  induction n using Nat.strongRecOn with
  | ind n ih =>
    by_cases hn : n < 10
    · rw [Nat.toDigits_of_lt_base hn, hdigit n hn, List.length_singleton, pow_one]
    · have hsplit : ((10 * (n / 10) + n % 10 : ℕ) : ℚ) = n := by rw [Nat.div_add_mod]
      rw [Nat.toDigits_of_base_le (by decide) (by omega), fractionValue_append,
        ih (n / 10) (by omega), hdigit (n % 10) (by omega), List.length_append,
        List.length_singleton, pow_succ, ← hsplit]
      push_cast
      field_simp

/-- The digits in front of the last `k` are those of `n / 10 ^ k`. -/
theorem exists_toDigits_eq_append {n k : ℕ} (h : 10 ^ k ≤ n) :
    ∃ cs, Nat.toDigits 10 n = Nat.toDigits 10 (n / 10 ^ k) ++ cs ∧ cs.length = k := by
  induction k with
  | zero => exact ⟨[], by simp⟩
  | succ k ih =>
    obtain ⟨cs, hcs, hlength⟩ := ih (le_trans (Nat.pow_le_pow_right (by decide) k.le_succ) h)
    have hlarge : 10 ≤ n / 10 ^ k := by
      rw [Nat.le_div_iff_mul_le (by positivity)]
      rwa [Nat.pow_succ, Nat.mul_comm] at h
    refine ⟨(n / 10 ^ k % 10).digitChar :: cs, ?_, by rw [List.length_cons, hlength]⟩
    rw [hcs, Nat.toDigits_of_base_le (by decide) hlarge, Nat.div_div_eq_div_mul, ← Nat.pow_succ,
      List.append_assoc, List.singleton_append]

theorem toDigits_mul_pow {n : ℕ} (hn : 0 < n) (k : ℕ) :
    Nat.toDigits 10 (n * 10 ^ k) = Nat.toDigits 10 n ++ Decimal.zeros k := by
  induction k with
  | zero => simp [Decimal.zeros]
  | succ k ih =>
    have hpos : 0 < n * 10 ^ k := by positivity
    have hsplit : n * 10 ^ (k + 1) = n * 10 ^ k * 10 := by rw [Nat.pow_succ, Nat.mul_assoc]
    rw [hsplit, Nat.toDigits_of_base_le (by decide) (by omega), Nat.mul_div_cancel _ (by decide), ih,
      Nat.mul_mod_left, Decimal.zeros, Decimal.zeros, List.replicate_succ', List.append_assoc]
    rfl

theorem getLast?_toDigits (n : ℕ) :
    (Nat.toDigits 10 n).getLast? = some (n % 10).digitChar := by
  rw [Nat.toDigits_eq_if (by decide)]
  split
  · next hn => rw [Nat.mod_eq_of_lt hn]; rfl
  · rw [List.getLast?_concat]

/-! ## The text of a decimal -/

theorem positional_of_fraction {d : Decimal} {whole : String} {cs : List Char} (hne : cs ≠ [])
    (h : d.places = (whole, String.ofList cs)) :
    d.positional = whole ++ "." ++ String.ofList cs := by
  have hne' : String.ofList cs ≠ "" := by simpa using hne
  unfold Decimal.positional
  rw [h]
  split
  · next heq => exact absurd (Prod.mk.inj heq).2 hne'
  · next heq =>
    cases heq
    rfl

/-- Digits that end in the last digit of the decimal are those of a fraction. -/
theorem isFraction_of_getLast? {n : ℕ} (hlast : n % 10 ≠ 0) {cs : List Char}
    (hdigits : ∀ c ∈ cs, c.isDigit = true)
    (hcs : cs.getLast? = (Nat.toDigits 10 n).getLast?) : IsFraction cs := by
  refine ⟨hdigits, fun hzero => hlast ?_⟩
  rw [hcs, getLast?_toDigits, Option.some_inj] at hzero
  have hvalue : (n % 10).digitChar.toNat - '0'.toNat = n % 10 :=
    Nat.toNat_digitChar_sub_48_of_lt_ten (by omega)
  rw [← hvalue, hzero, Nat.sub_self]

section

variable {n k : ℕ}

theorem isDigit_toDigits : ∀ c ∈ Nat.toDigits 10 n, c.isDigit = true :=
  fun _ hc => Nat.isDigit_of_mem_toDigits (by decide) (by decide) hc

theorem value_neg : Decimal.value ⟨n, -(k : ℤ)⟩ = n / 10 ^ k := by
  rw [Decimal.value, zpow_neg, zpow_natCast, div_eq_mul_inv]

theorem places_neg (hk : 0 < k) :
    Decimal.places ⟨n, -(k : ℤ)⟩ =
      if k < (Nat.toDigits 10 n).length then
        (String.ofList ((Nat.toDigits 10 n).take ((Nat.toDigits 10 n).length - k)),
          String.ofList ((Nat.toDigits 10 n).drop ((Nat.toDigits 10 n).length - k)))
      else ("0", String.ofList
        (Decimal.zeros (k - (Nat.toDigits 10 n).length) ++ Nat.toDigits 10 n)) := by
  have hneg : ¬ 0 ≤ -(k : ℤ) := by omega
  simp only [Decimal.places, Decimal.digitChars, if_neg hneg, Int.neg_neg, Int.toNat_natCast]

/-- Zeros behind the digits. -/
theorem isNumeral_positional_whole (hn : 0 < n) :
    IsNumeral (Decimal.value ⟨n, k⟩) (Decimal.positional ⟨n, k⟩) := by
  have htext : Decimal.positional ⟨n, k⟩ = toString (n * 10 ^ k) := by
    rw [Nat.toString_eq_ofList_toDigits, toDigits_mul_pow hn]
    simp [Decimal.positional, Decimal.places, Decimal.digitChars]
  rw [htext]
  exact .whole (by simp [Decimal.value])

/-- The point among the digits. -/
theorem isNumeral_positional_inside (hk : 0 < k) (hlast : n % 10 ≠ 0) (hn : 10 ^ k ≤ n) :
    IsNumeral (Decimal.value ⟨n, -(k : ℤ)⟩) (Decimal.positional ⟨n, -(k : ℤ)⟩) := by
  obtain ⟨cs, hcs, hlength⟩ := exists_toDigits_eq_append hn
  have hne : cs ≠ [] := List.ne_nil_of_length_pos (hlength ▸ hk)
  have hplaces : Decimal.places ⟨n, -(k : ℤ)⟩ = (toString (n / 10 ^ k), String.ofList cs) := by
    have hfront : (Nat.toDigits 10 (n / 10 ^ k) ++ cs).length - k =
        (Nat.toDigits 10 (n / 10 ^ k)).length := by
      rw [List.length_append, hlength, Nat.add_sub_cancel]
    have hpos : 0 < (Nat.toDigits 10 (n / 10 ^ k)).length := Nat.length_toDigits_pos
    have hinside : k < (Nat.toDigits 10 n).length := by
      rw [hcs, List.length_append]
      omega
    rw [places_neg hk, if_pos hinside, hcs, hfront, List.take_left, List.drop_left,
      Nat.toString_eq_ofList_toDigits]
  rw [positional_of_fraction hne hplaces, value_neg]
  refine .fraction hne (isFraction_of_getLast? hlast ?_ ?_) ?_
  · exact fun c hc => isDigit_toDigits c (hcs ▸ List.mem_append_right _ hc)
  · rw [hcs, List.getLast?_append_of_ne_nil _ hne]
  · have hvalue := fractionValue_toDigits n
    rw [hcs, fractionValue_append, fractionValue_toDigits, List.length_append, hlength,
      pow_add] at hvalue
    field_simp at hvalue ⊢
    linarith

/-- The point in front of the digits, with zeros between. -/
theorem isNumeral_positional_in_front (hk : 0 < k) (hlast : n % 10 ≠ 0) (hn : n < 10 ^ k) :
    IsNumeral (Decimal.value ⟨n, -(k : ℤ)⟩) (Decimal.positional ⟨n, -(k : ℤ)⟩) := by
  have hlength : (Nat.toDigits 10 n).length ≤ k :=
    (Nat.length_toDigits_le_iff (by decide) hk).2 hn
  have hdigits : Nat.toDigits 10 n ≠ [] := Nat.toDigits_ne_nil
  have hne : Decimal.zeros (k - (Nat.toDigits 10 n).length) ++ Nat.toDigits 10 n ≠ [] :=
    List.append_ne_nil_of_right_ne_nil _ hdigits
  have hplaces : Decimal.places ⟨n, -(k : ℤ)⟩ = (toString 0, String.ofList
      (Decimal.zeros (k - (Nat.toDigits 10 n).length) ++ Nat.toDigits 10 n)) := by
    rw [places_neg hk, if_neg (Nat.not_lt.2 hlength)]
    rfl
  rw [positional_of_fraction hne hplaces, value_neg]
  refine .fraction hne (isFraction_of_getLast? hlast ?_ ?_) ?_
  · intro c hc
    rcases List.mem_append.1 hc with hzero | hc
    · rw [List.eq_of_mem_replicate hzero]
      rfl
    · exact isDigit_toDigits c hc
  · rw [List.getLast?_append_of_ne_nil _ hdigits]
  · have hpower : (10 : ℚ) ^ k = 10 ^ (Nat.toDigits 10 n).length *
        10 ^ (k - (Nat.toDigits 10 n).length) := by rw [← pow_add, Nat.add_sub_cancel' hlength]
    rw [fractionValue_append, fractionValue_zeros, fractionValue_toDigits, hpower, Decimal.zeros,
      List.length_replicate, div_div]
    simp

end

/-- The text of a decimal without a digit to spare behind the point. -/
theorem isNumeral_positional (d : Decimal) (hpos : 0 < d.digits)
    (hlast : d.exponent < 0 → d.digits % 10 ≠ 0) : IsNumeral d.value d.positional := by
  obtain ⟨n, e⟩ := d
  by_cases he : 0 ≤ e
  · obtain ⟨k, rfl⟩ := Int.eq_ofNat_of_zero_le he
    exact isNumeral_positional_whole hpos
  · obtain ⟨k, rfl⟩ : ∃ k : ℕ, e = -(k : ℤ) := ⟨(-e).toNat, by omega⟩
    have hmod : n % 10 ≠ 0 := hlast (not_le.1 he)
    rcases Nat.lt_or_ge n (10 ^ k) with hlt | hge
    · exact isNumeral_positional_in_front (by omega) hmod hlt
    · exact isNumeral_positional_inside (by omega) hmod hge

/-- The text that `Number.text` has for a magnitude. -/
theorem isNumeral_positional_shortest (x : Magnitude) (tie : Tie) :
    IsNumeral (x.shortest tie).value (x.shortest tie).positional := by
  by_cases hx : x.significand = 0
  · have hshortest : x.shortest tie = ⟨0, 0⟩ := by simp [Magnitude.shortest, Magnitude.isZero, hx]
    rw [hshortest]
    exact .whole (n := 0) (by simp [Decimal.value])
  · have h := x.isShortest_shortest tie
    exact isNumeral_positional _ (h.digits_pos hx) fun _ => h.digits_mod_ten_ne_zero hx

end SyntaxToC
