import Mathlib.Algebra.Order.BigOperators.Group.List
import Mathlib.Data.List.Perm.Subperm
import SyntaxToC.Proofs.Truncation

/-!
# The weight of what is read

The weight of a JSON value counts the values in it and the bytes of their texts, where numbers and
flags have the text that a literal of them would have.  Reading a text gives no value that is much
heavier than the text is long:

    read text = .ok v → v.weight ≤ growth * (text.toList.length + 1)            (weight_le_of_read)

The reader's state has a weight as well, and a character adds at most `growth` to it
(`next_weighs`).  It takes that much because a few characters can stand for a number with many
digits, such as `1e-300`.  All other characters add a few bytes.
-/

namespace SyntaxToC

/-! ## Digits of numbers -/

theorem utf8ByteSize_ofList_le (cs : List Char) :
    (String.ofList cs).utf8ByteSize ≤ 4 * cs.length := by
  induction cs with
  | nil => exact Nat.le_refl 0
  | cons c cs ih =>
    have hc := c.utf8Size_le_four
    rw [String.ofList_cons, String.utf8ByteSize_append, String.utf8ByteSize_singleton,
      List.length_cons]
    omega

namespace Interval

theorem pick?_le {i : Interval} {tie : Tie} {p q d : ℕ} (h : i.pick? tie p q = some d) :
    d ≤ i.value * p + 1 := by
  have hdiv : i.value * p / q ≤ i.value * p := Nat.div_le_self _ _
  have hnext : d ≤ i.value * p / q + 1 := by
    unfold pick? at h
    generalize i.value * p / q = f at h
    grind
  omega

/-- The grids `10 ^ k` with `k` between `-b` and `b` give decimals of at most that exponent. -/
theorem firstGrid_bounds (i : Interval) (tie : Tie) (e : ℤ) (b steps : ℕ) {k : ℤ} (hhigh : k ≤ b)
    (hlow : steps ≤ k + b) :
    (i.firstGrid tie e steps k).exponent.natAbs ≤ b ∧
      (i.firstGrid tie e steps k).digits ≤ i.value * (2 ^ e.toNat * 10 ^ b) + 1 := by
  induction steps generalizing k with
  | zero =>
    rw [firstGrid]
    exact ⟨by dsimp only; omega, Nat.zero_le _⟩
  | succ steps ih =>
    rw [firstGrid]
    dsimp only
    split
    · next d hd =>
      refine ⟨by dsimp only; omega, (pick?_le hd).trans ?_⟩
      have hpower : 10 ^ (-k).toNat ≤ 10 ^ b := Nat.pow_le_pow_right (by decide) (by omega)
      exact Nat.add_le_add_right
        (Nat.mul_le_mul_left _ (Nat.mul_le_mul_left (2 ^ e.toNat) hpower)) 1
    · exact ih (by omega) (by omega)

end Interval

theorem length_zeros (n : ℕ) : (Decimal.zeros n).length = n := List.length_replicate

namespace Decimal

theorem length_digitChars_of_lt {d : Decimal} {k : ℕ} (hk : 0 < k) (h : d.digits < 10 ^ k) :
    d.digitChars.length ≤ k :=
  (Nat.length_toDigits_le_iff (by decide) hk).2 h

theorem utf8ByteSize_places_le (d : Decimal) :
    d.places.1.utf8ByteSize + d.places.2.utf8ByteSize ≤
      4 * (d.digitChars.length + d.exponent.natAbs + 1) := by
  unfold places
  dsimp only
  split
  · have hwhole := utf8ByteSize_ofList_le (d.digitChars ++ zeros d.exponent.toNat)
    rw [List.length_append, length_zeros] at hwhole
    have hempty : "".utf8ByteSize = 0 := rfl
    dsimp only
    omega
  · split
    · have hwhole := utf8ByteSize_ofList_le
        (d.digitChars.take (d.digitChars.length - (-d.exponent).toNat))
      have hfraction := utf8ByteSize_ofList_le
        (d.digitChars.drop (d.digitChars.length - (-d.exponent).toNat))
      rw [List.length_take] at hwhole
      rw [List.length_drop] at hfraction
      dsimp only
      omega
    · have hfraction := utf8ByteSize_ofList_le
        (zeros ((-d.exponent).toNat - d.digitChars.length) ++ d.digitChars)
      rw [List.length_append, length_zeros] at hfraction
      have hzero : "0".utf8ByteSize = 1 := rfl
      dsimp only
      omega

theorem utf8ByteSize_positional_le (d : Decimal) :
    d.positional.utf8ByteSize ≤ 4 * (d.digitChars.length + d.exponent.natAbs + 2) := by
  have hplaces := d.utf8ByteSize_places_le
  have hpoint : ".".utf8ByteSize = 1 := rfl
  unfold positional
  split
  · next h =>
    rw [h] at hplaces
    dsimp only at hplaces
    omega
  · next h =>
    rw [h] at hplaces
    dsimp only at hplaces
    rw [String.utf8ByteSize_append, String.utf8ByteSize_append]
    omega

end Decimal

/-- The least grid is `10 ^ (-1075)`, and every magnitude lies below `10 ^ 309`.  The characters are
counted with four bytes each, although they are digits. -/
theorem Magnitude.utf8ByteSize_positional_shortest_le (x : Magnitude) (tie : Tie) :
    (x.shortest tie).positional.utf8ByteSize ≤ 9844 := by
  have hbounds : (x.shortest tie).exponent.natAbs ≤ 1075 ∧ (x.shortest tie).digits < 10 ^ 1384 := by
    unfold shortest
    split
    · exact ⟨Nat.zero_le _, by positivity⟩
    · obtain ⟨hexponent, hdigits⟩ := x.interval.firstGrid_bounds tie (x.exponent - 2) 1075 1384
        (k := 309) (by decide) (by decide)
      refine ⟨hexponent, hdigits.trans_lt ?_⟩
      have hvalue : x.interval.value ≤ 2 ^ 55 := Nat.mul_le_mul_left 4 x.significand_lt.le
      have hunit : 2 ^ (x.exponent - 2).toNat ≤ 2 ^ 969 := by
        have hmax := x.le_max
        rw [maxExponent] at hmax
        exact pow_le_pow_right₀ one_le_two (by omega)
      have hlarge : 2 ^ 55 * (2 ^ 969 * 10 ^ 1075) + 1 < 10 ^ 1384 := by decide +kernel
      refine Nat.lt_of_le_of_lt (Nat.add_le_add_right ?_ 1) hlarge
      exact Nat.mul_le_mul hvalue (Nat.mul_le_mul_right _ hunit)
  have hlength := Decimal.length_digitChars_of_lt (by decide) hbounds.2
  have hpositional := (x.shortest tie).utf8ByteSize_positional_le
  omega

namespace Json

open Outcome

/-- Integers have at most 20 digits. -/
theorem Number.utf8ByteSize_toString_le {n : ℕ} (h : n < significandLimit) {i : ℤ}
    (hi : i = n ∨ i = -n) : (toString i).utf8ByteSize ≤ 84 := by
  have hlimit : significandLimit ≤ 10 ^ 20 := by decide
  have hdigits : (Nat.toDigits 10 n).length ≤ 20 :=
    (Nat.length_toDigits_le_iff (by decide) (by decide)).2 (h.trans_le hlimit)
  have hlength : (toString i).toList.length ≤ 21 := by
    rcases hi with rfl | rfl
    · rw [toList_toString_nat]
      omega
    · rcases Nat.eq_zero_or_pos n with rfl | hpos
      · decide
      · rw [toList_toString_neg hpos, List.length_cons]
        omega
  have hbytes := utf8ByteSize_ofList_le (toString i).toList
  rw [String.ofList_toList] at hbytes
  omega

theorem Number.utf8ByteSize_text_real_le (x : Binary64) :
    (Number.real x).text.utf8ByteSize ≤ 9845 := by
  have hsign : (Number.sign x.negative).utf8ByteSize ≤ 1 := by
    cases x.negative <;> decide
  have hmagnitude := x.magnitude.utf8ByteSize_positional_shortest_le .up
  rw [Number.text, String.utf8ByteSize_append]
  omega

namespace Numeral

variable {n m : Numeral} {c : Char} {d : ℕ}

theorem le_nine_of_digit? (h : digit? c = some d) : d ≤ 9 := by
  unfold digit? at h
  split at h
  · next hc =>
    cases h
    have hrange := isDigit_iff.1 hc
    omega
  · cases h

theorem significand_lt_of_ofFirst? (h : ofFirst? c = some n) :
    n.significand < significandLimit := by
  have hlimit : 9 < significandLimit := by decide
  unfold ofFirst? at h
  split at h
  · cases h
    decide
  · split at h
    · cases h
      decide
    · next d _ hd =>
      cases h
      exact (le_nine_of_digit? hd).trans_lt hlimit
    · cases h

theorem significand_lt_of_takeDigit (hn : n.significand < significandLimit)
    (hd : d < significandLimit) (h : n.takeDigit d = .take m) :
    m.significand < significandLimit := by
  unfold takeDigit push? at h
  grind

theorem significand_eq_of_takeOther (h : n.takeOther c = .take m) :
    m.significand = n.significand := by
  unfold takeOther at h
  grind

/-- Digits are only taken as long as the significand stays below the limit. -/
theorem significand_lt_of_step (hn : n.significand < significandLimit) (h : n.step c = .take m) :
    m.significand < significandLimit := by
  unfold step at h
  split at h
  · next d hd =>
    have hlimit : 9 < significandLimit := by decide
    exact significand_lt_of_takeDigit hn ((le_nine_of_digit? hd).trans_lt hlimit) h
  · rwa [significand_eq_of_takeOther h]

theorem utf8ByteSize_text_integer_le (hn : n.significand < significandLimit) :
    n.integer.text.utf8ByteSize ≤ 9845 := by
  unfold integer
  split
  · exact (Number.utf8ByteSize_toString_le hn (.inl rfl)).trans (by decide)
  · split
    · exact (Number.utf8ByteSize_toString_le hn (.inr rfl)).trans (by decide)
    · exact Number.utf8ByteSize_text_real_le _

theorem utf8ByteSize_text_le (hn : n.significand < significandLimit) {x : Number}
    (h : n.number = .ok x) : x.text.utf8ByteSize ≤ 9845 := by
  have hreal : ∀ e, n.real e = .ok x → x.text.utf8ByteSize ≤ 9845 := by
    intro e he
    unfold real at he
    split at he
    · cases he
      exact Number.utf8ByteSize_text_real_le _
    · cases he
  obtain ⟨negative, significand, scale, stage⟩ := n
  cases stage with
  | sign | point | mark | exponentSign => cases h
  | leadingZero | whole =>
    cases h
    exact utf8ByteSize_text_integer_le hn
  | wholeFull | fraction | fractionFull => exact hreal 0 h
  | exponent sign written => exact hreal _ h
  | vanished =>
    cases h
    exact Number.utf8ByteSize_text_real_le _

end Numeral

/-! ## Weights -/

namespace Value

mutual

/-- The values in a value, and the bytes of their texts.  Keys do not count. -/
def weight : Value → Nat
  | .null => 1
  | .bool b => 1 + (toString b).utf8ByteSize
  | .number n => 1 + n.text.utf8ByteSize
  | .string s => 1 + s.utf8ByteSize
  | .array items => 1 + itemsWeight items
  | .object members => 1 + membersWeight members

def itemsWeight : List Value → Nat
  | [] => 0
  | v :: vs => v.weight + itemsWeight vs

def membersWeight : List (String × Value) → Nat
  | [] => 0
  | (_, v) :: ms => v.weight + membersWeight ms

end

theorem itemsWeight_eq_sum (vs : List Value) : itemsWeight vs = (vs.map weight).sum := by
  induction vs with
  | nil => rfl
  | cons v vs ih => rw [itemsWeight, ih, List.map_cons, List.sum_cons]

theorem membersWeight_eq_sum (ms : Members) :
    membersWeight ms = (ms.map fun m => m.2.weight).sum := by
  induction ms with
  | nil => rfl
  | cons m ms ih => rw [membersWeight, ih, List.map_cons, List.sum_cons]

theorem membersWeight_insert_le (ms : Members) (key : String) (v : Value) :
    membersWeight (ms.insert key v) ≤ membersWeight ms + v.weight := by
  induction ms with
  | nil =>
    rw [Members.insert, membersWeight]
    exact Nat.le_of_eq (Nat.add_comm _ _)
  | cons m ms ih =>
    obtain ⟨k, w⟩ := m
    rw [Members.insert]
    split
    · rw [membersWeight, membersWeight]
      omega
    · rw [membersWeight, membersWeight]
      omega

/-- The members under different keys are different parts of an object. -/
theorem sum_weight_lt {v : Value} {parts : List (String × Value)} (hne : parts ≠ [])
    (hkeys : (parts.map Prod.fst).Nodup) (hparts : ∀ p ∈ parts, v.get? p.1 = some p.2) :
    (parts.map fun p => p.2.weight).sum < v.weight := by
  obtain ⟨p, hp⟩ := List.exists_mem_of_ne_nil parts hne
  cases v with
  | object ms =>
    have hsubset : parts ⊆ ms := by
      intro q hq
      obtain ⟨before, after, hms, -⟩ := List.lookup_eq_some_iff.1 (hparts q hq)
      rw [hms]
      exact List.mem_append_right _ List.mem_cons_self
    obtain ⟨chosen, hperm, hsub⟩ := List.subperm_of_subset (hkeys.of_map _) hsubset
    have hle : (chosen.map fun p => p.2.weight).sum ≤ (ms.map fun p => p.2.weight).sum :=
      (hsub.map _).sum_le_sum fun _ _ => Nat.zero_le _
    rw [weight, membersWeight_eq_sum, ← (hperm.map fun p : String × Value => p.2.weight).sum_eq]
    omega
  | _ => cases hparts p hp

end Value

open Value (itemsWeight membersWeight)

def Frame.weight : Frame → Nat
  | .item items => itemsWeight items
  | .member members _ => membersWeight members

def framesWeight (fs : List Frame) : Nat := (fs.map Frame.weight).sum

def Place.weight : Place → Nat
  | .value | .firstItem | .firstKey => 0
  | .nextItem items | .afterItem items => itemsWeight items
  | .nextKey members | .afterKey members _ | .afterMember members => membersWeight members
  | .finished v => v.weight

/-- The weight of a text in its role. -/
def Role.weight : Role → String → Nat
  | .value, text => text.utf8ByteSize
  | .key members, _ => membersWeight members

def Mode.weight : Mode → Nat
  | .between place => place.weight
  | .word _ _ v => v.weight
  | .numeral _ => 0
  | .string role text | .escape role text _ => role.weight text

/-- What has been read so far weighs at most `n`, and a numeral keeps to the limit. -/
structure Weighs (n : Nat) (s : List Frame × Mode) : Prop where
  weight_le : framesWeight s.1 + s.2.weight ≤ n
  significand_lt : ∀ m, s.2 = .numeral m → m.significand < significandLimit

/-- The most that a character adds to the weight of what has been read. -/
def growth : Nat := 16384

/-! ## One character -/

theorem framesWeight_cons (f : Frame) (fs : List Frame) :
    framesWeight (f :: fs) = f.weight + framesWeight fs := by
  rw [framesWeight, List.map_cons, List.sum_cons, framesWeight]

namespace Weighs

variable {n k : Nat} {fs : List Frame} {mode : Mode}

theorem mono {s : List Frame × Mode} (h : Weighs n s) (hle : n ≤ k) : Weighs k s :=
  ⟨h.weight_le.trans hle, h.significand_lt⟩

/-- A mode that is no numeral needs only its weight. -/
theorem of_le (h : framesWeight fs + mode.weight ≤ n) (hmode : ∀ m, mode ≠ .numeral m) :
    Weighs n (fs, mode) :=
  ⟨h, fun m hm => absurd hm (hmode m)⟩

end Weighs

theorem Leads.mono {α : Type} {P Q : α → Prop} {x : Except Refusal α} (h : Leads P x)
    (hPQ : ∀ s, P s → Q s) : Leads Q x := fun s hs => hPQ s (h s hs)

theorem deliver_weight_le (v : Value) (fs : List Frame) :
    framesWeight (deliver v fs).1 + (deliver v fs).2.weight ≤ framesWeight fs + v.weight := by
  cases fs with
  | nil => exact Nat.le_refl _
  | cons f fs =>
    cases f with
    | item items =>
      rw [framesWeight_cons, deliver]
      show framesWeight fs + itemsWeight (v :: items) ≤ _
      rw [itemsWeight, Frame.weight]
      omega
    | member ms key =>
      have hinsert := Value.membersWeight_insert_le ms key v
      rw [framesWeight_cons, deliver]
      show framesWeight fs + membersWeight (ms.insert key v) ≤ _
      rw [Frame.weight]
      omega

theorem complete_weighs (v : Value) (fs : List Frame) :
    Weighs (framesWeight fs + v.weight) (complete v fs) :=
  .of_le (deliver_weight_le v fs) (by simp)

theorem beginValue_weighs (fs : List Frame) (c : Char) :
    Leads (Weighs (framesWeight fs + 6)) (beginValue fs c) := by
  unfold beginValue
  split
  · exact .ite (fun _ => .ok (.of_le (Nat.le_add_right _ 6) (by simp))) fun _ => .refuse _
  · exact .ite (fun _ => .ok (.of_le (Nat.le_add_right _ 6) (by simp))) fun _ => .refuse _
  · exact .ok (.of_le (Nat.le_add_right _ 6) (by simp))
  · exact .ok (.of_le (Nat.add_le_add_left (by decide : 5 ≤ 6) _) (by simp))
  · exact .ok (.of_le (Nat.le_refl _) (by simp))
  · exact .ok (.of_le (Nat.add_le_add_left (by decide : 1 ≤ 6) _) (by simp))
  · split
    · next n hn =>
      refine .ok ⟨Nat.le_add_right _ 6, ?_⟩
      rintro _ ⟨⟩
      exact Numeral.significand_lt_of_ofFirst? hn
    · exact .refuse _

theorem nextToken_weighs (fs : List Frame) (place : Place) (c : Char) :
    Leads (Weighs (framesWeight fs + place.weight + 6)) (nextToken fs place c) := by
  have hcomplete (v : Value) (hv : v.weight ≤ place.weight + 1) :
      Leads (Weighs (framesWeight fs + place.weight + 6)) (.ok (complete v fs)) :=
    .ok ((complete_weighs v fs).mono (by omega))
  have hbegin (items : List Value) (hitems : itemsWeight items ≤ place.weight) :
      Leads (Weighs (framesWeight fs + place.weight + 6)) (beginValue (.item items :: fs) c) := by
    refine (beginValue_weighs _ c).mono fun s hs => hs.mono ?_
    rw [framesWeight_cons, Frame.weight]
    omega
  unfold nextToken
  refine .ite (fun _ => .ok (.of_le (Nat.le_add_right _ 6) (by simp))) fun _ => ?_
  cases place with
  | value => exact beginValue_weighs fs c
  | firstItem =>
    exact .ite (fun _ => hcomplete _ (Nat.le_refl 1)) fun _ => hbegin [] (Nat.le_refl 0)
  | nextItem items => exact .ite (fun _ => .refuse _) fun _ => hbegin items (Nat.le_refl _)
  | afterItem items =>
    refine .ite (fun _ => .ok (.of_le (Nat.le_add_right _ 6) (by simp))) fun _ => ?_
    refine .ite (fun _ => hcomplete _ ?_) fun _ => .refuse _
    rw [Value.weight, Place.weight, Value.itemsWeight_eq_sum, Value.itemsWeight_eq_sum,
      List.map_reverse, List.sum_reverse, Nat.add_comm]
  | firstKey =>
    refine .ite (fun _ => hcomplete _ (Nat.le_refl 1)) fun _ => ?_
    exact .ite (fun _ => .ok (.of_le (Nat.le_add_right _ 6) (by simp))) fun _ => .refuse _
  | nextKey ms =>
    refine .ite (fun _ => .refuse _) fun _ => ?_
    exact .ite (fun _ => .ok (.of_le (Nat.le_add_right _ 6) (by simp))) fun _ => .refuse _
  | afterKey ms key =>
    refine .ite (fun _ => .ok (.of_le ?_ (by simp))) fun _ => .refuse _
    rw [framesWeight_cons, Frame.weight, Mode.weight, Place.weight, Place.weight]
    omega
  | afterMember ms =>
    refine .ite (fun _ => .ok (.of_le (Nat.le_add_right _ 6) (by simp))) fun _ => ?_
    refine .ite (fun _ => hcomplete _ ?_) fun _ => .refuse _
    rw [Value.weight, Place.weight, Nat.add_comm]
  | finished v => exact .refuse _

theorem Role.weight_push_le (role : Role) (text : String) (c : Char) :
    role.weight (text.push c) ≤ role.weight text + 4 := by
  have hc := c.utf8Size_le_four
  cases role with
  | value =>
    rw [weight, weight, String.utf8ByteSize_push]
    omega
  | key ms => exact Nat.le_add_right _ 4

/-- The mode is no numeral, and its weight is in the bound. -/
def Light (n : Nat) (mode : Mode) : Prop := mode.weight ≤ n ∧ ∀ m, mode ≠ .numeral m

section

variable (role : Role) (text : String)

theorem light_push (c : Char) : Light (role.weight text + 4) (.string role (text.push c)) :=
  ⟨role.weight_push_le text c, by simp⟩

theorem light_escape (e : Escape) : Light (role.weight text + 4) (.escape role text e) :=
  ⟨Nat.le_add_right _ 4, by simp⟩

theorem closeCode_light (lead : Option Nat) (code : Nat) :
    Leads (Light (role.weight text + 4)) (closeCode role text lead code) := by
  unfold closeCode
  cases lead with
  | none =>
    refine .ite (fun _ => .refuse _) fun _ => ?_
    exact .ite (fun _ => .ok (light_escape role text _)) fun _ => .ok (light_push role text _)
  | some first => exact .ite (fun _ => .ok (light_push role text _)) fun _ => .refuse _

theorem nextEscape_light (e : Escape) (c : Char) :
    Leads (Light (role.weight text + 4)) (nextEscape role text e c) := by
  unfold nextEscape
  cases e with
  | letter =>
    refine .ite (fun _ => .ok (light_escape role text _)) fun _ => ?_
    split
    · exact .ok (light_push role text _)
    · exact .refuse _
  | digits lead bytes code =>
    refine .ite (fun _ => .ok (light_escape role text _)) fun _ => ?_
    split
    · exact closeCode_light role text lead _
    · rintro _ ⟨⟩
  | pairBackslash lead => exact .ite (fun _ => .ok (light_escape role text _)) fun _ => .refuse _
  | pairLetter lead => exact .ite (fun _ => .ok (light_escape role text _)) fun _ => .refuse _

theorem closeString_weighs (fs : List Frame) :
    Weighs (framesWeight fs + role.weight text + 1) (closeString fs role text) := by
  cases role with
  | value =>
    refine (complete_weighs (.string text) fs).mono ?_
    rw [Value.weight, Role.weight]
    omega
  | key ms => exact .of_le (Nat.le_add_right _ 1) (by simp)

end

theorem next_weighs {s : List Frame × Mode} {n : Nat} (h : Weighs n s) (c : Char) :
    Leads (Weighs (n + growth)) (next s.1 s.2 c) := by
  obtain ⟨fs, mode⟩ := s
  obtain ⟨hweight, hnumeral⟩ := h
  have hgrowth : growth = 16384 := rfl
  dsimp only at hweight hnumeral ⊢
  unfold next
  cases mode with
  | between place =>
    rw [Mode.weight] at hweight
    exact (nextToken_weighs fs place c).mono fun s hs => hs.mono (by omega)
  | word expected rest v =>
    rw [Mode.weight] at hweight
    refine .ite (fun _ => ?_) fun _ => .refuse _
    cases rest with
    | nil => exact .ok ((complete_weighs v fs).mono (by omega))
    | cons x rest => exact .ok (.of_le (by rw [Mode.weight]; omega) (by simp))
  | numeral m =>
    have hm := hnumeral m rfl
    dsimp only
    split
    · next m' hstep =>
      refine .ok ⟨Nat.le_add_right_of_le hweight, ?_⟩
      rintro _ ⟨⟩
      exact Numeral.significand_lt_of_step hm hstep
    · exact .refuse _
    · split
      · next x hx =>
        have hdeliver := deliver_weight_le (.number x) fs
        have htext := Numeral.utf8ByteSize_text_le hm hx
        rw [Value.weight] at hdeliver
        exact (nextToken_weighs _ _ c).mono fun s hs => hs.mono (by omega)
      · rintro _ ⟨⟩
  | string role text =>
    rw [Mode.weight] at hweight
    refine .ite (fun _ => .ok ((closeString_weighs role text fs).mono (by omega))) fun _ => ?_
    refine .ite (fun _ => .ok (.of_le (by rw [Mode.weight]; omega) (by simp))) fun _ => ?_
    refine .ite (fun _ => .refuse _) fun _ => .ok (.of_le ?_ (by simp))
    have hpush := role.weight_push_le text c
    rw [Mode.weight]
    omega
  | escape role text e =>
    rw [Mode.weight] at hweight
    intro s hs
    obtain ⟨mode, hmode, rfl⟩ := map_eq_ok_iff.1 hs
    obtain ⟨hlight, hne⟩ := nextEscape_light role text e c mode hmode
    exact .of_le (by omega) hne

/-! ## Whole texts -/

theorem weighs_start : Weighs 0 ([], .between .value) := .of_le (Nat.le_refl 0) (by simp)

theorem run_weighs {s s' : List Frame × Mode} {n : Nat} {cs : List Char} (hs : Weighs n s)
    (h : run s cs = .ok s') : Weighs (n + growth * cs.length) s' := by
  induction cs generalizing s n with
  | nil =>
    obtain rfl := Except.ok.inj h
    exact hs
  | cons c cs ih =>
    rw [run_cons, bind_eq_ok_iff] at h
    obtain ⟨s₁, hnext, hrun⟩ := h
    refine (ih (next_weighs hs c s₁ hnext) hrun).mono ?_
    rw [List.length_cons, Nat.mul_succ]
    omega

/-- The text may end in a numeral, which then is the whole document. -/
theorem weight_le_of_read {text : String} {v : Value} (h : read text = .ok v) :
    v.weight ≤ growth * (text.toList.length + 1) := by
  have hgrowth : growth = 16384 := rfl
  obtain ⟨⟨fs, mode⟩, hrun, hend⟩ := read_eq_ok_iff.1 h
  obtain ⟨hweight, hnumeral⟩ := run_weighs weighs_start hrun
  dsimp only at hweight hnumeral hend
  rw [Nat.zero_add] at hweight
  rw [Nat.mul_succ]
  rcases atEnd_eq_ok hend with rfl | ⟨n, x, rfl, rfl, rfl⟩
  · rw [Mode.weight, Place.weight] at hweight
    omega
  · have hnumber : n.number = .ok x := by
      obtain ⟨y, hy, hdelivered⟩ := bind_eq_ok_iff.1 hend
      cases hdelivered
      exact hy
    have htext := Numeral.utf8ByteSize_text_le (hnumeral n rfl) hnumber
    rw [Value.weight]
    omega

end Json

end SyntaxToC
