import Mathlib.Logic.Basic
import SyntaxToC.Json.Reader
import SyntaxToC.Proofs.Writing

/-!
# Reading what was written

The reader on the texts of a value.  `run` is the machine without positions; in front of a value
and inside `fs` open containers it takes any text of `v` to a state in which `v` is settled, or
refuses the text because a container opens too deep:

    Written v cs → ∃ s, Settled fs v s ∧ run (fs, .between .value) cs =
      if fs.length + v.depth ≤ maxDepth then .ok s else refuse .tooDeep

A value is settled when it has been delivered.  A number has no end of its own, so it is settled as
soon as it is read, and delivered by the character that follows or by the end of the text.

The digits of an integer gather in a significand that stays below its limit, because the integer
does (`run_digits`).
-/

namespace SyntaxToC.Json

/-! ## The machine without positions -/

def run (s : List Frame × Mode) (cs : List Char) : Except Refusal (List Frame × Mode) :=
  cs.foldlM (fun s c => next s.1 s.2 c) s

@[simp] theorem run_nil (s : List Frame × Mode) : run s [] = .ok s := rfl

theorem run_cons (s : List Frame × Mode) (c : Char) (cs : List Char) :
    run s (c :: cs) = next s.1 s.2 c >>= (run · cs) := List.foldlM_cons

theorem run_append (s : List Frame × Mode) (as bs : List Char) :
    run s (as ++ bs) = run s as >>= (run · bs) := List.foldlM_append

theorem run_cons_ok {s s' : List Frame × Mode} {c : Char} {cs : List Char}
    (h : next s.1 s.2 c = .ok s') : run s (c :: cs) = run s' cs := by
  rw [run_cons, h]
  rfl

theorem run_append_ok {s s' : List Frame × Mode} {as bs : List Char} (h : run s as = .ok s') :
    run s (as ++ bs) = run s' bs := by
  rw [run_append, h]
  rfl

/-- A text that may nest too deep decides for all that follows it. -/
theorem run_append_ite {s s' : List Frame × Mode} {as bs : List Char} {p : Prop} [Decidable p]
    (h : run s as = if p then .ok s' else refuse .tooDeep) :
    run s (as ++ bs) = if p then run s' bs else refuse .tooDeep := by
  rw [run_append, h]
  by_cases hp : p
  · rw [if_pos hp, if_pos hp]
    rfl
  · rw [if_neg hp, if_neg hp]
    rfl

theorem foldl_step_failed (f : Fault) (cs : List Char) :
    cs.foldl State.step (.failed f) = .failed f := by
  induction cs with
  | nil => rfl
  | cons c cs ih => exact ih

/-- The reader does what the machine does, and knows the position as well. -/
theorem foldl_step (p : Position) (fs : List Frame) (mode : Mode) (cs : List Char) :
    ∃ p', cs.foldl State.step (.reading p fs mode) =
      match run (fs, mode) cs with
      | .ok (fs', mode') => .reading p' fs' mode'
      | .error r => .failed ⟨r.cause, p'⟩ := by
  induction cs generalizing p fs mode with
  | nil => exact ⟨p, rfl⟩
  | cons c cs ih =>
    rw [List.foldl_cons]
    cases h : next fs mode c with
    | ok s =>
      obtain ⟨fs', mode'⟩ := s
      have hstep : State.step (.reading p fs mode) c =
          .reading (p.advance c c.utf8Size) fs' mode' := by
        simp [State.step, h]
      rw [run_cons_ok (s := (fs, mode)) h, hstep]
      exact ih _ fs' mode'
    | error r =>
      have hstep : State.step (.reading p fs mode) c = .failed ⟨r.cause, p.advance c r.bytes⟩ := by
        simp [State.step, h]
      refine ⟨p.advance c r.bytes, ?_⟩
      rw [run_cons, h, hstep, foldl_step_failed]
      rfl

/-! ## Blanks -/

theorem run_blanks {bs : List Char} (h : Blanks bs) (fs : List Frame) (place : Place) :
    run (fs, .between place) bs = .ok (fs, .between place) := by
  induction bs with
  | nil => rfl
  | cons c bs ih =>
    have hc : isBlank c = true := by
      have hmem := h c List.mem_cons_self
      simp only [List.mem_cons, List.not_mem_nil, or_false] at hmem
      rcases hmem with rfl | rfl | rfl | rfl <;> rfl
    have hnext : next fs (.between place) c = .ok (fs, .between place) := by
      simp [next, nextToken, hc]
    rw [run_cons_ok (s := (fs, .between place)) hnext]
    exact ih fun x hx => h x (List.mem_cons_of_mem c hx)

/-! ## Strings -/

theorem hexDigit_of_isHexDigit {c : Char} {d : Nat} (h : IsHexDigit c d) :
    hexDigit? c = some d ∧ c.utf8Size = 1 := by
  have hlower : ∀ x ∈ lowerDigits.zipIdx, hexDigit? x.1 = some x.2 ∧ x.1.utf8Size = 1 := by decide
  have hupper : ∀ x ∈ upperDigits.zipIdx, hexDigit? x.1 = some x.2 ∧ x.1.utf8Size = 1 := by decide
  rcases h with h | h
  · exact hlower (c, d) (List.mk_mem_zipIdx_iff_getElem?.2 h)
  · exact hupper (c, d) (List.mk_mem_zipIdx_iff_getElem?.2 h)

theorem escapeLetter_of_mem : ∀ x ∈ shortEscapes, x.1 ≠ 'u' ∧ escapeLetter? x.1 = some x.2 := by
  decide

section

variable (fs : List Frame) (role : Role) (text : String)

theorem next_digit (lead : Option Nat) (bytes n : Nat) {c : Char} {d : Nat} (h : IsHexDigit c d) :
    next fs (.escape role text (.digits lead bytes (some n))) c =
      if bytes < 3 then .ok (fs, .escape role text (.digits lead (bytes + 1) (some (16 * n + d))))
      else (closeCode role text lead (16 * n + d)).map fun mode => (fs, mode) := by
  obtain ⟨hd, hsize⟩ := hexDigit_of_isHexDigit h
  simp only [next, nextEscape, hd, hsize]
  by_cases hbytes : bytes < 3
  · rw [if_pos hbytes, if_pos (by omega)]
    rfl
  · rw [if_neg hbytes, if_neg (by omega)]
    rfl

/-- The four digits of a code together. -/
theorem run_code (lead : Option Nat) {ds : List Char} {n : Nat} (h : IsCode ds n) :
    run (fs, .escape role text (.digits lead 0 (some 0))) ds =
      (closeCode role text lead n).map fun mode => (fs, mode) := by
  obtain ⟨hw, hx, hy, hz⟩ := h
  rw [run_cons_ok (next_digit fs role text lead 0 0 hw),
    run_cons_ok (next_digit fs role text lead 1 _ hx),
    run_cons_ok (next_digit fs role text lead 2 _ hy), run_cons,
    next_digit fs role text lead 3 _ hz, if_neg (by omega), Nat.mul_zero, Nat.zero_add]
  exact bind_pure _

/-- A character is never half of a pair, so its own code is complete. -/
theorem closeCode_char (c : Char) :
    closeCode role text none c.toNat = .ok (.string role (text.push c)) := by
  have hvalid : c.toNat < 0xD800 ∨ 0xDFFF < c.toNat ∧ c.toNat < 0x110000 := c.valid
  have htrail : isTrail c.toNat = false := by
    simp only [isTrail, Bool.and_eq_false_iff, decide_eq_false_iff_not]
    omega
  have hlead : isLead c.toNat = false := by
    simp only [isLead, Bool.and_eq_false_iff, decide_eq_false_iff_not]
    omega
  simp [closeCode, htrail, hlead]

theorem closeCode_lead {n : Nat} (h : n < 0x400) :
    closeCode role text none (0xD800 + n) =
      .ok (.escape role text (.pairBackslash (0xD800 + n))) := by
  have htrail : isTrail (0xD800 + n) = false := by
    simp only [isTrail, Bool.and_eq_false_iff, decide_eq_false_iff_not]
    omega
  have hlead : isLead (0xD800 + n) = true := by
    simp only [isLead, Bool.and_eq_true, decide_eq_true_eq]
    omega
  simp [closeCode, htrail, hlead]

theorem closeCode_trail {n m : Nat} (h : m < 0x400) :
    closeCode role text (some (0xD800 + n)) (0xDC00 + m) =
      .ok (.string role (text.push (Char.ofNat (0x10000 + n * 0x400 + m)))) := by
  have htrail : isTrail (0xDC00 + m) = true := by
    simp only [isTrail, Bool.and_eq_true, decide_eq_true_eq]
    omega
  simp [closeCode, htrail]

/-- However a character is spelled, it is the one that joins the text. -/
theorem run_spelled {c : Char} {cs : List Char} (h : Spelled c cs) :
    run (fs, .string role text) cs = .ok (fs, .string role (text.push c)) := by
  have hbackslash : next fs (.string role text) '\\' = .ok (fs, .escape role text .letter) := rfl
  cases h with
  | plain hmin hquote hslash =>
    have hnext : next fs (.string role text) c = .ok (fs, .string role (text.push c)) := by
      simp only [next, hquote, hslash, if_false]
      rw [if_neg (by omega)]
    rw [run_cons_ok (s := (fs, .string role text)) hnext, run_nil]
  | @short letter hletter =>
    have hnext : next fs (.escape role text .letter) letter =
        .ok (fs, .string role (text.push c)) := by
      obtain ⟨hu, hc⟩ := escapeLetter_of_mem (letter, c) hletter
      simp only [next, nextEscape, hu, if_false, hc]
      rfl
    rw [run_cons_ok (s := (fs, .string role text)) hbackslash,
      run_cons_ok (s := (fs, .escape role text .letter)) hnext, run_nil]
  | code hcode =>
    rw [run_cons_ok (s := (fs, .string role text)) hbackslash,
      run_cons_ok (s := (fs, .escape role text .letter)) rfl, run_code fs role text none hcode,
      closeCode_char]
    rfl
  | pair hmin hhigh hlow =>
    have hvalid : c.toNat < 0xD800 ∨ 0xDFFF < c.toNat ∧ c.toNat < 0x110000 := c.valid
    generalize hn : c.toNat - 0x10000 = n at hhigh hlow
    have hc : Char.ofNat (0x10000 + n / 0x400 * 0x400 + n % 0x400) = c := by
      rw [show 0x10000 + n / 0x400 * 0x400 + n % 0x400 = c.toNat by omega, Char.ofNat_toNat]
    have hfirst := run_code fs role text none hhigh
    rw [closeCode_lead role text (by omega)] at hfirst
    rw [run_cons_ok (s := (fs, .string role text)) hbackslash,
      run_cons_ok (s := (fs, .escape role text .letter)) rfl, run_append_ok hfirst,
      run_cons_ok rfl, run_cons_ok rfl, run_code fs role text _ hlow,
      closeCode_trail role text (by omega), hc]
    rfl

theorem run_spelledText {s body : List Char} (h : SpelledText s body) :
    run (fs, .string role text) body = .ok (fs, .string role (text ++ String.ofList s)) := by
  induction h generalizing text with
  | nil => simp
  | cons hc _ ih =>
    rw [run_append_ok (run_spelled fs role text hc), ih, String.push_eq_append, String.ofList_cons,
      String.append_assoc]

/-- A string in quotes, whatever its role. -/
theorem run_quoted {s : String} {cs : List Char} (h : Quoted s cs) :
    ∃ rest, cs = '"' :: rest ∧ run (fs, .string role "") rest = .ok (closeString fs role s) := by
  obtain ⟨body, hbody, rfl⟩ := h
  refine ⟨body ++ ['"'], rfl, ?_⟩
  rw [run_append_ok (run_spelledText fs role "" hbody), String.ofList_toList, String.empty_append]
  rfl

end

/-! ## Integers -/

theorem digit?_digitChar {d : Nat} (h : d < 10) : digit? d.digitChar = some d := by
  have hdigit : d.digitChar.isDigit = true := by simp [Nat.isDigit_digitChar, h]
  have hvalue : d.digitChar.toNat - '0'.toNat = d := Nat.toNat_digitChar_sub_48_of_lt_ten h
  rw [digit?, if_pos hdigit, hvalue]

/-- A digit that still fits joins the significand. -/
theorem step_digitChar {negative : Bool} {n d : Nat} (hd : d < 10)
    (hlimit : 10 * n + d < significandLimit) :
    Numeral.step ⟨negative, n, 0, .whole⟩ d.digitChar =
      .take ⟨negative, 10 * n + d, 0, .whole⟩ := by
  simp [Numeral.step, digit?_digitChar hd, Numeral.takeDigit, Numeral.push?, hlimit]

/-- The digits of a number that fits, from a state in which the first of them begins a numeral. -/
theorem run_digits {s : List Frame × Mode} {fs : List Frame} {negative : Bool}
    (hfirst : ∀ d, 0 < d → d < 10 →
      next s.1 s.2 d.digitChar = .ok (fs, .numeral ⟨negative, d, 0, .whole⟩))
    {n : Nat} (hpos : 0 < n) (hlimit : n < significandLimit) :
    run s (Nat.toDigits 10 n) = .ok (fs, .numeral ⟨negative, n, 0, .whole⟩) := by
  -- the digits in front of the last one are those of `n / 10`
  induction n using Nat.strongRecOn with
  | ind n ih =>
    by_cases hn : n < 10
    · rw [Nat.toDigits_of_lt_base hn, run_cons_ok (hfirst n hpos hn), run_nil]
    · have hfront := ih (n / 10) (by omega) (by omega) (by omega)
      have hlast : next fs (.numeral ⟨negative, n / 10, 0, .whole⟩) (n % 10).digitChar =
          .ok (fs, .numeral ⟨negative, 10 * (n / 10) + n % 10, 0, .whole⟩) := by
        rw [next, step_digitChar (by omega) (by omega)]
      rw [Nat.toDigits_of_base_le (by omega) (by omega), run_append_ok hfront, run_cons_ok hlast,
        run_nil, Nat.div_add_mod]

/-- A numeral that stands for an integer if it ends here. -/
structure StandsFor (m : Numeral) (i : Int) : Prop where
  stage : m.stage = .leadingZero ∨ m.stage = .whole
  integer : m.integer = .integer i

theorem toList_toString_nat (n : Nat) : (toString (n : Int)).toList = Nat.toDigits 10 n := by
  simp [Int.toString_eq_repr, Int.repr_eq_if]

theorem toList_toString_neg {n : Nat} (hpos : 0 < n) :
    (toString (-(n : Int))).toList = '-' :: Nat.toDigits 10 n := by
  have hn : n ≠ 0 := by omega
  simp [Int.toString_eq_repr, Int.repr_eq_if, hn]

theorem next_digitChar_value (fs : List Frame) {d : Nat} (hpos : 0 < d) (hd : d < 10) :
    next fs (.between .value) d.digitChar = .ok (fs, .numeral ⟨false, d, 0, .whole⟩) := by
  obtain rfl | rfl | rfl | rfl | rfl | rfl | rfl | rfl | rfl :
      d = 1 ∨ d = 2 ∨ d = 3 ∨ d = 4 ∨ d = 5 ∨ d = 6 ∨ d = 7 ∨ d = 8 ∨ d = 9 := by omega
  all_goals rfl

theorem next_digitChar_sign (fs : List Frame) {d : Nat} (hpos : 0 < d) (hd : d < 10) :
    next fs (.numeral ⟨true, 0, 0, .sign⟩) d.digitChar =
      .ok (fs, .numeral ⟨true, d, 0, .whole⟩) := by
  have hd' : d ≠ 0 := by omega
  simp [next, Numeral.step, digit?_digitChar hd, Numeral.takeDigit, hd']

/-- The text of an integer in front of a value. -/
theorem run_toString {i : Int} (h : FitsWord i) (fs : List Frame) :
    ∃ m, run (fs, .between .value) (toString i).toList = .ok (fs, .numeral m) ∧ StandsFor m i := by
  obtain ⟨hlow, hhigh⟩ := h
  have hlimit : significandLimit = 18446744073709551616 := rfl
  have hmax : maxNegative = 9223372036854775808 := rfl
  rcases Int.lt_trichotomy i 0 with hneg | rfl | hpos
  · obtain ⟨n, rfl⟩ : ∃ n : Nat, i = -(n : Int) := ⟨(-i).toNat, by omega⟩
    have hn : 0 < n := by omega
    have hfits : 0 < n ∧ n ≤ maxNegative := by omega
    have hsign : next fs (.between .value) '-' = .ok (fs, .numeral ⟨true, 0, 0, .sign⟩) := rfl
    have hdigits := run_digits (s := (fs, .numeral ⟨true, 0, 0, .sign⟩))
      (fun d => next_digitChar_sign fs) hn (by omega)
    refine ⟨⟨true, n, 0, .whole⟩, ?_, .inr rfl, ?_⟩
    · rw [toList_toString_neg hn, run_cons_ok hsign, hdigits]
    · simp [Numeral.integer, hfits]
  · exact ⟨⟨false, 0, 0, .leadingZero⟩, rfl, .inl rfl, rfl⟩
  · obtain ⟨n, rfl⟩ : ∃ n : Nat, i = (n : Int) := ⟨i.toNat, by omega⟩
    have hdigits := run_digits (s := (fs, .between .value))
      (fun d => next_digitChar_value fs) (n := n) (by omega) (by omega)
    refine ⟨⟨false, n, 0, .whole⟩, ?_, .inr rfl, ?_⟩
    · rw [toList_toString_nat, hdigits]
    · simp [Numeral.integer]

/-- The characters that may follow a value inside a container. -/
def followers : List Char := [' ', '\t', '\n', '\r', ',', ']', '\x7d']

theorem StandsFor.step_eq_stop {m : Numeral} {i : Int} (h : StandsFor m i) {c : Char}
    (hc : c ∈ followers) : m.step c = .stop := by
  have hdigit : digit? c = none ∧ c ≠ '.' ∧ isExponentMark c = false := by
    simp only [followers, List.mem_cons, List.not_mem_nil, or_false] at hc
    rcases hc with rfl | rfl | rfl | rfl | rfl | rfl | rfl <;> decide
  obtain ⟨hnone, hpoint, hmark⟩ := hdigit
  rcases h.stage with hstage | hstage <;>
    simp [Numeral.step, hnone, Numeral.takeOther, hstage, hpoint, hmark]

theorem StandsFor.number_eq {m : Numeral} {i : Int} (h : StandsFor m i) :
    m.number = .ok (.integer i) := by
  rcases h.stage with hstage | hstage <;> simp [Numeral.number, hstage, h.integer]

/-! ## Values -/

/-- The states after a text of a value. -/
inductive Settled (fs : List Frame) : Value → List Frame × Mode → Prop
  | complete (v : Value) : Settled fs v (complete v fs)
  | integer {i : Int} {m : Numeral} :
      StandsFor m i → Settled fs (.number (.integer i)) (fs, .numeral m)

theorem mem_followers_of_blank {bs : List Char} (h : Blanks bs) {c : Char} (hc : c ∈ bs) :
    c ∈ followers := by
  have hblank := h c hc
  simp only [List.mem_cons, List.not_mem_nil, or_false] at hblank
  rcases hblank with rfl | rfl | rfl | rfl <;> simp [followers]

namespace Settled

variable {fs : List Frame} {v : Value} {s : List Frame × Mode}

/-- What follows a value does not show whether the value had been delivered. -/
theorem run_cons (h : Settled fs v s) {c : Char} (hc : c ∈ followers) (rest : List Char) :
    run s (c :: rest) = run (Json.complete v fs) (c :: rest) := by
  cases h with
  | complete => rfl
  | @integer i m hm =>
    have hnext : next fs (.numeral m) c = next (Json.complete (.number (.integer i)) fs).1
        (Json.complete (.number (.integer i)) fs).2 c := by
      simp only [next, hm.step_eq_stop hc, hm.number_eq, Json.complete]
    rw [Json.run_cons, Json.run_cons, hnext]

theorem run_blanks (h : Settled fs v s) {bs : List Char} (hbs : Blanks bs) {c : Char}
    (hc : c ∈ followers) (rest : List Char) :
    run s (bs ++ c :: rest) = run (Json.complete v fs) (c :: rest) := by
  have hdelivered : run (Json.complete v fs) bs = .ok (Json.complete v fs) :=
    Json.run_blanks hbs _ _
  cases bs with
  | nil => exact h.run_cons hc rest
  | cons b bs =>
    rw [List.cons_append, h.run_cons (mem_followers_of_blank hbs List.mem_cons_self),
      ← List.cons_append, run_append_ok hdelivered]

theorem atEnd_eq (h : Settled fs v s) :
    s.2.atEnd s.1 = (Json.complete v fs).2.atEnd (Json.complete v fs).1 := by
  cases h with
  | complete => rfl
  | integer hm =>
    show (Numeral.number _).bind _ = _
    rw [hm.number_eq]
    rfl

end Settled

/-- What reading any text of a value comes to, inside any containers. -/
def Reads (v : Value) : Prop :=
  ∀ (cs : List Char) (fs : List Frame), Written v cs → fs.length ≤ maxDepth →
    ∃ s, Settled fs v s ∧ run (fs, .between .value) cs =
      if fs.length + v.depth ≤ maxDepth then .ok s else refuse .tooDeep

/-- A value between blanks, up to the character behind them. -/
theorem Reads.run_between {v : Value} (hv : Reads v) {cs bs : List Char} (hcs : Written v cs)
    (hbs : Blanks bs) {fs : List Frame} (hfs : fs.length ≤ maxDepth) {c : Char}
    (hc : c ∈ followers) (rest : List Char) :
    run (fs, .between .value) (cs ++ (bs ++ c :: rest)) =
      if fs.length + v.depth ≤ maxDepth then run (complete v fs) (c :: rest)
      else refuse .tooDeep := by
  obtain ⟨s, hs, hread⟩ := hv cs fs hcs hfs
  rw [run_append_ite hread, hs.run_blanks hbs hc]

theorem toString_head (i : Int) :
    ∃ c rest, (toString i).toList = c :: rest ∧ isBlank c = false ∧ c ≠ ']' := by
  by_cases hneg : i < 0
  · obtain ⟨n, rfl⟩ : ∃ n : Nat, i = -(n : Int) := ⟨(-i).toNat, by omega⟩
    exact ⟨'-', _, toList_toString_neg (by omega), rfl, by decide⟩
  · obtain ⟨n, rfl⟩ : ∃ n : Nat, i = (n : Int) := ⟨i.toNat, by omega⟩
    rw [toList_toString_nat]
    cases hn : Nat.toDigits 10 n with
    | nil => exact absurd hn Nat.toDigits_ne_nil
    | cons c rest =>
      have hdigit : c.isDigit = true :=
        Nat.isDigit_of_mem_toDigits (by decide) (by decide) (hn ▸ List.mem_cons_self)
      refine ⟨c, rest, rfl, ?_, ?_⟩
      · refine Bool.eq_false_iff.2 fun hblank => ?_
        simp only [isBlank, Bool.or_eq_true, beq_iff_eq] at hblank
        rcases hblank with ((rfl | rfl) | rfl) | rfl <;> exact absurd hdigit (by decide)
      · rintro rfl
        exact absurd hdigit (by decide)

theorem written_head {v : Value} {cs : List Char} (h : Written v cs) :
    ∃ c rest, cs = c :: rest ∧ isBlank c = false ∧ c ≠ ']' := by
  cases h with
  | null => exact ⟨_, _, rfl, rfl, by decide⟩
  | true => exact ⟨_, _, rfl, rfl, by decide⟩
  | false => exact ⟨_, _, rfl, rfl, by decide⟩
  | integer _ => exact toString_head _
  | string hs =>
    obtain ⟨body, -, rfl⟩ := hs
    exact ⟨_, _, rfl, rfl, by decide⟩
  | emptyArray _ => exact ⟨_, _, rfl, rfl, by decide⟩
  | array _ => exact ⟨_, _, rfl, rfl, by decide⟩
  | emptyObject _ => exact ⟨_, _, rfl, rfl, by decide⟩
  | object _ => exact ⟨_, _, rfl, rfl, by decide⟩

/-! ### Items -/

/-- The place of the next item after those read so far, the newest first. -/
def itemPlace : List Value → Place
  | [] => .firstItem
  | items => .nextItem items

/-- An item is read as a value inside one container more. -/
theorem run_itemPlace {v : Value} {cs : List Char} (h : Written v cs) (fs : List Frame)
    (items : List Value) (rest : List Char) :
    run (fs, .between (itemPlace items)) (cs ++ rest) =
      run (.item items :: fs, .between .value) (cs ++ rest) := by
  obtain ⟨c, cs, rfl, hblank, hclose⟩ := written_head h
  have hnext : next fs (.between (itemPlace items)) c = beginValue (.item items :: fs) c := by
    cases items <;> simp [next, nextToken, itemPlace, hblank, hclose]
  have hvalue : next (.item items :: fs) (.between .value) c =
      beginValue (.item items :: fs) c := by
    simp [next, nextToken, hblank]
  rw [List.cons_append, run_cons, run_cons, hnext, hvalue]

theorem run_item {v : Value} (hv : Reads v) {as cs bs : List Char} (has : Blanks as)
    (hcs : Written v cs) (hbs : Blanks bs) {fs : List Frame} (hfs : fs.length < maxDepth)
    (items : List Value) {c : Char} (hc : c ∈ followers) (rest : List Char) :
    run (fs, .between (itemPlace items)) (as ++ (cs ++ (bs ++ c :: rest))) =
      if fs.length + 1 + v.depth ≤ maxDepth then
        run (fs, .between (.afterItem (v :: items))) (c :: rest)
      else refuse .tooDeep := by
  have hopen : (Frame.item items :: fs).length ≤ maxDepth := hfs
  rw [run_append_ok (run_blanks has fs _), run_itemPlace hcs, hv.run_between hcs hbs hopen hc]
  rfl

theorem run_items {vs : List Value} (hvs : ∀ v ∈ vs, Reads v) {cs : List Char}
    (h : WrittenItems vs cs) {fs : List Frame} (hfs : fs.length < maxDepth) (items : List Value) :
    run (fs, .between (itemPlace items)) (cs ++ [']']) =
      if fs.length + 1 + Value.itemsDepth vs ≤ maxDepth then
        .ok (complete (.array (items.reverse ++ vs)) fs)
      else refuse .tooDeep := by
  have hclose : ']' ∈ followers := by simp [followers]
  have hcomma : ',' ∈ followers := by simp [followers]
  induction vs generalizing cs items with
  | nil => cases h
  | cons v vs ih =>
    have hv := hvs v List.mem_cons_self
    cases h with
    | @last _ as ds bs has hcs hbs =>
      have hsplit : as ++ (ds ++ bs) ++ [']'] = as ++ (ds ++ (bs ++ ']' :: [])) := by simp
      have hdepth : Value.itemsDepth [v] = v.depth := by simp [Value.itemsDepth]
      rw [hsplit, run_item hv has hcs hbs hfs items hclose, hdepth, ← List.reverse_cons]
      rfl
    | @more _ _ as ds bs rest has hcs hbs hrest =>
      have hmore := ih (fun w hw => hvs w (List.mem_cons_of_mem v hw)) hrest (v :: items)
      have hsplit : as ++ (ds ++ (bs ++ ',' :: rest)) ++ [']'] =
          as ++ (ds ++ (bs ++ ',' :: (rest ++ [']']))) := by simp
      have hdepth : Value.itemsDepth (v :: vs) = max v.depth (Value.itemsDepth vs) := rfl
      have hnext : next fs (.between (.afterItem (v :: items))) ',' =
          .ok (fs, .between (itemPlace (v :: items))) := rfl
      rw [hsplit, run_item hv has hcs hbs hfs items hcomma, run_cons_ok hnext, hmore,
        List.reverse_cons, List.append_assoc, List.singleton_append, ← ite_and]
      exact if_congr (by omega) rfl rfl

/-! ### Members -/

/-- The place of the next key after the members read so far. -/
def memberPlace : Members → Place
  | [] => .firstKey
  | ms => .nextKey ms

theorem Members.insert_of_not_mem {ms : Members} {key : String} (v : Value)
    (h : key ∉ ms.map Prod.fst) : ms.insert key v = ms ++ [(key, v)] := by
  induction ms with
  | nil => rfl
  | cons m ms ih =>
    obtain ⟨k, w⟩ := m
    rw [List.map_cons, List.mem_cons, not_or] at h
    rw [insert, if_neg (Ne.symm h.1), ih h.2]
    rfl

/-- The key of a member, with the colon. -/
theorem run_key {key : String} {as ks bs : List Char} (has : Blanks as) (hks : Quoted key ks)
    (hbs : Blanks bs) (fs : List Frame) (ms : Members) (rest : List Char) :
    run (fs, .between (memberPlace ms)) (as ++ (ks ++ (bs ++ ':' :: rest))) =
      run (.member ms key :: fs, .between .value) rest := by
  obtain ⟨body, rfl, hbody⟩ := run_quoted fs (.key ms) hks
  have hopen : next fs (.between (memberPlace ms)) '"' = .ok (fs, .string (.key ms) "") := by
    cases ms <;> rfl
  have hcolon : next fs (.between (.afterKey ms key)) ':' =
      .ok (.member ms key :: fs, .between .value) := rfl
  rw [run_append_ok (run_blanks has fs _), List.cons_append, run_cons_ok hopen, run_append_ok hbody]
  show run (fs, .between (.afterKey ms key)) (bs ++ ':' :: rest) = _
  rw [run_append_ok (run_blanks hbs fs _), run_cons_ok hcolon]

theorem run_member {key : String} {v : Value} (hv : Reads v) {as ks bs ds cs es : List Char}
    (has : Blanks as) (hks : Quoted key ks) (hbs : Blanks bs) (hds : Blanks ds)
    (hcs : Written v cs) (hes : Blanks es) {fs : List Frame} (hfs : fs.length < maxDepth)
    (ms : Members) {c : Char} (hc : c ∈ followers) (rest : List Char) :
    run (fs, .between (memberPlace ms))
        (as ++ (ks ++ (bs ++ ':' :: (ds ++ (cs ++ (es ++ c :: rest)))))) =
      if fs.length + 1 + v.depth ≤ maxDepth then
        run (fs, .between (.afterMember (ms.insert key v))) (c :: rest)
      else refuse .tooDeep := by
  have hopen : (Frame.member ms key :: fs).length ≤ maxDepth := hfs
  rw [run_key has hks hbs, run_append_ok (run_blanks hds _ _), hv.run_between hcs hes hopen hc]
  rfl

theorem run_members {ns : Members} (hns : ∀ m ∈ ns, Reads m.2) {cs : List Char}
    (h : WrittenMembers ns cs) {fs : List Frame} (hfs : fs.length < maxDepth) (ms : Members)
    (hkeys : ((ms ++ ns).map Prod.fst).Nodup) :
    run (fs, .between (memberPlace ms)) (cs ++ ['\x7d']) =
      if fs.length + 1 + Value.membersDepth ns ≤ maxDepth then
        .ok (complete (.object (ms ++ ns)) fs)
      else refuse .tooDeep := by
  have hclose : '\x7d' ∈ followers := by simp [followers]
  have hcomma : ',' ∈ followers := by simp [followers]
  induction ns generalizing cs ms with
  | nil => cases h
  | cons n ns ih =>
    obtain ⟨key, v⟩ := n
    have hfresh : key ∉ ms.map Prod.fst := by
      rw [List.map_append, List.map_cons, List.nodup_append] at hkeys
      exact fun hmem => hkeys.2.2 key hmem key List.mem_cons_self rfl
    have hinsert := Members.insert_of_not_mem v hfresh
    have hv : Reads v := hns (key, v) List.mem_cons_self
    cases h with
    | @last _ _ as ks bs ds xs es has hks hbs hds hcs hes =>
      have hsplit : as ++ (ks ++ (bs ++ ':' :: (ds ++ (xs ++ es)))) ++ ['\x7d'] =
          as ++ (ks ++ (bs ++ ':' :: (ds ++ (xs ++ (es ++ '\x7d' :: []))))) := by simp
      have hdepth : Value.membersDepth [(key, v)] = v.depth := by simp [Value.membersDepth]
      rw [hsplit, run_member hv has hks hbs hds hcs hes hfs ms hclose, hdepth, hinsert]
      rfl
    | @more _ _ _ as ks bs ds xs es rest has hks hbs hds hcs hes hrest =>
      have hmore := ih (fun m hm => hns m (List.mem_cons_of_mem (key, v) hm)) hrest
        (ms ++ [(key, v)]) (by rwa [List.append_assoc, List.singleton_append])
      have hsplit : as ++ (ks ++ (bs ++ ':' :: (ds ++ (xs ++ (es ++ ',' :: rest))))) ++ ['\x7d'] =
          as ++ (ks ++ (bs ++ ':' :: (ds ++ (xs ++ (es ++ ',' :: (rest ++ ['\x7d'])))))) := by simp
      have hdepth : Value.membersDepth ((key, v) :: ns) = max v.depth (Value.membersDepth ns) := rfl
      have hnext : next fs (.between (.afterMember (ms ++ [(key, v)]))) ',' =
          .ok (fs, .between (memberPlace (ms ++ [(key, v)]))) := by
        cases ms <;> rfl
      rw [hsplit, run_member hv has hks hbs hds hcs hes hfs ms hcomma, hinsert, run_cons_ok hnext,
        hmore, List.append_assoc, List.singleton_append, ← ite_and]
      exact if_congr (by omega) rfl rfl

/-! ### All values -/

/-- An opening bracket or brace in front of a value. -/
theorem run_open {fs : List Frame} {c : Char} {place : Place}
    (h : next fs (.between .value) c =
      if fs.length < maxDepth then .ok (fs, .between place) else refuse .tooDeep)
    (hfs : fs.length ≤ maxDepth) {inner : Nat} {v : Value} (hv : v.depth = inner + 1)
    {rest : List Char}
    (hrest : fs.length < maxDepth → run (fs, .between place) rest =
      if fs.length + 1 + inner ≤ maxDepth then .ok (complete v fs) else refuse .tooDeep) :
    ∃ s, Settled fs v s ∧ run (fs, .between .value) (c :: rest) =
      if fs.length + v.depth ≤ maxDepth then .ok s else refuse .tooDeep := by
  refine ⟨_, .complete v, ?_⟩
  by_cases hopen : fs.length < maxDepth
  · rw [if_pos hopen] at h
    rw [run_cons_ok h, hrest hopen, hv, Nat.add_assoc, Nat.add_comm 1]
  · rw [run_cons, h, hv, if_neg hopen, if_neg (by omega)]
    rfl

theorem reads_of_distinct {v : Value} (hv : v.Distinct) : Reads v := by
  induction hv with
  | null =>
    intro cs fs h hfs
    refine ⟨_, .complete _, ?_⟩
    cases h
    rw [Value.depth, Nat.add_zero, if_pos hfs]
    rfl
  | bool b =>
    intro cs fs h hfs
    refine ⟨_, .complete _, ?_⟩
    rw [Value.depth, Nat.add_zero, if_pos hfs]
    cases h <;> rfl
  | number n =>
    intro cs fs h hfs
    cases h with
    | integer hi =>
      obtain ⟨m, hrun, hm⟩ := run_toString hi fs
      refine ⟨_, .integer hm, ?_⟩
      rw [Value.depth, Nat.add_zero, if_pos hfs, hrun]
  | string s =>
    intro cs fs h hfs
    refine ⟨_, .complete _, ?_⟩
    cases h with
    | string hs =>
      obtain ⟨rest, rfl, hrest⟩ := run_quoted fs .value hs
      rw [Value.depth, Nat.add_zero, if_pos hfs]
      exact hrest
  | array _ ih =>
    intro cs fs h hfs
    cases h with
    | emptyArray hbs =>
      refine run_open rfl hfs rfl fun hopen => ?_
      rw [run_append_ok (run_blanks hbs fs .firstItem), Value.itemsDepth, if_pos (by omega)]
      rfl
    | array hitems =>
      refine run_open rfl hfs rfl fun hopen => ?_
      exact run_items ih hitems hopen []
  | object hkeys _ ih =>
    intro cs fs h hfs
    cases h with
    | emptyObject hbs =>
      refine run_open rfl hfs rfl fun hopen => ?_
      rw [run_append_ok (run_blanks hbs fs .firstKey), Value.membersDepth, if_pos (by omega)]
      rfl
    | object hmembers =>
      refine run_open rfl hfs rfl fun hopen => ?_
      exact run_members ih hmembers hopen [] hkeys

/-! ## Documents -/

/-- A text of a value is read as that value, unless the value nests too deep. -/
theorem read_of_written {v : Value} (hv : v.Distinct) {as cs bs : List Char} (has : Blanks as)
    (hcs : Written v cs) (hbs : Blanks bs) {text : String}
    (htext : text.toList = as ++ (cs ++ bs)) :
    ∃ position, read text =
      if v.depth ≤ maxDepth then .ok v else .error ⟨.tooDeep, position⟩ := by
  obtain ⟨s, hs, hread⟩ := reads_of_distinct hv cs [] hcs (Nat.zero_le _)
  rw [List.length_nil, Nat.zero_add] at hread
  -- blanks behind a number deliver it, and the end of the text does so too
  have hafter : ∃ s', run s bs = .ok s' ∧ s'.2.atEnd s'.1 = .ok v := by
    cases bs with
    | nil => exact ⟨s, rfl, hs.atEnd_eq⟩
    | cons b bs =>
      refine ⟨complete v [], ?_, rfl⟩
      rw [hs.run_cons (mem_followers_of_blank hbs List.mem_cons_self)]
      exact run_blanks hbs [] (.finished v)
  obtain ⟨s', hrun, hend⟩ := hafter
  obtain ⟨p, hp⟩ := foldl_step .start [] (.between .value) (as ++ (cs ++ bs))
  refine ⟨p, ?_⟩
  rw [read_eq_foldl_toList, htext]
  show (List.foldl State.step (.reading .start [] (.between .value)) (as ++ (cs ++ bs))).finish = _
  rw [hp, run_append_ok (run_blanks has [] .value), run_append_ite hread, hrun]
  by_cases hdeep : v.depth ≤ maxDepth
  · rw [if_pos hdeep, if_pos hdeep]
    show (s'.2.atEnd s'.1).mapError _ = .ok v
    rw [hend]
    rfl
  · rw [if_neg hdeep, if_neg hdeep]
    rfl

end SyntaxToC.Json
