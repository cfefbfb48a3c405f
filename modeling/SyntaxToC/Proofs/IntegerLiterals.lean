import SyntaxToC.Proofs.Reordering
import SyntaxToC.Proofs.Truncation

/-!
# Integers as literals

An integer that fits a 64-bit word, with a sign if it is negative, is read without rounding and
written as it was: a literal node with the digits of `n` as its value has these digits as its text.

    FitsWord n → IntegerLiteral n text → loadText text = .ok (.literal (toString n))
-/

namespace SyntaxToC.Json

/-- The reader tells the texts of integers apart. -/
theorem eq_of_toString_eq {i j : Int} (hi : FitsWord i) (hj : FitsWord j)
    (h : toString i = toString j) : i = j := by
  obtain ⟨m, hrun, hm⟩ := run_toString hi []
  obtain ⟨m', hrun', hm'⟩ := run_toString hj []
  rw [h, hrun'] at hrun
  cases hrun
  have hinteger := hm.integer.symm.trans hm'.integer
  injection hinteger

end SyntaxToC.Json

namespace SyntaxToC.Tree

open SyntaxToC.Json

/-! ## Literals -/

/-- The texts of a literal node whose value is an integer in decimal.  It may have further members
of any kind; no two have the same key, and they nest no deeper than the reader goes. -/
def IntegerLiteral (i : Int) (text : String) : Prop :=
  ∃ ms : Members, (Value.object ms).Distinct ∧ (Value.object ms).depth ≤ 127 ∧
    ("type", .string "Literal") ∈ ms ∧ ("value", .number (.integer i)) ∈ ms ∧
    Renders (.object ms) text

theorem loadText_of_integerLiteral {i : Int} {text : String} (h : IntegerLiteral i text) :
    loadText text = .ok (.literal (toString i)) := by
  obtain ⟨ms, hdistinct, hdepth, htype, hvalue, w, as, cs, bs, hw, has, hcs, hbs, htext⟩ := h
  have hdecodes : Decodes (.object ms) (.literal (toString i)) := by
    cases hdistinct with
    | object hkeys _ =>
      exact .literal ((Members.get?_eq_some_iff_mem hkeys).2 htype)
        ((Members.get?_eq_some_iff_mem hkeys).2 hvalue) .integer
  obtain ⟨position, hread⟩ := read_of_written (hw.distinct hdistinct) has hcs hbs htext
  rw [hw.depth_eq, show maxDepth = 127 from rfl, if_pos hdepth] at hread
  exact loadText_eq_ok_iff.2 ⟨w, hread, load_of_decodes (hdecodes.reordered hdistinct hw)⟩

theorem quoted_word : ∀ s ∈ ["type", "Literal", "value", "range"],
    Quoted s ('"' :: (s.toList ++ ['"'])) := by
  intro s hs
  simp only [List.mem_cons, List.not_mem_nil, or_false] at hs
  rcases hs with rfl | rfl | rfl | rfl <;> exact quoted_plain (by simp)

/-- The shortest text of a literal node with an integer. -/
theorem integerLiteral_compact {i : Int} (h : FitsWord i) :
    IntegerLiteral i ("\x7b\"type\":\"Literal\",\"value\":" ++ toString i ++ "\x7d") := by
  have hwritten := Written.object
    (.more blanks_nil (quoted_word "type" (by simp)) blanks_nil blanks_nil
      (.string (quoted_word "Literal" (by simp))) blanks_nil
      (.last blanks_nil (quoted_word "value" (by simp)) blanks_nil blanks_nil (.integer h)
        blanks_nil))
  refine ⟨_, ?_, ?_, ?_, ?_, _, [], _, [], .refl _, blanks_nil, hwritten, blanks_nil, by simp⟩
  · refine .object (by simp) ?_
    simp only [List.forall_mem_cons]
    exact ⟨.string _, .number _, by simp⟩
  · simp [Value.depth, Value.membersDepth]
  · simp
  · simp

/-! ## Top theorem -/

/-- An integer from `-2 ^ 63` to `2 ^ 64 - 1` as the value of a literal is neither rounded nor
respelled, so that different integers give different literals. -/
theorem integer_literals_keep_digits (i : Int) (hlow : -9223372036854775808 ≤ i)
    (hhigh : i ≤ 18446744073709551615) :
    ((∃ text, IntegerLiteral i text) ∧
        ∀ text, IntegerLiteral i text → loadText text = .ok (.literal (toString i))) ∧
      ∀ j : Int, -9223372036854775808 ≤ j → j ≤ 18446744073709551615 → i ≠ j →
        ∀ text text', IntegerLiteral i text → IntegerLiteral j text' →
          loadText text ≠ loadText text' := by
  have hi : FitsWord i := ⟨hlow, hhigh⟩
  refine ⟨⟨⟨_, integerLiteral_compact hi⟩, fun text => loadText_of_integerLiteral⟩, ?_⟩
  intro j hlow' hhigh' hne text text' htext htext' heq
  rw [loadText_of_integerLiteral htext, loadText_of_integerLiteral htext'] at heq
  injection heq with hnodes
  injection hnodes with htexts
  exact hne (eq_of_toString_eq hi ⟨hlow', hhigh'⟩ htexts)

/-- The value in front of the tag, with blanks and a further member that holds integers. -/
theorem integerLiteral_spaced {i : Int} (h : FitsWord i) :
    IntegerLiteral i ("\x7b \"value\" :\n" ++ toString i ++
      "\t,\"range\":[4,5],\"type\":\"Literal\"\x7d ") := by
  have hspace : Blanks [' '] := by simp [Blanks]
  have hbreak : Blanks ['\n'] := by simp [Blanks]
  have htab : Blanks ['\t'] := by simp [Blanks]
  have hrange : Written (.array [.number (.integer 4), .number (.integer 5)]) "[4,5]".toList :=
    .array (.more blanks_nil (.integer (by decide)) blanks_nil
      (.last blanks_nil (.integer (by decide)) blanks_nil))
  have hwritten := Written.object
    (.more hspace (quoted_word "value" (by simp)) hspace hbreak (.integer h) htab
      (.more blanks_nil (quoted_word "range" (by simp)) blanks_nil blanks_nil hrange blanks_nil
        (.last blanks_nil (quoted_word "type" (by simp)) blanks_nil blanks_nil
          (.string (quoted_word "Literal" (by simp))) blanks_nil)))
  refine ⟨_, ?_, ?_, ?_, ?_, _, [], _, [' '], .refl _, blanks_nil, hwritten, hspace, by simp⟩
  · refine .object (by simp) ?_
    simp only [List.forall_mem_cons]
    exact ⟨.number _, .array (by simp [Value.Distinct.number]), .string _, by simp⟩
  · simp [Value.depth, Value.membersDepth, Value.itemsDepth]
  · simp
  · simp

/-- The bounds, the first integer that a double would round, and two neighbours that it would
confuse. -/
theorem integer_literals_keep_digits_bounds :
    (loadText "\x7b\"type\":\"Literal\",\"value\":18446744073709551615\x7d" =
        .ok (.literal "18446744073709551615") ∧
      loadText "\x7b\"type\":\"Literal\",\"value\":9007199254740993\x7d" =
        .ok (.literal "9007199254740993")) ∧
      loadText "\x7b \"value\" :\n-9223372036854775808\t,\"range\":[4,5],\"type\":\"Literal\"\x7d " =
        .ok (.literal "-9223372036854775808") ∧
      loadText "\x7b\"type\":\"Literal\",\"value\":9223372036854775807\x7d" ≠
        loadText "\x7b\"type\":\"Literal\",\"value\":9223372036854775808\x7d" := by
  have hmax := integer_literals_keep_digits 18446744073709551615 (by decide) (by decide)
  have hodd := integer_literals_keep_digits 9007199254740993 (by decide) (by decide)
  have hmin := integer_literals_keep_digits (-9223372036854775808) (by decide) (by decide)
  have hnear := integer_literals_keep_digits 9223372036854775807 (by decide) (by decide)
  refine ⟨⟨hmax.1.2 _ (integerLiteral_compact (by decide)),
    hodd.1.2 _ (integerLiteral_compact (by decide))⟩,
    hmin.1.2 _ (integerLiteral_spaced (by decide)), ?_⟩
  exact hnear.2 9223372036854775808 (by decide) (by decide) (by decide) _ _
    (integerLiteral_compact (by decide)) (integerLiteral_compact (by decide))

end SyntaxToC.Tree
