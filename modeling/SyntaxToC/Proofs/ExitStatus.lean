import SyntaxToC.Proofs.ArgumentOrder
import SyntaxToC.Proofs.Effects
import SyntaxToC.Proofs.Expansion

/-!
# Exit statuses

The exit status is meant to be 0 for a text that was delivered, for help and for the version, 1 for
any failure after the arguments were understood, and 2 for arguments that were not (`Promised`).  So
it is as long as there is room for the texts that a run builds: the indent, whose width is any 64-bit
number, the lines of blocks, the texts of functions and of the program, and the line break behind it.

    Promised fs words (runOn fs words).1.exitCode ↔ the run does not come to a text without room

A run that does ends with the status 101 and leaves everything as it was.  An indent of `2 ^ 63`
spaces or more has no room, and then the run does not even look at a file; a narrower one may still
lead to a text without room, but one of `2 ^ 20` spaces or less does not, since files have a largest
size.  There is room whenever the text of the tree and the separator of statements are shorter than
`2 ^ 62` bytes, and never for a text of `2 ^ 63` bytes.  The memory as a whole is taken to hold
whatever a run builds.
-/

namespace SyntaxToC.Command

open SyntaxToC.Tree (Node loadText)
open SyntaxToC.Code (bytes emit exhausts lineFits maxRoom textSize Layout)
open SyntaxToC.Outcome

/-! ## What is promised -/

/-- The call that the arguments ask for. -/
def Arguments.call (a : Arguments) : Call := ⟨a.file, a.output, a.layout⟩

/-- The file of the call holds a tree with a C text, and its output, if it has one, is a file that
can be written. -/
def Call.Completes (c : Call) (fs : FileSystem) : Prop :=
  (∃ source t code, Holds fs c.file source ∧ loadText source = .ok t ∧ emit c.layout t = .ok code) ∧
    ∀ out, c.output = some out → ∃ place, fs.target out = .ok place

/-- The status that a run of the command should end with. -/
inductive Promised (fs : FileSystem) (words : List String) : Nat → Prop
  | help : Arguments.parse words = .error .helpAsked → Promised fs words 0
  | version : Arguments.parse words = .error .versionAsked → Promised fs words 0
  | success {a : Arguments} :
      Arguments.parse words = .ok a → a.call.Completes fs → Promised fs words 0
  | failure {a : Arguments} :
      Arguments.parse words = .ok a → ¬ a.call.Completes fs → Promised fs words 1
  | misuse {e : UsageError} :
      Arguments.parse words = .error e → e ≠ .helpAsked → e ≠ .versionAsked → Promised fs words 2

theorem Promised.le_two {fs : FileSystem} {words : List String} {status : Nat}
    (h : Promised fs words status) : status ≤ 2 := by
  cases h <;> decide

/-! ## Running out of room -/

/-- The file holds a tree, and there is no room for a text in its emission, or for the line break
behind the whole text on its way to the output. -/
def Call.Exhausts (c : Call) (fs : FileSystem) : Prop :=
  ∃ source t, Holds fs c.file source ∧ loadText source = .ok t ∧
    (exhausts c.layout t ∨
      c.output.isSome ∧ ∃ code, emit c.layout t = .ok code ∧ ¬ lineFits code)

/-- There is no room for the indent, or for a text that is written with it. -/
def Arguments.Exhausts (a : Arguments) (fs : FileSystem) : Prop :=
  maxIndentWidth < a.indentWidth.getD 0 ∨ a.call.Exhausts fs

section

variable {file source code : String} {layout : Layout}

theorem generate_eq_ok_iff :
    generate file layout source = .ok code ↔
      ∃ t, loadText source = .ok t ∧ ¬ exhausts layout t ∧ emit layout t = .ok code := by
  unfold generate
  cases loadText source with
  | error e => simp
  | ok t =>
    by_cases hroom : exhausts layout t
    · simp [hroom]
    · simp [hroom, mapError_eq_ok_iff]

theorem generate_eq_exhausted_iff :
    generate file layout source = .error .exhausted ↔
      ∃ t, loadText source = .ok t ∧ exhausts layout t := by
  unfold generate
  cases loadText source with
  | error e => simp
  | ok t =>
    by_cases hroom : exhausts layout t
    · simp [hroom]
    · simp [hroom, mapError_eq_error_iff]

end

theorem source_ne_exhausted (fs : FileSystem) (file : String) :
    fs.source file ≠ .error .exhausted := by
  unfold FileSystem.source
  intro h
  rcases bind_eq_error_iff.1 h with h | ⟨size, -, h⟩
  · simp [mapError_eq_error_iff] at h
  · split at h
    · cases h
    · rcases bind_eq_error_iff.1 h with h | ⟨content, -, h⟩ <;> simp [mapError_eq_error_iff] at h

namespace Call

variable {c : Call} {fs : FileSystem}

theorem code_eq_exhausted_iff : c.code fs = .error .exhausted ↔ c.Exhausts fs := by
  unfold code Exhausts
  simp only [bind_eq_error_iff, bind_eq_ok_iff, source_eq_ok_iff, source_ne_exhausted, false_or,
    generate_eq_exhausted_iff, generate_eq_ok_iff]
  constructor
  · rintro (⟨source, hsource, t, ht, hroom⟩ | ⟨code, ⟨source, hsource, t, ht, -, hcode⟩, hline⟩)
    · exact ⟨source, t, hsource, ht, .inl hroom⟩
    · split at hline
      · next hfull => exact ⟨source, t, hsource, ht, .inr ⟨hfull.1, code, hcode, hfull.2⟩⟩
      · cases hline
  · rintro ⟨source, t, hsource, ht, hroom⟩
    by_cases hfull : exhausts c.layout t
    · exact .inl ⟨source, hsource, t, ht, hfull⟩
    · obtain ⟨hout, code, hcode, hline⟩ := hroom.resolve_left hfull
      exact .inr ⟨code, ⟨source, hsource, t, ht, hfull, hcode⟩, if_pos ⟨hout, hline⟩⟩

theorem run_of_exhausts (h : c.Exhausts fs) : c.run fs = (.failure .exhausted, fs) :=
  run_of_error (code_eq_exhausted_iff.2 h)

/-- With room for everything, the texts that there are are the texts that the call comes to. -/
theorem yields_iff (h : ¬ c.Exhausts fs) {code : String} :
    c.Yields fs code ↔ ∃ source t, Holds fs c.file source ∧ loadText source = .ok t ∧
      emit c.layout t = .ok code := by
  unfold Yields
  simp only [generate_eq_ok_iff]
  constructor
  · rintro ⟨source, hsource, ⟨t, ht, -, hcode⟩, -⟩
    exact ⟨source, t, hsource, ht, hcode⟩
  · rintro ⟨source, t, hsource, ht, hcode⟩
    refine ⟨source, hsource, ⟨t, ht, fun hfull => ?_, hcode⟩, fun hout => ?_⟩
    · exact h ⟨source, t, hsource, ht, .inl hfull⟩
    · by_contra hline
      exact h ⟨source, t, hsource, ht, .inr ⟨hout, code, hcode, hline⟩⟩

theorem run_of_completes (hroom : ¬ c.Exhausts fs) (h : c.Completes fs) :
    (c.run fs).1.exitCode = 0 := by
  obtain ⟨⟨source, t, code, htext⟩, htarget⟩ := h
  have hyields := (yields_iff hroom).2 ⟨source, t, htext⟩
  cases hout : c.output with
  | none => rw [run_of_no_output hyields hout, Outcome.exitCode]
  | some out =>
    obtain ⟨place, hplace⟩ := htarget out hout
    rw [run_of_target hyields hout hplace, Outcome.exitCode]

theorem run_of_not_completes (hroom : ¬ c.Exhausts fs) (h : ¬ c.Completes fs) :
    (c.run fs).1.exitCode = 1 := by
  cases hcode : c.code fs with
  | error f =>
    have hne : f ≠ .exhausted := fun hf => hroom (code_eq_exhausted_iff.1 (hf ▸ hcode))
    rw [run_of_error hcode]
    show f.exitCode = 1
    cases f with
    | exhausted => exact absurd rfl hne
    | _ => rfl
  | ok code =>
    have hyields := code_eq_ok_iff.1 hcode
    -- there is a text, so it is the output that cannot be written
    have hout : ∃ out, c.output = some out ∧ ∀ place, fs.target out ≠ .ok place := by
      by_contra hnone
      push Not at hnone
      obtain ⟨source, t, htext⟩ := (yields_iff hroom).1 hyields
      exact h ⟨⟨source, t, code, htext⟩, hnone⟩
    obtain ⟨out, hout, htarget⟩ := hout
    cases hplace : fs.target out with
    | error e =>
      rw [run_of_target_error hyields hout hplace]
      rfl
    | ok place => exact absurd hplace (htarget place)

end Call

/-! ## How runs end -/

section

variable {words : List String} {a : Arguments}

theorem runOn_of_exhausts {fs : FileSystem} (h : Arguments.parse words = .ok a)
    (hfull : a.Exhausts fs) : runOn fs words = (.failure .exhausted, fs) := by
  by_cases hwide : maxIndentWidth < a.indentWidth.getD 0
  · unfold runOn run
    rw [h]
    dsimp only
    rw [if_pos hwide]
    rfl
  · rw [runOn_eq_call fs h (by omega)]
    exact Call.run_of_exhausts (hfull.resolve_left hwide)

theorem promised_of_room {fs : FileSystem} (h : Arguments.parse words = .ok a)
    (hroom : ¬ a.Exhausts fs) : Promised fs words (runOn fs words).1.exitCode := by
  unfold Arguments.Exhausts at hroom
  push Not at hroom
  obtain ⟨hwidth, hcall⟩ := hroom
  rw [runOn_eq_call fs h hwidth]
  show Promised fs words (a.call.run fs).1.exitCode
  by_cases hcompletes : a.call.Completes fs
  · rw [Call.run_of_completes hcall hcompletes]
    exact .success h hcompletes
  · rw [Call.run_of_not_completes hcall hcompletes]
    exact .failure h hcompletes

theorem promised_of_usage_error (fs : FileSystem) {e : UsageError}
    (h : Arguments.parse words = .error e) : Promised fs words (runOn fs words).1.exitCode := by
  unfold runOn run
  rw [h]
  cases e with
  | helpAsked => exact .help h
  | versionAsked => exact .version h
  | _ => exact .misuse h (by decide) (by decide)

end

/-! ## Bounds on the texts -/

theorem Holds.unique {fs : FileSystem} {file source source' : String} (h : Holds fs file source)
    (h' : Holds fs file source') : source = source' :=
  Except.ok.inj ((source_eq_ok_iff.2 h).symm.trans (source_eq_ok_iff.2 h'))

theorem bytes_spaces (n : Nat) : bytes (Layout.spaces n) = n := by
  unfold Layout.spaces bytes
  induction n with
  | zero => rfl
  | succ n ih =>
    rw [List.replicate_succ, String.ofList_cons, String.utf8ByteSize_append, ih]
    exact Nat.add_comm 1 n

/-- The indent is a tab if no width is given. -/
theorem Arguments.bytes_indent (a : Arguments) : bytes a.layout.indent = a.indentWidth.getD 1 := by
  obtain ⟨hspaces, htab, -⟩ := a.layout_spec
  cases hwidth : a.indentWidth with
  | none =>
    rw [htab hwidth]
    rfl
  | some n =>
    rw [hspaces n hwidth]
    exact bytes_spaces n

theorem Arguments.not_wide {a : Arguments} (h : a.indentWidth.getD 1 < 2 ^ 63) :
    ¬ maxIndentWidth < a.indentWidth.getD 0 := by
  have hmax : maxIndentWidth = 2 ^ 63 - 1 := rfl
  cases hwidth : a.indentWidth with
  | none => exact Nat.not_lt_zero _
  | some n =>
    rw [hwidth, Option.getD_some] at h
    rw [Option.getD_some]
    omega

section

variable {fs : FileSystem} {a : Arguments} {source : String} {t : Node}

/-- The text of the tree and what separates two statements take at most half of the room that there
can be. -/
theorem not_exhausts_of_lt (hsource : Holds fs a.file source) (ht : loadText source = .ok t)
    (hseparator : a.indentWidth.getD 1 + 1 < 2 ^ 62) (htext : textSize a.layout t < 2 ^ 62) :
    ¬ a.Exhausts fs := by
  have hmax : maxRoom = 2 ^ 63 - 1 := rfl
  have hindent := a.bytes_indent
  rintro (hwide | ⟨source', t', hsource', ht', hroom⟩)
  · exact Arguments.not_wide (by omega) hwide
  · obtain rfl := hsource.unique hsource'
    obtain rfl := Except.ok.inj (ht.symm.trans ht')
    rcases hroom with hfull | ⟨-, code, hcode, hline⟩
    · have hshort : Code.Short a.layout (textSize a.layout t) := Code.short_of_exhausts hfull
      unfold Code.Short at hshort
      omega
    · have hsize : textSize a.layout t = bytes code := Code.textSize_eq hcode
      rw [Code.lineFits_iff] at hline
      omega

theorem exhausts_of_le {code : String} (hsource : Holds fs a.file source)
    (ht : loadText source = .ok t) (hcode : emit a.layout t = .ok code)
    (hle : 2 ^ 63 ≤ bytes code ∨ a.output.isSome ∧ 2 ^ 62 ≤ bytes code) : a.Exhausts fs := by
  have hmax : maxRoom = 2 ^ 63 - 1 := rfl
  refine .inr ⟨source, t, hsource, ht, ?_⟩
  rcases hle with hlong | ⟨hout, hlong⟩
  · exact .inl (Code.exhausts_of_lt hcode (by omega))
  · refine .inr ⟨hout, code, hcode, fun hline => ?_⟩
    rw [Code.lineFits_iff] at hline
    omega

end

/-! ## Narrow indents -/

theorem Content.size_zeros (n : Nat) : (Content.zeros n).size = n := by
  induction n using Nat.strong_induction_on with
  | _ n ih =>
    rw [Content.zeros]
    split
    · next hzero => rw [hzero, ByteArray.size_empty]
    · have hhalf := ih (n / 2) (by omega)
      dsimp only
      split
      · rw [ByteArray.size_append, hhalf]
        omega
      · rw [ByteArray.size_push, ByteArray.size_append, hhalf]
        omega

theorem Content.size_bytes (c : Content) : c.bytes.size = c.size := by
  unfold Content.bytes Content.size
  split
  · next hhole => rw [hhole, Nat.add_zero]
  · rw [ByteArray.size_append, Content.size_zeros]

theorem length_toList_le (text : String) : text.toList.length ≤ bytes text := by
  rw [← String.ofList_toList (s := text), bytes]
  generalize text.toList = cs
  rw [String.toList_ofList]
  induction cs with
  | nil => exact Nat.le_refl 0
  | cons c cs ih =>
    have hc := c.utf8Size_pos
    rw [String.ofList_cons, String.utf8ByteSize_append, String.utf8ByteSize_singleton,
      List.length_cons]
    omega

/-- No longer file is read. -/
theorem Holds.length_le {fs : FileSystem} {file source : String} (h : Holds fs file source) :
    source.toList.length ≤ maxSourceSize := by
  obtain ⟨content, -, -, hsize, hbytes⟩ := h
  have hsource : bytes source = content.size := by
    rw [← content.size_bytes, hbytes]
    rfl
  have hlength := length_toList_le source
  omega

/-- In lines that are indented by a million spaces or less, the code of every file has room. -/
theorem not_exhausts_of_narrow {fs : FileSystem} {a : Arguments}
    (h : a.indentWidth.getD 1 ≤ 2 ^ 20) : ¬ a.Exhausts fs := by
  rintro (hwide | ⟨source, t, hsource, ht, hroom⟩)
  · exact Arguments.not_wide (by omega) hwide
  · refine not_exhausts_of_lt hsource ht (by omega) ?_ (.inr ⟨source, t, hsource, ht, hroom⟩)
    have hcost : Code.lineCost a.layout ≤ 2 ^ 20 + 16 := by
      rw [Code.lineCost, a.bytes_indent]
      omega
    have hsize : Json.growth * (source.toList.length + 1) ≤ Json.growth * (maxSourceSize + 1) :=
      Nat.mul_le_mul_left _ (Nat.succ_le_succ hsource.length_le)
    calc textSize a.layout t
        ≤ Code.lineCost a.layout * (Json.growth * (source.toList.length + 1)) :=
          Code.textSize_le_of_loadText ht
      _ ≤ (2 ^ 20 + 16) * (Json.growth * (maxSourceSize + 1)) := Nat.mul_le_mul hcost hsize
      _ < 2 ^ 62 := by decide

/-! ## Top theorem -/

/-- A run ends with the promised status exactly if it does not come to a text without room.  If it
does, it ends with 101, prints nothing and changes nothing.  An indent of `2 ^ 63` spaces never has
room, however the arguments are written and whatever the files are; a narrower one has, and decides
nothing if the file holds no tree.  With an indent of `2 ^ 20` spaces or less, or with the tab,
every run ends as promised: files that are read have a largest size, and so have their texts.  Texts
of less than `2 ^ 62` bytes always have room; one of `2 ^ 63` bytes never has, nor one of `2 ^ 62`
bytes on its way to a file. -/
theorem exit_status_as_promised_iff (fs : FileSystem) (words : List String) :
    (Promised fs words (runOn fs words).1.exitCode ↔
      ∀ a, Arguments.parse words = .ok a → ¬ a.Exhausts fs) ∧
    (∀ a, Arguments.parse words = .ok a → a.Exhausts fs →
      (runOn fs words).1.exitCode = 101 ∧ (runOn fs words).1.stdout = "" ∧
        (runOn fs words).2 = fs) ∧
    (∀ (a : Arguments) (items : List Item) (n : Nat), a.indentWidth = some n →
      items.Perm a.items → Spelled items words → 2 ^ 63 ≤ n →
      (runOn fs words).1.exitCode = 101) ∧
    (∀ a, Arguments.parse words = .ok a → a.indentWidth.getD 1 < 2 ^ 63 →
      (∀ source t, Holds fs a.file source → loadText source ≠ .ok t) →
      Promised fs words (runOn fs words).1.exitCode) ∧
    (∀ a, Arguments.parse words = .ok a → a.indentWidth.getD 1 ≤ 2 ^ 20 →
      Promised fs words (runOn fs words).1.exitCode) ∧
    ∀ a source t, Arguments.parse words = .ok a → Holds fs a.file source →
      loadText source = .ok t →
      (a.indentWidth.getD 1 + 1 < 2 ^ 62 → textSize a.layout t < 2 ^ 62 →
        Promised fs words (runOn fs words).1.exitCode) ∧
      ∀ code, emit a.layout t = .ok code →
        (2 ^ 63 ≤ bytes code ∨ a.output.isSome ∧ 2 ^ 62 ≤ bytes code) →
        (runOn fs words).1.exitCode = 101 := by
  have hexhausts : ∀ a, Arguments.parse words = .ok a → a.Exhausts fs →
      (runOn fs words).1.exitCode = 101 ∧ (runOn fs words).1.stdout = "" ∧
        (runOn fs words).2 = fs := by
    intro a ha hfull
    rw [runOn_of_exhausts ha hfull]
    exact ⟨rfl, rfl, rfl⟩
  refine ⟨⟨?_, ?_⟩, hexhausts, ?_, ?_, ?_, ?_⟩
  · intro hpromised a ha hfull
    have hle := hpromised.le_two
    have hcode := (hexhausts a ha hfull).1
    omega
  · intro hroom
    cases hparse : Arguments.parse words with
    | error e => exact promised_of_usage_error fs hparse
    | ok a => exact promised_of_room hparse (hroom a hparse)
  · intro a items n hn hitems hwords hwide
    refine (hexhausts a (Arguments.parse_of_perm hitems hwords) (.inl ?_)).1
    have hmax : maxIndentWidth = 2 ^ 63 - 1 := rfl
    rw [hn, Option.getD_some]
    omega
  · intro a ha hwidth hnone
    refine promised_of_room ha ?_
    rintro (hwide | ⟨source, t, hsource, ht, -⟩)
    · exact Arguments.not_wide hwidth hwide
    · exact hnone source t hsource ht
  · intro a ha hwidth
    exact promised_of_room ha (not_exhausts_of_narrow hwidth)
  · intro a source t ha hsource ht
    refine ⟨fun hseparator htext => ?_, fun code hcode hle => ?_⟩
    · exact promised_of_room ha (not_exhausts_of_lt hsource ht hseparator htext)
    · exact (hexhausts a ha (exhausts_of_le hsource ht hcode hle)).1

-- the reader goes through a text of more than a hundred characters
set_option maxRecDepth 1000 in
/-- A block of three statements in indents of `2 ^ 60`, 4 and `2 ^ 62` spaces, and the indents on
both sides of `2 ^ 63` for a file that is not there. -/
theorem exit_status_as_promised_iff_three_statements :
    let one := "\x7b\"type\":\"Literal\",\"value\":1\x7d"
    let source := "\x7b\"type\":\"BlockStatement\",\"body\":[" ++ one ++ "," ++ one ++ "," ++
      one ++ "]\x7d"
    let fs := FileSystem.empty.set ["a"] (.file (.ofText source))
    let words (width : String) := ["a", "--indent-width", width]
    Promised fs (words "1152921504606846976") (runOn fs (words "1152921504606846976")).1.exitCode ∧
      Promised fs (words "4") (runOn fs (words "4")).1.exitCode ∧
      (runOn fs (words "4611686018427387904")).1.exitCode = 101 ∧
      Promised .empty (words "9223372036854775807")
        (runOn .empty (words "9223372036854775807")).1.exitCode ∧
      (runOn .empty (words "9223372036854775808")).1.exitCode = 101 := by
  intro one source fs words
  have hread : Json.read source = .ok (.object [("type", .string "BlockStatement"),
      ("body", .array (List.replicate 3
        (.object [("type", .string "Literal"), ("value", .number (.integer 1))])))]) := by
    rw [Json.read_eq_foldl_toList]
    simp only [source, one, String.toList_append]
    rfl
  have hload : loadText source = .ok (.block (List.replicate 3 (some (.literal "1")))) := by
    have hone : ¬ Json.Falsy (.object [("type", .string "Literal"),
        ("value", .number (.integer 1))]) := fun h => by cases h
    unfold loadText
    rw [hread]
    dsimp only
    rw [Tree.load_of_decodes (.block rfl rfl (.node hone (.literal rfl rfl .integer)
      (.node hone (.literal rfl rfl .integer) (.node hone (.literal rfl rfl .integer) .nil))))]
    rfl
  have hstart : start "a" = [] := by decide +kernel
  have hmissing : FileSystem.empty.find "a" = .error .notFound := by
    unfold FileSystem.find
    rw [hstart]
    rfl
  have hholds : Holds fs "a" source := by
    have hslash : "a".endsWith "/" = false := by decide +kernel
    refine ⟨.ofText source, ?_, ⟨["a"], ?_, rfl⟩, by decide +kernel, rfl⟩
    · unfold FileSystem.find
      rw [hstart, hslash]
      rfl
    · rw [hstart]
      rfl
  let asked (n : Nat) : Arguments := ⟨"a", none, false, some n⟩
  let code (n : Nat) : String := Code.lines (asked n).layout ["1;", "1;", "1;"]
  have hcode : ∀ n, emit (asked n).layout (.block (List.replicate 3 (some (.literal "1")))) =
      .ok (code n) := fun _ => rfl
  have hsize : ∀ n, bytes (code n) = 2 * n + 8 := by
    intro n
    have hindent : bytes (asked n).layout.indent = n := (asked n).bytes_indent
    have hone : bytes "1;" = 2 := rfl
    have hbreak : bytes "\n" = 1 := rfl
    show bytes (("\n" ++ (asked n).layout.indent).intercalate ["1;", "1;", "1;"]) = _
    simp only [String.intercalate_cons_cons, String.intercalate_singleton, Code.bytes_append,
      hindent, hone, hbreak]
    omega
  have hnarrow : Arguments.parse (words "1152921504606846976") = .ok (asked (2 ^ 60)) := rfl
  have hwide : Arguments.parse (words "4611686018427387904") = .ok (asked (2 ^ 62)) := rfl
  obtain ⟨-, -, -, -, -, htree⟩ := exit_status_as_promised_iff fs (words "1152921504606846976")
  obtain ⟨-, -, -, -, -, htree'⟩ := exit_status_as_promised_iff fs (words "4611686018427387904")
  obtain ⟨-, -, hwidth, -, -, -⟩ := exit_status_as_promised_iff .empty (words "9223372036854775808")
  obtain ⟨-, -, -, habsent, -, -⟩ :=
    exit_status_as_promised_iff .empty (words "9223372036854775807")
  obtain ⟨-, -, -, -, hfour, -⟩ := exit_status_as_promised_iff fs (words "4")
  refine ⟨?_, hfour (asked 4) rfl (by decide), ?_, ?_, ?_⟩
  · refine (htree _ source _ hnarrow hholds hload).1 (by decide) ?_
    rw [Code.textSize_eq (hcode _), hsize]
    decide
  · refine (htree' _ source _ hwide hholds hload).2 _ (hcode _) (.inl ?_)
    rw [hsize]
    decide
  · have hparse : Arguments.parse (words "9223372036854775807") = .ok (asked (2 ^ 63 - 1)) := rfl
    refine habsent _ hparse (by decide) ?_
    rintro _ _ ⟨content, hcontent, -⟩
    cases hmissing.symm.trans hcontent
  · have hspelled : Spelled [.file "a", .indentWidth (2 ^ 63)] (words "9223372036854775808") :=
      ⟨_, .cons (.file (by decide)) (.cons (.indentWidth ⟨by decide, "", by decide, 0, by decide⟩)
        .nil), rfl⟩
    exact hwidth (asked (2 ^ 63)) _ _ rfl .rfl hspelled (Nat.le_refl _)

/-- The widest indent that can be asked for: the missing file is not even looked for. -/
theorem widest_request_exits_101 :
    let words := ["a.json", "--indent-width", "18446744073709551615"]
    Arguments.parse words = .ok ⟨"a.json", none, false, some 18446744073709551615⟩ ∧
      Promised .empty words 1 ∧ (runOn .empty words).1.exitCode = 101 ∧
      ¬ Promised .empty words 101 := by
  intro words
  have hparse : Arguments.parse words =
      .ok ⟨"a.json", none, false, some 18446744073709551615⟩ := rfl
  have habsent : FileSystem.empty.find "a.json" = .error .notFound := by
    have hstart : start "a.json" = [] := by decide +kernel
    unfold FileSystem.find
    rw [hstart]
    rfl
  refine ⟨hparse, .failure hparse ?_, ?_, fun h => ?_⟩
  · rintro ⟨⟨source, t, code, ⟨content, hcontent, -⟩, -⟩, -⟩
    cases habsent.symm.trans hcontent
  · rw [runOn_of_exhausts hparse (.inl (by decide))]
    rfl
  · exact absurd h.le_two (by decide)

end SyntaxToC.Command
