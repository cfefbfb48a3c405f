import Mathlib.Data.List.Forall2
import Mathlib.Data.List.Nodup
import Mathlib.Data.List.Perm.Basic
import SyntaxToC.Command.Arguments

/-!
# Order and spelling of arguments

A list of words is read as a list of items: the file, the output, the choice of terminators and the
width of the indent.  An item has several spellings, and its value may be the word behind it, which
is checked only later.  Neither that nor the order of the items makes a difference:

    d.takeAll words >>= settle = d.settle >>= (takeItems · items)          (takeAll_words)

where `takeItems` takes one item after the other into a draft that has nothing pending.  The draft
then holds the items that were taken and no others (`Draft.items`), so all orders of the same items
come to the same draft.  An option that is there twice is noticed at its second occurrence.
-/

namespace SyntaxToC.Command

/-! ## Items -/

/-- What a part of the command line says. -/
inductive Item where
  | file (name : String)
  | output (path : String)
  | collapse
  | indentWidth (n : Nat)
deriving DecidableEq, Repr

/-- What an item decides. -/
inductive Choice where
  | file
  | output
  | terminators
  | indent
deriving DecidableEq, Repr

def Item.choice : Item → Choice
  | .file _ => .file
  | .output _ => .output
  | .collapse => .terminators
  | .indentWidth _ => .indent

/-- The name of a file that cannot be taken for an option. -/
def IsPath (s : String) : Prop := s ≠ "" ∧ s.toList.head? ≠ some '-'

instance (s : String) : Decidable (IsPath s) :=
  inferInstanceAs (Decidable (s ≠ "" ∧ s.toList.head? ≠ some '-'))

/-- A width in decimal; zeros and a plus sign may stand in front. -/
def IsWidth (n : Nat) (text : String) : Prop :=
  n < 18446744073709551616 ∧ ∃ plus ∈ ["", "+"], ∃ zeros,
    text = plus ++ String.ofList (List.replicate zeros '0') ++ toString n

/-- The spellings of an item. -/
inductive Item.Words : Item → List String → Prop
  | file {name : String} : IsPath name → Words (.file name) [name]
  | outputShort {path : String} : IsPath path → Words (.output path) ["-o", path]
  | outputJoined {path : String} : IsPath path → path.toList.head? ≠ some '=' →
      Words (.output path) ["-o" ++ path]
  | outputShortEquals {path : String} : IsPath path → Words (.output path) ["-o=" ++ path]
  | outputLong {path : String} : IsPath path → Words (.output path) ["--output", path]
  | outputLongEquals {path : String} : IsPath path → Words (.output path) ["--output=" ++ path]
  | collapse : Words .collapse ["--collapse-terminators"]
  | indentWidth {n : Nat} {text : String} : IsWidth n text →
      Words (.indentWidth n) ["--indent-width", text]
  | indentWidthEquals {n : Nat} {text : String} : IsWidth n text →
      Words (.indentWidth n) ["--indent-width=" ++ text]

/-- The words of items, one item after the other. -/
def Spelled (items : List Item) (words : List String) : Prop :=
  ∃ wss, List.Forall₂ Item.Words items wss ∧ words = wss.flatten

/-- The items that make these choices, each of them once. -/
def Arguments.items (a : Arguments) : List Item :=
  [.file a.file] ++ ((a.output.map .output).toList ++
    ((if a.collapse then [.collapse] else []) ++ (a.indentWidth.map .indentWidth).toList))

/-! ## Single words -/

theorem ofString_plain {word : String} (h : word.toList.head? ≠ some '-') :
    Word.ofString word = .plain := by
  unfold Word.ofString
  split
  · next hword => simp [hword] at h
  · next hword => simp [hword] at h
  · next hword => simp [hword] at h
  · rfl

/-- The name of a long option ends at the first equals sign. -/
theorem longWord_equals {name : List Char} (h : '=' ∉ name) (value : List Char) :
    longWord (name ++ '=' :: value) =
      .long (String.ofList name) (some (String.ofList value)) := by
  have hname : ∀ c ∈ name, decide (c ≠ '=') = true := by
    intro c hc
    have hne : c ≠ '=' := fun heq => h (heq ▸ hc)
    simpa using hne
  have htake : (name ++ '=' :: value).takeWhile (· ≠ '=') = name := by
    rw [List.takeWhile_append_of_pos hname]
    simp
  have hdrop : (name ++ '=' :: value).dropWhile (· ≠ '=') = '=' :: value := by
    rw [List.dropWhile_append_of_pos hname]
    simp
  simp only [longWord, htake, hdrop]

theorem ofString_equals {name option : String} (hne : name.toList ≠ []) (h : '=' ∉ name.toList)
    (hoption : option.toList = '-' :: '-' :: (name.toList ++ ['='])) (value : String) :
    Word.ofString (option ++ value) = .long name (some value) := by
  have hword := longWord_equals h value.toList
  rw [String.ofList_toList, String.ofList_toList] at hword
  obtain ⟨c, cs, hname⟩ := List.exists_cons_of_ne_nil hne
  have hlist : (option ++ value).toList = '-' :: '-' :: (name.toList ++ '=' :: value.toList) := by
    simp [hoption]
  rw [← hword, Word.ofString, hlist, hname]
  rfl

theorem ofString_short (value : String) :
    Word.ofString ("-o" ++ value) = .short 'o' value.toList := by
  rw [Word.ofString, String.toList_append]
  rfl

theorem ofString_shortEquals (value : String) :
    Word.ofString ("-o=" ++ value) = .short 'o' ('=' :: value.toList) := by
  rw [Word.ofString, String.toList_append]
  rfl

theorem IsWidth.exists_digits {n : Nat} {text : String} (h : IsWidth n text) :
    ∃ digits, (text.toList = digits ∨ text.toList = '+' :: digits) ∧ digits ≠ [] ∧
      (∀ c ∈ digits, c.isDigit = true) ∧ Nat.ofDigitChars 10 digits 0 = n := by
  obtain ⟨-, plus, hplus, zeros, rfl⟩ := h
  refine ⟨List.replicate zeros '0' ++ Nat.toDigits 10 n, ?_, by simp, ?_, ?_⟩
  · simp only [List.mem_cons, List.not_mem_nil, or_false] at hplus
    rcases hplus with rfl | rfl
    · left
      simp
    · right
      simp
  · intro c hc
    rcases List.mem_append.1 hc with hzero | hdigit
    · rw [List.eq_of_mem_replicate hzero]
      rfl
    · exact Nat.isDigit_of_mem_toDigits (by omega) (by omega) hdigit
  · simp [Nat.ofDigitChars_append]

theorem width?_of_isWidth {n : Nat} {text : String} (h : IsWidth n text) :
    width? text = some n := by
  obtain ⟨digits, htext, hne, hdigits, rfl⟩ := h.exists_digits
  have hn : Nat.ofDigitChars 10 digits 0 < widthLimit := h.1
  have hall : digits.all Char.isDigit = true := List.all_eq_true.2 hdigits
  obtain ⟨c, cs, rfl⟩ := List.exists_cons_of_ne_nil hne
  -- A digit in front is no plus sign, so it is not dropped.
  have hplus : c ≠ '+' := by
    rintro rfl
    exact absurd (hdigits '+' List.mem_cons_self) (by decide)
  rw [Nat.ofDigitChars_eq_foldl] at hn ⊢
  rcases htext with htext | htext
  · simpa [width?, htext, hplus, hall] using hn
  · simpa [width?, htext, hall] using hn

theorem ofString_width {n : Nat} {text : String} (h : IsWidth n text) :
    Word.ofString text = .plain := by
  obtain ⟨digits, htext, -, hdigits, -⟩ := h.exists_digits
  apply ofString_plain
  rcases htext with htext | htext
  · rw [htext]
    intro hdash
    exact absurd (hdigits '-' (List.mem_of_mem_head? hdash)) (by decide)
  · simp [htext]

/-! ## Taking items -/

namespace Draft

/-- Takes an item into a draft that has nothing pending. -/
def put (e : Draft) : Item → Except UsageError Draft
  | .file name =>
    if e.file.isSome then .error .unknownArgument else .ok { e with file := some name }
  | .output path => if e.output.isSome then .error .repeated else .ok { e with output := some path }
  | .collapse => if e.collapse then .error .repeated else .ok { e with collapse := true }
  | .indentWidth n =>
    if e.indentWidth.isSome then .error .repeated else .ok { e with indentWidth := some n }

def takeItems (e : Draft) (items : List Item) : Except UsageError Draft :=
  items.foldlM put e

theorem takeItems_cons (e : Draft) (item : Item) (items : List Item) :
    e.takeItems (item :: items) = e.put item >>= (·.takeItems items) :=
  List.foldlM_cons

/-- No option waits for its value. -/
def Ready (d : Draft) : Prop := ∀ s, d.pending ≠ .awaiting s

theorem settle_of_pending {e : Draft} (h : e.pending = .nothing) : e.settle = .ok e := by
  obtain ⟨file, output, collapse, indentWidth, pending⟩ := e
  obtain rfl : pending = .nothing := h
  rfl

theorem of_put {e d : Draft} {item : Item} (h : e.put item = .ok d) :
    d.pending = e.pending ∧ d.file.isSome = (e.file.isSome || decide (item.choice = .file)) := by
  cases item with
  | file name | output path | collapse | indentWidth n =>
    simp only [put] at h
    split at h
    · simp at h
    · obtain rfl := Except.ok.inj h
      simp [Item.choice]

theorem assign_output {path : String} (h : path ≠ "") (e : Draft) :
    e.assign .output path = e.put (.output path) := by
  simp [assign, put, h]

theorem assign_indentWidth {n : Nat} {text : String} (h : width? text = some n) (e : Draft) :
    e.assign .indentWidth text = e.put (.indentWidth n) := by
  simp [assign, put, h]

theorem of_assign {e d : Draft} {s : Setting} {text : String} (h : e.assign s text = .ok d) :
    d.pending = e.pending ∧ d.file = e.file := by
  cases s with
  | output =>
    simp only [assign] at h
    split at h
    · simp at h
    · split at h
      · simp at h
      · obtain rfl := Except.ok.inj h
        exact ⟨rfl, rfl⟩
  | indentWidth =>
    simp only [assign] at h
    split at h
    · simp at h
    · split at h
      · obtain rfl := Except.ok.inj h
        exact ⟨rfl, rfl⟩
      · simp at h

/-- Nothing is pending any more, and a file that was pending is there. -/
theorem of_settle {d e : Draft} (h : d.settle = .ok e) :
    e.pending = .nothing ∧ e.file.isSome = d.hasFile := by
  cases hpending : d.pending with
  | nothing =>
    simp only [settle, hpending] at h
    obtain rfl := Except.ok.inj h
    simp [hasFile, hpending]
  | file name =>
    simp only [settle, hpending] at h
    split at h
    · simp at h
    · obtain rfl := Except.ok.inj h
      simp [hasFile, hpending]
  | awaiting s => simp [settle, hpending] at h
  | value s text =>
    simp only [settle, hpending] at h
    obtain ⟨hnothing, hfile⟩ := of_assign h
    simp [hnothing, hfile, hasFile, hpending]

end Draft

/-! ## Reading the words of items -/

/-- `take` is a way to read an item when nothing is pending.  It may leave the item pending. -/
structure Reads (take : Draft → Except UsageError Draft) (item : Item) : Prop where
  settle : ∀ e : Draft, e.pending = .nothing → (item.choice = .file → e.file = none) →
    (take e >>= Draft.settle) = e.put item
  ready : ∀ e d : Draft, e.pending = .nothing → take e = .ok d →
    d.Ready ∧ d.hasFile = (e.file.isSome || decide (item.choice = .file))

namespace Reads

theorem at_once (item : Item) : Reads (·.put item) item where
  settle := by
    intro e hpending _
    cases hput : e.put item with
    | error err => rfl
    | ok d =>
      obtain ⟨hd, -⟩ := Draft.of_put hput
      exact Draft.settle_of_pending (hd.trans hpending)
  ready := by
    intro e d hpending hput
    obtain ⟨hd, hfile⟩ := Draft.of_put hput
    rw [hpending] at hd
    constructor
    · intro s
      simp [hd]
    · simp [Draft.hasFile, hd, hfile]

theorem next_word {s : Setting} {text : String} {item : Item} (hitem : item.choice ≠ .file)
    (hassign : ∀ e : Draft, e.assign s text = e.put item) :
    Reads (fun e => .ok { e with pending := .value s text }) item where
  settle := by
    rintro e hpending -
    rw [← hassign e]
    obtain ⟨file, output, collapse, indentWidth, pending⟩ := e
    obtain rfl : pending = .nothing := hpending
    rfl
  ready := by
    intro e d _ hd
    obtain rfl := Except.ok.inj hd
    constructor
    · intro s
      simp
    · simp [Draft.hasFile, hitem]

theorem file {name : String} (hname : name ≠ "") :
    Reads (fun e => .ok { e with pending := .file name }) (.file name) where
  settle := by
    intro e hpending hfile
    obtain ⟨file, output, collapse, indentWidth, pending⟩ := e
    obtain rfl : pending = .nothing := hpending
    obtain rfl : file = none := hfile rfl
    show (if name = "" then _ else _) = _
    rw [if_neg hname]
    rfl
  ready := by
    intro e d _ hd
    obtain rfl := Except.ok.inj hd
    constructor
    · intro s
      simp
    · simp [Draft.hasFile, Item.choice]

end Reads

namespace Draft

theorem takeAll_plain {word : String} (h : Word.ofString word = .plain) (d : Draft)
    (words : List String) : d.takeAll (word :: words) = d.takePlain word >>= (·.takeAll words) := by
  rw [takeAll, h]

theorem takeAll_long {word name : String} {value : Option String}
    (h : Word.ofString word = .long name value) (d : Draft) (words : List String) :
    d.takeAll (word :: words) = d.takeLong name value >>= (·.takeAll words) := by
  rw [takeAll, h]

theorem takeAll_short {word : String} {letter : Char} {cs : List Char}
    (h : Word.ofString word = .short letter cs) (d : Draft) (words : List String) :
    d.takeAll (word :: words) = d.takeShort letter cs >>= (·.takeAll words) := by
  rw [takeAll, h]

theorem takeShort_joined {value : String} (hne : value ≠ "")
    (hequals : value.toList.head? ≠ some '=') (d : Draft) :
    d.takeShort 'o' value.toList = d.takeSetting .output (some value) := by
  cases hvalue : value.toList with
  | nil => exact absurd (String.toList_eq_nil_iff.1 hvalue) hne
  | cons c cs =>
    have hc : c ≠ '=' := by simpa [hvalue] using hequals
    have htext : String.ofList (c :: cs) = value := by rw [← hvalue, String.ofList_toList]
    simp [takeShort, hc, htext]

theorem takePlain_file {d : Draft} (hready : d.Ready) (hfile : d.hasFile = false) (name : String) :
    d.takePlain name = d.settle >>= fun e => .ok { e with pending := .file name } := by
  unfold takePlain
  split
  · next s hs => exact absurd hs (hready s)
  · rw [takeFile, hfile]
    rfl

end Draft

namespace Item

/-- What was pending is checked first, and then the words are read as the item. -/
def ReadFrom (item : Item) (ws : List String) : Prop :=
  ∃ take, Reads take item ∧ ∀ (d : Draft) (rest : List String), d.Ready →
    (item.choice = .file → d.hasFile = false) →
    d.takeAll (ws ++ rest) = d.settle >>= fun e => take e >>= (·.takeAll rest)

theorem readFrom_attached {item : Item} {s : Setting} {text word : String}
    (hassign : ∀ e : Draft, e.assign s text = e.put item)
    (hword : ∀ (d : Draft) words,
      d.takeAll (word :: words) = d.takeSetting s (some text) >>= (·.takeAll words)) :
    item.ReadFrom [word] := by
  refine ⟨_, .at_once item, fun d rest _ _ => ?_⟩
  rw [List.singleton_append, hword, Draft.takeSetting, bind_assoc]
  simp only [hassign]

theorem readFrom_next {item : Item} {s : Setting} {text word : String} (hitem : item.choice ≠ .file)
    (hassign : ∀ e : Draft, e.assign s text = e.put item) (htext : Word.ofString text = .plain)
    (hword : ∀ (d : Draft) words,
      d.takeAll (word :: words) = d.takeSetting s none >>= (·.takeAll words)) :
    item.ReadFrom [word, text] := by
  refine ⟨_, .next_word hitem hassign, fun d rest _ _ => ?_⟩
  rw [List.cons_append, List.singleton_append, hword, Draft.takeSetting, bind_assoc]
  simp only [pure_bind, Draft.takeAll_plain htext]
  rfl

/-- However an item is spelled, it is read as the item. -/
theorem Words.readFrom {item : Item} {ws : List String} (h : item.Words ws) :
    item.ReadFrom ws := by
  cases h with
  | @file name hname =>
    refine ⟨_, .file hname.1, fun d rest hready hfile => ?_⟩
    rw [List.singleton_append, Draft.takeAll_plain (ofString_plain hname.2),
      Draft.takePlain_file hready (hfile rfl), bind_assoc]
  | @outputShort path hpath =>
    apply readFrom_next (by simp [choice]) (Draft.assign_output hpath.1) (ofString_plain hpath.2)
    exact Draft.takeAll_short (ofString_short "")
  | @outputJoined path hpath hequals =>
    apply readFrom_attached (Draft.assign_output hpath.1)
    intro d words
    rw [Draft.takeAll_short (ofString_short path), Draft.takeShort_joined hpath.1 hequals]
  | @outputShortEquals path hpath =>
    apply readFrom_attached (Draft.assign_output hpath.1)
    intro d words
    have htake : d.takeShort 'o' ('=' :: path.toList) = d.takeSetting .output (some path) := by
      simp [Draft.takeShort]
    rw [Draft.takeAll_short (ofString_shortEquals path), htake]
  | @outputLong path hpath =>
    have hword : Word.ofString "--output" = .long "output" none := by decide
    apply readFrom_next (by simp [choice]) (Draft.assign_output hpath.1) (ofString_plain hpath.2)
    exact Draft.takeAll_long hword
  | @outputLongEquals path hpath =>
    have hword : Word.ofString ("--output=" ++ path) = .long "output" (some path) :=
      ofString_equals (by decide) (by decide) (by decide) path
    apply readFrom_attached (Draft.assign_output hpath.1)
    exact Draft.takeAll_long hword
  | collapse =>
    have hword : Word.ofString "--collapse-terminators" = .long "collapse-terminators" none := by
      decide
    refine ⟨_, .at_once .collapse, fun d rest _ _ => ?_⟩
    rw [List.singleton_append, Draft.takeAll_long hword, ← bind_assoc]
    rfl
  | @indentWidth n text htext =>
    have hword : Word.ofString "--indent-width" = .long "indent-width" none := by decide
    apply readFrom_next (by simp [choice]) (Draft.assign_indentWidth (width?_of_isWidth htext))
      (ofString_width htext)
    exact Draft.takeAll_long hword
  | @indentWidthEquals n text htext =>
    have hword : Word.ofString ("--indent-width=" ++ text) = .long "indent-width" (some text) :=
      ofString_equals (by decide) (by decide) (by decide) text
    apply readFrom_attached (Draft.assign_indentWidth (width?_of_isWidth htext))
    exact Draft.takeAll_long hword

end Item

/-- The words come to what their items come to, one item after the other. -/
theorem Draft.takeAll_words {items : List Item} {words : List String} (h : Spelled items words)
    (d : Draft) (hready : d.Ready)
    (hfiles : d.hasFile.toNat + (items.map Item.choice).count .file ≤ 1) :
    (d.takeAll words >>= settle) = d.settle >>= (·.takeItems items) := by
  obtain ⟨wss, hwss, rfl⟩ := h
  induction hwss generalizing d with
  | nil => exact (bind_pure d.settle).symm
  | @cons item ws items wss hws _ ih =>
    -- `d` may have a value pending, which is checked before the first item is read
    obtain ⟨take, hreads, hwords⟩ := hws.readFrom
    have hone : item.choice = .file → d.hasFile = false := by
      intro hitem
      rw [List.map_cons, hitem, List.count_cons_self] at hfiles
      exact Bool.toNat_eq_zero.1 (by omega)
    rw [List.flatten_cons, hwords d _ hready hone, bind_assoc]
    simp only [takeItems_cons]
    cases hsettle : d.settle with
    | error err => rfl
    | ok e =>
      obtain ⟨hpending, hfile⟩ := of_settle hsettle
      have hput := hreads.settle e hpending fun hitem => by simpa [hone hitem] using hfile
      show (take e >>= (·.takeAll wss.flatten) >>= settle) = e.put item >>= (·.takeItems items)
      rw [← hput]
      cases htake : take e with
      | error err => rfl
      | ok d' =>
        obtain ⟨hready', hfile'⟩ := hreads.ready e d' hpending htake
        apply ih d' hready'
        rw [hfile', hfile]
        rw [List.map_cons] at hfiles
        by_cases hitem : item.choice = .file
        · rw [hitem, List.count_cons_self] at hfiles
          simp only [hitem, hone hitem, Bool.false_or, decide_true, Bool.toNat_true]
          omega
        · rw [List.count_cons_of_ne hitem] at hfiles
          simpa [hitem] using hfiles

/-! ## Order of items -/

namespace Draft

/-- The items that a draft holds. -/
def items (e : Draft) : List Item :=
  (e.file.map .file).toList ++ ((e.output.map .output).toList ++
    ((if e.collapse then [.collapse] else []) ++ (e.indentWidth.map .indentWidth).toList))

/-- Whether a draft has decided something. -/
def decides (e : Draft) : Choice → Bool
  | .file => e.file.isSome
  | .output => e.output.isSome
  | .terminators => e.collapse
  | .indent => e.indentWidth.isSome

theorem map_choice_items (e : Draft) :
    e.items.map Item.choice = [.file, .output, .terminators, .indent].filter e.decides := by
  obtain ⟨file, output, collapse, indentWidth, pending⟩ := e
  cases file <;> cases output <;> cases collapse <;> cases indentWidth <;> rfl

theorem nodup_choices (e : Draft) : (e.items.map Item.choice).Nodup := by
  rw [map_choice_items]
  exact List.Pairwise.filter _ (by decide)

theorem mem_choices_iff {e : Draft} {c : Choice} :
    c ∈ e.items.map Item.choice ↔ e.decides c = true := by
  rw [map_choice_items, List.mem_filter]
  apply and_iff_right
  cases c <;> decide

/-- A second file cannot be understood, and a second option is a conflict. -/
theorem put_of_decides {e : Draft} {item : Item} (h : e.decides item.choice = true) :
    e.put item = .error (if item.choice = .file then .unknownArgument else .repeated) := by
  cases item with
  | file name | output path | collapse | indentWidth n =>
    simp only [Item.choice, decides] at h
    simp [put, h, Item.choice]

theorem put_of_not_decides {e : Draft} {item : Item} (h : e.decides item.choice = false) :
    ∃ d, e.put item = .ok d ∧ d.items.Perm (item :: e.items) := by
  obtain ⟨file, output, collapse, indentWidth, pending⟩ := e
  cases item with
  | file name =>
    obtain rfl : file = none := by simpa [Item.choice, decides] using h
    exact ⟨_, rfl, .rfl⟩
  | output path =>
    obtain rfl : output = none := by simpa [Item.choice, decides] using h
    exact ⟨_, rfl, List.perm_middle⟩
  | collapse =>
    obtain rfl : collapse = false := by simpa [Item.choice, decides] using h
    exact ⟨_, rfl, (List.perm_middle.append_left _).trans List.perm_middle⟩
  | indentWidth n =>
    obtain rfl : indentWidth = none := by simpa [Item.choice, decides] using h
    exact ⟨_, rfl, ((List.perm_middle.append_left _).trans List.perm_middle |>.append_left _).trans
      List.perm_middle⟩

/-- What is left to decide does not depend on what has been taken first. -/
theorem choices_after_put {e d : Draft} {item : Item} (h : d.items.Perm (item :: e.items))
    (items : List Item) :
    ((items ++ d.items).map Item.choice).Perm ((item :: items ++ e.items).map Item.choice) :=
  ((h.append_left items).trans List.perm_middle).map _

/-- Items that decide different things are all taken. -/
theorem takeItems_of_nodup {items : List Item} {e : Draft}
    (h : ((items ++ e.items).map Item.choice).Nodup) :
    ∃ d, e.takeItems items = .ok d ∧ d.items.Perm (items ++ e.items) ∧ d.pending = e.pending := by
  induction items generalizing e with
  | nil => exact ⟨e, rfl, .rfl, rfl⟩
  | cons item items ih =>
    have hnew : e.decides item.choice = false := by
      rw [← Bool.not_eq_true, ← mem_choices_iff]
      intro hmem
      rw [List.cons_append, List.map_cons, List.nodup_cons, List.map_append] at h
      exact h.1 (List.mem_append_right _ hmem)
    obtain ⟨e', hput, hperm⟩ := put_of_not_decides hnew
    obtain ⟨d, hd, hitems, hpending⟩ := ih ((choices_after_put hperm items).nodup_iff.2 h)
    refine ⟨d, ?_, ?_, ?_⟩
    · rw [takeItems_cons, hput]
      exact hd
    · exact hitems.trans ((hperm.append_left items).trans List.perm_middle)
    · rw [hpending, (of_put hput).1]

/-- If two items decide the same and there is one file at most, an option is there twice. -/
theorem takeItems_of_not_nodup {items : List Item} {e : Draft}
    (h : ¬ ((items ++ e.items).map Item.choice).Nodup)
    (hfiles : ((items ++ e.items).map Item.choice).count .file ≤ 1) :
    e.takeItems items = .error .repeated := by
  induction items generalizing e with
  | nil => exact absurd e.nodup_choices h
  | cons item items ih =>
    rw [takeItems_cons]
    cases hdecides : e.decides item.choice with
    | true =>
      have hitem : item.choice ≠ .file := by
        intro hitem
        have hmem := mem_choices_iff.2 hdecides
        have hpos := List.count_pos_iff.2 hmem
        rw [hitem] at hpos
        rw [List.cons_append, List.map_cons, hitem, List.count_cons_self, List.map_append,
          List.count_append] at hfiles
        omega
      rw [put_of_decides hdecides, if_neg hitem]
      rfl
    | false =>
      obtain ⟨e', hput, hperm⟩ := put_of_not_decides hdecides
      have hchoices := choices_after_put hperm items
      rw [hput]
      apply ih
      · rwa [hchoices.nodup_iff]
      · rwa [hchoices.count_eq]

theorem mem_items_iff (e : Draft) :
    (∀ name, .file name ∈ e.items ↔ e.file = some name) ∧
    (∀ path, .output path ∈ e.items ↔ e.output = some path) ∧
    (.collapse ∈ e.items ↔ e.collapse = true) ∧
    ∀ n, .indentWidth n ∈ e.items ↔ e.indentWidth = some n := by
  simp [items]

/-- A draft is what it holds. -/
theorem eq_of_items_perm {d e : Draft} (h : d.items.Perm e.items)
    (hpending : d.pending = e.pending) : d = e := by
  obtain ⟨hfile, houtput, hcollapse, hwidth⟩ := mem_items_iff d
  obtain ⟨hfile', houtput', hcollapse', hwidth'⟩ := mem_items_iff e
  simp only [h.mem_iff] at hfile houtput hcollapse hwidth
  have hf : d.file = e.file := Option.ext fun name => (hfile name).symm.trans (hfile' name)
  have ho : d.output = e.output := Option.ext fun path => (houtput path).symm.trans (houtput' path)
  have hc : d.collapse = e.collapse := Bool.eq_iff_iff.2 (hcollapse.symm.trans hcollapse')
  have hw : d.indentWidth = e.indentWidth := Option.ext fun n => (hwidth n).symm.trans (hwidth' n)
  obtain ⟨file, output, collapse, indentWidth, pending⟩ := d
  exact Draft.mk.injEq .. ▸ ⟨hf, ho, hc, hw, hpending⟩

end Draft

/-! ## Command lines -/

namespace Arguments

/-- The draft that comes to these arguments. -/
def draft (a : Arguments) : Draft where
  file := some a.file
  output := a.output
  collapse := a.collapse
  indentWidth := a.indentWidth

theorem items_draft (a : Arguments) : a.draft.items = a.items := rfl

theorem count_file_items (a : Arguments) : (a.items.map Item.choice).count .file ≤ 1 :=
  List.nodup_iff_count_le_one.1 a.draft.nodup_choices .file

variable {a : Arguments} {items : List Item} {words : List String}

theorem takeAll_spelled (h : Spelled items words)
    (hfiles : (items.map Item.choice).count .file ≤ 1) :
    (Draft.takeAll {} words >>= Draft.settle) = Draft.takeItems {} items := by
  have hready : Draft.Ready {} := by
    intro s
    simp
  have hnone : Draft.hasFile {} = false := rfl
  have hwords := Draft.takeAll_words h {} hready (by simpa [hnone] using hfiles)
  rw [hwords, Draft.settle_of_pending rfl]
  rfl

theorem parse_of_takeItems (h : Spelled items words)
    (hfiles : (items.map Item.choice).count .file ≤ 1)
    (ha : Draft.takeItems {} items = .ok a.draft) : parse words = .ok a := by
  unfold parse
  rw [← bind_assoc, takeAll_spelled h hfiles, ha]
  rfl

theorem parse_of_takeItems_error {err : UsageError} (h : Spelled items words)
    (hfiles : (items.map Item.choice).count .file ≤ 1)
    (herr : Draft.takeItems {} items = .error err) : parse words = .error err := by
  unfold parse
  rw [← bind_assoc, takeAll_spelled h hfiles, herr]
  rfl

/-- All orders of the same items come to the same arguments. -/
theorem parse_of_perm (hitems : items.Perm a.items) (h : Spelled items words) :
    parse words = .ok a := by
  have hchoices := hitems.map Item.choice
  have hnodup : ((items ++ Draft.items {}).map Item.choice).Nodup := by
    show ((items ++ []).map Item.choice).Nodup
    rw [List.append_nil, hchoices.nodup_iff]
    exact a.draft.nodup_choices
  obtain ⟨d, hd, hperm, hpending⟩ := Draft.takeItems_of_nodup hnodup
  have hda : d = a.draft := by
    apply Draft.eq_of_items_perm (e := a.draft) _ hpending
    rw [items_draft]
    exact (List.append_nil items ▸ hperm).trans hitems
  apply parse_of_takeItems h
  · rw [hchoices.count_eq]
    exact count_file_items a
  · rw [hd, hda]

/-- An option is not given twice, wherever its second occurrence is. -/
theorem parse_repeated {before after : List Item} {extra : Item}
    (hitems : (before ++ after).Perm a.items) (hextra : extra.choice ≠ .file)
    (hmem : extra.choice ∈ (before ++ after).map Item.choice)
    (h : Spelled (before ++ extra :: after) words) : parse words = .error .repeated := by
  have hchoices : ((before ++ extra :: after).map Item.choice).Perm
      (extra.choice :: (before ++ after).map Item.choice) := List.perm_middle.map _
  have hcount : ((before ++ extra :: after).map Item.choice).count .file ≤ 1 := by
    rw [hchoices.count_eq, List.count_cons_of_ne hextra, (hitems.map _).count_eq]
    exact count_file_items a
  apply parse_of_takeItems_error h hcount
  apply Draft.takeItems_of_not_nodup
  · show ¬ ((before ++ extra :: after ++ []).map Item.choice).Nodup
    rw [List.append_nil, hchoices.nodup_iff, List.nodup_cons]
    exact fun hnew => hnew.1 hmem
  · show ((before ++ extra :: after ++ []).map Item.choice).count Choice.file ≤ 1
    rwa [List.append_nil]

theorem layout_spec (a : Arguments) :
    (∀ n, a.indentWidth = some n → a.layout.indent = String.ofList (List.replicate n ' ')) ∧
    (a.indentWidth = none → a.layout.indent = "\t") ∧
    (a.layout.terminators = .collapse ↔ a.collapse = true) := by
  unfold layout
  refine ⟨?_, ?_, ?_⟩
  · intro n hn
    rw [hn]
    cases a.collapse <;> rfl
  · intro hnone
    rw [hnone]
    cases a.collapse <;> rfl
  · cases a.collapse with
    | true => exact iff_of_true rfl rfl
    | false => cases a.indentWidth <;> exact iff_of_false (fun h => by cases h) (by decide)

/-- Order and spelling do not matter, and an option that is there twice is a conflict. -/
theorem parse_in_any_order (a : Arguments) (items : List Item) (hitems : items.Perm a.items) :
    (∀ words, Spelled items words → parse words = .ok a) ∧
    ((∀ n, a.indentWidth = some n → a.layout.indent = String.ofList (List.replicate n ' ')) ∧
      (a.indentWidth = none → a.layout.indent = "\t") ∧
      (a.layout.terminators = .collapse ↔ a.collapse = true)) ∧
    ∀ before after extra, items = before ++ after → extra.choice ≠ .file →
      extra.choice ∈ items.map Item.choice → ∀ words, Spelled (before ++ extra :: after) words →
        parse words = .error .repeated := by
  refine ⟨fun words h => parse_of_perm hitems h, layout_spec a, ?_⟩
  rintro before after extra rfl hextra hmem words h
  exact parse_repeated hitems hextra hmem h

/-- Each kind of item in a spelling of its own, the file between the options; and the output given
once more in another spelling. -/
theorem parse_in_any_order_mixed :
    parse ["--indent-width=+004", "-oout.c", "tree.json", "--collapse-terminators"] =
      .ok ⟨"tree.json", some "out.c", true, some 4⟩ ∧
    parse ["--indent-width=+004", "-oout.c", "tree.json", "--output", "b.c",
      "--collapse-terminators"] = .error .repeated := by
  have htext : IsWidth 4 "+004" := ⟨by decide, "+", by decide, 2, by decide⟩
  have hwidth : (Item.indentWidth 4).Words ["--indent-width=+004"] := .indentWidthEquals htext
  have houtput : (Item.output "out.c").Words ["-oout.c"] := .outputJoined (by decide) (by decide)
  have hfile : (Item.file "tree.json").Words ["tree.json"] := .file (by decide)
  have hagain : (Item.output "b.c").Words ["--output", "b.c"] := .outputLong (by decide)
  obtain ⟨hparse, -, hrepeated⟩ := parse_in_any_order ⟨"tree.json", some "out.c", true, some 4⟩
    [.indentWidth 4, .output "out.c", .file "tree.json", .collapse] (by decide)
  constructor
  · apply hparse
    exact ⟨_, .cons hwidth (.cons houtput (.cons hfile (.cons .collapse .nil))), rfl⟩
  · apply hrepeated [.indentWidth 4, .output "out.c", .file "tree.json"] [.collapse] (.output "b.c")
      rfl (by decide) (by decide)
    exact ⟨_, .cons hwidth (.cons houtput (.cons hfile (.cons hagain (.cons .collapse .nil)))), rfl⟩

end Arguments

end SyntaxToC.Command
