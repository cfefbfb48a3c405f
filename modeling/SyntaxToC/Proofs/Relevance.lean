import SyntaxToC.Command.Run
import SyntaxToC.Proofs.Induction
import SyntaxToC.Proofs.Location

/-!
# What a result depends on

A value is read through the attributes of its nodes, and these through the fields of their records.
`AgreeNode v w` says that two values are the same in everything that is read, at every depth.  They
may differ in other members of nodes and records, in all members but the tag of a node of no known
kind, and in which falsy value leaves a slot empty.

    AgreeNode v w → load v = load w                                      (load_of_agree)

The two sides have the same tree or the same fault, in the same place and for the same reason, so
that no text of C and no message shows the difference.
-/

namespace SyntaxToC.Tree

open SyntaxToC.Json
open SyntaxToC.Code (Layout)
open SyntaxToC.Command (generate)

mutual

/-- The same in everything that is read of an attribute of the shape. -/
inductive Agree : Shape → Value → Value → Prop
  | same (shape : Shape) (v : Value) : Agree shape v v
  | name {ms ms' : Members} :
      ms.get? "name" = ms'.get? "name" → Agree .name (.object ms) (.object ms')
  | source {ms ms' : Members} :
      ms.get? "std" = ms'.get? "std" → ms.get? "value" = ms'.get? "value" →
      Agree .source (.object ms) (.object ms')
  | params {vs ws : List Value} :
      List.Forall₂ AgreeParam vs ws → Agree .params (.array vs) (.array ws)
  | array {vs ws : List Value} :
      List.Forall₂ AgreeEntry vs ws → Agree .array (.array vs) (.array ws)
  | node {v w : Value} : AgreeNode v w → Agree .node v w
  | block {v w : Value} : AgreeNode v w → Agree .block v w

inductive AgreeParam : Value → Value → Prop
  | same (v : Value) : AgreeParam v v
  | object {ms ms' : Members} :
      AgreeMember .name (ms.get? "name") (ms'.get? "name") →
      AgreeMember .name (ms.get? "typing") (ms'.get? "typing") →
      AgreeParam (.object ms) (.object ms')
  | array {vs ws : List Value} :
      List.Forall₂ (Agree .name) vs ws → AgreeParam (.array vs) (.array ws)

/-- Missing on both sides, or there on both sides and the same in what is read. -/
inductive AgreeMember : Shape → Option Value → Option Value → Prop
  | missing (shape : Shape) : AgreeMember shape none none
  | there {shape : Shape} {v w : Value} :
      Agree shape v w → AgreeMember shape (some v) (some w)

/-- An entry of a body or of an argument list.  A falsy one leaves a slot of a body empty and is a
fault among arguments, whichever it is. -/
inductive AgreeEntry : Value → Value → Prop
  | falsy {v w : Value} : Falsy v → Falsy w → AgreeEntry v w
  | node {v w : Value} : AgreeNode v w → AgreeEntry v w

inductive AgreeNode : Value → Value → Prop
  | same (v : Value) : AgreeNode v v
  | known (kind : Kind) {v w : Value} :
      Tagged v kind.tag → Tagged w kind.tag →
      (∀ a ∈ kind.attributes, AgreeMember a.2 (v.get? a.1) (w.get? a.1)) →
      AgreeNode v w
  | unknown (tag : String) {v w : Value} :
      Tagged v tag → Tagged w tag → (∀ kind : Kind, kind.tag ≠ tag) → AgreeNode v w

end

theorem AgreeMember.cases {shape : Shape} {x y : Option Value} (h : AgreeMember shape x y) :
    (x = none ∧ y = none) ∨ ∃ v w, x = some v ∧ y = some w ∧ Agree shape v w := by
  cases h with
  | missing => exact .inl ⟨rfl, rfl⟩
  | there hagree => exact .inr ⟨_, _, rfl, rfl, hagree⟩

theorem Agree.agreeNode {shape : Shape} {v w : Value} (h : Agree shape v w)
    (hshape : shape = .node ∨ shape = .block) : AgreeNode v w := by
  cases h with
  | same => exact .same v
  | node hnode => exact hnode
  | block hnode => exact hnode
  | _ => simp at hshape

/-! ## Attributes -/

namespace Attribute

theorem member_of_agree {α : Type} {ms ms' : Members} {key : String} {decode : Decoder α}
    {shape : Shape} (hdecode : ∀ v w, Agree shape v w → decode v = decode w)
    (h : AgreeMember shape (ms.get? key) (ms'.get? key)) :
    member ms key decode = member ms' key decode := by
  unfold member
  rcases h.cases with ⟨hx, hy⟩ | ⟨v, w, hx, hy, hagree⟩
  · rw [hx, hy]
  · simp only [hx, hy, hdecode v w hagree]

theorem text_of_agree (v w : Value) (h : Agree .text v w) : text v = text w := by
  cases h
  rfl

theorem flag_of_agree (v w : Value) (h : Agree .flag v w) : flag v = flag w := by
  cases h
  rfl

theorem name_of_agree (v w : Value) (h : Agree .name v w) : name v = name w := by
  cases h with
  | same => rfl
  | name hname => simp only [name, member, hname]

theorem importSource_of_agree (v w : Value) (h : Agree .source v w) :
    importSource v = importSource w := by
  cases h with
  | same => rfl
  | source hstd hvalue => simp only [importSource, record, member, hstd, hvalue]

theorem param_of_agree {v w : Value} (h : AgreeParam v w) : param v = param w := by
  unfold param
  cases h with
  | same => rfl
  | object hname htyping =>
    simp only [record, member_of_agree name_of_agree hname, member_of_agree name_of_agree htyping]
  | array hitems =>
    -- at most two items are read, and then the length counts
    cases hitems with
    | nil => rfl
    | cons hx hrest =>
      cases hrest with
      | nil => simp only [record, name_of_agree _ _ hx]
      | cons hy hrest =>
        have hlength := hrest.length_eq
        cases hrest with
        | nil => simp only [record, name_of_agree _ _ hx, name_of_agree _ _ hy]
        | cons hz hrest => simp only [record, name_of_agree _ _ hx, name_of_agree _ _ hy, hlength]

theorem mapM_param_of_agree {vs ws : List Value} (h : List.Forall₂ AgreeParam vs ws) :
    vs.mapM param = ws.mapM param := by
  induction h with
  | nil => rfl
  | cons hp _ ih => rw [List.mapM_cons, List.mapM_cons, param_of_agree hp, ih]

theorem params_of_agree (v w : Value) (h : Agree .params v w) : params v = params w := by
  cases h with
  | same => rfl
  | params hitems => exact mapM_param_of_agree hitems

end Attribute

/-! ## Members of a node -/

section

variable {α : Type} {kind : Kind} {v w : Value} {key : String} {shape : Shape}

theorem readAttribute_of_agree {decode : Decoder α}
    (h : AgreeMember shape (v.get? key) (w.get? key))
    (hdecode : ∀ x y, Agree shape x y → decode x = decode y) :
    readAttribute kind v key decode = readAttribute kind w key decode := by
  unfold readAttribute
  rcases h.cases with ⟨hx, hy⟩ | ⟨x, y, hx, hy, hagree⟩
  · rw [hx, hy]
  · simp only [hx, hy, hdecode x y hagree]

theorem literalText_of_agree (h : AgreeMember .literal (v.get? "value") (w.get? "value")) :
    literalText v = literalText w := by
  unfold literalText
  rcases h.cases with ⟨hx, hy⟩ | ⟨x, y, hx, hy, hagree⟩
  · rw [hx, hy]
  · cases hagree
    rw [hx, hy]

/-- The node that a member holds, and whatever is done with it. -/
theorem child_of_agree {f g : Node → Except NodeError α}
    (h : AgreeMember shape (v.get? key) (w.get? key))
    (hload : ∀ x y, sizeOf x < sizeOf v → Agree shape x y → load x = load y)
    (hfg : ∀ n, f n = g n) :
    (do
      let ⟨x, _⟩ ← field kind v key
      f (← within [.member key] (load x))) =
    (do
      let ⟨y, _⟩ ← field kind w key
      g (← within [.member key] (load y))) := by
  rcases h.cases with ⟨hx, hy⟩ | ⟨x, y, hx, hy, hagree⟩
  · rw [field_of_missing hx, field_of_missing hy]
    rfl
  · rw [field_of_get? hx, field_of_get? hy]
    show within [.member key] (load x) >>= f = within [.member key] (load y) >>= g
    rw [hload x y (Value.sizeOf_get?_lt hx) hagree, funext hfg]

/-- The array that a member holds, and whatever is done with its items. -/
theorem items_of_agree {f : { xs : List Value // sizeOf xs < sizeOf v } → Except NodeError α}
    {g : { ys : List Value // sizeOf ys < sizeOf w } → Except NodeError α}
    (h : AgreeMember .array (v.get? key) (w.get? key))
    (hfg : ∀ xs ys, List.Forall₂ AgreeEntry xs.1 ys.1 → f xs = g ys) :
    (items kind v key >>= f) = (items kind w key >>= g) := by
  rcases h.cases with ⟨hx, hy⟩ | ⟨x, y, hx, hy, hagree⟩
  · rw [items_of_missing hx, items_of_missing hy]
    rfl
  · by_cases harray : ∃ xs ys, x = .array xs ∧ y = .array ys ∧ List.Forall₂ AgreeEntry xs ys
    · obtain ⟨xs, ys, rfl, rfl, hitems⟩ := harray
      rw [items_of_get? hx, items_of_get? hy]
      exact hfg ⟨xs, sizeOf_items_lt hx⟩ ⟨ys, sizeOf_items_lt hy⟩ hitems
    · -- other values are the same on both sides, and no arrays
      have hsame : x = y := by
        cases hagree with
        | same => rfl
        | array hitems => exact absurd ⟨_, _, rfl, rfl, hitems⟩ harray
      subst hsame
      have hnot : ∀ xs, x ≠ .array xs := by
        rintro xs rfl
        exact harray ⟨xs, xs, rfl, rfl, List.forall₂_same.2 fun z _ => .node (.same z)⟩
      rw [items_of_not_array hx hnot, items_of_not_array hy hnot]
      rfl

end

/-! ## Entries -/

theorem load_of_falsy {v : Value} (h : Falsy v) : load v = .error ⟨[], .noKind⟩ :=
  load_of_untagged fun _ htag => not_falsy_of_get? htag h

theorem falsy_iff_of_agree {v w : Value} (h : AgreeEntry v w) : Falsy v ↔ Falsy w := by
  cases h with
  | falsy hv hw => exact iff_of_true hv hw
  | node hnode =>
    cases hnode with
    | same => rfl
    | known _ hv hw _ => exact iff_of_false (not_falsy_of_get? hv) (not_falsy_of_get? hw)
    | unknown _ hv hw _ => exact iff_of_false (not_falsy_of_get? hv) (not_falsy_of_get? hw)

theorem isBlank_of_agree {v w : Value} (h : AgreeEntry v w) : v.isBlank = w.isBlank := by
  rw [Bool.eq_iff_iff, Value.isBlank_iff, Value.isBlank_iff]
  exact falsy_iff_of_agree h

theorem load_entry_of_agree {v w : Value} (ih : AgreeNode v w → load v = load w)
    (h : AgreeEntry v w) : load v = load w := by
  cases h with
  | falsy hv hw => rw [load_of_falsy hv, load_of_falsy hw]
  | node hnode => exact ih hnode

theorem loadSlots_of_agree {vs ws : List Value}
    (ih : ∀ v ∈ vs, ∀ w, AgreeNode v w → load v = load w) (h : List.Forall₂ AgreeEntry vs ws)
    (index : Nat) : loadSlots index vs = loadSlots index ws := by
  induction h generalizing index with
  | nil => rfl
  | @cons v w vs ws hentry _ ihs =>
    rw [List.forall_mem_cons] at ih
    rw [loadSlots_cons, loadSlots_cons, loadSlot, loadSlot, isBlank_of_agree hentry,
      load_entry_of_agree (ih.1 w) hentry, ihs ih.2]

theorem loadArguments_of_agree {vs ws : List Value}
    (ih : ∀ v ∈ vs, ∀ w, AgreeNode v w → load v = load w) (h : List.Forall₂ AgreeEntry vs ws)
    (index : Nat) : loadArguments index vs = loadArguments index ws := by
  induction h generalizing index with
  | nil => rfl
  | @cons v w vs ws hentry _ ihs =>
    rw [List.forall_mem_cons] at ih
    rw [loadArguments, loadArguments, load_entry_of_agree (ih.1 w) hentry, ihs ih.2]

/-! ## Nodes -/

theorem loadAs_of_agree {kind : Kind} {v w : Value}
    (ih : ∀ x, sizeOf x < sizeOf v → ∀ y, AgreeNode x y → load x = load y)
    (h : ∀ a ∈ kind.attributes, AgreeMember a.2 (v.get? a.1) (w.get? a.1)) :
    loadAs kind v = loadAs kind w := by
  have ihs : ∀ xs : { xs : List Value // sizeOf xs < sizeOf v }, ∀ x ∈ xs.1, ∀ y,
      AgreeNode x y → load x = load y :=
    fun xs x hx => ih x (Nat.lt_trans (List.sizeOf_lt_of_mem hx) xs.2)
  have hnode : ∀ x y, sizeOf x < sizeOf v → Agree .node x y → load x = load y :=
    fun x y hsize hagree => ih x hsize y (hagree.agreeNode (.inl rfl))
  have hblock : ∀ x y, sizeOf x < sizeOf v → Agree .block x y → load x = load y :=
    fun x y hsize hagree => ih x hsize y (hagree.agreeNode (.inr rfl))
  cases kind
  all_goals
    rw [loadAs, loadAs]
    simp only [Kind.attributes, List.forall_mem_cons] at h
  case program =>
    refine items_of_agree h.1 fun xs ys hitems => ?_
    simp only [loadSlots_of_agree (ihs xs) hitems]
  case importDeclaration =>
    rw [readAttribute_of_agree h.1 Attribute.importSource_of_agree]
  case functionDeclaration =>
    obtain ⟨hid, hreturn, hparams, hbody, -⟩ := h
    rw [readAttribute_of_agree hid Attribute.name_of_agree,
      readAttribute_of_agree hreturn Attribute.name_of_agree,
      readAttribute_of_agree hparams Attribute.params_of_agree]
    refine bind_congr fun name => bind_congr fun returnType => bind_congr fun params => ?_
    exact child_of_agree hbody hblock fun n => rfl
  case blockStatement =>
    refine items_of_agree h.1 fun xs ys hitems => ?_
    simp only [loadSlots_of_agree (ihs xs) hitems]
  case returnStatement => exact child_of_agree h.1 hnode fun n => rfl
  case expressionStatement => exact child_of_agree h.1 hnode fun n => rfl
  case variableDeclaration =>
    obtain ⟨hmutable, hid, htyping, hvalue, -⟩ := h
    rw [readAttribute_of_agree hmutable Attribute.flag_of_agree,
      readAttribute_of_agree hid Attribute.name_of_agree,
      readAttribute_of_agree htyping Attribute.name_of_agree]
    refine bind_congr fun mutable => bind_congr fun name => bind_congr fun typing => ?_
    exact child_of_agree hvalue hnode fun n => rfl
  case callExpression =>
    obtain ⟨hcallee, harguments, -⟩ := h
    rw [readAttribute_of_agree hcallee Attribute.name_of_agree]
    refine bind_congr fun callee => items_of_agree harguments fun xs ys hitems => ?_
    simp only [loadArguments_of_agree (ihs xs) hitems]
  case binaryExpression =>
    obtain ⟨hop, hleft, hright, -⟩ := h
    rw [readAttribute_of_agree hop Attribute.text_of_agree]
    refine bind_congr fun op => child_of_agree hleft hnode fun left => ?_
    exact child_of_agree hright hnode fun right => rfl
  case literal => rw [literalText_of_agree h.1]
  case identifier => rw [readAttribute_of_agree h.1 Attribute.text_of_agree]

/-- Values that agree have the same tree, or the same fault. -/
theorem load_of_agree {v w : Value} (h : AgreeNode v w) : load v = load w := by
  induction v using Value.sizeInduct generalizing w with
  | smaller v ih =>
    cases h with
    | same => rfl
    | known kind hv hw hattributes =>
      rw [load_of_tagged hv, load_of_tagged hw]
      exact loadAs_of_agree (fun x hx y => ih x hx) hattributes
    | unknown tag hv hw hunknown => rw [load_of_unknown hv hunknown, load_of_unknown hw hunknown]

/-! ## Top theorem -/

/-- Two values that agree in the attributes that are read load alike, and texts for them generate
the same code or fail in the same way, whatever the layout. -/
theorem result_depends_on_attributes (v w : Value) (h : AgreeNode v w) :
    load v = load w ∧
      ∀ (file : String) (layout : Layout) (source source' : String),
        read source = .ok v → read source' = .ok w →
          generate file layout source = generate file layout source' := by
  refine ⟨load_of_agree h, ?_⟩
  intro file layout source source' hv hw
  unfold generate loadText
  rw [hv, hw]
  simp only [load_of_agree h]

/-- A document with a faulty parameter and what may change in it: a member of a node and of records,
the members of a node of no known kind, and a falsy entry.  Then an empty program in two texts. -/
theorem result_depends_on_attributes_faulty :
    let v : Value := .object [("type", .string "Program"), ("body", .array [.null,
      .object [("type", .string "Lambda"), ("body", .null)],
      .object [("type", .string "FunctionDeclaration"), ("id", .object [("name", .string "f")]),
        ("returnType", .object [("name", .string "int")]),
        ("params", .array [.object [("name", .object [("name", .string "x")])]])]])]
    let w : Value := .object [("loc", .array []), ("type", .string "Program"), ("body", .array
      [.string "", .object [("type", .string "Lambda")],
      .object [("type", .string "FunctionDeclaration"),
        ("id", .object [("loc", .null), ("name", .string "f")]),
        ("returnType", .object [("name", .string "int")]),
        ("params", .array [.object [("name", .object [("name", .string "x"), ("loc", .null)]),
          ("default", .bool true)]])]])]
    (AgreeNode v w ∧ load v = load w) ∧
      ∀ layout, generate "f" layout "\x7b\"type\":\"Program\",\"body\":[null]\x7d" =
        generate "f" layout "\x7b\"loc\":0,\"type\":\"Program\",\"body\":[\"\"]\x7d" := by
  intro v w
  have hagree : AgreeNode v w := by
    refine .known .program rfl rfl ?_
    simp only [Kind.attributes, List.forall_mem_singleton]
    refine .there (.array (.cons (.falsy .null .empty) (.cons ?_ (.cons ?_ .nil))))
    · refine .node (.unknown "Lambda" rfl rfl fun kind => ?_)
      cases kind <;> decide
    · refine .node (.known .functionDeclaration rfl rfl ?_)
      simp only [Kind.attributes, List.forall_mem_cons]
      exact ⟨.there (.name rfl), .there (.same _ _),
        .there (.params (.cons (.object (.there (.name rfl)) (.missing _)) .nil)),
        .missing _, by simp⟩
  have hread : read "\x7b\"type\":\"Program\",\"body\":[null]\x7d" =
      .ok (.object [("type", .string "Program"), ("body", .array [.null])]) := by
    rw [read_eq_foldl_toList]
    rfl
  have hread' : read "\x7b\"loc\":0,\"type\":\"Program\",\"body\":[\"\"]\x7d" =
      .ok (.object [("loc", .number (.integer 0)), ("type", .string "Program"),
        ("body", .array [.string ""])]) := by
    rw [read_eq_foldl_toList]
    rfl
  refine ⟨⟨hagree, (result_depends_on_attributes v w hagree).1⟩, fun layout => ?_⟩
  refine (result_depends_on_attributes _ _ (.known .program rfl rfl ?_)).2 "f" layout _ _ hread
    hread'
  simp only [Kind.attributes, List.forall_mem_singleton]
  exact .there (.array (.cons (.falsy .null .empty) .nil))

end SyntaxToC.Tree
