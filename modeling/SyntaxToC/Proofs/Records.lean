import SyntaxToC.Proofs.Replacement

/-!
# Records as objects and as arrays

Names, types, parameters and import sources are records.  A record is meant to be an object with its
fields as members, `Labelled`; the loader takes the array of the fields in their order as well, and
cannot tell the two apart.  No other value passes for a record: the node that it belongs to is
malformed, and the loader says so as soon as it comes to that node.

    shape.Labelled x ↔ shape.Fits x ∧ ¬ shape.Positional x               (labelled_iff)
    Reaches v p x → load x = .error e → load v = .error (e.under p.path) (load_of_reaches)

So a document is held to the labelled form as long as no record in it is an array, and if it loads,
only then (`LabelsEnforced`, `NonePositional`).
-/

namespace SyntaxToC.Json

open SyntaxToC.Tree

theorem Members.insert_self {ms : Members} {key : String} {x : Value} (h : ms.get? key = some x) :
    ms.insert key x = ms := by
  induction ms with
  | nil => cases h
  | cons m ms ih =>
    obtain ⟨k, y⟩ := m
    simp only [get?, List.lookup_cons] at h ih
    rw [insert]
    by_cases hk : k = key
    · subst hk
      simp at h
      simp [h]
    · have hne : (key == k) = false := by simpa using fun heq : key = k => hk heq.symm
      rw [hne] at h
      rw [if_neg hk, ih h]

/-- A part put where it was changes nothing. -/
theorem Value.put_self {v x : Value} {p : Path} (h : v.at? p = some x) : v.put p x = v := by
  induction p generalizing v with
  | nil =>
    cases h
    rfl
  | cons s p ih =>
    obtain ⟨y, hy, hp⟩ := Option.bind_eq_some_iff.1 h
    rw [put, hy]
    simp only [ih hp]
    cases v with
    | object ms =>
      cases s with
      | member key => exact congrArg Value.object (Members.insert_self hy)
      | item index => rfl
    | array items =>
      cases s with
      | member key => rfl
      | item index =>
        obtain ⟨hlt, rfl⟩ := List.getElem?_eq_some_iff.1 hy
        simp [setPart]
    | _ => rfl

end SyntaxToC.Json

namespace SyntaxToC.Tree

open SyntaxToC.Json SyntaxToC.Outcome

/-! ## Two forms of a record -/

def IsArray (w : Value) : Prop := ∃ items, w = .array items

/-- A reference to a name as an object. -/
def LabelledName (w : Value) : Prop :=
  ∃ (ms : Members) (s : String), w = .object ms ∧ ms.get? "name" = some (.string s)

/-- A parameter as an object, with objects for its name and its type. -/
def LabelledParam (w : Value) : Prop :=
  ∃ (ms : Members) (x y : Value), w = .object ms ∧ ms.get? "name" = some x ∧ LabelledName x ∧
    ms.get? "typing" = some y ∧ LabelledName y

/-- The source of an import as an object. -/
def LabelledSource (w : Value) : Prop :=
  ∃ (ms : Members) (std : Bool) (s : String), w = .object ms ∧
    ms.get? "std" = some (.bool std) ∧ ms.get? "value" = some (.string s)

/-- A parameter that is an array, or has an array for its name or its type. -/
def PositionalParam (w : Value) : Prop :=
  IsArray w ∨ ∃ key ∈ ["name", "typing"], ∃ x, w.get? key = some x ∧ IsArray x

namespace Shape

/-- The value has the shape, and its records are objects with the fields as members. -/
def Labelled : Shape → Value → Prop
  | .name, w => LabelledName w
  | .params, w => ∃ items, w = .array items ∧ ∀ item ∈ items, LabelledParam item
  | .source, w => LabelledSource w
  | shape, w => shape.Fits w

/-- One of the records is an array. -/
def Positional : Shape → Value → Prop
  | .name, w => IsArray w
  | .params, w => ∃ items, w = .array items ∧ ∃ item ∈ items, PositionalParam item
  | .source, w => IsArray w
  | _, _ => False

end Shape

theorem labelledName_iff {w : Value} : LabelledName w ↔ (∃ s, IsName w s) ∧ ¬ IsArray w := by
  constructor
  · rintro ⟨ms, s, rfl, hs⟩
    refine ⟨⟨s, .object hs⟩, ?_⟩
    rintro ⟨items, h⟩
    cases h
  · rintro ⟨⟨s, hname⟩, harray⟩
    cases hname with
    | object hs => exact ⟨_, s, rfl, hs⟩
    | array => exact absurd ⟨_, rfl⟩ harray

theorem labelledSource_iff {w : Value} :
    LabelledSource w ↔ (∃ std s, IsSource w std s) ∧ ¬ IsArray w := by
  constructor
  · rintro ⟨ms, std, s, rfl, hstd, hs⟩
    refine ⟨⟨std, s, .object hstd hs⟩, ?_⟩
    rintro ⟨items, h⟩
    cases h
  · rintro ⟨⟨std, s, hsource⟩, harray⟩
    cases hsource with
    | object hstd hs => exact ⟨_, std, s, rfl, hstd, hs⟩
    | array => exact absurd ⟨_, rfl⟩ harray

theorem labelledParam_iff {w : Value} :
    LabelledParam w ↔ (∃ p, IsParam w p) ∧ ¬ PositionalParam w := by
  constructor
  · rintro ⟨ms, x, y, rfl, hx, hname, hy, htyping⟩
    obtain ⟨⟨name, hname⟩, hxarray⟩ := labelledName_iff.1 hname
    obtain ⟨⟨typing, htyping⟩, hyarray⟩ := labelledName_iff.1 htyping
    refine ⟨⟨_, .object hx hname hy htyping⟩, ?_⟩
    rintro (⟨items, h⟩ | ⟨key, hkey, z, hz, harray⟩)
    · cases h
    · simp only [List.mem_cons, List.not_mem_nil, or_false] at hkey
      rcases hkey with rfl | rfl
      · cases hx.symm.trans hz
        exact hxarray harray
      · cases hy.symm.trans hz
        exact hyarray harray
  · rintro ⟨⟨p, hparam⟩, hpositional⟩
    cases hparam with
    | array hx hy => exact absurd (.inl ⟨_, rfl⟩) hpositional
    | @object ms x y name typing hx hname hy htyping =>
      have hmember : ∀ key ∈ ["name", "typing"], ∀ z, ms.get? key = some z → ¬ IsArray z :=
        fun key hkey z hz harray => hpositional (.inr ⟨key, hkey, z, hz, harray⟩)
      exact ⟨ms, x, y, rfl, hx, labelledName_iff.2 ⟨⟨_, hname⟩, hmember "name" (by simp) x hx⟩,
        hy, labelledName_iff.2 ⟨⟨_, htyping⟩, hmember "typing" (by simp) y hy⟩⟩

theorem exists_forall₂_isParam_iff {items : List Value} :
    (∃ ps, List.Forall₂ IsParam items ps) ↔ ∀ item ∈ items, ∃ p, IsParam item p := by
  induction items with
  | nil => exact iff_of_true ⟨[], .nil⟩ (by simp)
  | cons item items ih =>
    rw [List.forall_mem_cons, ← ih]
    constructor
    · rintro ⟨ps, h⟩
      cases h with
      | cons hp hps => exact ⟨⟨_, hp⟩, _, hps⟩
    · rintro ⟨⟨p, hp⟩, ps, hps⟩
      exact ⟨p :: ps, .cons hp hps⟩

/-- What passes for a record is labelled, unless there is an array in it. -/
theorem labelled_iff (shape : Shape) (w : Value) :
    shape.Labelled w ↔ shape.Fits w ∧ ¬ shape.Positional w := by
  cases shape with
  | name => exact labelledName_iff
  | source => exact labelledSource_iff
  | params =>
    constructor
    · rintro ⟨items, rfl, h⟩
      obtain ⟨ps, hps⟩ := exists_forall₂_isParam_iff.2 fun item hitem =>
        (labelledParam_iff.1 (h item hitem)).1
      refine ⟨⟨ps, items, rfl, hps⟩, ?_⟩
      rintro ⟨_, heq, item, hitem, hpositional⟩
      cases heq
      exact (labelledParam_iff.1 (h item hitem)).2 hpositional
    · rintro ⟨⟨ps, items, rfl, hps⟩, hpositional⟩
      refine ⟨items, rfl, fun item hitem => labelledParam_iff.2 ⟨?_, fun h => ?_⟩⟩
      · exact exists_forall₂_isParam_iff.1 ⟨ps, hps⟩ item hitem
      · exact hpositional ⟨items, rfl, item, hitem, h⟩
  | _ => exact (and_iff_left id).symm

/-! ## Attributes of a node -/

/-- The attribute is there and has its shape. -/
def Has (v : Value) (a : String × Shape) : Prop := ∃ x, v.get? a.1 = some x ∧ a.2.Fits x

/-- A node and one of its attributes that are records, by the kind of the node. -/
inductive RecordOf (w : Value) : Kind → String × Shape → Prop
  | source : Tagged w "ImportDeclaration" → RecordOf w .importDeclaration ("source", .source)
  | functionName : Tagged w "FunctionDeclaration" → RecordOf w .functionDeclaration ("id", .name)
  | returnType :
      Tagged w "FunctionDeclaration" → RecordOf w .functionDeclaration ("returnType", .name)
  | params : Tagged w "FunctionDeclaration" → RecordOf w .functionDeclaration ("params", .params)
  | variableName : Tagged w "VariableDeclaration" → RecordOf w .variableDeclaration ("id", .name)
  | typing : Tagged w "VariableDeclaration" → RecordOf w .variableDeclaration ("typing", .name)
  | callee : Tagged w "CallExpression" → RecordOf w .callExpression ("callee", .name)

namespace RecordOf

variable {w : Value} {k : Kind} {a : String × Shape}

theorem tagged (h : RecordOf w k a) : Tagged w k.tag := by
  cases h <;> assumption

theorem listed (h : RecordOf w k a) : a ∈ k.attributes := by
  cases h <;> decide

end RecordOf

/-- A node that loads has all its attributes. -/
theorem has_of_decodes {v : Value} {t : Node} {k : Kind} (h : Decodes v t) (hk : Tagged v k.tag) :
    ∀ a ∈ k.attributes, Has v a := by
  have hkind := kind?_of_decodes h hk
  cases h with
  | unsupported => cases hkind
  | program _ hws _ | block _ hws _ =>
    cases hkind
    simp only [Kind.attributes, List.forall_mem_singleton]
    exact ⟨_, hws, _, rfl⟩
  | importDecl _ hw hs =>
    cases hkind
    simp only [Kind.attributes, List.forall_mem_singleton]
    exact ⟨_, hw, _, _, hs⟩
  | functionDecl _ hi hname hr hreturn hp hparams hb hbody =>
    cases hkind
    simp only [Kind.attributes, List.forall_mem_cons]
    exact ⟨⟨_, hi, _, hname⟩, ⟨_, hr, _, hreturn⟩, ⟨_, hp, _, _, rfl, hparams⟩,
      ⟨_, hb, _, hbody⟩, by simp⟩
  | returnStmt _ hw hn | exprStmt _ hw hn =>
    cases hkind
    simp only [Kind.attributes, List.forall_mem_singleton]
    exact ⟨_, hw, _, hn⟩
  | variableDecl _ hm hi hname hy htyping hw hn =>
    cases hkind
    simp only [Kind.attributes, List.forall_mem_cons]
    exact ⟨⟨_, hm, _, rfl⟩, ⟨_, hi, _, hname⟩, ⟨_, hy, _, htyping⟩, ⟨_, hw, _, hn⟩, by simp⟩
  | call _ hc hcallee hws _ =>
    cases hkind
    simp only [Kind.attributes, List.forall_mem_cons]
    exact ⟨⟨_, hc, _, hcallee⟩, ⟨_, hws, _, rfl⟩, by simp⟩
  | binary _ hop hl hleft hr hright =>
    cases hkind
    simp only [Kind.attributes, List.forall_mem_cons]
    exact ⟨⟨_, hop, _, rfl⟩, ⟨_, hl, _, hleft⟩, ⟨_, hr, _, hright⟩, by simp⟩
  | literal _ hw hs =>
    cases hkind
    simp only [Kind.attributes, List.forall_mem_singleton]
    exact ⟨_, hw, _, hs⟩
  | identifier _ hw =>
    cases hkind
    simp only [Kind.attributes, List.forall_mem_singleton]
    exact ⟨_, hw, _, rfl⟩

/-! ## A record in neither form -/

/-- The node itself, of the kind, is found malformed. -/
def Malformed {α : Type} (k : Kind) (x : Except NodeError α) : Prop :=
  ∃ flaw, x = .error ⟨[], .malformed k flaw⟩

section

variable {α β : Type} {k : Kind} {v : Value} {key : String} {decode : Decoder α}

theorem Malformed.bind {x : Except NodeError α} (hx : Malformed k x)
    (f : α → Except NodeError β) : Malformed k (x >>= f) := by
  obtain ⟨flaw, rfl⟩ := hx
  exact ⟨flaw, rfl⟩

theorem readAttribute_cases (k : Kind) (v : Value) (key : String) (decode : Decoder α) :
    (∃ x, v.get? key = some x ∧ ∃ a, decode x = .ok a) ∨
      Malformed k (readAttribute k v key decode) := by
  unfold readAttribute
  cases hx : v.get? key with
  | none => exact .inr ⟨_, rfl⟩
  | some x =>
    cases hdecode : decode x with
    | error e => exact .inr ⟨.badAttribute key e, by simp [hdecode, Except.mapError]⟩
    | ok a => exact .inl ⟨x, rfl, a, hdecode⟩

/-- An attribute that is missing or does not have its shape. -/
theorem malformed_of_misfit {shape : Shape} (hdecode : ∀ x a, decode x = .ok a → shape.Fits x)
    (h : ¬ Has v (key, shape)) (f : α → Except NodeError β) :
    Malformed k (readAttribute k v key decode >>= f) := by
  rcases readAttribute_cases k v key decode with ⟨x, hx, a, ha⟩ | hmalformed
  · exact absurd ⟨x, hx, hdecode x a ha⟩ h
  · exact hmalformed.bind f

/-- The attributes before it make no difference. -/
theorem malformed_behind {f : α → Except NodeError β} (h : ∀ a, Malformed k (f a)) :
    Malformed k (readAttribute k v key decode >>= f) := by
  rcases readAttribute_cases k v key decode with ⟨x, hx, a, ha⟩ | hmalformed
  · rw [readAttribute_eq_ok_iff.2 ⟨x, hx, ha⟩]
    exact h a
  · exact hmalformed.bind f

end

theorem fits_name (x : Value) (s : String) (h : Attribute.name x = .ok s) : Shape.name.Fits x :=
  ⟨s, Attribute.name_eq_ok_iff.1 h⟩

theorem fits_params (x : Value) (ps : List Param) (h : Attribute.params x = .ok ps) :
    Shape.params.Fits x :=
  ⟨ps, Attribute.params_eq_ok_iff.1 h⟩

theorem fits_source (x : Value) (source : Bool × String) (h : Attribute.importSource x = .ok source) :
    Shape.source.Fits x :=
  ⟨source.1, source.2, Attribute.importSource_eq_ok_iff.1 h⟩

/-- Records are read before the nodes below, so that one in neither form is a fault of its node. -/
theorem load_of_misfit {w : Value} {k : Kind} {a : String × Shape} (h : RecordOf w k a)
    (hmisfit : ¬ Has w a) : Malformed k (load w) := by
  rw [load_of_tagged h.tagged, loadAs.eq_def]
  cases h with
  | source => exact malformed_of_misfit fits_source hmisfit _
  | functionName => exact malformed_of_misfit fits_name hmisfit _
  | returnType => exact malformed_behind fun name => malformed_of_misfit fits_name hmisfit _
  | params =>
    exact malformed_behind fun name => malformed_behind fun returnType =>
      malformed_of_misfit fits_params hmisfit _
  | variableName => exact malformed_behind fun mutable => malformed_of_misfit fits_name hmisfit _
  | typing =>
    exact malformed_behind fun mutable => malformed_behind fun name =>
      malformed_of_misfit fits_name hmisfit _
  | callee => exact malformed_of_misfit fits_name hmisfit _

/-! ## Nodes that the loader comes to -/

/-- What the loader reads of a node before it takes a step is in order. -/
def Clear (v : Value) : Step → Prop
  | .slot index => ∀ ws, v.get? "body" = some (.array ws) →
      ∀ w ∈ ws.take index, Falsy w ∨ ∃ n, load w = .ok n
  | .body => Has v ("id", .name) ∧ Has v ("returnType", .name) ∧ Has v ("params", .params)
  | .argument => True
  | .expression => True
  | .value => Has v ("mutable", .flag) ∧ Has v ("id", .name) ∧ Has v ("typing", .name)
  | .item index => Has v ("callee", .name) ∧ ∀ ws, v.get? "arguments" = some (.array ws) →
      ∀ w ∈ ws.take index, ∃ n, load w = .ok n
  | .left => Has v ("op", .text)
  | .right => Has v ("op", .text) ∧ Has v ("left", .node)

/-- The loader gets as far as the value at a position: it finds no fault on its way there. -/
inductive Reaches : Value → Position → Value → Prop
  | root (v : Value) : Reaches v [] v
  | step {v x y : Value} {s : Step} {p : Position} :
      Child v s x → Clear v s → Reaches x p y → Reaches v (s :: p) y

theorem Reaches.visits {v x : Value} {p : Position} (h : Reaches v p x) : Visits v p x := by
  induction h with
  | root v => exact .root v
  | step hchild _ _ ih => exact .step hchild ih

theorem loadSlots_error {ws : List Value} {first index : Nat} {x : Value} {e : NodeError}
    (hx : ws[index]? = some x) (hfalsy : ¬ Falsy x) (he : load x = .error e)
    (hbefore : ∀ w ∈ ws.take index, Falsy w ∨ ∃ n, load w = .ok n) :
    loadSlots first ws = .error (e.under [.member "body", .item (first + index)]) := by
  induction ws generalizing first index with
  | nil => cases hx
  | cons w ws ih =>
    rw [loadSlots_cons]
    cases index with
    | zero =>
      cases hx
      rw [loadSlot_of_not_falsy hfalsy, he]
      rfl
    | succ index =>
      rw [List.take_succ_cons, List.forall_mem_cons] at hbefore
      have hslot : ∃ slot, loadSlot first w = .ok slot := by
        by_cases hw : Falsy w
        · exact ⟨none, if_pos ((Value.isBlank_iff w).2 hw)⟩
        · obtain ⟨n, hn⟩ := hbefore.1.resolve_left hw
          rw [loadSlot_of_not_falsy hw, hn]
          exact ⟨some n, rfl⟩
      obtain ⟨slot, hslot⟩ := hslot
      rw [hslot, ih hx hbefore.2, Nat.succ_add_eq_add_succ]
      rfl

theorem loadArguments_error {ws : List Value} {first index : Nat} {x : Value} {e : NodeError}
    (hx : ws[index]? = some x) (he : load x = .error e)
    (hbefore : ∀ w ∈ ws.take index, ∃ n, load w = .ok n) :
    loadArguments first ws = .error (e.under [.member "arguments", .item (first + index)]) := by
  induction ws generalizing first index with
  | nil => cases hx
  | cons w ws ih =>
    rw [loadArguments]
    cases index with
    | zero =>
      cases hx
      rw [he]
      rfl
    | succ index =>
      rw [List.take_succ_cons, List.forall_mem_cons] at hbefore
      obtain ⟨n, hn⟩ := hbefore.1
      rw [hn, ih hx hbefore.2, Nat.succ_add_eq_add_succ]
      rfl

/-- A fault one step down is the fault of the node, if there is none before it. -/
theorem load_of_child_error {v x : Value} {s : Step} {e : NodeError} (h : Child v s x)
    (hclear : Clear v s) (he : load x = .error e) : load v = .error (e.under s.path) := by
  cases h with
  | program htag hws hx hfalsy =>
    rw [load_program htag hws, loadSlots_error hx hfalsy he (hclear _ hws), Nat.zero_add]
    rfl
  | block htag hws hx hfalsy =>
    rw [load_block htag hws, loadSlots_error hx hfalsy he (hclear _ hws), Nat.zero_add]
    rfl
  | functionDecl htag hx =>
    obtain ⟨⟨i, hi, name, hname⟩, ⟨r, hr, returnType, hreturn⟩, _, hp, params, ps, rfl,
      hparams⟩ := hclear
    rw [load_functionDecl htag hi hname hr hreturn hp hparams hx, he]
    rfl
  | returnStmt htag hx =>
    rw [load_returnStmt htag hx, he]
    rfl
  | exprStmt htag hx =>
    rw [load_exprStmt htag hx, he]
    rfl
  | variableDecl htag hx =>
    obtain ⟨⟨_, hm, mutable, rfl⟩, ⟨i, hi, name, hname⟩, y, hy, typing, htyping⟩ := hclear
    rw [load_variableDecl htag hm hi hname hy htyping hx, he]
    rfl
  | call htag hws hx =>
    obtain ⟨⟨c, hc, callee, hcallee⟩, hbefore⟩ := hclear
    rw [load_call htag hc hcallee hws, loadArguments_error hx he (hbefore _ hws), Nat.zero_add]
    rfl
  | left htag hx =>
    obtain ⟨_, hop, op, rfl⟩ := hclear
    rw [load_of_tagged (k := .binaryExpression) htag, loadAs,
      readAttribute_eq_ok_iff.2 ⟨_, hop, Attribute.text_eq_ok_iff.2 rfl⟩, field_of_get? hx]
    show within [.member "left"] (load x) >>= _ = _
    rw [he]
    rfl
  | right htag hx =>
    obtain ⟨⟨_, hop, op, rfl⟩, l, hl, left, hleft⟩ := hclear
    rw [load_binary htag hop hl hx, load_of_decodes hleft, he]
    rfl

/-- The fault of a value that the loader comes to is the fault of the document. -/
theorem load_of_reaches {v x : Value} {p : Position} {e : NodeError} (h : Reaches v p x)
    (he : load x = .error e) : load v = .error (e.under p.path) := by
  induction h with
  | root v => exact he
  | step hchild hclear _ ih =>
    have hunder : ∀ p q : Path, (e.under q).under p = e.under (p ++ q) := by
      simp [NodeError.under]
    rw [load_of_child_error hchild hclear (ih he), hunder, Position.path_cons]

/-! ## An array in the place of an object -/

/-- The array holds the fields of the object, in their order. -/
def Lists (fields : List String) (x y : Value) : Prop :=
  ∃ (ms : Members) (ys : List Value), x = .object ms ∧ y = .array ys ∧
    fields.map ms.get? = ys.map some

/-- So for a parameter, whose name and typing are records themselves. -/
def ListsParam (x y : Value) : Prop :=
  ∃ name typing name' typing', Lists ["name", "typing"] x (.array [name, typing]) ∧
    Lists ["name"] name name' ∧ Lists ["name"] typing typing' ∧ y = .array [name', typing']

/-- The second value has arrays in the place of all records of the first one. -/
def Shape.Lists : Shape → Value → Value → Prop
  | .name, x, y => Tree.Lists ["name"] x y
  | .params, x, y => ∃ xs ys, x = .array xs ∧ y = .array ys ∧ List.Forall₂ ListsParam xs ys
  | .source, x, y => Tree.Lists ["std", "value"] x y
  | _, _, _ => False

theorem eq_of_lists {fields : List String} {ms : Members} {y : Value} (xs : List Value)
    (h : Lists fields (.object ms) y) (hxs : fields.map ms.get? = xs.map some) : y = .array xs := by
  obtain ⟨_, ys, heq, rfl, hys⟩ := h
  cases heq
  rw [List.map_injective_iff.2 (Option.some_injective _) (hxs.symm.trans hys)]

theorem isName_of_lists {x y : Value} {s : String} (h : Lists ["name"] x y) (hs : IsName x s) :
    IsName y s := by
  cases hs with
  | object hget =>
    rw [eq_of_lists [.string s] h (by simp [hget])]
    exact .array
  | array =>
    obtain ⟨ms, _, heq, -⟩ := h
    cases heq

theorem isSource_of_lists {x y : Value} {std : Bool} {s : String}
    (h : Lists ["std", "value"] x y) (hs : IsSource x std s) : IsSource y std s := by
  cases hs with
  | object hstd hvalue =>
    rw [eq_of_lists [.bool std, .string s] h (by simp [hstd, hvalue])]
    exact .array
  | array =>
    obtain ⟨ms, _, heq, -⟩ := h
    cases heq

theorem isParam_of_lists {x y : Value} {p : Param} (h : ListsParam x y) (hp : IsParam x p) :
    IsParam y p := by
  obtain ⟨name, typing, name', typing', hx, hname, htyping, rfl⟩ := h
  cases hp with
  | @object ms a b _ _ ha hisName hb hisTyping =>
    cases eq_of_lists [a, b] hx (by simp [ha, hb])
    exact .array (isName_of_lists hname hisName) (isName_of_lists htyping hisTyping)
  | array =>
    obtain ⟨ms, _, heq, -⟩ := hx
    cases heq

theorem forall₂_isParam_of_lists {xs ys : List Value} {ps : List Param}
    (h : List.Forall₂ ListsParam xs ys) (hps : List.Forall₂ IsParam xs ps) :
    List.Forall₂ IsParam ys ps := by
  induction h generalizing ps with
  | nil => exact hps
  | cons hxy _ ih =>
    cases hps with
    | cons hp hrest => exact .cons (isParam_of_lists hxy hp) (ih hrest)

/-- A node loads to the same with an array in the place of an object. -/
theorem decodes_put_record {w x y : Value} {t : Node} {k : Kind} {a : String × Shape}
    (h : Decodes w t) (hrecord : RecordOf w k a) (hx : w.get? a.1 = some x)
    (hy : a.2.Lists x y) : Decodes (w.put [.member a.1] y) t := by
  have hkind := kind?_of_decodes h hrecord.tagged
  have hhere := Value.get?_put_here hx y
  -- the other attributes, the tag among them, keep their values
  have hkeep : ∀ {key z}, w.get? key = some z → key ≠ a.1 →
      (w.put [.member a.1] y).get? key = some z :=
    fun hz hkey => (Value.get?_put_other hx y hkey).trans hz
  cases hrecord with
  | source =>
    cases h with
    | importDecl htag hw hs =>
      cases hx.symm.trans hw
      exact .importDecl (hkeep htag (by decide)) hhere (isSource_of_lists hy hs)
    | _ => cases hkind
  | functionName =>
    cases h with
    | functionDecl htag hi hname hr hreturn hp hparams hb hbody =>
      cases hx.symm.trans hi
      exact .functionDecl (hkeep htag (by decide)) hhere (isName_of_lists hy hname)
        (hkeep hr (by decide)) hreturn (hkeep hp (by decide)) hparams
        (hkeep hb (by decide)) hbody
    | _ => cases hkind
  | returnType =>
    cases h with
    | functionDecl htag hi hname hr hreturn hp hparams hb hbody =>
      cases hx.symm.trans hr
      exact .functionDecl (hkeep htag (by decide)) (hkeep hi (by decide)) hname
        hhere (isName_of_lists hy hreturn) (hkeep hp (by decide)) hparams
        (hkeep hb (by decide)) hbody
    | _ => cases hkind
  | params =>
    cases h with
    | functionDecl htag hi hname hr hreturn hp hparams hb hbody =>
      cases hx.symm.trans hp
      obtain ⟨xs, ys, hxs, rfl, hlists⟩ := hy
      cases hxs
      exact .functionDecl (hkeep htag (by decide)) (hkeep hi (by decide)) hname
        (hkeep hr (by decide)) hreturn hhere (forall₂_isParam_of_lists hlists hparams)
        (hkeep hb (by decide)) hbody
    | _ => cases hkind
  | variableName =>
    cases h with
    | variableDecl htag hm hi hname hy' htyping hw hn =>
      cases hx.symm.trans hi
      exact .variableDecl (hkeep htag (by decide)) (hkeep hm (by decide)) hhere
        (isName_of_lists hy hname) (hkeep hy' (by decide)) htyping
        (hkeep hw (by decide)) hn
    | _ => cases hkind
  | typing =>
    cases h with
    | variableDecl htag hm hi hname hy' htyping hw hn =>
      cases hx.symm.trans hy'
      exact .variableDecl (hkeep htag (by decide)) (hkeep hm (by decide))
        (hkeep hi (by decide)) hname hhere (isName_of_lists hy htyping)
        (hkeep hw (by decide)) hn
    | _ => cases hkind
  | callee =>
    cases h with
    | call htag hc hcallee hws hns =>
      cases hx.symm.trans hc
      exact .call (hkeep htag (by decide)) hhere (isName_of_lists hy hcallee)
        (hkeep hws (by decide)) hns
    | _ => cases hkind

/-- The body of a function in a document that loads is a block. -/
theorem block_of_visits {v w : Value} {t n : Node} {p : Position} (hv : load v = .ok t)
    (hp : Visits v p w) (hlast : p.getLast? = some .body) (hn : load w = .ok n) :
    ∃ slots, n = .block slots := by
  obtain ⟨q, rfl⟩ := List.getLast?_eq_some_iff.1 hlast
  obtain ⟨f, hf, hchild⟩ := visits_append_singleton hp
  obtain ⟨tf, htf⟩ := loads_of_visits hv hf
  obtain ⟨u, hu, hbody⟩ := (exchanges_of_child htf hchild).child
  cases hn.symm.trans hu
  exact child?_body hbody

/-- A document loads to the same with an array in the place of an object, wherever it is. -/
theorem load_put_record {v w x y : Value} {t : Node} {p : Position} {k : Kind}
    {a : String × Shape} (hv : load v = .ok t) (hp : Visits v p w) (h : RecordOf w k a)
    (hx : w.get? a.1 = some x) (hy : a.2.Lists x y) :
    load (v.put (p.path ++ [.member a.1]) y) = .ok t := by
  obtain ⟨n, hn⟩ := loads_of_visits hv hp
  have hsame : load (w.put [.member a.1] y) = .ok n :=
    load_of_decodes (decodes_put_record (decodes_of_load hn) h hx hy)
  have hput : ∀ w', ¬ Falsy w' → load w' = .ok n → load (v.put p.path w') = .ok (t.put p n) :=
    fun w' hw' hload => load_put_of_ok hv hp hw' hload fun hlast => block_of_visits hv hp hlast hn
  -- the node in its old form is put where it was
  have ht : t.put p n = t := by
    have hself := hput w (not_falsy_of_get? hx) hn
    rw [Value.put_self (at?_of_visits hp), hv] at hself
    exact (Except.ok.inj hself).symm
  rw [Value.put_append (at?_of_visits hp),
    hput _ (not_falsy_of_get? (Value.get?_put_here hx y)) hsame, ht]

/-! ## Documents held to the labelled form -/

/-- In a document that loads, all records are labelled; and a record that is not makes the loader
fail at the node, once it gets there. -/
structure LabelsEnforced (v : Value) : Prop where
  accepted : ∀ t, load v = .ok t → ∀ p w k a, Visits v p w → RecordOf w k a →
    ∃ x, w.get? a.1 = some x ∧ a.2.Labelled x
  rejected : ∀ p w k a, Reaches v p w → RecordOf w k a →
    (¬ ∃ x, w.get? a.1 = some x ∧ a.2.Labelled x) →
    ∃ flaw, load v = .error ⟨p.path, .malformed k flaw⟩

/-- No record of the document is an array. -/
def NonePositional (v : Value) : Prop :=
  ∀ p w k a, Visits v p w → RecordOf w k a → ∀ x, w.get? a.1 = some x → ¬ a.2.Positional x

section

variable {v w : Value} {p : Position} {k : Kind} {a : String × Shape}

theorem rejected_of_misfit (hreaches : Reaches v p w) (h : RecordOf w k a) (hmisfit : ¬ Has w a) :
    ∃ flaw, load v = .error ⟨p.path, .malformed k flaw⟩ := by
  obtain ⟨flaw, hflaw⟩ := load_of_misfit h hmisfit
  refine ⟨flaw, ?_⟩
  rw [load_of_reaches hreaches hflaw]
  simp [NodeError.under]

theorem has_of_visits {t : Node} (hv : load v = .ok t) (hvisits : Visits v p w)
    (h : RecordOf w k a) : Has w a := by
  obtain ⟨n, hn⟩ := loads_of_visits hv hvisits
  exact has_of_decodes (decodes_of_load hn) h.tagged a h.listed

theorem labelled_of_has (hnone : NonePositional v) (hvisits : Visits v p w) (h : RecordOf w k a)
    (hhas : Has w a) : ∃ x, w.get? a.1 = some x ∧ a.2.Labelled x := by
  obtain ⟨x, hx, hfits⟩ := hhas
  exact ⟨x, hx, (labelled_iff a.2 x).2 ⟨hfits, hnone p w k a hvisits h x hx⟩⟩

end

/-! ## Top theorem -/

/-- A record in neither form is rejected at its node.  A document without arrays for records is held
to the labelled form, and a document that loads is held to it only if it has none.  It loads to the
same tree with arrays in the place of the objects. -/
theorem labels_enforced_unless_positional (v : Value) :
    (∀ p w k a, Reaches v p w → RecordOf w k a → ¬ Has w a →
      ∃ flaw, load v = .error ⟨p.path, .malformed k flaw⟩) ∧
    (NonePositional v → LabelsEnforced v) ∧
    ∀ t, load v = .ok t → (LabelsEnforced v → NonePositional v) ∧
      ∀ p w k a x y, Visits v p w → RecordOf w k a → w.get? a.1 = some x → a.2.Lists x y →
        load (v.put (p.path ++ [.member a.1]) y) = .ok t := by
  refine ⟨fun p w k a => rejected_of_misfit, fun hnone => ⟨?_, ?_⟩, fun t ht => ⟨?_, ?_⟩⟩
  · intro t ht p w k a hvisits h
    exact labelled_of_has hnone hvisits h (has_of_visits ht hvisits h)
  · intro p w k a hreaches h hlabelled
    apply rejected_of_misfit hreaches h
    intro hhas
    exact hlabelled (labelled_of_has hnone hreaches.visits h hhas)
  · intro henforced p w k a hvisits h x hx
    obtain ⟨y, hy, hlabelled⟩ := henforced.accepted t ht p w k a hvisits h
    cases hx.symm.trans hy
    exact ((labelled_iff a.2 x).1 hlabelled).2
  · intro p w k a x y hvisits h hx hy
    exact load_put_record ht hvisits h hx hy

/-- A call with its name in an object, the same call with its name in an array, and one without a
name, deep in a program. -/
theorem labels_enforced_unless_positional_call :
    let call (callee : Value) : Value := .object
      [("type", .string "CallExpression"), ("callee", callee), ("arguments", .array [])]
    let v : Value := call (.object [("name", .string "f")])
    let nameless : Value := .object [("type", .string "Program"), ("body", .array
      [.null, .object [("type", .string "ExpressionStatement"), ("expression", call .null)]])]
    (NonePositional v ∧ LabelsEnforced v) ∧
      load v = .ok (.call "f" []) ∧ load (call (.array [.string "f"])) = .ok (.call "f" []) ∧
      ∃ flaw, load nameless = .error
        ⟨[.member "body", .item 1, .member "expression"], .malformed .callExpression flaw⟩ := by
  intro call v nameless
  have hv : load v = .ok (.call "f" []) := load_of_decodes (.call rfl rfl (.object rfl) rfl .nil)
  have hnone : NonePositional v := by
    intro p w k a hvisits h x hx
    cases hvisits with
    | root =>
      have hkind := kind?_of_decodes (decodes_of_load hv) h.tagged
      cases h with
      | callee =>
        cases hx
        rintro ⟨items, hitems⟩
        cases hitems
      | _ => cases hkind
    | @step _ _ _ s _ hchild _ =>
      obtain ⟨u, -, hu⟩ := (exchanges_of_child hv hchild).child
      cases s <;> simp [Node.child?] at hu
  have hmisfit : ¬ Has (call .null) ("callee", .name) := by
    rintro ⟨x, hx, s, hs⟩
    cases hx
    cases hs
  have hstatement : ∀ {w : Value}, Tagged w "ExpressionStatement" → ¬ Falsy w := not_falsy_of_get?
  have hreaches : Reaches nameless [.slot 1, .expression] (call .null) := by
    refine .step (.program rfl rfl rfl (hstatement rfl)) ?_ (.step (.exprStmt rfl rfl) trivial
      (.root _))
    rintro ws hws w hw
    cases hws
    obtain rfl := List.mem_singleton.1 hw
    exact .inl .null
  obtain ⟨-, henforced, hloads⟩ := labels_enforced_unless_positional v
  obtain ⟨-, hlists⟩ := hloads _ hv
  exact ⟨⟨hnone, henforced hnone⟩, hv,
    hlists [] v _ _ _ (.array [.string "f"]) (.root v) (.callee rfl) rfl ⟨_, _, rfl, rfl, rfl⟩,
    (labels_enforced_unless_positional nameless).1 _ _ _ _ hreaches (.callee rfl) hmisfit⟩

/-- The call with its name in an array is not held to the labelled form. -/
theorem positional_callee_loads :
    let v : Value := .object [("type", .string "CallExpression"),
      ("callee", .array [.string "f"]), ("arguments", .array [])]
    load v = .ok (.call "f" []) ∧ ¬ LabelsEnforced v := by
  intro v
  have hv : load v = .ok (.call "f" []) := load_of_decodes (.call rfl rfl .array rfl .nil)
  refine ⟨hv, fun henforced => ?_⟩
  obtain ⟨x, hx, ms, s, rfl, -⟩ := henforced.accepted _ hv [] v _ _ (.root v) (.callee rfl)
  cases hx

end SyntaxToC.Tree
