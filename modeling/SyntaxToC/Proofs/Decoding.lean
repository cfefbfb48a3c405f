import SyntaxToC.Proofs.Numerals
import SyntaxToC.Proofs.Outcome
import SyntaxToC.Tree.Load

/-!
# What a JSON value denotes

The shape of a tree in JSON, stated as a relation: `Decodes v t` holds when the object `v` has the
members that the kind of `t` asks for, and these decode to the parts of `t`.  The rules say nothing
about the order in which members are looked at, nor about faults.

    load v = .ok t ↔ Decodes v t                                (load_eq_ok_iff_decodes)
-/

namespace SyntaxToC.Json

/-- The number itself. -/
def Number.value : Number → ℚ
  | .integer i => i
  | .real x => (if x.negative then -1 else 1) * x.magnitude.value

/-- The values that leave a slot empty: null, false, any zero and the empty text. -/
inductive Falsy : Value → Prop
  | null : Falsy .null
  | false : Falsy (.bool false)
  | zero {n : Number} : n.value = 0 → Falsy (.number n)
  | empty : Falsy (.string "")

theorem Number.isZero_iff (n : Number) : n.isZero = true ↔ n.value = 0 := by
  cases n with
  | integer i => simp [isZero, value]
  | real x =>
    have hsign : (if x.negative then (-1 : ℚ) else 1) ≠ 0 := by split <;> simp
    have hpower : (2 : ℚ) ^ x.magnitude.exponent ≠ 0 := zpow_ne_zero _ (by decide)
    simp only [isZero, Magnitude.isZero, value, Magnitude.value, beq_iff_eq, mul_eq_zero, hsign,
      hpower, false_or, or_false, Nat.cast_eq_zero]

theorem Value.isBlank_iff (v : Value) : v.isBlank = true ↔ Falsy v := by
  constructor
  · intro h
    cases v with
    | null => exact .null
    | bool b =>
      obtain rfl : b = false := by simpa [isBlank] using h
      exact .false
    | number n => exact .zero ((Number.isZero_iff n).1 h)
    | string s =>
      obtain rfl : s = "" := by simpa [isBlank] using h
      exact .empty
    | array _ => simp [isBlank] at h
    | object _ => simp [isBlank] at h
  · rintro (_ | _ | h | _)
    · rfl
    · rfl
    · exact (Number.isZero_iff _).2 h
    · rfl

end SyntaxToC.Json

namespace SyntaxToC.Tree

open SyntaxToC.Json SyntaxToC.Outcome

/-! ## Attributes -/

/-- A reference to a name: an object with a text under `name`, or the array of that text alone. -/
inductive IsName : Value → String → Prop
  | object {ms : Members} {s : String} :
      ms.get? "name" = some (.string s) → IsName (.object ms) s
  | array {s : String} : IsName (.array [.string s]) s

/-- A parameter: two references to names, as members or in an array. -/
inductive IsParam : Value → Param → Prop
  | object {ms : Members} {x y : Value} {name typing : String} :
      ms.get? "name" = some x → IsName x name → ms.get? "typing" = some y → IsName y typing →
      IsParam (.object ms) ⟨name, typing⟩
  | array {x y : Value} {name typing : String} :
      IsName x name → IsName y typing → IsParam (.array [x, y]) ⟨name, typing⟩

/-- The source of an import: a flag and a text, as members or in an array. -/
inductive IsSource : Value → Bool → String → Prop
  | object {ms : Members} {std : Bool} {s : String} :
      ms.get? "std" = some (.bool std) → ms.get? "value" = some (.string s) →
      IsSource (.object ms) std s
  | array {std : Bool} {s : String} : IsSource (.array [.bool std, .string s]) std s

/-- The value of a literal and its text: integers in decimal, other numbers without an exponent and
with the fewest digits that still round to them. -/
inductive IsLiteral : Value → String → Prop
  | string {s : String} : IsLiteral (.string s) s
  | integer {i : Int} : IsLiteral (.number (.integer i)) (toString i)
  | real {x : Binary64} {d : Decimal} {s : String} :
      d.IsShortest .up x.magnitude → IsNumeral d.value s →
      IsLiteral (.number (.real x)) (Number.sign x.negative ++ s)
  | true : IsLiteral (.bool true) "true"
  | false : IsLiteral (.bool false) "false"

/-! ## Nodes -/

/-- An object with a text under `type`. -/
abbrev Tagged (v : Value) (tag : String) : Prop := v.get? "type" = some (.string tag)

mutual

/-- The JSON value denotes the tree. -/
inductive Decodes : Value → Node → Prop
  | unsupported {v : Value} {tag : String} :
      Tagged v tag → (∀ k : Kind, k.tag ≠ tag) → Decodes v (.unsupported tag)
  | program {v : Value} {ws : List Value} {slots : Slots} :
      Tagged v "Program" → v.get? "body" = some (.array ws) → DecodesSlots ws slots →
      Decodes v (.program slots)
  | importDecl {v w : Value} {std : Bool} {s : String} :
      Tagged v "ImportDeclaration" → v.get? "source" = some w → IsSource w std s →
      Decodes v (.importDecl std s)
  | functionDecl {v i r b : Value} {name returnType : String} {ps : List Value}
      {params : List Param} {slots : Slots} :
      Tagged v "FunctionDeclaration" → v.get? "id" = some i → IsName i name →
      v.get? "returnType" = some r → IsName r returnType →
      v.get? "params" = some (.array ps) → List.Forall₂ IsParam ps params →
      v.get? "body" = some b → Decodes b (.block slots) →
      Decodes v (.functionDecl name returnType params slots)
  | block {v : Value} {ws : List Value} {slots : Slots} :
      Tagged v "BlockStatement" → v.get? "body" = some (.array ws) → DecodesSlots ws slots →
      Decodes v (.block slots)
  | returnStmt {v w : Value} {n : Node} :
      Tagged v "ReturnStatement" → v.get? "argument" = some w → Decodes w n →
      Decodes v (.returnStmt n)
  | exprStmt {v w : Value} {n : Node} :
      Tagged v "ExpressionStatement" → v.get? "expression" = some w → Decodes w n →
      Decodes v (.exprStmt n)
  | variableDecl {v i y w : Value} {mutable : Bool} {name typing : String} {n : Node} :
      Tagged v "VariableDeclaration" → v.get? "mutable" = some (.bool mutable) →
      v.get? "id" = some i → IsName i name → v.get? "typing" = some y → IsName y typing →
      v.get? "value" = some w → Decodes w n → Decodes v (.variableDecl mutable name typing n)
  | call {v c : Value} {callee : String} {ws : List Value} {ns : List Node} :
      Tagged v "CallExpression" → v.get? "callee" = some c → IsName c callee →
      v.get? "arguments" = some (.array ws) → DecodesAll ws ns → Decodes v (.call callee ns)
  | binary {v l r : Value} {op : String} {left right : Node} :
      Tagged v "BinaryExpression" → v.get? "op" = some (.string op) →
      v.get? "left" = some l → Decodes l left → v.get? "right" = some r → Decodes r right →
      Decodes v (.binary left op right)
  | literal {v w : Value} {s : String} :
      Tagged v "Literal" → v.get? "value" = some w → IsLiteral w s → Decodes v (.literal s)
  | identifier {v : Value} {s : String} :
      Tagged v "Identifier" → v.get? "name" = some (.string s) → Decodes v (.identifier s)

/-- The entries of a body and its slots, one for one. -/
inductive DecodesSlots : List Value → Slots → Prop
  | nil : DecodesSlots [] []
  | empty {w : Value} {ws : List Value} {slots : Slots} :
      Falsy w → DecodesSlots ws slots → DecodesSlots (w :: ws) (none :: slots)
  | node {w : Value} {n : Node} {ws : List Value} {slots : Slots} :
      ¬ Falsy w → Decodes w n → DecodesSlots ws slots → DecodesSlots (w :: ws) (some n :: slots)

/-- The entries of an argument list and the arguments, one for one. -/
inductive DecodesAll : List Value → List Node → Prop
  | nil : DecodesAll [] []
  | cons {w : Value} {n : Node} {ws : List Value} {ns : List Node} :
      Decodes w n → DecodesAll ws ns → DecodesAll (w :: ws) (n :: ns)

end

/-! ## Reading attributes -/

namespace Attribute

theorem text_eq_ok_iff {v : Value} {s : String} : text v = .ok s ↔ v = .string s := by
  cases v <;> simp [text]

theorem flag_eq_ok_iff {v : Value} {b : Bool} : flag v = .ok b ↔ v = .bool b := by
  cases v <;> simp [flag]

theorem present_eq_ok_iff {α : Type} {key : String} {x : Option α} {a : α} :
    present key x = .ok a ↔ x = some a := by
  cases x <;> simp [present]

theorem member_eq_ok_some_iff {α : Type} {ms : Members} {key : String} {decode : Decoder α}
    {a : α} :
    member ms key decode = .ok (some a) ↔ ∃ w, ms.get? key = some w ∧ decode w = .ok a := by
  unfold member
  cases ms.get? key with
  | none => simp
  | some w => simp [map_eq_ok_iff]

theorem name_eq_ok_iff {v : Value} {s : String} : name v = .ok s ↔ IsName v s := by
  constructor
  · intro h
    unfold name at h
    split at h
    · simp only [bind_eq_ok_iff, present_eq_ok_iff] at h
      obtain ⟨_, hmember, rfl⟩ := h
      obtain ⟨w, hw, hs⟩ := member_eq_ok_some_iff.1 hmember
      rw [text_eq_ok_iff.1 hs] at hw
      exact .object hw
    · cases h
    · rw [text_eq_ok_iff.1 h]
      exact .array
    · obtain ⟨_, -, h⟩ := bind_eq_ok_iff.1 h
      cases h
    · cases h
  · rintro (hw | _)
    · unfold name
      simp only [bind_eq_ok_iff, present_eq_ok_iff]
      exact ⟨_, member_eq_ok_some_iff.2 ⟨_, hw, rfl⟩, rfl⟩
    · rfl

/-- A record has its two fields, as members or in an array, and they decode. -/
theorem record_eq_ok_iff {α β : Type} {r : Record} {first second : String}
    {decodeFirst : Decoder α} {decodeSecond : Decoder β} {v : Value} {a : α} {b : β} :
    record r first decodeFirst second decodeSecond v = .ok (a, b) ↔
      ∃ x y, decodeFirst x = .ok a ∧ decodeSecond y = .ok b ∧
        ((∃ ms : Members, v = .object ms ∧ ms.get? first = some x ∧ ms.get? second = some y) ∨
          v = .array [x, y]) := by
  constructor
  · intro h
    unfold record at h
    split at h
    · simp only [bind_eq_ok_iff, pure_eq_ok_iff, present_eq_ok_iff] at h
      obtain ⟨_, hfirst, _, hsecond, _, rfl, _, rfl, hab⟩ := h
      cases hab
      obtain ⟨x, hx, ha⟩ := member_eq_ok_some_iff.1 hfirst
      obtain ⟨y, hy, hb⟩ := member_eq_ok_some_iff.1 hsecond
      exact ⟨x, y, ha, hb, .inl ⟨_, rfl, hx, hy⟩⟩
    · cases h
    · obtain ⟨_, -, h⟩ := bind_eq_ok_iff.1 h
      cases h
    · simp only [bind_eq_ok_iff, pure_eq_ok_iff] at h
      obtain ⟨_, ha, _, hb, hab⟩ := h
      cases hab
      exact ⟨_, _, ha, hb, .inr rfl⟩
    · simp only [bind_eq_ok_iff] at h
      obtain ⟨_, -, _, -, h⟩ := h
      cases h
    · cases h
  · rintro ⟨x, y, ha, hb, ⟨ms, rfl, hx, hy⟩ | rfl⟩
    · simp only [record, bind_eq_ok_iff, pure_eq_ok_iff, present_eq_ok_iff]
      exact ⟨_, member_eq_ok_some_iff.2 ⟨x, hx, ha⟩, _, member_eq_ok_some_iff.2 ⟨y, hy, hb⟩,
        a, rfl, b, rfl, rfl⟩
    · simp only [record, bind_eq_ok_iff, pure_eq_ok_iff]
      exact ⟨a, ha, b, hb, rfl⟩

theorem importSource_eq_ok_iff {v : Value} {std : Bool} {s : String} :
    importSource v = .ok (std, s) ↔ IsSource v std s := by
  unfold importSource
  simp only [record_eq_ok_iff, flag_eq_ok_iff, text_eq_ok_iff]
  constructor
  · rintro ⟨_, _, rfl, rfl, ⟨ms, rfl, hstd, hs⟩ | rfl⟩
    · exact .object hstd hs
    · exact .array
  · rintro (⟨hstd, hs⟩ | _)
    · exact ⟨_, _, rfl, rfl, .inl ⟨_, rfl, hstd, hs⟩⟩
    · exact ⟨_, _, rfl, rfl, .inr rfl⟩

theorem param_eq_ok_iff {v : Value} {p : Param} : param v = .ok p ↔ IsParam v p := by
  obtain ⟨pname, ptyping⟩ := p
  unfold param
  rw [map_eq_ok_iff]
  constructor
  · rintro ⟨⟨_, _⟩, h, hp⟩
    cases hp
    obtain ⟨x, y, hx, hy, ⟨ms, rfl, hname, htyping⟩ | rfl⟩ := record_eq_ok_iff.1 h
    · exact .object hname (name_eq_ok_iff.1 hx) htyping (name_eq_ok_iff.1 hy)
    · exact .array (name_eq_ok_iff.1 hx) (name_eq_ok_iff.1 hy)
  · intro h
    refine ⟨(pname, ptyping), record_eq_ok_iff.2 ?_, rfl⟩
    cases h with
    | object hname hx htyping hy =>
      exact ⟨_, _, name_eq_ok_iff.2 hx, name_eq_ok_iff.2 hy, .inl ⟨_, rfl, hname, htyping⟩⟩
    | array hx hy => exact ⟨_, _, name_eq_ok_iff.2 hx, name_eq_ok_iff.2 hy, .inr rfl⟩

theorem params_eq_ok_iff {v : Value} {ps : List Param} :
    params v = .ok ps ↔ ∃ items, v = .array items ∧ List.Forall₂ IsParam items ps := by
  cases v with
  | array items => simp [params, mapM_eq_ok_iff, param_eq_ok_iff]
  | _ => simp [params]

end Attribute

/-! ## Reading members of a node -/

theorem within_eq_ok_iff {α : Type} {path : Path} {x : Except NodeError α} {a : α} :
    within path x = .ok a ↔ x = .ok a := mapError_eq_ok_iff

theorem field_eq_ok_iff {kind : Kind} {v : Value} {key : String}
    {w : { w : Value // sizeOf w < sizeOf v }} :
    field kind v key = .ok w ↔ v.get? key = some w.1 := by
  unfold field
  split
  · rename_i x h
    simp [h, Subtype.ext_iff]
  · rename_i h
    simp [h, malformed]

theorem items_eq_ok_iff {kind : Kind} {v : Value} {key : String}
    {ws : { ws : List Value // sizeOf ws < sizeOf v }} :
    items kind v key = .ok ws ↔ v.get? key = some (.array ws.1) := by
  unfold items
  split
  · rename_i x h
    simp [h, Subtype.ext_iff]
  · rename_i w hne h
    simp only [malformed, h, Option.some.injEq, reduceCtorEq, false_iff]
    exact hne ws.1
  · rename_i h
    simp [h, malformed]

theorem readAttribute_eq_ok_iff {α : Type} {kind : Kind} {v : Value} {key : String}
    {decode : Decoder α} {a : α} :
    readAttribute kind v key decode = .ok a ↔ ∃ w, v.get? key = some w ∧ decode w = .ok a := by
  unfold readAttribute
  cases v.get? key with
  | none => simp [malformed]
  | some w => simp [mapError_eq_ok_iff]

theorem isLiteral_real_iff {x : Binary64} {s : String} :
    IsLiteral (.number (.real x)) s ↔ s = (Number.real x).text := by
  have hshortest := x.magnitude.isShortest_shortest .up
  have hnumeral := isNumeral_positional_shortest x.magnitude .up
  constructor
  · rintro (_ | _ | ⟨hd, hs⟩ | _ | _)
    rw [hd.value_unique hshortest] at hs
    rw [hs.unique hnumeral, Number.text]
  · rintro rfl
    exact .real hshortest hnumeral

theorem literalText_eq_ok_iff {v : Value} {s : String} :
    literalText v = .ok s ↔ ∃ w, v.get? "value" = some w ∧ IsLiteral w s := by
  unfold literalText
  constructor
  · intro h
    split at h
    · rename_i hw
      cases h
      exact ⟨_, hw, .string⟩
    · rename_i n hw
      cases n <;> cases h
      · exact ⟨_, hw, .integer⟩
      · exact ⟨_, hw, isLiteral_real_iff.2 rfl⟩
    · rename_i b hw
      cases b <;> cases h
      · exact ⟨_, hw, .false⟩
      · exact ⟨_, hw, .true⟩
    · cases h
    · cases h
  · rintro ⟨w, hw, hs⟩
    cases hs with
    | real hd hs => simp [hw, isLiteral_real_iff.1 (.real hd hs)]
    | _ => simp [hw, Number.text]

/-! ## Lemmas -/

theorem load_of_tagged {v : Value} {k : Kind} (h : Tagged v k.tag) : load v = loadAs k v := by
  rw [load, h]
  simp [Kind.ofTag?_eq_some_iff.2 rfl]

theorem ofTag?_eq_none {tag : String} (hk : ∀ k : Kind, k.tag ≠ tag) : Kind.ofTag? tag = none := by
  cases hk' : Kind.ofTag? tag with
  | none => rfl
  | some k => exact absurd (Kind.ofTag?_eq_some_iff.1 hk') (hk k)

theorem load_of_unknown {v : Value} {tag : String} (h : Tagged v tag)
    (hk : ∀ k : Kind, k.tag ≠ tag) : load v = .ok (.unsupported tag) := by
  rw [load, h]
  simp [ofTag?_eq_none hk]

theorem load_of_untagged {v : Value} (h : ∀ tag, ¬ Tagged v tag) :
    load v = .error ⟨[], .noKind⟩ := by
  rw [load]
  split
  · rename_i tag htag
    exact absurd htag (h tag)
  · rfl

/-- A value has the tag of a kind, a tag of no kind, or no tag. -/
theorem tag_cases (v : Value) :
    (∃ k : Kind, Tagged v k.tag) ∨ (∃ tag, Tagged v tag ∧ ∀ k : Kind, k.tag ≠ tag) ∨
      ∀ tag, ¬ Tagged v tag := by
  by_cases h : ∃ tag, Tagged v tag
  · obtain ⟨tag, htag⟩ := h
    by_cases hk : ∃ k : Kind, k.tag = tag
    · obtain ⟨k, rfl⟩ := hk
      exact .inl ⟨k, htag⟩
    · exact .inr (.inl ⟨tag, htag, fun k hkt => hk ⟨k, hkt⟩⟩)
  · exact .inr (.inr fun tag htag => h ⟨tag, htag⟩)

/-- A value that loads has a tag: one of a kind, or one of no kind. -/
theorem tagged_of_load {v : Value} {t : Node} (h : load v = .ok t) :
    (∃ k : Kind, Tagged v k.tag ∧ loadAs k v = .ok t) ∨
      ∃ tag, Tagged v tag ∧ (∀ k : Kind, k.tag ≠ tag) ∧ t = .unsupported tag := by
  rw [load] at h
  split at h
  · rename_i tag htag
    split at h
    · rename_i k hk
      rw [← Kind.ofTag?_eq_some_iff.1 hk] at htag
      exact .inl ⟨k, htag, h⟩
    · rename_i hk
      cases h
      refine .inr ⟨tag, htag, fun k hkt => ?_, rfl⟩
      rw [Kind.ofTag?_eq_some_iff.2 hkt] at hk
      cases hk
  · cases h

/-! ### What is loaded is denoted -/

theorem decodesSlots_of_loadSlots {ws : List Value} {index : Nat} {slots : Slots}
    (ih : ∀ w ∈ ws, ∀ n, load w = .ok n → Decodes w n) (h : loadSlots index ws = .ok slots) :
    DecodesSlots ws slots := by
  induction ws generalizing index slots with
  | nil =>
    rw [loadSlots] at h
    cases h
    exact .nil
  | cons w ws ihws =>
    rw [loadSlots] at h
    have ihrest := fun x hx => ih x (List.mem_cons_of_mem w hx)
    split at h
    · rename_i hw
      simp only [bind_eq_ok_iff, pure_eq_ok_iff] at h
      obtain ⟨_, hslot, rest, hrest, rfl⟩ := h
      cases hslot
      exact .empty ((Value.isBlank_iff w).1 hw) (ihws ihrest hrest)
    · rename_i hw
      simp only [bind_eq_ok_iff, pure_eq_ok_iff, map_eq_ok_iff, within_eq_ok_iff] at h
      obtain ⟨_, ⟨n, hn, rfl⟩, rest, hrest, rfl⟩ := h
      exact .node (fun hf => hw ((Value.isBlank_iff w).2 hf)) (ih w List.mem_cons_self n hn)
        (ihws ihrest hrest)

theorem decodesAll_of_loadArguments {ws : List Value} {index : Nat} {ns : List Node}
    (ih : ∀ w ∈ ws, ∀ n, load w = .ok n → Decodes w n) (h : loadArguments index ws = .ok ns) :
    DecodesAll ws ns := by
  induction ws generalizing index ns with
  | nil =>
    rw [loadArguments] at h
    cases h
    exact .nil
  | cons w ws ihws =>
    rw [loadArguments] at h
    simp only [bind_eq_ok_iff, pure_eq_ok_iff, within_eq_ok_iff] at h
    obtain ⟨n, hn, rest, hrest, rfl⟩ := h
    exact .cons (ih w List.mem_cons_self n hn)
      (ihws (fun x hx => ih x (List.mem_cons_of_mem _ hx)) hrest)

/-- One level of a node of a kind, given the values below it. -/
theorem decodes_of_loadAs {v : Value} {k : Kind} {t : Node} (hk : Tagged v k.tag)
    (ih : ∀ w, sizeOf w < sizeOf v → ∀ n, load w = .ok n → Decodes w n)
    (h : loadAs k v = .ok t) : Decodes v t := by
  have ihs : ∀ ws : List Value, sizeOf ws < sizeOf v →
      ∀ w ∈ ws, ∀ n, load w = .ok n → Decodes w n :=
    fun ws hws w hw => ih w (Nat.lt_trans (List.sizeOf_lt_of_mem hw) hws)
  rw [loadAs.eq_def] at h
  cases k with
  | program =>
    simp only [bind_eq_ok_iff, pure_eq_ok_iff, items_eq_ok_iff] at h
    obtain ⟨⟨ws, hlt⟩, hws, slots, hslots, rfl⟩ := h
    exact .program hk hws (decodesSlots_of_loadSlots (ihs ws hlt) hslots)
  | importDeclaration =>
    simp only [bind_eq_ok_iff, pure_eq_ok_iff, readAttribute_eq_ok_iff] at h
    obtain ⟨⟨std, s⟩, ⟨w, hw, hs⟩, rfl⟩ := h
    exact .importDecl hk hw (Attribute.importSource_eq_ok_iff.1 hs)
  | functionDeclaration =>
    simp only [bind_eq_ok_iff, readAttribute_eq_ok_iff, Attribute.name_eq_ok_iff,
      Attribute.params_eq_ok_iff, field_eq_ok_iff, within_eq_ok_iff] at h
    obtain ⟨name, ⟨i, hi, hname⟩, returnType, ⟨r, hr, hreturn⟩, params,
      ⟨_, hp, items, rfl, hparams⟩, ⟨b, hlt⟩, hb, body, hbody, h⟩ := h
    split at h
    · cases h
      exact .functionDecl hk hi hname hr hreturn hp hparams hb (ih b hlt _ hbody)
    · cases h
  | blockStatement =>
    simp only [bind_eq_ok_iff, pure_eq_ok_iff, items_eq_ok_iff] at h
    obtain ⟨⟨ws, hlt⟩, hws, slots, hslots, rfl⟩ := h
    exact .block hk hws (decodesSlots_of_loadSlots (ihs ws hlt) hslots)
  | returnStatement =>
    simp only [bind_eq_ok_iff, pure_eq_ok_iff, field_eq_ok_iff, within_eq_ok_iff] at h
    obtain ⟨⟨w, hlt⟩, hw, n, hn, rfl⟩ := h
    exact .returnStmt hk hw (ih w hlt n hn)
  | expressionStatement =>
    simp only [bind_eq_ok_iff, pure_eq_ok_iff, field_eq_ok_iff, within_eq_ok_iff] at h
    obtain ⟨⟨w, hlt⟩, hw, n, hn, rfl⟩ := h
    exact .exprStmt hk hw (ih w hlt n hn)
  | variableDeclaration =>
    simp only [bind_eq_ok_iff, pure_eq_ok_iff, readAttribute_eq_ok_iff, Attribute.flag_eq_ok_iff,
      Attribute.name_eq_ok_iff, field_eq_ok_iff, within_eq_ok_iff] at h
    obtain ⟨mutable, ⟨_, hm, rfl⟩, name, ⟨i, hi, hname⟩, typing, ⟨y, hy, htyping⟩, ⟨w, hlt⟩, hw,
      n, hn, rfl⟩ := h
    exact .variableDecl hk hm hi hname hy htyping hw (ih w hlt n hn)
  | callExpression =>
    simp only [bind_eq_ok_iff, pure_eq_ok_iff, readAttribute_eq_ok_iff, Attribute.name_eq_ok_iff,
      items_eq_ok_iff] at h
    obtain ⟨callee, ⟨c, hc, hcallee⟩, ⟨ws, hlt⟩, hws, ns, hns, rfl⟩ := h
    exact .call hk hc hcallee hws (decodesAll_of_loadArguments (ihs ws hlt) hns)
  | binaryExpression =>
    simp only [bind_eq_ok_iff, pure_eq_ok_iff, readAttribute_eq_ok_iff, Attribute.text_eq_ok_iff,
      field_eq_ok_iff, within_eq_ok_iff] at h
    obtain ⟨op, ⟨_, hop, rfl⟩, ⟨l, hl⟩, hleft, left, hloadl, ⟨r, hr⟩, hright, right, hloadr,
      rfl⟩ := h
    exact .binary hk hop hleft (ih l hl left hloadl) hright (ih r hr right hloadr)
  | literal =>
    simp only [bind_eq_ok_iff, pure_eq_ok_iff, literalText_eq_ok_iff] at h
    obtain ⟨s, ⟨w, hw, hs⟩, rfl⟩ := h
    exact .literal hk hw hs
  | identifier =>
    simp only [bind_eq_ok_iff, pure_eq_ok_iff, readAttribute_eq_ok_iff,
      Attribute.text_eq_ok_iff] at h
    obtain ⟨s, ⟨_, hw, rfl⟩, rfl⟩ := h
    exact .identifier hk hw

theorem decodes_of_load {v : Value} {t : Node} (h : load v = .ok t) : Decodes v t := by
  -- the size of the value decreases from a node to the values that its members hold
  induction hsize : sizeOf v using Nat.strong_induction_on generalizing v t with
  | _ size ih =>
    rcases tagged_of_load h with ⟨k, hk, h⟩ | ⟨tag, htag, hk, rfl⟩
    · exact decodes_of_loadAs hk (fun w hw n hn => ih (sizeOf w) (hsize ▸ hw) hn rfl) h
    · exact .unsupported htag hk

/-! ### What is denoted is loaded -/

theorem sizeOf_items_lt {v : Value} {key : String} {ws : List Value}
    (h : v.get? key = some (.array ws)) : sizeOf ws < sizeOf v := by
  have hlt := Value.sizeOf_get?_lt h
  rw [Value.array.sizeOf_spec] at hlt
  omega

mutual

theorem load_of_decodes {v : Value} {t : Node} (h : Decodes v t) : load v = .ok t := by
  cases h with
  | unsupported htag hk => exact load_of_unknown htag hk
  | program hk hws hslots =>
    rw [load_of_tagged (k := .program) hk, loadAs]
    simp only [bind_eq_ok_iff, pure_eq_ok_iff, items_eq_ok_iff]
    exact ⟨⟨_, sizeOf_items_lt hws⟩, hws, _, loadSlots_of_decodesSlots 0 hslots, rfl⟩
  | importDecl hk hw hs =>
    rw [load_of_tagged (k := .importDeclaration) hk, loadAs]
    simp only [bind_eq_ok_iff, pure_eq_ok_iff, readAttribute_eq_ok_iff]
    exact ⟨_, ⟨_, hw, Attribute.importSource_eq_ok_iff.2 hs⟩, rfl⟩
  | functionDecl hk hi hname hr hreturn hp hparams hb hbody =>
    rw [load_of_tagged (k := .functionDeclaration) hk, loadAs]
    simp only [bind_eq_ok_iff, readAttribute_eq_ok_iff, Attribute.name_eq_ok_iff,
      Attribute.params_eq_ok_iff, field_eq_ok_iff, within_eq_ok_iff]
    exact ⟨_, ⟨_, hi, hname⟩, _, ⟨_, hr, hreturn⟩, _, ⟨_, hp, _, rfl, hparams⟩,
      ⟨_, Value.sizeOf_get?_lt hb⟩, hb, _, load_of_decodes hbody, rfl⟩
  | block hk hws hslots =>
    rw [load_of_tagged (k := .blockStatement) hk, loadAs]
    simp only [bind_eq_ok_iff, pure_eq_ok_iff, items_eq_ok_iff]
    exact ⟨⟨_, sizeOf_items_lt hws⟩, hws, _, loadSlots_of_decodesSlots 0 hslots, rfl⟩
  | returnStmt hk hw hn =>
    rw [load_of_tagged (k := .returnStatement) hk, loadAs]
    simp only [bind_eq_ok_iff, pure_eq_ok_iff, field_eq_ok_iff, within_eq_ok_iff]
    exact ⟨⟨_, Value.sizeOf_get?_lt hw⟩, hw, _, load_of_decodes hn, rfl⟩
  | exprStmt hk hw hn =>
    rw [load_of_tagged (k := .expressionStatement) hk, loadAs]
    simp only [bind_eq_ok_iff, pure_eq_ok_iff, field_eq_ok_iff, within_eq_ok_iff]
    exact ⟨⟨_, Value.sizeOf_get?_lt hw⟩, hw, _, load_of_decodes hn, rfl⟩
  | variableDecl hk hm hi hname hy htyping hw hn =>
    rw [load_of_tagged (k := .variableDeclaration) hk, loadAs]
    simp only [bind_eq_ok_iff, pure_eq_ok_iff, readAttribute_eq_ok_iff, Attribute.flag_eq_ok_iff,
      Attribute.name_eq_ok_iff, field_eq_ok_iff, within_eq_ok_iff]
    exact ⟨_, ⟨_, hm, rfl⟩, _, ⟨_, hi, hname⟩, _, ⟨_, hy, htyping⟩, ⟨_, Value.sizeOf_get?_lt hw⟩,
      hw, _, load_of_decodes hn, rfl⟩
  | call hk hc hcallee hws hns =>
    rw [load_of_tagged (k := .callExpression) hk, loadAs]
    simp only [bind_eq_ok_iff, pure_eq_ok_iff, readAttribute_eq_ok_iff, Attribute.name_eq_ok_iff,
      items_eq_ok_iff]
    exact ⟨_, ⟨_, hc, hcallee⟩, ⟨_, sizeOf_items_lt hws⟩, hws, _,
      loadArguments_of_decodesAll 0 hns, rfl⟩
  | binary hk hop hl hleft hr hright =>
    rw [load_of_tagged (k := .binaryExpression) hk, loadAs]
    simp only [bind_eq_ok_iff, pure_eq_ok_iff, readAttribute_eq_ok_iff, Attribute.text_eq_ok_iff,
      field_eq_ok_iff, within_eq_ok_iff]
    exact ⟨_, ⟨_, hop, rfl⟩, ⟨_, Value.sizeOf_get?_lt hl⟩, hl, _, load_of_decodes hleft,
      ⟨_, Value.sizeOf_get?_lt hr⟩, hr, _, load_of_decodes hright, rfl⟩
  | literal hk hw hs =>
    rw [load_of_tagged (k := .literal) hk, loadAs]
    simp only [bind_eq_ok_iff, pure_eq_ok_iff, literalText_eq_ok_iff]
    exact ⟨_, ⟨_, hw, hs⟩, rfl⟩
  | identifier hk hw =>
    rw [load_of_tagged (k := .identifier) hk, loadAs]
    simp only [bind_eq_ok_iff, pure_eq_ok_iff, readAttribute_eq_ok_iff, Attribute.text_eq_ok_iff]
    exact ⟨_, ⟨_, hw, rfl⟩, rfl⟩
termination_by sizeOf v
-- what a member holds is smaller than the object
decreasing_by
  all_goals
    first
    | exact sizeOf_items_lt (by assumption)
    | exact Value.sizeOf_get?_lt (by assumption)

theorem loadSlots_of_decodesSlots {ws : List Value} {slots : Slots} (index : Nat)
    (h : DecodesSlots ws slots) : loadSlots index ws = .ok slots := by
  cases h with
  | nil => rw [loadSlots]
  | empty hw hws =>
    rw [loadSlots, if_pos ((Value.isBlank_iff _).2 hw)]
    simp only [bind_eq_ok_iff, pure_eq_ok_iff]
    exact ⟨_, rfl, _, loadSlots_of_decodesSlots (index + 1) hws, rfl⟩
  | node hw hn hws =>
    rw [loadSlots, if_neg (fun hblank => hw ((Value.isBlank_iff _).1 hblank))]
    simp only [bind_eq_ok_iff, pure_eq_ok_iff, map_eq_ok_iff, within_eq_ok_iff]
    exact ⟨_, ⟨_, load_of_decodes hn, rfl⟩, _, loadSlots_of_decodesSlots (index + 1) hws, rfl⟩
termination_by sizeOf ws

theorem loadArguments_of_decodesAll {ws : List Value} {ns : List Node} (index : Nat)
    (h : DecodesAll ws ns) : loadArguments index ws = .ok ns := by
  cases h with
  | nil => rw [loadArguments]
  | cons hn hws =>
    rw [loadArguments]
    simp only [bind_eq_ok_iff, pure_eq_ok_iff, within_eq_ok_iff]
    exact ⟨_, load_of_decodes hn, _, loadArguments_of_decodesAll (index + 1) hws, rfl⟩
termination_by sizeOf ws

end

/-! ## Top theorem -/

/-- The loader accepts exactly the values that denote a tree, and yields that tree. -/
theorem load_eq_ok_iff_decodes (v : Value) (t : Node) : load v = .ok t ↔ Decodes v t :=
  ⟨decodes_of_load, load_of_decodes⟩

end SyntaxToC.Tree
