import SyntaxToC.Proofs.Decoding

/-!
# Loading a node from its parts

What the loader does with a node whose attributes are in order: it loads the nodes below and puts
them together.  The results and the faults of these nodes are those of the whole, seen from one
level up; only a function looks at its body once more (`functionOf`).

    load v = (within [.member "argument"] (load w)).map .returnStmt        (load_returnStmt)
    load v = (loadSlots 0 ws).map .program                                 (load_program)
-/

namespace SyntaxToC.Tree

open SyntaxToC.Json SyntaxToC.Outcome

/-! ## Tags -/

/-- What was loaded carries the tag of the value it was loaded from. -/
theorem tagged_of_decodes {v : Value} {t : Node} (h : Decodes v t) : Tagged v t.tag := by
  cases h <;> assumption

theorem kind?_of_decodes {v : Value} {t : Node} {k : Kind} (h : Decodes v t)
    (htag : Tagged v k.tag) : t.kind? = some k := by
  have heq : some (Value.string t.tag) = some (Value.string k.tag) :=
    (tagged_of_decodes h).symm.trans htag
  have htags : t.tag = k.tag := by simpa using heq
  cases h with
  | unsupported _ hk => exact absurd htags.symm (hk k)
  | _ => exact congrArg some (Kind.tag_injective htags)

theorem not_falsy_of_get? {v x : Value} {key : String} (h : v.get? key = some x) : ¬ Falsy v := by
  rintro (_ | _ | _ | _) <;> cases h

/-! ## Members -/

section

variable {kind : Kind} {v : Value} {key : String}

theorem field_of_get? {w : Value} (h : v.get? key = some w) :
    field kind v key = .ok ⟨w, Value.sizeOf_get?_lt h⟩ :=
  field_eq_ok_iff.2 h

theorem field_of_missing (h : v.get? key = none) :
    field kind v key = malformed kind (.missing key) := by
  unfold field
  split
  · rename_i h'
    cases h.symm.trans h'
  · rfl

theorem items_of_get? {ws : List Value} (h : v.get? key = some (.array ws)) :
    items kind v key = .ok ⟨ws, sizeOf_items_lt h⟩ :=
  items_eq_ok_iff.2 h

theorem items_of_missing (h : v.get? key = none) :
    items kind v key = malformed kind (.missing key) := by
  unfold items
  split
  · rename_i h'
    cases h.symm.trans h'
  · rename_i h'
    cases h.symm.trans h'
  · rfl

theorem items_of_not_array {w : Value} (h : v.get? key = some w) (hw : ∀ ws, w ≠ .array ws) :
    items kind v key = malformed kind (.notArray key) := by
  unfold items
  split
  · rename_i h'
    cases h.symm.trans h'
    exact absurd rfl (hw _)
  · rfl
  · rename_i h'
    cases h.symm.trans h'

end

/-! ## Slots -/

/-- One slot of a body, at `index`. -/
def loadSlot (index : Nat) (w : Value) : Except NodeError (Option Node) :=
  if w.isBlank then .ok none else (within [.member "body", .item index] (load w)).map some

theorem loadSlot_of_not_falsy {w : Value} (hw : ¬ Falsy w) (index : Nat) :
    loadSlot index w = (within [.member "body", .item index] (load w)).map some :=
  if_neg fun hblank => hw ((Value.isBlank_iff w).1 hblank)

theorem loadSlots_cons (index : Nat) (w : Value) (ws : List Value) :
    loadSlots index (w :: ws) = do
      return (← loadSlot index w) :: (← loadSlots (index + 1) ws) := by
  rw [loadSlots, loadSlot]
  split <;> rfl

/-! ## Nodes -/

/-- A function with a node for its body, which has to be a block. -/
def functionOf (name returnType : String) (params : List Param) :
    Node → Except NodeError Node
  | .block slots => .ok (.functionDecl name returnType params slots)
  | other => malformed .functionDeclaration (.bodyNotBlock other.tag)

section

variable {v w : Value}

theorem load_program {ws : List Value} (htag : Tagged v "Program")
    (hws : v.get? "body" = some (.array ws)) : load v = (loadSlots 0 ws).map .program := by
  rw [load_of_tagged (k := .program) htag, loadAs, items_of_get? hws]
  exact bind_pure_eq_map (loadSlots 0 ws) Node.program

theorem load_block {ws : List Value} (htag : Tagged v "BlockStatement")
    (hws : v.get? "body" = some (.array ws)) : load v = (loadSlots 0 ws).map .block := by
  rw [load_of_tagged (k := .blockStatement) htag, loadAs, items_of_get? hws]
  exact bind_pure_eq_map (loadSlots 0 ws) Node.block

theorem load_functionDecl {i r : Value} {name returnType : String} {ps : List Value}
    {params : List Param} (htag : Tagged v "FunctionDeclaration") (hi : v.get? "id" = some i)
    (hname : IsName i name) (hr : v.get? "returnType" = some r) (hreturn : IsName r returnType)
    (hp : v.get? "params" = some (.array ps)) (hparams : List.Forall₂ IsParam ps params)
    (hw : v.get? "body" = some w) :
    load v = within [.member "body"] (load w) >>= functionOf name returnType params := by
  rw [load_of_tagged (k := .functionDeclaration) htag, loadAs,
    readAttribute_eq_ok_iff.2 ⟨_, hi, Attribute.name_eq_ok_iff.2 hname⟩,
    readAttribute_eq_ok_iff.2 ⟨_, hr, Attribute.name_eq_ok_iff.2 hreturn⟩,
    readAttribute_eq_ok_iff.2 ⟨_, hp, Attribute.params_eq_ok_iff.2 ⟨_, rfl, hparams⟩⟩,
    field_of_get? hw]
  rfl

theorem load_returnStmt (htag : Tagged v "ReturnStatement") (hw : v.get? "argument" = some w) :
    load v = (within [.member "argument"] (load w)).map .returnStmt := by
  rw [load_of_tagged (k := .returnStatement) htag, loadAs, field_of_get? hw]
  exact bind_pure_eq_map (within [.member "argument"] (load w)) Node.returnStmt

theorem load_exprStmt (htag : Tagged v "ExpressionStatement")
    (hw : v.get? "expression" = some w) :
    load v = (within [.member "expression"] (load w)).map .exprStmt := by
  rw [load_of_tagged (k := .expressionStatement) htag, loadAs, field_of_get? hw]
  exact bind_pure_eq_map (within [.member "expression"] (load w)) Node.exprStmt

theorem load_variableDecl {i y : Value} {mutable : Bool} {name typing : String}
    (htag : Tagged v "VariableDeclaration") (hm : v.get? "mutable" = some (.bool mutable))
    (hi : v.get? "id" = some i) (hname : IsName i name) (hy : v.get? "typing" = some y)
    (htyping : IsName y typing) (hw : v.get? "value" = some w) :
    load v = (within [.member "value"] (load w)).map (.variableDecl mutable name typing) := by
  rw [load_of_tagged (k := .variableDeclaration) htag, loadAs,
    readAttribute_eq_ok_iff.2 ⟨_, hm, Attribute.flag_eq_ok_iff.2 rfl⟩,
    readAttribute_eq_ok_iff.2 ⟨_, hi, Attribute.name_eq_ok_iff.2 hname⟩,
    readAttribute_eq_ok_iff.2 ⟨_, hy, Attribute.name_eq_ok_iff.2 htyping⟩, field_of_get? hw]
  exact bind_pure_eq_map (within [.member "value"] (load w)) (Node.variableDecl mutable name typing)

theorem load_call {c : Value} {callee : String} {ws : List Value}
    (htag : Tagged v "CallExpression") (hc : v.get? "callee" = some c) (hcallee : IsName c callee)
    (hws : v.get? "arguments" = some (.array ws)) :
    load v = (loadArguments 0 ws).map (.call callee) := by
  rw [load_of_tagged (k := .callExpression) htag, loadAs,
    readAttribute_eq_ok_iff.2 ⟨_, hc, Attribute.name_eq_ok_iff.2 hcallee⟩, items_of_get? hws]
  exact bind_pure_eq_map (loadArguments 0 ws) (Node.call callee)

theorem load_binary {l r : Value} {op : String} (htag : Tagged v "BinaryExpression")
    (hop : v.get? "op" = some (.string op)) (hl : v.get? "left" = some l)
    (hr : v.get? "right" = some r) :
    load v = within [.member "left"] (load l) >>= fun left =>
      within [.member "right"] (load r) >>= fun right => pure (.binary left op right) := by
  rw [load_of_tagged (k := .binaryExpression) htag, loadAs,
    readAttribute_eq_ok_iff.2 ⟨_, hop, Attribute.text_eq_ok_iff.2 rfl⟩, field_of_get? hl,
    field_of_get? hr]
  rfl

end

end SyntaxToC.Tree
