import SyntaxToC.Proofs.Decoding
import SyntaxToC.Proofs.Unsupported

/-!
# The JSON form of a tree

`Node.wire` writes a tree as the JSON value that denotes it: null for an empty slot, texts for
literals, and nothing but the tag for an unsupported node.  A tree comes back from its JSON form
unless an unsupported node in it pretends to be of a kind (`Node.Loadable`), and no JSON value
denotes a tree of that sort.

    t.Loadable → load t.wire = .ok t
    (∃ v, load v = .ok t) ↔ t.Loadable
-/

namespace SyntaxToC.Tree

open SyntaxToC.Json

/-! ## Writing -/

/-- A node as an object: its tag and its attributes. -/
def wireNode (tag : String) (attributes : Members) : Value :=
  .object (("type", .string tag) :: attributes)

def wireName (s : String) : Value := .object [("name", .string s)]

def wireParam (p : Param) : Value :=
  .object [("name", wireName p.name), ("typing", wireName p.typing)]

namespace Node

mutual

/-- The JSON form of a tree. -/
def wire : Node → Value
  | .program body => wireNode "Program" [("body", .array (wireSlots body))]
  | .importDecl std value =>
    wireNode "ImportDeclaration"
      [("source", .object [("std", .bool std), ("value", .string value)])]
  | .functionDecl name returnType params body =>
    wireNode "FunctionDeclaration"
      [("id", wireName name), ("returnType", wireName returnType),
        ("params", .array (params.map wireParam)),
        ("body", wireNode "BlockStatement" [("body", .array (wireSlots body))])]
  | .block body => wireNode "BlockStatement" [("body", .array (wireSlots body))]
  | .returnStmt argument => wireNode "ReturnStatement" [("argument", argument.wire)]
  | .exprStmt expression => wireNode "ExpressionStatement" [("expression", expression.wire)]
  | .variableDecl mutable name typing value =>
    wireNode "VariableDeclaration"
      [("mutable", .bool mutable), ("id", wireName name), ("typing", wireName typing),
        ("value", value.wire)]
  | .call callee arguments =>
    wireNode "CallExpression"
      [("callee", wireName callee), ("arguments", .array (wireList arguments))]
  | .binary left op right =>
    wireNode "BinaryExpression" [("left", left.wire), ("right", right.wire), ("op", .string op)]
  | .literal text => wireNode "Literal" [("value", .string text)]
  | .identifier name => wireNode "Identifier" [("name", .string name)]
  | .unsupported tag => wireNode tag []

def wireSlots : Slots → List Value
  | [] => []
  | none :: slots => .null :: wireSlots slots
  | some n :: slots => n.wire :: wireSlots slots

def wireList : List Node → List Value
  | [] => []
  | n :: nodes => n.wire :: wireList nodes

end

end Node

/-! ## Trees that can be loaded -/

/-- None of the tags is the tag of a kind. -/
def Foreign (tags : List String) : Prop := ∀ k : Kind, k.tag ∉ tags

/-- No unsupported node in the tree carries the tag of a kind. -/
def Node.Loadable (t : Node) : Prop := Foreign t.unsupportedTags

theorem foreign_nil : Foreign [] := fun _ h => by cases h

theorem foreign_append {a b : List String} : Foreign (a ++ b) ↔ Foreign a ∧ Foreign b := by
  unfold Foreign
  simp only [List.mem_append, not_or]
  exact forall_and

theorem foreign_singleton {tag : String} : Foreign [tag] ↔ ∀ k : Kind, k.tag ≠ tag := by
  simp [Foreign]

/-! ## Lemmas -/

theorem isName_wireName (s : String) : IsName (wireName s) s := .object rfl

theorem isParam_wireParam (p : Param) : IsParam (wireParam p) p :=
  .object rfl (isName_wireName p.name) rfl (isName_wireName p.typing)

theorem forall₂_wireParam (ps : List Param) : List.Forall₂ IsParam (ps.map wireParam) ps := by
  induction ps with
  | nil => exact .nil
  | cons p ps ih => exact .cons (isParam_wireParam p) ih

/-- The JSON form of a tree is an object, so it never leaves a slot empty. -/
theorem not_falsy_wire (t : Node) : ¬ Falsy t.wire := by
  cases t <;> (intro h; cases h)

/-! ### From a tree and back -/

theorem decodesSlots_wireSlots {slots : Slots}
    (ih : ∀ n, some n ∈ slots → n.Loadable → Decodes n.wire n)
    (h : Foreign (Node.slotsUnsupportedTags slots)) :
    DecodesSlots (Node.wireSlots slots) slots := by
  induction slots with
  | nil => exact .nil
  | cons slot slots ihs =>
    have ihrest := ihs fun n hn => ih n (List.mem_cons_of_mem slot hn)
    cases slot with
    | none => exact .empty .null (ihrest h)
    | some n =>
      obtain ⟨hn, hrest⟩ := foreign_append.1 h
      exact .node (not_falsy_wire n) (ih n List.mem_cons_self hn) (ihrest hrest)

theorem decodesAll_wireList {nodes : List Node}
    (ih : ∀ n ∈ nodes, n.Loadable → Decodes n.wire n)
    (h : Foreign (Node.listUnsupportedTags nodes)) : DecodesAll (Node.wireList nodes) nodes := by
  induction nodes with
  | nil => exact .nil
  | cons n nodes ihs =>
    obtain ⟨hn, hrest⟩ := foreign_append.1 h
    exact .cons (ih n List.mem_cons_self hn)
      (ihs (fun m hm => ih m (List.mem_cons_of_mem n hm)) hrest)

theorem decodes_wire {t : Node} (h : t.Loadable) : Decodes t.wire t := by
  induction t with
  | program body ih => exact .program rfl rfl (decodesSlots_wireSlots ih h)
  | importDecl std value => exact .importDecl rfl rfl (.object rfl rfl)
  | functionDecl name returnType params body ih =>
    exact .functionDecl rfl rfl (isName_wireName name) rfl (isName_wireName returnType) rfl
      (forall₂_wireParam params) rfl (.block rfl rfl (decodesSlots_wireSlots ih h))
  | block body ih => exact .block rfl rfl (decodesSlots_wireSlots ih h)
  | returnStmt argument ih => exact .returnStmt rfl rfl (ih h)
  | exprStmt expression ih => exact .exprStmt rfl rfl (ih h)
  | variableDecl mutable name typing value ih =>
    exact .variableDecl rfl rfl rfl (isName_wireName name) rfl (isName_wireName typing) rfl (ih h)
  | call callee arguments ih =>
    exact .call rfl rfl (isName_wireName callee) rfl (decodesAll_wireList ih h)
  | binary left op right ihl ihr =>
    obtain ⟨hl, hr⟩ := foreign_append.1 h
    exact .binary rfl rfl rfl (ihl hl) rfl (ihr hr)
  | literal text => exact .literal rfl rfl .string
  | identifier name => exact .identifier rfl rfl
  | unsupported tag => exact .unsupported rfl (foreign_singleton.1 h)

/-! ### What a JSON value can denote -/

theorem foreign_of_decodesSlots {ws : List Value} {slots : Slots}
    (ih : ∀ n, some n ∈ slots → ∀ {v}, Decodes v n → n.Loadable) (h : DecodesSlots ws slots) :
    Foreign (Node.slotsUnsupportedTags slots) := by
  induction slots generalizing ws with
  | nil => exact foreign_nil
  | cons slot slots ihs =>
    have ihslots : ∀ n, some n ∈ slots → ∀ {v}, Decodes v n → n.Loadable :=
      fun n hn => ih n (List.mem_cons_of_mem slot hn)
    cases h with
    | empty _ hws => exact ihs ihslots hws
    | node _ hn hws =>
      exact foreign_append.2 ⟨ih _ List.mem_cons_self hn, ihs ihslots hws⟩

theorem foreign_of_decodesAll {ws : List Value} {nodes : List Node}
    (ih : ∀ n ∈ nodes, ∀ {v}, Decodes v n → n.Loadable) (h : DecodesAll ws nodes) :
    Foreign (Node.listUnsupportedTags nodes) := by
  induction nodes generalizing ws with
  | nil => exact foreign_nil
  | cons n nodes ihs =>
    cases h with
    | cons hn hws =>
      exact foreign_append.2 ⟨ih n List.mem_cons_self hn,
        ihs (fun m hm => ih m (List.mem_cons_of_mem n hm)) hws⟩

theorem loadable_of_decodes {v : Value} {t : Node} (h : Decodes v t) : t.Loadable := by
  induction t generalizing v with
  | program body ih =>
    cases h with
    | program _ _ hslots => exact foreign_of_decodesSlots ih hslots
  | importDecl std value => exact foreign_nil
  | functionDecl name returnType params body ih =>
    cases h with
    | functionDecl _ _ _ _ _ _ _ _ hbody =>
      -- the body is a block of its own in JSON, but only its slots are part of the tree
      cases hbody with
      | block _ _ hslots => exact foreign_of_decodesSlots ih hslots
  | block body ih =>
    cases h with
    | block _ _ hslots => exact foreign_of_decodesSlots ih hslots
  | returnStmt argument ih =>
    cases h with
    | returnStmt _ _ hn => exact ih hn
  | exprStmt expression ih =>
    cases h with
    | exprStmt _ _ hn => exact ih hn
  | variableDecl mutable name typing value ih =>
    cases h with
    | variableDecl _ _ _ _ _ _ _ hn => exact ih hn
  | call callee arguments ih =>
    cases h with
    | call _ _ _ _ hns => exact foreign_of_decodesAll ih hns
  | binary left op right ihl ihr =>
    cases h with
    | binary _ _ _ hl _ hr => exact foreign_append.2 ⟨ihl hl, ihr hr⟩
  | literal text => exact foreign_nil
  | identifier name => exact foreign_nil
  | unsupported tag =>
    cases h with
    | unsupported _ hk => exact foreign_singleton.2 hk

/-! ## Top theorem -/

theorem load_wire_of_loadable {t : Node} (h : t.Loadable) : load t.wire = .ok t :=
  load_of_decodes (decodes_wire h)

/-- The loader takes the JSON form of a tree back to the tree, its results are exactly the trees
without a disguised unsupported node, and on these the JSON form tells trees apart. -/
theorem wire_round_trip :
    (∀ t : Node, t.Loadable → load t.wire = .ok t) ∧
      (∀ (v : Value) (t : Node), load v = .ok t → t.Loadable ∧ load t.wire = .ok t) ∧
      (∀ t : Node, (∃ v, load v = .ok t) ↔ t.Loadable) ∧
      ∀ t t' : Node, t.Loadable → t'.Loadable → t.wire = t'.wire → t = t' := by
  refine ⟨fun t => load_wire_of_loadable, fun v t h => ?_, fun t => ⟨?_, fun h => ?_⟩, ?_⟩
  · have ht := loadable_of_decodes (decodes_of_load h)
    exact ⟨ht, load_wire_of_loadable ht⟩
  · rintro ⟨v, h⟩
    exact loadable_of_decodes (decodes_of_load h)
  · exact ⟨t.wire, load_wire_of_loadable h⟩
  · intro t t' ht ht' h
    have hload : (Except.ok t : Except NodeError Node) = .ok t' := by
      rw [← load_wire_of_loadable ht, ← load_wire_of_loadable ht', h]
    exact Except.ok.inj hload

/-- An unsupported node among the slots of a function comes back with the rest. -/
theorem wire_round_trip_function :
    let t : Node := .functionDecl "f" "ptr*int" [⟨"n", "int"⟩]
      [none, some (.unsupported "WhileStatement"), some (.returnStmt (.call "g" [.literal "1"]))]
    t.Loadable ∧ load t.wire = .ok t := by
  intro t
  have ht : t.Loadable := by
    intro k
    cases k <;> decide
  exact ⟨ht, wire_round_trip.1 t ht⟩

end SyntaxToC.Tree
