/-!
# Syntax trees

Eleven kinds of node make up a program.  A node of any other kind is kept as `unsupported`, with
nothing but its tag.  The body of a program, a function or a block is a list of slots, and a slot
may be empty.

    Kind.ofTag? tag = some k ↔ k.tag = tag
    Node.same a b = true     ↔ a = b
-/

namespace SyntaxToC.Tree

/-! ## Kinds -/

inductive Kind where
  | program
  | importDeclaration
  | functionDeclaration
  | blockStatement
  | returnStatement
  | expressionStatement
  | variableDeclaration
  | callExpression
  | binaryExpression
  | literal
  | identifier
deriving DecidableEq, Repr

namespace Kind

/-- Every kind, in the order of the type. -/
def all : List Kind :=
  [.program, .importDeclaration, .functionDeclaration, .blockStatement, .returnStatement,
    .expressionStatement, .variableDeclaration, .callExpression, .binaryExpression, .literal,
    .identifier]

def tag : Kind → String
  | .program => "Program"
  | .importDeclaration => "ImportDeclaration"
  | .functionDeclaration => "FunctionDeclaration"
  | .blockStatement => "BlockStatement"
  | .returnStatement => "ReturnStatement"
  | .expressionStatement => "ExpressionStatement"
  | .variableDeclaration => "VariableDeclaration"
  | .callExpression => "CallExpression"
  | .binaryExpression => "BinaryExpression"
  | .literal => "Literal"
  | .identifier => "Identifier"

def ofTag? (tag : String) : Option Kind := all.find? (·.tag == tag)

/-- The place of a kind in `all`. -/
def index (k : Kind) : Nat := all.idxOf k

theorem ofTag?_eq_some_iff {tag : String} {k : Kind} : ofTag? tag = some k ↔ k.tag = tag := by
  constructor
  · intro h
    simpa using List.find?_some h
  · rintro rfl
    cases k <;> decide

theorem tag_injective {k l : Kind} (h : k.tag = l.tag) : k = l :=
  Option.some.inj ((ofTag?_eq_some_iff.2 h).symm.trans (ofTag?_eq_some_iff.2 rfl))

end Kind

/-! ## Nodes -/

/-- A parameter of a function; the type is as written in the source. -/
structure Param where
  name : String
  typing : String
deriving DecidableEq, Repr

inductive Node where
  | program (body : List (Option Node))
  | importDecl (std : Bool) (value : String)
  | functionDecl (name returnType : String) (params : List Param) (body : List (Option Node))
  | block (body : List (Option Node))
  | returnStmt (argument : Node)
  | exprStmt (expression : Node)
  | variableDecl (mutable : Bool) (name typing : String) (value : Node)
  | call (callee : String) (arguments : List Node)
  | binary (left : Node) (op : String) (right : Node)
  | literal (text : String)
  | identifier (name : String)
  | unsupported (tag : String)
deriving Inhabited, Repr

abbrev Slots := List (Option Node)

namespace Node

def kind? : Node → Option Kind
  | .program _ => some .program
  | .importDecl _ _ => some .importDeclaration
  | .functionDecl _ _ _ _ => some .functionDeclaration
  | .block _ => some .blockStatement
  | .returnStmt _ => some .returnStatement
  | .exprStmt _ => some .expressionStatement
  | .variableDecl _ _ _ _ => some .variableDeclaration
  | .call _ _ => some .callExpression
  | .binary _ _ _ => some .binaryExpression
  | .literal _ => some .literal
  | .identifier _ => some .identifier
  | .unsupported _ => none

/-- The tag that the node carries, of a kind or not. -/
def tag : Node → String
  | .unsupported tag => tag
  | n => (n.kind?.map Kind.tag).getD ""

/-! ## Equality -/

mutual

/-- Whether two trees are equal, empty slots included. -/
def same : Node → Node → Bool
  | .program a, .program b => sameSlots a b
  | .importDecl s v, .importDecl s' v' => s == s' && v == v'
  | .functionDecl n r p a, .functionDecl n' r' p' b =>
    n == n' && r == r' && p == p' && sameSlots a b
  | .block a, .block b => sameSlots a b
  | .returnStmt a, .returnStmt b => same a b
  | .exprStmt a, .exprStmt b => same a b
  | .variableDecl m n t a, .variableDecl m' n' t' b => m == m' && n == n' && t == t' && same a b
  | .call c a, .call c' b => c == c' && sameNodes a b
  | .binary l o r, .binary l' o' r' => same l l' && o == o' && same r r'
  | .literal t, .literal t' => t == t'
  | .identifier n, .identifier n' => n == n'
  | .unsupported t, .unsupported t' => t == t'
  | _, _ => false

def sameSlots : Slots → Slots → Bool
  | [], [] => true
  | none :: a, none :: b => sameSlots a b
  | some x :: a, some y :: b => same x y && sameSlots a b
  | _, _ => false

def sameNodes : List Node → List Node → Bool
  | [], [] => true
  | x :: a, y :: b => same x y && sameNodes a b
  | _, _ => false

end

mutual

theorem same_iff : ∀ a b : Node, same a b = true ↔ a = b
  | .program a, b => by cases b <;> simp [same, sameSlots_iff a]
  | .importDecl s v, b => by cases b <;> simp [same]
  | .functionDecl n r p a, b => by cases b <;> simp [same, sameSlots_iff a, and_assoc]
  | .block a, b => by cases b <;> simp [same, sameSlots_iff a]
  | .returnStmt a, b => by cases b <;> simp [same, same_iff a]
  | .exprStmt a, b => by cases b <;> simp [same, same_iff a]
  | .variableDecl m n t a, b => by cases b <;> simp [same, same_iff a, and_assoc]
  | .call c a, b => by cases b <;> simp [same, sameNodes_iff a]
  | .binary l o r, b => by cases b <;> simp [same, same_iff l, same_iff r, and_assoc]
  | .literal t, b => by cases b <;> simp [same]
  | .identifier n, b => by cases b <;> simp [same]
  | .unsupported t, b => by cases b <;> simp [same]

theorem sameSlots_iff : ∀ a b : Slots, sameSlots a b = true ↔ a = b
  | [], b => by cases b <;> simp [sameSlots]
  | none :: a, b => by
    match b with
    | [] | some _ :: _ => simp [sameSlots]
    | none :: b => simp [sameSlots, sameSlots_iff a]
  | some x :: a, b => by
    match b with
    | [] | none :: _ => simp [sameSlots]
    | some y :: b => simp [sameSlots, same_iff x, sameSlots_iff a]

theorem sameNodes_iff : ∀ a b : List Node, sameNodes a b = true ↔ a = b
  | [], b => by cases b <;> simp [sameNodes]
  | x :: a, b => by cases b <;> simp [sameNodes, same_iff x, sameNodes_iff a]

end

instance : DecidableEq Node := fun a b => decidable_of_iff _ (same_iff a b)

end Node

end SyntaxToC.Tree
