import SyntaxToC.Json.Reader
import SyntaxToC.Tree.Attribute

/-!
# From JSON to a syntax tree

A node is an object whose member `type` is a tag; the other members that count depend on its kind.
`load` reads them in a fixed order and stops at the first fault, which it reports together with the
path from the document to the node at fault.  A tag of no kind gives an unsupported node, whatever
else the object holds.

    load v         the tree that a JSON value denotes
    loadText text  the tree that a JSON text denotes
-/

namespace SyntaxToC.Tree

open SyntaxToC.Json

/-! ## Faults -/

/-- One step down into a JSON value. -/
inductive Segment where
  | member (key : String)
  | item (index : Nat)
deriving DecidableEq, Repr

/-- The way from the document to one of its parts. -/
abbrev Path := List Segment

def Segment.text : Segment → String
  | .member key => key
  | .item index => toString index

def Path.text : Path → String
  | [] => "/"
  | path => path.foldl (fun written s => written ++ "/" ++ s.text) ""

/-- What is wrong with a node of a known kind. -/
inductive Flaw where
  | missing (field : String)
  | notArray (field : String)
  | badAttribute (field : String) (error : AttributeError)
  | literalType
  | bodyNotBlock (tag : String)
deriving Repr

inductive Problem where
  | noKind
  | malformed (kind : Kind) (flaw : Flaw)
deriving Repr

/-- A node that cannot be loaded, by its place and what is wrong with it. -/
structure NodeError where
  path : Path
  problem : Problem
deriving Repr

inductive LoadError where
  | json (fault : Fault)
  | node (error : NodeError)
deriving Repr

def Flaw.message : Flaw → String
  | .missing field => "missing field `" ++ field ++ "`"
  | .notArray field => "field `" ++ field ++ "` must be an array"
  | .badAttribute field e => "field `" ++ field ++ "`: " ++ e.message
  | .literalType => "value must be a string, number or boolean"
  | .bodyNotBlock tag => "body must be a BlockStatement, found " ++ tag

def NodeError.message : NodeError → String
  | ⟨path, .noKind⟩ => "node at " ++ path.text ++ " has no \"type\" tag"
  | ⟨path, .malformed kind flaw⟩ =>
    "malformed " ++ kind.tag ++ " at " ++ path.text ++ ": " ++ flaw.message

def LoadError.message : LoadError → String
  | .json fault => "invalid JSON: " ++ fault.message
  | .node e => e.message

/-! ## Members of a node -/

/-- A fault of the node itself. -/
def malformed {α : Type} (kind : Kind) (flaw : Flaw) : Except NodeError α :=
  .error ⟨[], .malformed kind flaw⟩

/-- The outcome for a part of a node, seen from the node. -/
def within {α : Type} (path : Path) (x : Except NodeError α) : Except NodeError α :=
  x.mapError fun e => { e with path := path ++ e.path }

/-- The value of a field; what it holds is smaller than the node. -/
def field (kind : Kind) (v : Value) (name : String) :
    Except NodeError { w : Value // sizeOf w < sizeOf v } :=
  match h : v.get? name with
  | some w => .ok ⟨w, Value.sizeOf_get?_lt h⟩
  | none => malformed kind (.missing name)

/-- The items of a field that holds an array. -/
def items (kind : Kind) (v : Value) (name : String) :
    Except NodeError { ws : List Value // sizeOf ws < sizeOf v } :=
  match h : v.get? name with
  | some (.array ws) => .ok ⟨ws, by
      have := Value.sizeOf_get?_lt h
      simp only [Value.array.sizeOf_spec] at this
      omega⟩
  | some _ => malformed kind (.notArray name)
  | none => malformed kind (.missing name)

def readAttribute {α : Type} (kind : Kind) (v : Value) (name : String) (decode : Decoder α) :
    Except NodeError α :=
  match v.get? name with
  | some w => (decode w).mapError fun e => ⟨[], .malformed kind (.badAttribute name e)⟩
  | none => malformed kind (.missing name)

/-- The text of a literal. -/
def literalText (v : Value) : Except NodeError String :=
  match v.get? "value" with
  | some (.string s) => .ok s
  | some (.number n) => .ok n.text
  | some (.bool b) => .ok (if b then "true" else "false")
  | some _ => malformed .literal .literalType
  | none => malformed .literal (.missing "value")

/-! ## Nodes -/

mutual

/-- The tree that a JSON value denotes, or its first fault. -/
def load (v : Value) : Except NodeError Node :=
  match v.get? "type" with
  | some (.string tag) =>
    match Kind.ofTag? tag with
    | some kind => loadAs kind v
    | none => .ok (.unsupported tag)
  | _ => .error ⟨[], .noKind⟩
termination_by (sizeOf v, 1)

/-- The node of a kind that an object denotes. -/
def loadAs (kind : Kind) (v : Value) : Except NodeError Node :=
  match kind with
  | .program => do
    let ⟨ws, _⟩ ← items kind v "body"
    return .program (← loadSlots 0 ws)
  | .importDeclaration => do
    let (std, value) ← readAttribute kind v "source" Attribute.importSource
    return .importDecl std value
  | .functionDeclaration => do
    let name ← readAttribute kind v "id" Attribute.name
    let returnType ← readAttribute kind v "returnType" Attribute.name
    let params ← readAttribute kind v "params" Attribute.params
    let ⟨w, _⟩ ← field kind v "body"
    match ← within [.member "body"] (load w) with
    | .block body => return .functionDecl name returnType params body
    | other => malformed kind (.bodyNotBlock other.tag)
  | .blockStatement => do
    let ⟨ws, _⟩ ← items kind v "body"
    return .block (← loadSlots 0 ws)
  | .returnStatement => do
    let ⟨w, _⟩ ← field kind v "argument"
    return .returnStmt (← within [.member "argument"] (load w))
  | .expressionStatement => do
    let ⟨w, _⟩ ← field kind v "expression"
    return .exprStmt (← within [.member "expression"] (load w))
  | .variableDeclaration => do
    let mutable ← readAttribute kind v "mutable" Attribute.flag
    let name ← readAttribute kind v "id" Attribute.name
    let typing ← readAttribute kind v "typing" Attribute.name
    let ⟨w, _⟩ ← field kind v "value"
    return .variableDecl mutable name typing (← within [.member "value"] (load w))
  | .callExpression => do
    let callee ← readAttribute kind v "callee" Attribute.name
    let ⟨ws, _⟩ ← items kind v "arguments"
    return .call callee (← loadArguments 0 ws)
  | .binaryExpression => do
    let op ← readAttribute kind v "op" Attribute.text
    let ⟨l, _⟩ ← field kind v "left"
    let left ← within [.member "left"] (load l)
    let ⟨r, _⟩ ← field kind v "right"
    return .binary left op (← within [.member "right"] (load r))
  | .literal => return .literal (← literalText v)
  | .identifier => return .identifier (← readAttribute kind v "name" Attribute.text)
termination_by (sizeOf v, 0)

/-- The slots of a body, the first of them at `index`; a blank value leaves its slot empty. -/
def loadSlots (index : Nat) (ws : List Value) : Except NodeError Slots :=
  match ws with
  | [] => .ok []
  | w :: ws => do
    let slot ←
      if w.isBlank then .ok none
      else (within [.member "body", .item index] (load w)).map some
    return slot :: (← loadSlots (index + 1) ws)
termination_by (sizeOf ws, 0)

/-- The arguments of a call, the first of them at `index`. -/
def loadArguments (index : Nat) (ws : List Value) : Except NodeError (List Node) :=
  match ws with
  | [] => .ok []
  | w :: ws => do
    let argument ← within [.member "arguments", .item index] (load w)
    return argument :: (← loadArguments (index + 1) ws)
termination_by (sizeOf ws, 0)

end

/-- The tree that a JSON text denotes, or what is wrong with the text or the tree. -/
def loadText (text : String) : Except LoadError Node :=
  match read text with
  | .ok v => (load v).mapError .node
  | .error fault => .error (.json fault)

end SyntaxToC.Tree
