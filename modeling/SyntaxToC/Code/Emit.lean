import SyntaxToC.Code.Layout
import SyntaxToC.Tree.Node

/-!
# C text of a syntax tree

`emit layout n` writes a tree as C, piece by piece and from left to right.  Names, types, operators
and literals are written as they stand, apart from pointer types (`typeText`).  The only obstacle is
an unsupported node: the leftmost one is reported.

Empty slots leave no trace.  Inside a block each statement ends in a terminator; an expression
statement brings one of its own, which `Terminators.collapse` leaves as the only one.
-/

namespace SyntaxToC.Code

open SyntaxToC.Tree

/-- The tree has a node that cannot be written, by its tag. -/
structure EmitError where
  tag : String
deriving DecidableEq, Repr

def EmitError.message (e : EmitError) : String := "unsupported node kind: " ++ e.tag

/-! ## Pieces -/

/-- A type with a star names what it points to behind the first one: `ptr*int` is `int*`. -/
def typeText (typing : String) : String :=
  match typing.toList.dropWhile (· ≠ '*') with
  | [] => typing
  | _ :: pointee => String.ofList pointee ++ "*"

theorem dropWhile_of_not_mem {before : List Char} (h : '*' ∉ before) (rest : List Char) :
    (before ++ rest).dropWhile (· ≠ '*') = rest.dropWhile (· ≠ '*') := by
  apply List.dropWhile_append_of_pos
  intro c hc
  have hne : c ≠ '*' := fun heq => h (heq ▸ hc)
  simpa using hne

/-- A type without a star is written as it stands. -/
theorem typeText_of_not_mem {typing : String} (h : '*' ∉ typing.toList) :
    typeText typing = typing := by
  have hnone := dropWhile_of_not_mem h []
  rw [List.append_nil] at hnone
  unfold typeText
  rw [hnone]
  rfl

theorem typeText_star {before : String} (h : '*' ∉ before.toList) (pointee : String) :
    typeText (before ++ "*" ++ pointee) = pointee ++ "*" := by
  have hlist : (before ++ "*" ++ pointee).toList = before.toList ++ '*' :: pointee.toList := by
    simp
  unfold typeText
  rw [hlist, dropWhile_of_not_mem h]
  simp

theorem exists_before_star {typing : String} (h : '*' ∈ typing.toList) :
    ∃ before pointee : String, '*' ∉ before.toList ∧ typing = before ++ "*" ++ pointee := by
  obtain ⟨before, pointee, heq, hbefore⟩ := List.eq_append_cons_of_mem h
  refine ⟨String.ofList before, String.ofList pointee, by simpa using hbefore, ?_⟩
  apply String.toList_inj.1
  simp [heq]

def includeText (std : Bool) (value : String) : String :=
  if std then "#include <" ++ value ++ ">" else "#include " ++ value

def paramText (p : Param) : String := typeText p.typing ++ " " ++ p.name

/-- A function without parameters says so. -/
def paramsText : List Param → String
  | [] => "void"
  | ps => ", ".intercalate (ps.map paramText)

def signature (returnType name : String) (params : List Param) : String :=
  typeText returnType ++ " " ++ name ++ " (" ++ paramsText params ++ ")"

/-- What a block puts behind a statement. -/
def terminator (layout : Layout) (n : Node) : String :=
  match n.kind?, layout.terminators with
  | some .expressionStatement, .collapse => ""
  | _, _ => ";"

/-- Statements of a block, one a line. -/
def lines (layout : Layout) (statements : List String) : String :=
  ("\n" ++ layout.indent).intercalate statements

/-! ## Trees -/

mutual

/-- The C text of a tree. -/
def emit (layout : Layout) : Node → Except EmitError String
  | .program body => do return "\n".intercalate (← emitItems layout body)
  | .importDecl std value => .ok (includeText std value)
  | .functionDecl name returnType params body => do
    let statements ← emitStatements layout body
    return signature returnType name params ++ " \x7b\n" ++ layout.indent ++
      lines layout statements ++ "\n\x7d"
  | .block body => do return lines layout (← emitStatements layout body)
  | .returnStmt argument => do return "return " ++ (← emit layout argument)
  | .exprStmt expression => do return (← emit layout expression) ++ ";"
  | .variableDecl mutable name typing value => do
    return (if mutable then "" else "const ") ++ typeText typing ++ " " ++ name ++ " = " ++
      (← emit layout value)
  | .call callee arguments => do
    return typeText callee ++ "(" ++ ", ".intercalate (← emitArguments layout arguments) ++ ")"
  | .binary left op right => do
    let l ← emit layout left
    let r ← emit layout right
    return l ++ " " ++ op ++ " " ++ r
  | .literal text => .ok text
  | .identifier name => .ok name
  | .unsupported tag => .error ⟨tag⟩

/-- The texts of the items of a program. -/
def emitItems (layout : Layout) : Slots → Except EmitError (List String)
  | [] => .ok []
  | none :: slots => emitItems layout slots
  | some n :: slots => do
    let text ← emit layout n
    return text :: (← emitItems layout slots)

/-- The texts of the statements of a block, with their terminators. -/
def emitStatements (layout : Layout) : Slots → Except EmitError (List String)
  | [] => .ok []
  | none :: slots => emitStatements layout slots
  | some n :: slots => do
    let text ← emit layout n
    return (text ++ terminator layout n) :: (← emitStatements layout slots)

def emitArguments (layout : Layout) : List Node → Except EmitError (List String)
  | [] => .ok []
  | n :: nodes => do
    let text ← emit layout n
    return text :: (← emitArguments layout nodes)

end

end SyntaxToC.Code
