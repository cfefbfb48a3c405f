import SyntaxToC.Code.Emit

/-!
# Room for texts

A text has room set aside for it, a number of bytes, and no machine sets aside more than `maxRoom` at
once.  A text that is put together part by part may have more room than it needs: when the room does
not suffice for the next part, it is doubled, or made large enough if that is still more.  So there
may be no room for a text that is shorter than `maxRoom`, though there always is up to half of it.
Texts that are joined are measured first, and get the room that they need.

`emitRoom layout n` follows the emission of a tree with rooms in the place of texts, and stops where
emission stops: at an unsupported node, or at a text for which there is no room.  Types and parameters
are measured and not followed: they have no indent in them, and without one no text is too long.
-/

namespace SyntaxToC.Code

open SyntaxToC.Tree

/-- The most bytes that can be set aside at once, `2 ^ 63 - 1`. -/
def maxRoom : Nat := 9223372036854775807

/-- What stops emission. -/
inductive Obstacle where
  | unsupported (e : EmitError)
  /-- There is no room for a text. -/
  | exhausted
deriving DecidableEq, Repr

/-- The bytes of a text, and those set aside for it. -/
structure Room where
  size : Nat
  capacity : Nat
deriving DecidableEq, Repr

def bytes (text : String) : Nat := text.utf8ByteSize

namespace Room

def setAside (size capacity : Nat) : Except Obstacle Room :=
  if capacity ≤ maxRoom then .ok ⟨size, capacity⟩ else .error .exhausted

/-- A text of known size. -/
def exact (size : Nat) : Except Obstacle Room := setAside size size

/-- Appends `n` bytes to a text. -/
def push (r : Room) (n : Nat) : Except Obstacle Room :=
  let size := r.size + n
  if size ≤ r.capacity then .ok ⟨size, r.capacity⟩
  else setAside size (max size (max (2 * r.capacity) 8))

/-- A text of parts, one after the other. -/
def formatted (parts : List Nat) : Except Obstacle Room := parts.foldlM push ⟨0, 0⟩

/-- The bytes of several texts with a separator between them. -/
def joinedSize (separator : Nat) : List Room → Nat
  | [] => 0
  | [r] => r.size
  | r :: rs => r.size + separator + joinedSize separator rs

def joined (separator : Nat) (rs : List Room) : Except Obstacle Room :=
  exact (joinedSize separator rs)

end Room

open Room

/-! ## Trees -/

/-- What stands between two statements of a block. -/
def separatorRoom (layout : Layout) : Except Obstacle Room :=
  formatted [bytes "\n", bytes layout.indent]

mutual

/-- The room of the C text of a tree. -/
def emitRoom (layout : Layout) : Node → Except Obstacle Room
  | .program body => do joined (bytes "\n") (← itemRooms layout body)
  | .importDecl true value => formatted [bytes "#include <", bytes value, bytes ">"]
  | .importDecl false value => formatted [bytes "#include ", bytes value]
  | .functionDecl name returnType params body => do
    let separator ← separatorRoom layout
    let statements ← joined separator.size (← statementRooms layout body)
    formatted [bytes (typeText returnType), bytes " ", bytes name, bytes " (",
      bytes (paramsText params), bytes ") \x7b\n", bytes layout.indent, statements.size,
      bytes "\n\x7d"]
  | .block body => do
    let separator ← separatorRoom layout
    joined separator.size (← statementRooms layout body)
  | .returnStmt argument => do formatted [bytes "return ", (← emitRoom layout argument).size]
  | .exprStmt expression => do formatted [(← emitRoom layout expression).size, bytes ";"]
  | .variableDecl mutable name typing value => do
    let value ← emitRoom layout value
    formatted [bytes (if mutable then "" else "const "), bytes (typeText typing), bytes " ",
      bytes name, bytes " = ", value.size]
  | .call callee arguments => do
    let arguments ← joined (bytes ", ") (← argumentRooms layout arguments)
    formatted [bytes (typeText callee), bytes "(", arguments.size, bytes ")"]
  | .binary left op right => do
    let l ← emitRoom layout left
    let r ← emitRoom layout right
    formatted [l.size, bytes " ", bytes op, bytes " ", r.size]
  | .literal text => exact (bytes text)
  | .identifier name => exact (bytes name)
  | .unsupported tag => .error (.unsupported ⟨tag⟩)

def itemRooms (layout : Layout) : Slots → Except Obstacle (List Room)
  | [] => .ok []
  | none :: slots => itemRooms layout slots
  | some n :: slots => do
    let room ← emitRoom layout n
    return room :: (← itemRooms layout slots)

/-- Terminators are appended to the texts of statements. -/
def statementRooms (layout : Layout) : Slots → Except Obstacle (List Room)
  | [] => .ok []
  | none :: slots => statementRooms layout slots
  | some n :: slots => do
    let room ← (← emitRoom layout n).push (bytes (terminator layout n))
    return room :: (← statementRooms layout slots)

def argumentRooms (layout : Layout) : List Node → Except Obstacle (List Room)
  | [] => .ok []
  | n :: nodes => do
    let room ← emitRoom layout n
    return room :: (← argumentRooms layout nodes)

end

/-- Whether emission comes to a text for which there is no room. -/
def exhausts (layout : Layout) (n : Node) : Bool := emitRoom layout n matches .error .exhausted

/-- Whether there is room for a text with a line break behind it. -/
def lineFits (text : String) : Bool := formatted [bytes text, bytes "\n"] matches .ok _

end SyntaxToC.Code
