/-!
# Layout of the generated code

Two choices are open: the text in front of each line of a function's body, and whether a block puts
its terminator behind an expression statement, which already carries one.
-/

namespace SyntaxToC.Code

/-- Terminators behind expression statements in a block: keep both, or write a single one. -/
inductive Terminators where
  | preserve
  | collapse
deriving DecidableEq, Repr

structure Layout where
  indent : String := "\t"
  terminators : Terminators := .preserve
deriving DecidableEq, Repr

namespace Layout

/-- `n` spaces in front of each line. -/
def spaces (n : Nat) : String := String.ofList (List.replicate n ' ')

def withIndent (layout : Layout) (indent : String) : Layout := { layout with indent }

def withWidth (layout : Layout) (n : Nat) : Layout := layout.withIndent (spaces n)

def withTerminators (layout : Layout) (terminators : Terminators) : Layout :=
  { layout with terminators }

end Layout

end SyntaxToC.Code
