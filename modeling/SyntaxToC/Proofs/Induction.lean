import SyntaxToC.Json.Value
import SyntaxToC.Tree.Node

/-!
# Induction over JSON values and syntax trees

A value holds lists of values and a tree holds lists of slots and of arguments, so a proof about
them needs its hypothesis for every member of such a list.  `Value.induct` and `Node.induct` are
the principles in that form; a function on lists then has a lemma of its own, by induction on the
list, with the hypothesis for its members as an assumption.  `Value.sizeInduct` is for functions
that go from an object to what it holds under a key.
-/

namespace SyntaxToC.Json

@[induction_eliminator]
theorem Value.induct {P : Value → Prop}
    (null : P .null)
    (bool : ∀ b, P (.bool b))
    (number : ∀ n, P (.number n))
    (string : ∀ s, P (.string s))
    (array : ∀ items, (∀ w ∈ items, P w) → P (.array items))
    (object : ∀ members : Members, (∀ m ∈ members, P m.2) → P (.object members)) (v : Value) :
    P v := by
  refine @Value.rec P (fun items => ∀ w ∈ items, P w) (fun members => ∀ m ∈ members, P m.2)
    (fun m => P m.2) null bool number string array object ?_ ?_ ?_ ?_ ?_ v
  · intro w hw
    cases hw
  · intro x items hx hitems w hw
    rcases List.mem_cons.1 hw with rfl | h
    · exact hx
    · exact hitems w h
  · intro m hm
    cases hm
  · intro x members hx hmembers m hm
    rcases List.mem_cons.1 hm with rfl | h
    · exact hx
    · exact hmembers m h
  · intro key w hw
    exact hw

/-- For what goes down by keys: the hypothesis holds of every smaller value. -/
theorem Value.sizeInduct {P : Value → Prop}
    (smaller : ∀ v, (∀ w, sizeOf w < sizeOf v → P w) → P v) (v : Value) : P v :=
  (measure sizeOf).wf.induction v smaller

end SyntaxToC.Json

namespace SyntaxToC.Tree

@[induction_eliminator]
theorem Node.induct {P : Node → Prop}
    (program : ∀ body : Slots, (∀ n, some n ∈ body → P n) → P (.program body))
    (importDecl : ∀ std value, P (.importDecl std value))
    (functionDecl : ∀ name returnType params (body : Slots), (∀ n, some n ∈ body → P n) →
      P (.functionDecl name returnType params body))
    (block : ∀ body : Slots, (∀ n, some n ∈ body → P n) → P (.block body))
    (returnStmt : ∀ argument, P argument → P (.returnStmt argument))
    (exprStmt : ∀ expression, P expression → P (.exprStmt expression))
    (variableDecl : ∀ mutable name typing value, P value →
      P (.variableDecl mutable name typing value))
    (call : ∀ callee arguments, (∀ n ∈ arguments, P n) → P (.call callee arguments))
    (binary : ∀ left op right, P left → P right → P (.binary left op right))
    (literal : ∀ text, P (.literal text))
    (identifier : ∀ name, P (.identifier name))
    (unsupported : ∀ tag, P (.unsupported tag)) (t : Node) : P t := by
  refine @Node.rec P (fun body => ∀ n, some n ∈ body → P n) (fun ns => ∀ n ∈ ns, P n)
    (fun slot => ∀ n, slot = some n → P n) program importDecl functionDecl block returnStmt
    exprStmt variableDecl call binary literal identifier unsupported ?_ ?_ ?_ ?_ ?_ ?_ t
  · intro n hn
    cases hn
  · intro slot body hslot hbody n hn
    rcases List.mem_cons.1 hn with h | h
    · exact hslot n h.symm
    · exact hbody n h
  · intro n hn
    cases hn
  · intro m ns hm hns n hn
    rcases List.mem_cons.1 hn with rfl | h
    · exact hm
    · exact hns n h
  · intro n hn
    cases hn
  · intro m hm n hn
    cases hn
    exact hm

end SyntaxToC.Tree
