import SyntaxToC.Proofs.Induction
import SyntaxToC.Proofs.Slots

/-!
# Emission and unsupported nodes

The only thing that can stop emission is an unsupported node, and the leftmost one is reported.
`Node.unsupportedTags` lists the tags of all of them from left to right; the layout plays no part.

    (∃ text, emit layout t = .ok text) ↔ t.unsupportedTags = []
    emit layout t = .error e           ↔ t.unsupportedTags.head? = some e.tag
-/

namespace SyntaxToC.Tree

namespace Node

mutual

/-- The tags of the unsupported nodes anywhere in a tree, from left to right. -/
def unsupportedTags : Node → List String
  | .program body => slotsUnsupportedTags body
  | .importDecl _ _ => []
  | .functionDecl _ _ _ body => slotsUnsupportedTags body
  | .block body => slotsUnsupportedTags body
  | .returnStmt argument => argument.unsupportedTags
  | .exprStmt expression => expression.unsupportedTags
  | .variableDecl _ _ _ value => value.unsupportedTags
  | .call _ arguments => listUnsupportedTags arguments
  | .binary left _ right => left.unsupportedTags ++ right.unsupportedTags
  | .literal _ => []
  | .identifier _ => []
  | .unsupported tag => [tag]

def slotsUnsupportedTags : Slots → List String
  | [] => []
  | none :: slots => slotsUnsupportedTags slots
  | some n :: slots => n.unsupportedTags ++ slotsUnsupportedTags slots

def listUnsupportedTags : List Node → List String
  | [] => []
  | n :: nodes => n.unsupportedTags ++ listUnsupportedTags nodes

end

theorem slotsUnsupportedTags_eq_flatMap (slots : Slots) :
    slotsUnsupportedTags slots = slots.reduceOption.flatMap unsupportedTags :=
  Slots.eq_flatMap slotsUnsupportedTags rfl (fun _ => rfl) (fun _ _ => rfl) slots

theorem listUnsupportedTags_eq_flatMap (nodes : List Node) :
    listUnsupportedTags nodes = nodes.flatMap unsupportedTags := by
  induction nodes with
  | nil => rfl
  | cons n nodes ih => rw [listUnsupportedTags, ih, List.flatMap_cons]

end Node

end SyntaxToC.Tree

namespace SyntaxToC.Code

open SyntaxToC.Tree SyntaxToC.Outcome

/-- The errors that stand in a tree. -/
def emitErrors (t : Node) : List EmitError := t.unsupportedTags.map EmitError.mk

section

variable {layout : Layout}

theorem emitItems_reports {slots : Slots}
    (ih : ∀ n, some n ∈ slots → Reports (emitErrors n) (emit layout n)) :
    Reports ((Node.slotsUnsupportedTags slots).map EmitError.mk) (emitItems layout slots) := by
  rw [emitItems_eq_mapM, Node.slotsUnsupportedTags_eq_flatMap, List.map_flatMap]
  exact .mapM fun n hn => ih n (List.reduceOption_mem_iff.1 hn)

theorem emitStatements_reports {slots : Slots}
    (ih : ∀ n, some n ∈ slots → Reports (emitErrors n) (emit layout n)) :
    Reports ((Node.slotsUnsupportedTags slots).map EmitError.mk) (emitStatements layout slots) := by
  rw [emitStatements_eq_mapM, Node.slotsUnsupportedTags_eq_flatMap, List.map_flatMap]
  exact .mapM fun n hn => (ih n (List.reduceOption_mem_iff.1 hn)).map _

theorem emitArguments_reports {nodes : List Node}
    (ih : ∀ n ∈ nodes, Reports (emitErrors n) (emit layout n)) :
    Reports ((Node.listUnsupportedTags nodes).map EmitError.mk) (emitArguments layout nodes) := by
  rw [emitArguments_eq_mapM, Node.listUnsupportedTags_eq_flatMap, List.map_flatMap]
  exact .mapM ih

end

theorem emit_reports (layout : Layout) (t : Node) : Reports (emitErrors t) (emit layout t) := by
  induction t with
  | program body ih => exact (emitItems_reports ih).map _
  | importDecl std value => exact .ok _
  | functionDecl name returnType params body ih => exact (emitStatements_reports ih).map _
  | block body ih => exact (emitStatements_reports ih).map _
  | returnStmt argument ih => exact ih.map _
  | exprStmt expression ih => exact ih.map _
  | variableDecl mutable name typing value ih => exact ih.map _
  | call callee arguments ih => exact (emitArguments_reports ih).map _
  | binary left op right ihl ihr =>
    rw [emitErrors, Node.unsupportedTags, List.map_append]
    exact ihl.bind fun l _ => ihr.map _
  | literal text => exact .ok text
  | identifier name => exact .ok name
  | unsupported tag => exact Reports.error (EmitError.mk tag) []

theorem exists_emit_eq_ok_iff (layout : Layout) (t : Node) :
    (∃ text, emit layout t = .ok text) ↔ t.unsupportedTags = [] := by
  rw [(emit_reports layout t).ok_iff, emitErrors, List.map_eq_nil_iff]

theorem emit_eq_error_iff (layout : Layout) (t : Node) (e : EmitError) :
    emit layout t = .error e ↔ t.unsupportedTags.head? = some e.tag := by
  obtain ⟨tag⟩ := e
  rw [(emit_reports layout t).error_iff, emitErrors, List.head?_map]
  simp

/-- Emission succeeds exactly on the trees without unsupported nodes, and otherwise reports the
leftmost one, under every layout alike. -/
theorem emit_outcome_by_unsupportedTags (t : Node) (layout : Layout) :
    ((∃ text, emit layout t = .ok text) ↔ t.unsupportedTags = []) ∧
      (∀ e, emit layout t = .error e ↔ t.unsupportedTags.head? = some e.tag) ∧
      ∀ layout' : Layout,
        ((∃ text, emit layout t = .ok text) ↔ ∃ text, emit layout' t = .ok text) ∧
          ∀ e, emit layout t = .error e ↔ emit layout' t = .error e := by
  refine ⟨exists_emit_eq_ok_iff layout t, emit_eq_error_iff layout t, fun layout' => ?_⟩
  refine ⟨(exists_emit_eq_ok_iff layout t).trans (exists_emit_eq_ok_iff layout' t).symm,
    fun e => ?_⟩
  exact (emit_eq_error_iff layout t e).trans (emit_eq_error_iff layout' t e).symm

end SyntaxToC.Code
