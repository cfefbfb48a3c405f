import Mathlib.Tactic.Choose
import SyntaxToC.Proofs.Lacking
import SyntaxToC.Proofs.Terminators

/-!
# The lines of a program

A program of imports and functions, whose functions hold one statement a slot, is written in lines:
an import is one of them, and a function is its signature, its statements and a closing brace.

    textLines text = groups.flatten        with one group of lines for each item of the program

This needs that no stored text and no indent brings a line break or a terminator of its own
(`separators`).  Then a statement is one line too, and its terminators are all at the end: two
behind an expression statement if both are kept, and otherwise one.
-/

namespace SyntaxToC.Code

open SyntaxToC.Tree SyntaxToC.Outcome

/-- The lines of a text. -/
def textLines (text : String) : List String := (text.split '\n').toList.map String.Slice.copy

/-- The characters that end lines and statements. -/
def separators : List Char := ['\n', ';']

/-! ## Plain programs -/

/-- An expression of atoms, calls and operations, without separators in its texts. -/
inductive PlainExpression : Node → Prop
  | literal {text : String} : Lacks separators text → PlainExpression (.literal text)
  | identifier {name : String} : Lacks separators name → PlainExpression (.identifier name)
  | call {callee : String} {arguments : List Node} :
      Lacks separators callee → (∀ n ∈ arguments, PlainExpression n) →
      PlainExpression (.call callee arguments)
  | binary {left right : Node} {op : String} :
      PlainExpression left → Lacks separators op → PlainExpression right →
      PlainExpression (.binary left op right)

inductive PlainStatement : Node → Prop
  | returnStmt {argument : Node} : PlainExpression argument → PlainStatement (.returnStmt argument)
  | exprStmt {expression : Node} :
      PlainExpression expression → PlainStatement (.exprStmt expression)
  | variableDecl {name typing : String} {value : Node} (mutable : Bool) :
      Lacks separators name → Lacks separators typing → PlainExpression value →
      PlainStatement (.variableDecl mutable name typing value)

/-- An import, or a function whose slots are empty or hold statements. -/
inductive PlainItem : Node → Prop
  | importDecl {value : String} (std : Bool) :
      Lacks separators value → PlainItem (.importDecl std value)
  | functionDecl {name returnType : String} {params : List Param} {body : Slots} :
      Lacks separators name → Lacks separators returnType →
      (∀ p ∈ params, Lacks separators p.name ∧ Lacks separators p.typing) →
      (∀ n, some n ∈ body → PlainStatement n) →
      PlainItem (.functionDecl name returnType params body)

/-! ## Lines of items -/

/-- How many terminators stand behind a statement of a function. -/
def terminatorCount (layout : Layout) (n : Node) : Nat :=
  if n.isExprStmt ∧ layout.terminators = .preserve then 2 else 1

/-- A statement of a function on its line: the indent, the code, and the terminators at the end.  An
expression statement has one of them as its own. -/
def StatementLine (layout : Layout) (n : Node) (line : String) : Prop :=
  ∃ code : String, Lacks separators (layout.indent ++ code) ∧
    emit layout n = .ok (code ++ if n.isExprStmt then ";" else "") ∧
    line = layout.indent ++ code ++ String.ofList (List.replicate (terminatorCount layout n) ';')

/-- The lines of an import or a function; a function without statements has a line with nothing but
the indent. -/
inductive ItemLines (layout : Layout) : Node → List String → Prop
  | importDecl (std : Bool) (value : String) :
      ItemLines layout (.importDecl std value) [includeText std value]
  | emptyFunction {name returnType : String} {params : List Param} {body : Slots} :
      body.reduceOption = [] →
      ItemLines layout (.functionDecl name returnType params body)
        [signature returnType name params ++ " \x7b", layout.indent, "\x7d"]
  | function {name returnType : String} {params : List Param} {body : Slots}
      {rows : List String} :
      body.reduceOption ≠ [] → List.Forall₂ (StatementLine layout) body.reduceOption rows →
      ItemLines layout (.functionDecl name returnType params body)
        ((signature returnType name params ++ " \x7b") :: (rows ++ ["\x7d"]))

/-! ## Texts without separators -/

theorem lacks_includeText {value : String} (std : Bool) (h : Lacks separators value) :
    Lacks separators (includeText std value) := by
  unfold includeText
  have hopen : Lacks separators "#include <" := by simp [Lacks, separators]
  have hclose : Lacks separators ">" := by simp [Lacks, separators]
  have hheader : Lacks separators "#include " := by simp [Lacks, separators]
  cases std with
  | true => exact (hopen.append h).append hclose
  | false => exact hheader.append h

/-- What a signature adds to the texts of a function. -/
def signatureMarks : List String := [" ", " (", ")", ", ", "void"]

section

variable {cs : List Char} (hmarks : ∀ s ∈ signatureMarks, Lacks cs s) {params : List Param}
  (hparams : ∀ p ∈ params, Lacks cs (typeText p.typing) ∧ Lacks cs p.name)

include hmarks hparams

theorem lacks_paramsText : Lacks cs (paramsText params) := by
  have hspace := hmarks " " (by simp [signatureMarks])
  have hcomma := hmarks ", " (by simp [signatureMarks])
  cases params with
  | nil => exact hmarks "void" (by simp [signatureMarks])
  | cons p params =>
    apply hcomma.intercalate
    rw [List.forall_mem_map]
    intro q hq
    obtain ⟨htyping, hname⟩ := hparams q hq
    exact (htyping.append hspace).append hname

theorem lacks_signature {name returnType : String} (hreturn : Lacks cs (typeText returnType))
    (hname : Lacks cs name) : Lacks cs (signature returnType name params) := by
  have hspace := hmarks " " (by simp [signatureMarks])
  have hopen := hmarks " (" (by simp [signatureMarks])
  have hclose := hmarks ")" (by simp [signatureMarks])
  have hlist := lacks_paramsText hmarks hparams
  exact ((((hreturn.append hspace).append hname).append hopen).append hlist).append hclose

end

theorem emit_plainExpression (layout : Layout) {t : Node} (h : PlainExpression t) :
    ∃ text, emit layout t = .ok text ∧ Lacks separators text := by
  induction h with
  | literal htext => exact ⟨_, rfl, htext⟩
  | identifier hname => exact ⟨_, rfl, hname⟩
  | @call callee arguments hcallee _ ih =>
    choose! text htext hlacks using ih
    have hopen : Lacks separators "(" := by simp [Lacks, separators]
    have hcomma : Lacks separators ", " := by simp [Lacks, separators]
    have hclose : Lacks separators ")" := by simp [Lacks, separators]
    refine ⟨typeText callee ++ "(" ++ ", ".intercalate (arguments.map text) ++ ")", ?_, ?_⟩
    · rw [emit, emitArguments_eq_mapM, mapM_eq_ok_map htext]
      rfl
    · have harguments := hcomma.intercalate (List.forall_mem_map.2 hlacks)
      exact (((hcallee.typeText (by decide)).append hopen).append harguments).append hclose
  | @binary left right op _ hop _ ihl ihr =>
    obtain ⟨l, hl, hlacks⟩ := ihl
    obtain ⟨r, hr, hlacks'⟩ := ihr
    have hspace : Lacks separators " " := by simp [Lacks, separators]
    refine ⟨l ++ " " ++ op ++ " " ++ r, ?_, ?_⟩
    · rw [emit, hl, hr]
      rfl
    · exact (((hlacks.append hspace).append hop).append hspace).append hlacks'

/-- A statement brings no separator but the terminator of an expression statement. -/
theorem emit_plainStatement (layout : Layout) {n : Node} (h : PlainStatement n) :
    ∃ code, Lacks separators code ∧
      emit layout n = .ok (code ++ if n.isExprStmt then ";" else "") := by
  cases h with
  | @returnStmt argument hargument =>
    obtain ⟨text, htext, hlacks⟩ := emit_plainExpression layout hargument
    have hreturn : Lacks separators "return " := by simp [Lacks, separators]
    refine ⟨"return " ++ text, hreturn.append hlacks, ?_⟩
    rw [emit, htext]
    simp [Node.isExprStmt, pure, Except.pure, bind, Except.bind]
  | @exprStmt expression hexpression =>
    obtain ⟨text, htext, hlacks⟩ := emit_plainExpression layout hexpression
    refine ⟨text, hlacks, ?_⟩
    rw [emit, htext]
    rfl
  | @variableDecl name typing value mutable hname htyping hvalue =>
    obtain ⟨text, htext, hlacks⟩ := emit_plainExpression layout hvalue
    have hconst : Lacks separators (if mutable then "" else "const ") := by
      cases mutable <;> simp [Lacks, separators]
    have hspace : Lacks separators " " := by simp [Lacks, separators]
    have hassign : Lacks separators " = " := by simp [Lacks, separators]
    refine ⟨_, ((((hconst.append (htyping.typeText (by decide))).append hspace).append
      hname).append hassign).append hlacks, ?_⟩
    rw [emit, htext]
    simp [Node.isExprStmt, pure, Except.pure, bind, Except.bind]

/-! ## Statements -/

theorem own_append_terminator (layout : Layout) (n : Node) :
    (if n.isExprStmt then ";" else "") ++ terminator layout n =
      String.ofList (List.replicate (terminatorCount layout n) ';') := by
  obtain ⟨indent, terminators⟩ := layout
  unfold terminatorCount
  cases terminators with
  | preserve =>
    rw [terminator_preserve]
    cases n.isExprStmt <;> rfl
  | collapse =>
    rw [terminator_collapse]
    cases n.isExprStmt <;> rfl

theorem newline_not_mem_statementLine {layout : Layout} {n : Node} {line : String}
    (h : StatementLine layout n line) : '\n' ∉ line.toList := by
  obtain ⟨code, hlacks, -, rfl⟩ := h
  intro hmem
  rw [String.toList_append, List.mem_append, String.toList_ofList, List.mem_replicate] at hmem
  rcases hmem with hcode | ⟨-, hsemicolon⟩
  · exact hlacks '\n' hcode (by simp [separators])
  · cases hsemicolon

section

variable {layout : Layout} (hindent : Lacks separators layout.indent)

include hindent

theorem emitStatement_line {n : Node} (h : PlainStatement n) :
    ∃ row, emitStatement layout n = .ok row ∧ StatementLine layout n (layout.indent ++ row) := by
  obtain ⟨code, hlacks, hemit⟩ := emit_plainStatement layout h
  refine ⟨code ++ String.ofList (List.replicate (terminatorCount layout n) ';'), ?_,
    code, hindent.append hlacks, hemit, ?_⟩
  · rw [emitStatement, hemit, ← own_append_terminator, ← String.append_assoc]
    rfl
  · rw [String.append_assoc]

theorem emitStatements_lines {slots : Slots} (h : ∀ n, some n ∈ slots → PlainStatement n) :
    ∃ rows, emitStatements layout slots = .ok rows ∧
      List.Forall₂ (StatementLine layout) slots.reduceOption (rows.map (layout.indent ++ ·)) := by
  have hrows : ∀ n ∈ slots.reduceOption, _ := fun n hn =>
    emitStatement_line hindent (h n (List.reduceOption_mem_iff.1 hn))
  choose! row hrow hline using hrows
  rw [emitStatements_eq_mapM]
  refine ⟨_, mapM_eq_ok_map hrow, ?_⟩
  rw [List.map_map, List.forall₂_map_right_iff, List.forall₂_same]
  exact hline

end

/-! ## Items -/

theorem indent_append_lines (layout : Layout) (row : String) (rows : List String) :
    layout.indent ++ lines layout (row :: rows) =
      "\n".intercalate ((row :: rows).map (layout.indent ++ ·)) := by
  unfold lines
  induction rows generalizing row with
  | nil => simp
  | cons row' rows ih =>
    rw [List.map_cons, List.map_cons, String.intercalate_cons_cons, String.intercalate_cons_cons,
      ← List.map_cons, ← ih row']
    simp only [String.append_assoc]

/-- A function is written as lines if its body is. -/
theorem function_eq_intercalate {rows : List String} (hrows : rows ≠ []) (header : String) :
    header ++ " \x7b\n" ++ "\n".intercalate rows ++ "\n\x7d" =
      "\n".intercalate ((header ++ " \x7b") :: (rows ++ ["\x7d"])) := by
  have hopen : " \x7b\n" = " \x7b" ++ "\n" := rfl
  have hclose : "\n\x7d" = "\n" ++ "\x7d" := rfl
  rw [String.intercalate_cons_of_ne_nil (by simp),
    String.intercalate_append_of_ne_nil hrows (by simp), String.intercalate_singleton, hopen,
    hclose]
  simp only [String.append_assoc]

theorem newline_not_mem_rows {layout : Layout} {nodes : List Node} {rows : List String}
    (h : List.Forall₂ (StatementLine layout) nodes rows) : ∀ row ∈ rows, '\n' ∉ row.toList := by
  induction h with
  | nil =>
    intro row hrow
    cases hrow
  | cons hline _ ih => exact List.forall_mem_cons.2 ⟨newline_not_mem_statementLine hline, ih⟩

section

variable {layout : Layout} (hindent : Lacks separators layout.indent)

include hindent

/-- No line of an item is broken. -/
theorem newline_not_mem_itemLines {n : Node} {ls : List String} (h : PlainItem n)
    (hls : ItemLines layout n ls) : ∀ l ∈ ls, '\n' ∉ l.toList := by
  have hbreak : '\n' ∈ separators := by simp [separators]
  have hbrace : Lacks separators " \x7b" := by simp [Lacks, separators]
  have hclose : '\n' ∉ "\x7d".toList := by simp
  cases h with
  | importDecl std hvalue =>
    cases hls
    intro l hl hmem
    obtain rfl := List.mem_singleton.1 hl
    exact lacks_includeText std hvalue '\n' hmem hbreak
  | @functionDecl name returnType params body hname hreturn hparams hbody =>
    have hmarks : ∀ s ∈ signatureMarks, Lacks separators s := by
      simp [signatureMarks, Lacks, separators]
    have hsignature : Lacks separators (signature returnType name params) := by
      refine lacks_signature hmarks (fun p hp => ?_) (hreturn.typeText (by decide)) hname
      exact ⟨(hparams p hp).2.typeText (by decide), (hparams p hp).1⟩
    have hheader : '\n' ∉ (signature returnType name params ++ " \x7b").toList := fun hmem =>
      hsignature.append hbrace '\n' hmem hbreak
    cases hls with
    | emptyFunction _ =>
      have hblank : '\n' ∉ layout.indent.toList := fun hmem => hindent '\n' hmem hbreak
      rw [List.forall_mem_cons, List.forall_mem_cons, List.forall_mem_singleton]
      exact ⟨hheader, hblank, hclose⟩
    | function _ hrows =>
      rw [List.forall_mem_cons, List.forall_mem_append, List.forall_mem_singleton]
      exact ⟨hheader, newline_not_mem_rows hrows, hclose⟩

/-- An item is written as its lines. -/
theorem emit_plainItem {n : Node} (h : PlainItem n) :
    ∃ ls, ItemLines layout n ls ∧ ls ≠ [] ∧ emit layout n = .ok ("\n".intercalate ls) := by
  cases h with
  | @importDecl value std hvalue =>
    refine ⟨_, .importDecl std value, by simp, ?_⟩
    rw [emit, String.intercalate_singleton]
  | @functionDecl name returnType params body hname hreturn hparams hbody =>
    obtain ⟨rows, hrows, hlines⟩ := emitStatements_lines hindent hbody
    have hemit : emit layout (.functionDecl name returnType params body) =
        .ok (signature returnType name params ++ " \x7b\n" ++
          (layout.indent ++ lines layout rows) ++ "\n\x7d") := by
      rw [emit, hrows]
      simp only [← String.append_assoc]
      rfl
    cases rows with
    | nil =>
      have hnone : body.reduceOption = [] := List.forall₂_nil_right_iff.1 hlines
      have hblank : layout.indent ++ lines layout [] = "\n".intercalate [layout.indent] := by
        simp [lines]
      refine ⟨_, .emptyFunction hnone, by simp, ?_⟩
      rw [hemit, hblank, function_eq_intercalate (by simp)]
      rfl
    | cons row rows =>
      have hsome : body.reduceOption ≠ [] := by
        intro hnone
        rw [hnone] at hlines
        cases hlines
      refine ⟨_, .function hsome hlines, by simp, ?_⟩
      rw [hemit, indent_append_lines, function_eq_intercalate (by simp)]

theorem emitItems_lines {slots : Slots} (h : ∀ n, some n ∈ slots → PlainItem n) :
    ∃ groups : List (List String), List.Forall₂ (ItemLines layout) slots.reduceOption groups ∧
      (∀ ls ∈ groups, ls ≠ []) ∧ (∀ l ∈ groups.flatten, '\n' ∉ l.toList) ∧
      emitItems layout slots = .ok (groups.map "\n".intercalate) := by
  have hplain : ∀ n ∈ slots.reduceOption, PlainItem n := fun n hn =>
    h n (List.reduceOption_mem_iff.1 hn)
  choose! ls hls hne hemit using fun n hn => emit_plainItem hindent (hplain n hn)
  refine ⟨slots.reduceOption.map ls, ?_, List.forall_mem_map.2 hne, ?_, ?_⟩
  · rw [List.forall₂_map_right_iff, List.forall₂_same]
    exact hls
  · rw [← List.flatMap_def]
    intro l hl
    obtain ⟨n, hn, hmem⟩ := List.mem_flatMap.1 hl
    exact newline_not_mem_itemLines hindent (hplain n hn) (hls n hn) l hmem
  · rw [emitItems_eq_mapM, mapM_eq_ok_map hemit, List.map_map]
    rfl

end

/-! ## Programs -/

theorem intercalate_flatten (separator : String) {groups : List (List String)}
    (h : ∀ ls ∈ groups, ls ≠ []) :
    separator.intercalate (groups.map separator.intercalate) =
      separator.intercalate groups.flatten := by
  induction groups with
  | nil => rfl
  | cons ls groups ih =>
    rw [List.forall_mem_cons] at h
    cases groups with
    | nil => simp
    | cons ls' groups =>
      have hne : (ls' :: groups).flatten ≠ [] := by
        rw [List.flatten_cons]
        exact List.append_ne_nil_of_left_ne_nil (h.2 ls' List.mem_cons_self) _
      rw [List.flatten_cons, String.intercalate_append_of_ne_nil h.1 hne, ← ih h.2, List.map_cons,
        String.intercalate_cons_of_ne_nil (by simp)]

theorem textLines_intercalate {ls : List String} (h : ∀ l ∈ ls, '\n' ∉ l.toList) (hne : ls ≠ []) :
    textLines ("\n".intercalate ls) = ls := by
  have hsplit := String.toList_split_intercalate h
  rw [if_neg hne] at hsplit
  exact hsplit

/-! ## Top theorem -/

/-- A program of imports and functions is written in lines: one for each import, and for each
function its signature, its statements with their terminators, and the closing brace. -/
theorem program_lines (layout : Layout) (body : Slots) (hindent : Lacks separators layout.indent)
    (hitems : ∀ n, some n ∈ body → PlainItem n) (hsome : ∃ n, some n ∈ body) :
    ∃ text groups, emit layout (.program body) = .ok text ∧
      List.Forall₂ (ItemLines layout) body.reduceOption groups ∧
      textLines text = groups.flatten := by
  obtain ⟨groups, hgroups, hne, hlines, hemit⟩ := emitItems_lines hindent hitems
  have hflatten : groups.flatten ≠ [] := by
    obtain ⟨n, hn⟩ := hsome
    cases hgroups' : groups with
    | nil =>
      rw [hgroups', List.forall₂_nil_right_iff] at hgroups
      rw [← List.reduceOption_mem_iff, hgroups] at hn
      cases hn
    | cons ls rest =>
      rw [List.flatten_cons]
      exact List.append_ne_nil_of_left_ne_nil (hne ls (by simp [hgroups'])) _
  refine ⟨"\n".intercalate groups.flatten, groups, ?_, hgroups,
    textLines_intercalate hlines hflatten⟩
  rw [emit, hemit, ← intercalate_flatten "\n" hne]
  rfl

/-- An import, a function with a statement of each kind and one without any. -/
theorem program_lines_three_items :
    let body : Slots := [some (.importDecl true "stdio.h"), none,
      some (.functionDecl "f" "ptr*int" [⟨"x", "int"⟩]
        [some (.variableDecl false "y" "int" (.literal "1")), none,
          some (.exprStmt (.call "g" [.identifier "y"])),
          some (.returnStmt (.binary (.identifier "x") "+" (.identifier "y")))]),
      some (.functionDecl "h" "void" [] [none])]
    let layout : Layout := ⟨"  ", .preserve⟩
    let ls := ["#include <stdio.h>", "int* f (int x) \x7b", "  const int y = 1;", "  g(y);;",
      "  return x + y;", "\x7d", "void h (void) \x7b", "  ", "\x7d"]
    Lacks separators layout.indent ∧ (∀ n, some n ∈ body → PlainItem n) ∧
      ∃ text groups, emit layout (.program body) = .ok text ∧ textLines text = ls ∧
        List.Forall₂ (ItemLines layout) body.reduceOption groups ∧ ls = groups.flatten := by
  intro body layout ls
  have hindent : Lacks separators layout.indent := by simp [layout, Lacks, separators]
  have hplain : ∀ s ∈ ["stdio.h", "f", "ptr*int", "x", "int", "y", "1", "g", "+", "h", "void"],
      Lacks separators s := by
    simp [Lacks, separators]
  simp only [List.forall_mem_cons, List.not_mem_nil, false_implies, implies_true] at hplain
  obtain ⟨hheader, hf, hpointer, hx, hint, hy, hone, hg, hplus, hh, hvoid, -⟩ := hplain
  have hdecl : PlainStatement (.variableDecl false "y" "int" (.literal "1")) :=
    .variableDecl false hy hint (.literal hone)
  have hcall : PlainStatement (.exprStmt (.call "g" [.identifier "y"])) :=
    .exprStmt (.call hg (by simp [PlainExpression.identifier hy]))
  have hreturn : PlainStatement (.returnStmt (.binary (.identifier "x") "+" (.identifier "y"))) :=
    .returnStmt (.binary (.identifier hx) hplus (.identifier hy))
  have hitems : ∀ n, some n ∈ body → PlainItem n := by
    intro n hn
    simp only [body, List.mem_cons, Option.some.injEq, reduceCtorEq, false_or, List.not_mem_nil,
      or_false] at hn
    rcases hn with rfl | rfl | rfl
    · exact .importDecl true hheader
    · exact .functionDecl hf hpointer (by simp [hx, hint]) (by simp [hdecl, hcall, hreturn])
    · exact .functionDecl hh hvoid (by simp) (by simp)
  obtain ⟨text, groups, hemit, hgroups, hlines⟩ := program_lines layout body hindent hitems
    ⟨_, List.mem_cons_self⟩
  have hcode : emit layout (.program body) = .ok ("\n".intercalate ls) := by decide
  have htext : text = "\n".intercalate ls := Except.ok.inj (hemit.symm.trans hcode)
  have hls : textLines text = ls := by
    rw [htext]
    exact textLines_intercalate (by simp [ls]) (by simp [ls])
  exact ⟨hindent, hitems, text, groups, hemit, hls, hgroups, hls.symm.trans hlines⟩

end SyntaxToC.Code
