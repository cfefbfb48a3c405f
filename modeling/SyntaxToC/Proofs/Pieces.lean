import SyntaxToC.Proofs.Terminators

/-!
# The pieces of the generated code

The C text of a tree is put together from pieces: the texts that the tree stores, the indent, and
a small number of fixed marks.  `Node.pieces` lists them from left to right, and `Node.texts` lists
the texts of a tree in the order of its parts; types and callees stand there as C writes them.

    emit layout t = .ok text → text = written layout (t.pieces layout.terminators)
    stored (t.pieces terminators) = t.texts
-/

namespace SyntaxToC.Code

open SyntaxToC.Tree SyntaxToC.Outcome

/-! ## Pieces -/

/-- What the rules of emission write of their own. -/
inductive Mark where
  | systemOpen
  | systemClose
  | header
  | space
  | paramsOpen
  | comma
  | noParams
  | bodyOpen
  | bodyClose
  | returning
  | terminator
  | constant
  | assign
  | argumentsOpen
  | argumentsClose
  | newline
deriving DecidableEq, Repr

def Mark.text : Mark → String
  | .systemOpen => "#include <"
  | .systemClose => ">"
  | .header => "#include "
  | .space => " "
  | .paramsOpen => " ("
  | .comma => ", "
  | .noParams => "void"
  | .bodyOpen => ") \x7b\n"
  | .bodyClose => "\n\x7d"
  | .returning => "return "
  | .terminator => ";"
  | .constant => "const "
  | .assign => " = "
  | .argumentsOpen => "("
  | .argumentsClose => ")"
  | .newline => "\n"

inductive Piece where
  | stored (text : String)
  | indent
  | mark (m : Mark)
deriving DecidableEq, Repr

def Piece.text (layout : Layout) : Piece → String
  | .stored text => text
  | .indent => layout.indent
  | .mark m => m.text

/-- The text that pieces make up. -/
def written (layout : Layout) (ps : List Piece) : String := String.join (ps.map (Piece.text layout))

def Piece.stored? : Piece → Option String
  | .stored text => some text
  | _ => none

/-- The stored texts among the pieces, in order. -/
def stored (ps : List Piece) : List String := ps.filterMap Piece.stored?

def includePieces (std : Bool) (value : String) : List Piece :=
  if std then [.mark .systemOpen, .stored value, .mark .systemClose]
  else [.mark .header, .stored value]

def paramPieces (p : Param) : List Piece :=
  [.stored (typeText p.typing), .mark .space, .stored p.name]

def paramsPieces : List Param → List Piece
  | [] => [.mark .noParams]
  | ps => [.mark .comma].intercalate (ps.map paramPieces)

def signaturePieces (returnType name : String) (params : List Param) : List Piece :=
  [.stored (typeText returnType), .mark .space, .stored name, .mark .paramsOpen] ++
    paramsPieces params

def terminatorPieces (terminators : Terminators) (n : Node) : List Piece :=
  match terminators with
  | .preserve => [.mark .terminator]
  | .collapse => if n.isExprStmt then [] else [.mark .terminator]

/-- Statements of a block, one a line. -/
def linesPieces (statements : List (List Piece)) : List Piece :=
  [.mark .newline, .indent].intercalate statements

end SyntaxToC.Code

namespace SyntaxToC.Tree.Node

open SyntaxToC.Code

mutual

/-- The pieces of the C text of a tree, from left to right. -/
def pieces (terminators : Terminators) : Node → List Piece
  | .program body => [.mark .newline].intercalate (itemsPieces terminators body)
  | .importDecl std value => includePieces std value
  | .functionDecl name returnType params body =>
    signaturePieces returnType name params ++ [.mark .bodyOpen, .indent] ++
      linesPieces (statementsPieces terminators body) ++ [.mark .bodyClose]
  | .block body => linesPieces (statementsPieces terminators body)
  | .returnStmt argument => .mark .returning :: argument.pieces terminators
  | .exprStmt expression => expression.pieces terminators ++ [.mark .terminator]
  | .variableDecl mutable name typing value =>
    (if mutable then [] else [.mark .constant]) ++
      [.stored (typeText typing), .mark .space, .stored name, .mark .assign] ++
      value.pieces terminators
  | .call callee arguments =>
    [.stored (typeText callee), .mark .argumentsOpen] ++
      [.mark .comma].intercalate (argumentsPieces terminators arguments) ++ [.mark .argumentsClose]
  | .binary left op right =>
    left.pieces terminators ++ [.mark .space, .stored op, .mark .space] ++
      right.pieces terminators
  | .literal text => [.stored text]
  | .identifier name => [.stored name]
  | .unsupported _ => []

def itemsPieces (terminators : Terminators) : Slots → List (List Piece)
  | [] => []
  | none :: slots => itemsPieces terminators slots
  | some n :: slots => n.pieces terminators :: itemsPieces terminators slots

def statementsPieces (terminators : Terminators) : Slots → List (List Piece)
  | [] => []
  | none :: slots => statementsPieces terminators slots
  | some n :: slots =>
    (n.pieces terminators ++ terminatorPieces terminators n) :: statementsPieces terminators slots

def argumentsPieces (terminators : Terminators) : List Node → List (List Piece)
  | [] => []
  | n :: nodes => n.pieces terminators :: argumentsPieces terminators nodes

end

mutual

/-- The texts that a tree stores, in the order of its parts. -/
def texts : Node → List String
  | .program body => slotsTexts body
  | .importDecl _ value => [value]
  | .functionDecl name returnType params body =>
    [typeText returnType, name] ++ params.flatMap (fun p => [typeText p.typing, p.name]) ++
      slotsTexts body
  | .block body => slotsTexts body
  | .returnStmt argument => argument.texts
  | .exprStmt expression => expression.texts
  | .variableDecl _ name typing value => [typeText typing, name] ++ value.texts
  | .call callee arguments => typeText callee :: argumentsTexts arguments
  | .binary left op right => left.texts ++ [op] ++ right.texts
  | .literal text => [text]
  | .identifier name => [name]
  | .unsupported _ => []

def slotsTexts : Slots → List String
  | [] => []
  | none :: slots => slotsTexts slots
  | some n :: slots => n.texts ++ slotsTexts slots

def argumentsTexts : List Node → List String
  | [] => []
  | n :: nodes => n.texts ++ argumentsTexts nodes

end

theorem slotsTexts_eq_flatMap (slots : Slots) :
    slotsTexts slots = slots.reduceOption.flatMap texts :=
  Slots.eq_flatMap slotsTexts rfl (fun _ => rfl) (fun _ _ => rfl) slots

theorem argumentsTexts_eq_flatMap (nodes : List Node) :
    argumentsTexts nodes = nodes.flatMap texts := by
  induction nodes with
  | nil => rfl
  | cons n nodes ih => rw [argumentsTexts, ih, List.flatMap_cons]

end SyntaxToC.Tree.Node

namespace SyntaxToC.Code

open SyntaxToC.Tree SyntaxToC.Outcome

section

variable (terminators : Terminators)

/-- The pieces of a statement with those of its terminator. -/
def statementPieces (n : Node) : List Piece :=
  n.pieces terminators ++ terminatorPieces terminators n

theorem itemsPieces_eq_map (slots : Slots) :
    Node.itemsPieces terminators slots = slots.reduceOption.map (Node.pieces terminators) :=
  Slots.eq_map (Node.itemsPieces terminators) rfl (fun _ => rfl) (fun _ _ => rfl) slots

theorem statementsPieces_eq_map (slots : Slots) :
    Node.statementsPieces terminators slots =
      slots.reduceOption.map (statementPieces terminators) :=
  Slots.eq_map (Node.statementsPieces terminators) rfl (fun _ => rfl) (fun _ _ => rfl) slots

theorem argumentsPieces_eq_map (nodes : List Node) :
    Node.argumentsPieces terminators nodes = nodes.map (Node.pieces terminators) := by
  induction nodes with
  | nil => rfl
  | cons n nodes ih => rw [Node.argumentsPieces, ih, List.map_cons]

end

/-! ## The text of pieces -/

section

variable (layout : Layout)

@[simp] theorem written_nil : written layout [] = "" := String.join_nil

@[simp] theorem written_cons (p : Piece) (ps : List Piece) :
    written layout (p :: ps) = p.text layout ++ written layout ps := String.join_cons

@[simp] theorem written_append (ps qs : List Piece) :
    written layout (ps ++ qs) = written layout ps ++ written layout qs := by
  unfold written
  rw [List.map_append, String.join_append]

theorem written_intercalate (separator : List Piece) (lists : List (List Piece)) :
    written layout (separator.intercalate lists) =
      (written layout separator).intercalate (lists.map (written layout)) := by
  induction lists with
  | nil => simp
  | cons ps rest ih =>
    cases rest with
    | nil => simp
    | cons qs rest =>
      rw [List.intercalate_cons_cons, written_append, written_append, ih]
      simp only [List.map_cons, String.intercalate_cons_cons]

end

/-! ## Texts among pieces -/

@[simp] theorem stored_nil : stored [] = [] := rfl

@[simp] theorem stored_append (ps qs : List Piece) : stored (ps ++ qs) = stored ps ++ stored qs :=
  List.filterMap_append

@[simp] theorem stored_cons_stored (text : String) (ps : List Piece) :
    stored (.stored text :: ps) = text :: stored ps := rfl

@[simp] theorem stored_cons_mark (m : Mark) (ps : List Piece) :
    stored (.mark m :: ps) = stored ps := rfl

@[simp] theorem stored_cons_indent (ps : List Piece) : stored (.indent :: ps) = stored ps := rfl

/-- A separator that stores nothing leaves no trace. -/
theorem stored_intercalate {separator : List Piece} (h : stored separator = [])
    (lists : List (List Piece)) :
    stored (separator.intercalate lists) = lists.flatMap stored := by
  induction lists with
  | nil => rfl
  | cons ps rest ih =>
    cases rest with
    | nil => simp
    | cons qs rest =>
      rw [List.intercalate_cons_cons, stored_append, stored_append, h, ih, List.append_nil]
      rfl

/-! ## Parts of a node -/

section

variable (layout : Layout)

theorem written_includePieces (std : Bool) (value : String) :
    written layout (includePieces std value) = includeText std value := by
  unfold includePieces includeText
  cases std <;> simp [Piece.text, Mark.text, String.append_assoc]

theorem written_paramPieces (p : Param) : written layout (paramPieces p) = paramText p := by
  simp [paramPieces, paramText, Piece.text, Mark.text, String.append_assoc]

theorem written_paramsPieces (params : List Param) :
    written layout (paramsPieces params) = paramsText params := by
  cases params with
  | nil => simp [paramsPieces, paramsText, Piece.text, Mark.text]
  | cons p params =>
    have hparams : (p :: params).map (written layout ∘ paramPieces) = (p :: params).map paramText :=
      List.map_congr_left fun q _ => written_paramPieces layout q
    rw [paramsPieces, paramsText, written_intercalate, List.map_map, hparams]
    · simp [Piece.text, Mark.text]
    · intro h
      cases h
    · intro h
      cases h

theorem written_terminatorPieces (n : Node) :
    written layout (terminatorPieces layout.terminators n) = terminator layout n := by
  obtain ⟨indent, terminators⟩ := layout
  cases terminators with
  | preserve =>
    rw [terminator_preserve]
    simp [terminatorPieces, Piece.text, Mark.text]
  | collapse =>
    rw [terminator_collapse]
    unfold terminatorPieces
    cases n.isExprStmt <;> simp [Piece.text, Mark.text]

theorem written_linesPieces (statements : List (List Piece)) :
    written layout (linesPieces statements) = lines layout (statements.map (written layout)) := by
  rw [linesPieces, written_intercalate]
  simp [lines, Piece.text, Mark.text]

end

/-! ## Lists of nodes -/

section

variable {layout : Layout}

theorem emitItems_eq_written {slots : Slots} {texts : List String}
    (ih : ∀ n, some n ∈ slots → ∀ text, emit layout n = .ok text →
      text = written layout (n.pieces layout.terminators))
    (h : emitItems layout slots = .ok texts) :
    texts = (Node.itemsPieces layout.terminators slots).map (written layout) := by
  rw [emitItems_eq_mapM] at h
  rw [itemsPieces_eq_map, List.map_map]
  exact eq_map_of_mapM (fun n hn => ih n (List.reduceOption_mem_iff.1 hn)) h

theorem emitStatements_eq_written {slots : Slots} {texts : List String}
    (ih : ∀ n, some n ∈ slots → ∀ text, emit layout n = .ok text →
      text = written layout (n.pieces layout.terminators))
    (h : emitStatements layout slots = .ok texts) :
    texts = (Node.statementsPieces layout.terminators slots).map (written layout) := by
  rw [emitStatements_eq_mapM] at h
  rw [statementsPieces_eq_map, List.map_map]
  refine eq_map_of_mapM (fun n hn row hrow => ?_) h
  obtain ⟨text, htext, hterminated⟩ := bind_eq_ok_iff.1 hrow
  rw [← pure_eq_ok_iff.1 hterminated, ih n (List.reduceOption_mem_iff.1 hn) text htext]
  show _ = written layout (statementPieces layout.terminators n)
  rw [statementPieces, written_append, written_terminatorPieces]

theorem emitArguments_eq_written {nodes : List Node} {texts : List String}
    (ih : ∀ n ∈ nodes, ∀ text, emit layout n = .ok text →
      text = written layout (n.pieces layout.terminators))
    (h : emitArguments layout nodes = .ok texts) :
    texts = (Node.argumentsPieces layout.terminators nodes).map (written layout) := by
  rw [emitArguments_eq_mapM] at h
  rw [argumentsPieces_eq_map, List.map_map]
  exact eq_map_of_mapM ih h

end

/-! ## Trees -/

theorem emit_eq_written {layout : Layout} {t : Node} {text : String}
    (h : emit layout t = .ok text) : text = written layout (t.pieces layout.terminators) := by
  induction t generalizing text with
  | program body ih =>
    simp only [emit, bind_eq_ok_iff, pure_eq_ok_iff] at h
    obtain ⟨texts, htexts, rfl⟩ := h
    rw [Node.pieces, written_intercalate, ← emitItems_eq_written (fun n hn text => ih n hn) htexts]
    simp [Piece.text, Mark.text]
  | importDecl std value =>
    cases h
    exact (written_includePieces layout std value).symm
  | functionDecl name returnType params body ih =>
    simp only [emit, bind_eq_ok_iff, pure_eq_ok_iff] at h
    obtain ⟨texts, htexts, rfl⟩ := h
    have hopen : Mark.bodyOpen.text = ")" ++ " \x7b\n" := rfl
    rw [Node.pieces]
    simp only [written_append, written_linesPieces, written_cons, written_nil, signaturePieces,
      ← emitStatements_eq_written (fun n hn text => ih n hn) htexts, written_paramsPieces,
      Piece.text, hopen, signature, String.append_assoc, String.append_empty]
    rfl
  | block body ih =>
    simp only [emit, bind_eq_ok_iff, pure_eq_ok_iff] at h
    obtain ⟨texts, htexts, rfl⟩ := h
    rw [Node.pieces, written_linesPieces,
      ← emitStatements_eq_written (fun n hn text => ih n hn) htexts]
  | returnStmt argument ih =>
    simp only [emit, bind_eq_ok_iff, pure_eq_ok_iff] at h
    obtain ⟨text, htext, rfl⟩ := h
    rw [Node.pieces, written_cons, ← ih htext]
    rfl
  | exprStmt expression ih =>
    simp only [emit, bind_eq_ok_iff, pure_eq_ok_iff] at h
    obtain ⟨text, htext, rfl⟩ := h
    rw [Node.pieces, written_append, ← ih htext]
    simp [Piece.text, Mark.text]
  | variableDecl mutable name typing value ih =>
    simp only [emit, bind_eq_ok_iff, pure_eq_ok_iff] at h
    obtain ⟨text, htext, rfl⟩ := h
    rw [Node.pieces, written_append, written_append, ← ih htext]
    cases mutable <;> simp [Piece.text, Mark.text, String.append_assoc]
  | call callee arguments ih =>
    simp only [emit, bind_eq_ok_iff, pure_eq_ok_iff] at h
    obtain ⟨texts, htexts, rfl⟩ := h
    rw [Node.pieces, written_append, written_append, written_intercalate,
      ← emitArguments_eq_written (fun n hn text => ih n hn) htexts]
    simp [Piece.text, Mark.text, String.append_assoc]
  | binary left op right ihl ihr =>
    simp only [emit, bind_eq_ok_iff, pure_eq_ok_iff] at h
    obtain ⟨l, hl, r, hr, rfl⟩ := h
    rw [Node.pieces, written_append, written_append, ← ihl hl, ← ihr hr]
    simp [Piece.text, Mark.text, String.append_assoc]
  | literal text =>
    cases h
    simp [Node.pieces, Piece.text]
  | identifier name =>
    cases h
    simp [Node.pieces, Piece.text]
  | unsupported tag => cases h

/-! ## The texts of a tree -/

theorem stored_paramsPieces (params : List Param) :
    stored (paramsPieces params) = params.flatMap fun p => [typeText p.typing, p.name] := by
  cases params with
  | nil => rfl
  | cons p params =>
    have hcomma : stored [.mark .comma] = [] := rfl
    show stored ([.mark .comma].intercalate ((p :: params).map paramPieces)) = _
    rw [stored_intercalate hcomma, List.flatMap_map]
    rfl

theorem stored_terminatorPieces (terminators : Terminators) (n : Node) :
    stored (terminatorPieces terminators n) = [] := by
  unfold terminatorPieces
  cases terminators with
  | preserve => rfl
  | collapse => cases n.isExprStmt <;> rfl

theorem stored_linesPieces (statements : List (List Piece)) :
    stored (linesPieces statements) = statements.flatMap stored := by
  have hline : stored [.mark .newline, .indent] = [] := rfl
  exact stored_intercalate hline statements

section

variable {terminators : Terminators}

theorem stored_itemsPieces {slots : Slots}
    (ih : ∀ n, some n ∈ slots → stored (n.pieces terminators) = n.texts) :
    (Node.itemsPieces terminators slots).flatMap stored = Node.slotsTexts slots := by
  rw [itemsPieces_eq_map, Node.slotsTexts_eq_flatMap, List.flatMap_map]
  exact List.flatMap_congr fun n hn => ih n (List.reduceOption_mem_iff.1 hn)

theorem stored_statementsPieces {slots : Slots}
    (ih : ∀ n, some n ∈ slots → stored (n.pieces terminators) = n.texts) :
    (Node.statementsPieces terminators slots).flatMap stored = Node.slotsTexts slots := by
  rw [statementsPieces_eq_map, Node.slotsTexts_eq_flatMap, List.flatMap_map]
  refine List.flatMap_congr fun n hn => ?_
  rw [statementPieces, stored_append, stored_terminatorPieces, List.append_nil,
    ih n (List.reduceOption_mem_iff.1 hn)]

theorem stored_argumentsPieces {nodes : List Node}
    (ih : ∀ n ∈ nodes, stored (n.pieces terminators) = n.texts) :
    (Node.argumentsPieces terminators nodes).flatMap stored = Node.argumentsTexts nodes := by
  rw [argumentsPieces_eq_map, Node.argumentsTexts_eq_flatMap, List.flatMap_map]
  exact List.flatMap_congr ih

end

theorem stored_pieces (terminators : Terminators) (t : Node) :
    stored (t.pieces terminators) = t.texts := by
  have hnewline : stored [.mark .newline] = [] := rfl
  have hcomma : stored [.mark .comma] = [] := rfl
  induction t with
  | program body ih =>
    rw [Node.pieces, Node.texts, stored_intercalate hnewline, stored_itemsPieces ih]
  | importDecl std value => cases std <;> rfl
  | functionDecl name returnType params body ih =>
    rw [Node.pieces, Node.texts]
    simp only [stored_append, signaturePieces, stored_paramsPieces, stored_linesPieces,
      stored_statementsPieces ih, stored_cons_stored, stored_cons_mark, stored_cons_indent,
      stored_nil, List.append_nil]
  | block body ih => rw [Node.pieces, Node.texts, stored_linesPieces, stored_statementsPieces ih]
  | returnStmt argument ih => exact ih
  | exprStmt expression ih =>
    rw [Node.pieces, Node.texts, stored_append, ih]
    exact List.append_nil _
  | variableDecl mutable name typing value ih =>
    rw [Node.pieces, Node.texts, stored_append, stored_append, ih]
    cases mutable <;> rfl
  | call callee arguments ih =>
    rw [Node.pieces, Node.texts, stored_append, stored_append, stored_intercalate hcomma,
      stored_argumentsPieces ih]
    exact List.append_nil _
  | binary left op right ihl ihr =>
    rw [Node.pieces, Node.texts, stored_append, stored_append, ihl, ihr]
    rfl
  | literal text => rfl
  | identifier name => rfl
  | unsupported tag => rfl

/-! ## Top theorem -/

/-- The C text of a tree is made up of the texts of the tree, each of them once and in the order of
its parts, with the indent and fixed marks in between. -/
theorem emit_keeps_texts (layout : Layout) (t : Node) (text : String)
    (h : emit layout t = .ok text) :
    ∃ ps : List Piece, text = written layout ps ∧ stored ps = t.texts :=
  ⟨t.pieces layout.terminators, emit_eq_written h, stored_pieces layout.terminators t⟩

/-- A program in which every rule of emission has its part. -/
theorem emit_keeps_texts_program :
    let t : Node := .program [some (.importDecl true "stdio.h"), none,
      some (.importDecl false "f"),
      some (.functionDecl "f" "ptr*int" [⟨"x", "int"⟩, ⟨"y", "p*char"⟩]
        [some (.variableDecl false "z" "int" (.binary (.identifier "x") "+" (.literal "1"))), none,
          some (.exprStmt (.call "p*g" [.identifier "z", .literal "2"])),
          some (.returnStmt (.literal "0"))])]
    let layout : Layout := ⟨" ", .collapse⟩
    ∃ text ps, emit layout t = .ok text ∧ text = written layout ps ∧
      stored ps = ["stdio.h", "f", "int*", "f", "int", "x", "char*", "y", "int", "z", "x", "+", "1",
        "g*", "z", "2", "0"] := by
  intro t layout
  have htext : emit layout t = .ok _ := rfl
  obtain ⟨ps, hwritten, hstored⟩ := emit_keeps_texts layout t _ htext
  exact ⟨_, ps, htext, hwritten, hstored⟩

end SyntaxToC.Code
