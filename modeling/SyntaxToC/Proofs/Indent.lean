import Mathlib.Algebra.Ring.Nat
import SyntaxToC.Proofs.Pieces
import SyntaxToC.Proofs.Unsupported

/-!
# The indent

Emission puts the indent of the layout in front of lines and never looks into it.  So the text of
a tree falls into segments, which are the same under every indent:

    emit ⟨indent, terminators⟩ t = .ok (indent.intercalate (segments (t.pieces terminators)))

A function has an indent in front of its body, and every body, of a function or of a block, has one
in front of each further statement (`Node.indentPlaces`).  An indent begins a line (`IndentsLines`):
each segment but the last one ends in a line break.
-/

namespace SyntaxToC.Tree

/-- The statements of a body that do not stand on its first line. -/
def furtherLines (body : Slots) : Nat := body.reduceOption.length - 1

namespace Node

def isFunction : Node → Bool
  | .functionDecl _ _ _ _ => true
  | _ => false

/-- The body of a function or a block. -/
def body? : Node → Option Slots
  | .functionDecl _ _ _ body => some body
  | .block body => some body
  | _ => none

mutual

/-- The nodes below a node, at every depth. -/
def descendants : Node → List Node
  | .program body => slotsNodes body
  | .importDecl _ _ => []
  | .functionDecl _ _ _ body => slotsNodes body
  | .block body => slotsNodes body
  | .returnStmt argument => argument :: argument.descendants
  | .exprStmt expression => expression :: expression.descendants
  | .variableDecl _ _ _ value => value :: value.descendants
  | .call _ arguments => listNodes arguments
  | .binary left _ right => (left :: left.descendants) ++ (right :: right.descendants)
  | .literal _ => []
  | .identifier _ => []
  | .unsupported _ => []

def slotsNodes : Slots → List Node
  | [] => []
  | none :: slots => slotsNodes slots
  | some n :: slots => (n :: n.descendants) ++ slotsNodes slots

def listNodes : List Node → List Node
  | [] => []
  | n :: nodes => (n :: n.descendants) ++ listNodes nodes

end

/-- All nodes of a tree. -/
def nodes (t : Node) : List Node := t :: t.descendants

/-- The places of the indent among the given nodes: one for each function, and one for each further
statement of a body. -/
def placesIn (ns : List Node) : Nat :=
  ns.countP isFunction + ((ns.filterMap body?).map furtherLines).sum

/-- How often the indent stands in the text of a tree. -/
def indentPlaces (t : Node) : Nat := placesIn t.nodes

end Node

end SyntaxToC.Tree

namespace SyntaxToC.Code

open SyntaxToC.Tree SyntaxToC.Outcome

/-! ## Segments -/

/-- The text of pieces, cut at the indents. -/
def segments : List Piece → List String
  | [] => [""]
  | .indent :: ps => "" :: segments ps
  | .stored text :: ps => (segments ps).modifyHead (text ++ ·)
  | .mark m :: ps => (segments ps).modifyHead (m.text ++ ·)

theorem exists_segments_eq_cons (ps : List Piece) : ∃ s rest, segments ps = s :: rest := by
  induction ps with
  | nil => exact ⟨_, _, rfl⟩
  | cons p ps ih =>
    obtain ⟨s, rest, h⟩ := ih
    cases p with
    | indent => exact ⟨_, _, rfl⟩
    | stored text => exact ⟨_, _, by rw [segments, h, List.modifyHead_cons]⟩
    | mark m => exact ⟨_, _, by rw [segments, h, List.modifyHead_cons]⟩

/-- A piece that is not the indent belongs to the segment behind it. -/
theorem segments_cons {p : Piece} (h : p ≠ .indent) (layout : Layout) (ps : List Piece) :
    segments (p :: ps) = (segments ps).modifyHead (p.text layout ++ ·) := by
  cases p with
  | indent => exact absurd rfl h
  | stored text => rfl
  | mark m => rfl

theorem written_eq_intercalate (layout : Layout) (ps : List Piece) :
    written layout ps = layout.indent.intercalate (segments ps) := by
  induction ps with
  | nil => simp [segments]
  | cons p ps ih =>
    obtain ⟨s, rest, hsegments⟩ := exists_segments_eq_cons ps
    rw [written_cons, ih]
    by_cases hp : p = .indent
    · subst hp
      have hne : segments ps ≠ [] := by simp [hsegments]
      rw [segments, String.intercalate_cons_of_ne_nil hne, String.empty_append]
      rfl
    · rw [segments_cons hp layout, hsegments, List.modifyHead_cons,
        String.intercalate_cons_append]

theorem length_segments (ps : List Piece) : (segments ps).length = ps.count .indent + 1 := by
  induction ps with
  | nil => rfl
  | cons p ps ih =>
    by_cases hp : p = .indent
    · subst hp
      rw [segments, List.length_cons, ih, List.count_cons_self]
    · rw [segments_cons hp {}, List.length_modifyHead, ih, List.count_cons_of_ne hp]

theorem length_intercalate (separator s : String) (rest : List String) :
    (separator.intercalate (s :: rest)).length =
      (String.join (s :: rest)).length + rest.length * separator.length := by
  induction rest generalizing s with
  | nil => simp
  | cons s' rest ih =>
    have hrest := ih s'
    simp only [String.intercalate_cons_cons, String.join_cons, String.length_append,
      List.length_cons, Nat.succ_mul] at hrest ⊢
    omega

/-! ## Indents begin lines -/

/-- The marks that end a line. -/
def Mark.endsLine : Mark → Bool
  | .bodyOpen => true
  | .newline => true
  | _ => false

/-- Every indent among the pieces follows a mark that ends a line. -/
inductive IndentsLines : List Piece → Prop
  | nil : IndentsLines []
  | cons {p : Piece} {ps : List Piece} : p ≠ .indent → IndentsLines ps → IndentsLines (p :: ps)
  | line {m : Mark} {ps : List Piece} :
      m.endsLine → IndentsLines ps → IndentsLines (.mark m :: .indent :: ps)

namespace IndentsLines

theorem append {ps qs : List Piece} (hps : IndentsLines ps) (hqs : IndentsLines qs) :
    IndentsLines (ps ++ qs) := by
  induction hps with
  | nil => exact hqs
  | cons hp _ ih => exact .cons hp ih
  | line hm _ ih => exact .line hm ih

theorem of_not_mem {ps : List Piece} (h : .indent ∉ ps) : IndentsLines ps := by
  induction ps with
  | nil => exact .nil
  | cons p ps ih =>
    rw [List.mem_cons, not_or] at h
    exact .cons (Ne.symm h.1) (ih h.2)

theorem intercalate {separator : List Piece} (hseparator : IndentsLines separator)
    {lists : List (List Piece)} (h : ∀ ps ∈ lists, IndentsLines ps) :
    IndentsLines (separator.intercalate lists) := by
  induction lists with
  | nil => exact .nil
  | cons ps rest ih =>
    rw [List.forall_mem_cons] at h
    cases rest with
    | nil => simpa using h.1
    | cons qs rest =>
      rw [List.intercalate_cons_cons]
      exact (h.1.append hseparator).append (ih h.2)

end IndentsLines

theorem exists_line_of_endsLine {m : Mark} (h : m.endsLine) : ∃ line, m.text = line ++ "\n" := by
  cases m with
  | bodyOpen => exact ⟨") \x7b", rfl⟩
  | newline => exact ⟨"", rfl⟩
  | _ => cases h

/-- What is in front of an indent is a whole line. -/
theorem segments_dropLast {ps : List Piece} (h : IndentsLines ps) :
    ∀ s ∈ (segments ps).dropLast, ∃ line, s = line ++ "\n" := by
  induction h with
  | nil => simp [segments]
  | @cons p ps hp _ ih =>
    obtain ⟨s, rest, hsegments⟩ := exists_segments_eq_cons ps
    rw [segments_cons hp {}, hsegments, List.modifyHead_cons]
    rw [hsegments] at ih
    cases rest with
    | nil => simp
    | cons s' rest =>
      rw [List.dropLast_cons_cons, List.forall_mem_cons] at ih ⊢
      obtain ⟨⟨line, rfl⟩, hrest⟩ := ih
      exact ⟨⟨p.text {} ++ line, by rw [String.append_assoc]⟩, hrest⟩
  | @line m ps hm _ ih =>
    obtain ⟨s, rest, hsegments⟩ := exists_segments_eq_cons ps
    obtain ⟨line, hline⟩ := exists_line_of_endsLine hm
    have hcut : segments (.mark m :: .indent :: ps) = m.text :: segments ps := by
      simp [segments]
    rw [hcut, hsegments, List.dropLast_cons_cons, List.forall_mem_cons, ← hsegments]
    exact ⟨⟨line, hline⟩, ih⟩

/-! ## Lists of nodes -/

theorem slotsNodes_eq_flatMap (slots : Slots) :
    Node.slotsNodes slots = slots.reduceOption.flatMap Node.nodes :=
  Slots.eq_flatMap Node.slotsNodes rfl (fun _ => rfl) (fun _ _ => rfl) slots

theorem listNodes_eq_flatMap (nodes : List Node) :
    Node.listNodes nodes = nodes.flatMap Node.nodes := by
  induction nodes with
  | nil => rfl
  | cons n nodes ih =>
    rw [Node.listNodes, ih, List.flatMap_cons]
    rfl

/-! ## Counting indents -/

theorem count_intercalate (p : Piece) (separator : List Piece) (lists : List (List Piece)) :
    (separator.intercalate lists).count p =
      (lists.map (List.count p)).sum + (lists.length - 1) * separator.count p := by
  induction lists with
  | nil => simp
  | cons ps rest ih =>
    cases rest with
    | nil => simp
    | cons qs rest =>
      have hlength : (ps :: qs :: rest).length - 1 = (qs :: rest).length - 1 + 1 := by simp
      have hsum : ((ps :: qs :: rest).map (List.count p)).sum =
          ps.count p + ((qs :: rest).map (List.count p)).sum := by simp
      rw [List.intercalate_cons_cons, List.count_append, List.count_append, ih, hlength, hsum,
        Nat.succ_mul]
      omega

theorem count_signaturePieces (returnType name : String) (params : List Param) :
    (signaturePieces returnType name params).count .indent = 0 := by
  have hparam : ∀ p : Param, (paramPieces p).count .indent = 0 := by
    intro p
    simp [paramPieces]
  have hparams : (paramsPieces params).count .indent = 0 := by
    cases params with
    | nil => simp [paramsPieces]
    | cons p params =>
      show ([Piece.mark .comma].intercalate ((p :: params).map paramPieces)).count .indent = 0
      rw [count_intercalate]
      simp [hparam, Function.comp_def]
  simp [signaturePieces, hparams]

theorem count_terminatorPieces (terminators : Terminators) (n : Node) :
    (terminatorPieces terminators n).count .indent = 0 := by
  unfold terminatorPieces
  cases terminators with
  | preserve => simp
  | collapse => cases n.isExprStmt <;> simp

/-- A line begins with an indent, except for the first one. -/
theorem count_linesPieces (statements : List (List Piece)) :
    (linesPieces statements).count .indent =
      (statements.map (List.count .indent)).sum + (statements.length - 1) := by
  rw [linesPieces, count_intercalate]
  simp

theorem placesIn_append (ms ns : List Node) :
    Node.placesIn (ms ++ ns) = Node.placesIn ms + Node.placesIn ns := by
  unfold Node.placesIn
  rw [List.countP_append, List.filterMap_append, List.map_append, List.sum_append]
  omega

theorem placesIn_flatMap_nodes (ns : List Node) :
    Node.placesIn (ns.flatMap Node.nodes) = (ns.map Node.indentPlaces).sum := by
  induction ns with
  | nil => rfl
  | cons n ns ih =>
    rw [List.flatMap_cons, placesIn_append, ih, List.map_cons, List.sum_cons]
    rfl

theorem indentPlaces_of_body {t : Node} (h : t.body? = none) :
    t.indentPlaces = Node.placesIn t.descendants := by
  have hnone : Node.placesIn [t] = 0 := by
    cases t with
    | functionDecl _ _ _ _ => cases h
    | block _ => cases h
    | _ => rfl
  have hsplit := placesIn_append [t] t.descendants
  rw [hnone, Nat.zero_add] at hsplit
  exact hsplit

theorem indentPlaces_functionDecl (name returnType : String) (params : List Param) (body : Slots) :
    (Node.functionDecl name returnType params body).indentPlaces =
      1 + furtherLines body + Node.placesIn (Node.slotsNodes body) :=
  placesIn_append [.functionDecl name returnType params body] (Node.slotsNodes body)

theorem indentPlaces_block (body : Slots) :
    (Node.block body).indentPlaces = furtherLines body + Node.placesIn (Node.slotsNodes body) := by
  have hsplit := placesIn_append [.block body] (Node.slotsNodes body)
  have hblock : Node.placesIn [.block body] = furtherLines body := Nat.zero_add _
  rw [hblock] at hsplit
  exact hsplit

section

variable {terminators : Terminators} {body : Slots}

theorem sum_count_items
    (ih : ∀ n, some n ∈ body → (n.pieces terminators).count .indent = n.indentPlaces) :
    ((Node.itemsPieces terminators body).map (List.count .indent)).sum =
      Node.placesIn (Node.slotsNodes body) := by
  rw [slotsNodes_eq_flatMap, placesIn_flatMap_nodes, itemsPieces_eq_map, List.map_map]
  congr 1
  apply List.map_congr_left
  intro n hn
  exact ih n (List.reduceOption_mem_iff.1 hn)

theorem count_lines
    (ih : ∀ n, some n ∈ body → (n.pieces terminators).count .indent = n.indentPlaces) :
    (linesPieces (Node.statementsPieces terminators body)).count .indent =
      furtherLines body + Node.placesIn (Node.slotsNodes body) := by
  rw [slotsNodes_eq_flatMap, placesIn_flatMap_nodes, statementsPieces_eq_map, count_linesPieces,
    List.map_map, List.length_map, Nat.add_comm, furtherLines]
  congr 2
  apply List.map_congr_left
  intro n hn
  show (statementPieces terminators n).count .indent = n.indentPlaces
  rw [statementPieces, List.count_append, count_terminatorPieces, Nat.add_zero]
  exact ih n (List.reduceOption_mem_iff.1 hn)

end

theorem count_pieces (terminators : Terminators) (t : Node) :
    (t.pieces terminators).count .indent = t.indentPlaces := by
  induction t with
  | program body ih =>
    rw [Node.pieces, count_intercalate, sum_count_items ih, indentPlaces_of_body rfl]
    simp [Node.descendants]
  | importDecl std value => cases std <;> rfl
  | functionDecl name returnType params body ih =>
    have hopen : [Piece.mark .bodyOpen, .indent].count .indent = 1 := rfl
    have hclose : [Piece.mark .bodyClose].count .indent = 0 := rfl
    rw [Node.pieces, indentPlaces_functionDecl, List.count_append, List.count_append,
      List.count_append, count_signaturePieces, hopen, count_lines ih, hclose]
    omega
  | block body ih => rw [Node.pieces, indentPlaces_block, count_lines ih]
  | returnStmt argument ih =>
    rw [indentPlaces_of_body rfl, Node.pieces, List.count_cons_of_ne (by decide), ih]
    rfl
  | exprStmt expression ih =>
    rw [indentPlaces_of_body rfl, Node.pieces, List.count_append, ih]
    rfl
  | variableDecl mutable name typing value ih =>
    rw [indentPlaces_of_body rfl, Node.pieces, List.count_append, List.count_append, ih]
    cases mutable <;> exact Nat.zero_add _
  | call callee arguments ih =>
    have harguments : (Node.argumentsPieces terminators arguments).map (List.count .indent) =
        arguments.map Node.indentPlaces := by
      rw [argumentsPieces_eq_map, List.map_map]
      exact List.map_congr_left ih
    rw [indentPlaces_of_body rfl, Node.descendants, listNodes_eq_flatMap, placesIn_flatMap_nodes,
      Node.pieces, List.count_append, List.count_append, count_intercalate, harguments]
    simp
  | binary left op right ihl ihr =>
    have hop : [Piece.mark .space, .stored op, .mark .space].count .indent = 0 := rfl
    rw [indentPlaces_of_body rfl, Node.descendants, placesIn_append, Node.pieces,
      List.count_append, List.count_append, ihl, ihr, hop]
    rfl
  | literal text => rfl
  | identifier name => rfl
  | unsupported tag => rfl

/-! ## Where the indents of a tree stand -/

theorem indentsLines_of_count {ps : List Piece} (h : ps.count .indent = 0) : IndentsLines ps :=
  .of_not_mem (List.count_eq_zero.1 h)

theorem indentsLines_lines {terminators : Terminators} {body : Slots}
    (ih : ∀ n, some n ∈ body → IndentsLines (n.pieces terminators)) :
    IndentsLines (linesPieces (Node.statementsPieces terminators body)) := by
  apply IndentsLines.intercalate (.line rfl .nil)
  rw [statementsPieces_eq_map, List.forall_mem_map]
  intro n hn
  have hterminator := indentsLines_of_count (count_terminatorPieces terminators n)
  exact (ih n (List.reduceOption_mem_iff.1 hn)).append hterminator

theorem indentsLines_pieces (terminators : Terminators) (t : Node) :
    IndentsLines (t.pieces terminators) := by
  induction t with
  | program body ih =>
    rw [Node.pieces, itemsPieces_eq_map]
    apply IndentsLines.intercalate (.of_not_mem (by simp))
    rw [List.forall_mem_map]
    intro n hn
    exact ih n (List.reduceOption_mem_iff.1 hn)
  | importDecl std value => exact indentsLines_of_count (count_pieces terminators _)
  | functionDecl name returnType params body ih =>
    have hsignature := indentsLines_of_count (count_signaturePieces returnType name params)
    have hclose : IndentsLines [.mark .bodyClose] := .of_not_mem (by simp)
    exact ((hsignature.append (.line rfl .nil)).append (indentsLines_lines ih)).append hclose
  | block body ih => exact indentsLines_lines ih
  | returnStmt argument ih => exact .cons (by decide) ih
  | exprStmt expression ih => exact ih.append (.of_not_mem (by simp))
  | variableDecl mutable name typing value ih =>
    refine IndentsLines.append (.of_not_mem ?_) ih
    cases mutable <;> simp
  | call callee arguments ih =>
    have hcomma : IndentsLines [.mark .comma] := .of_not_mem (by simp)
    have harguments : IndentsLines
        ([.mark .comma].intercalate (Node.argumentsPieces terminators arguments)) := by
      apply hcomma.intercalate
      rw [argumentsPieces_eq_map, List.forall_mem_map]
      exact ih
    have hopen : IndentsLines [.stored (typeText callee), .mark .argumentsOpen] :=
      .of_not_mem (by simp)
    exact (hopen.append harguments).append (.of_not_mem (by simp))
  | binary left op right ihl ihr => exact (ihl.append (.of_not_mem (by simp))).append ihr
  | literal text => exact .of_not_mem (by simp [Node.pieces])
  | identifier name => exact .of_not_mem (by simp [Node.pieces])
  | unsupported tag => exact .nil

/-! ## Top theorem -/

/-- The text of a tree is made of segments that the indent has no part in, with the indent between
them and each time in front of a line. -/
theorem emit_intercalates_indent (t : Node) (terminators : Terminators)
    (h : ∃ indent text, emit ⟨indent, terminators⟩ t = .ok text) :
    ∃ parts : List String,
      parts.length = t.indentPlaces + 1 ∧
      (∀ s ∈ parts.dropLast, ∃ line, s = line ++ "\n") ∧
      ∀ indent : String, ∃ text,
        emit ⟨indent, terminators⟩ t = .ok text ∧ text = indent.intercalate parts ∧
          text.length = (String.join parts).length + t.indentPlaces * indent.length := by
  obtain ⟨indent₀, text₀, h₀⟩ := h
  have htags := (exists_emit_eq_ok_iff ⟨indent₀, terminators⟩ t).1 ⟨text₀, h₀⟩
  have hlength := length_segments (t.pieces terminators)
  rw [count_pieces] at hlength
  refine ⟨segments (t.pieces terminators), hlength,
    segments_dropLast (indentsLines_pieces terminators t), ?_⟩
  intro indent
  obtain ⟨text, htext⟩ := (exists_emit_eq_ok_iff ⟨indent, terminators⟩ t).2 htags
  have hwritten : text = indent.intercalate (segments (t.pieces terminators)) := by
    rw [emit_eq_written htext, written_eq_intercalate]
  refine ⟨text, htext, hwritten, ?_⟩
  obtain ⟨s, rest, hsegments⟩ := exists_segments_eq_cons (t.pieces terminators)
  rw [hsegments] at hlength
  have hrest : rest.length = t.indentPlaces := by simpa using hlength
  rw [hwritten, hsegments, length_intercalate, hrest]

/-- A function with another one and a block among the arguments of a call: two indents for the
functions and one for the second statement of each of two bodies. -/
theorem emit_intercalates_indent_nested :
    let t : Node := .functionDecl "f" "int" []
      [some (.exprStmt (.call "g"
          [.functionDecl "h" "int" [] [none], .block [some (.literal "1"), none,
            some (.literal "2")]])),
        none, some (.returnStmt (.literal "0"))]
    let text := "int f (void) \x7b\n--g(int h (void) \x7b\n--\n\x7d, 1;\n--2;);;\n--return 0;\n\x7d"
    emit ⟨"--", .preserve⟩ t = .ok text ∧ t.indentPlaces = 4 ∧
      ∃ parts : List String, parts.length = 5 ∧ text = "--".intercalate parts ∧
        (∀ s ∈ parts.dropLast, ∃ line, s = line ++ "\n") ∧
        ∀ indent, emit ⟨indent, .preserve⟩ t = .ok (indent.intercalate parts) := by
  intro t text
  have htext : emit ⟨"--", .preserve⟩ t = .ok text := rfl
  have hplaces : t.indentPlaces = 4 := rfl
  obtain ⟨parts, hlength, hlines, hall⟩ :=
    emit_intercalates_indent t .preserve ⟨"--", text, htext⟩
  have hindent : ∀ indent, emit ⟨indent, .preserve⟩ t = .ok (indent.intercalate parts) := by
    intro indent
    obtain ⟨_, hemit, rfl, -⟩ := hall indent
    exact hemit
  have hsame : text = "--".intercalate parts :=
    Except.ok.inj (htext.symm.trans (hindent "--"))
  exact ⟨htext, hplaces, parts, by rw [hlength, hplaces], hsame, hlines, hindent⟩

end SyntaxToC.Code
