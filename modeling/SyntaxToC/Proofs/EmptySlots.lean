import SyntaxToC.Proofs.Induction
import SyntaxToC.Proofs.Slots

/-!
# Empty slots

The bodies of programs, functions and blocks are lists of slots, and a slot may be empty.  `dense`
takes the empty ones out, at every depth: in the bodies of functions inside programs, and of blocks
inside arguments, operands and values.  Emission does not see the difference:

    emit layout t = emit layout t.dense                                   (emit_dense)

No separator, indent or terminator belongs to an empty slot, wherever it stands.
-/

namespace SyntaxToC.Tree

namespace Node

mutual

/-- The tree without its empty slots. -/
def dense : Node → Node
  | .program body => .program (denseSlots body)
  | .importDecl std value => .importDecl std value
  | .functionDecl name returnType params body =>
    .functionDecl name returnType params (denseSlots body)
  | .block body => .block (denseSlots body)
  | .returnStmt argument => .returnStmt argument.dense
  | .exprStmt expression => .exprStmt expression.dense
  | .variableDecl mutable name typing value => .variableDecl mutable name typing value.dense
  | .call callee arguments => .call callee (denseList arguments)
  | .binary left op right => .binary left.dense op right.dense
  | .literal text => .literal text
  | .identifier name => .identifier name
  | .unsupported tag => .unsupported tag

def denseSlots : Slots → Slots
  | [] => []
  | none :: slots => denseSlots slots
  | some n :: slots => some n.dense :: denseSlots slots

def denseList : List Node → List Node
  | [] => []
  | n :: nodes => n.dense :: denseList nodes

end

mutual

/-- How many slots of a tree are empty. -/
def emptySlots : Node → Nat
  | .program body => emptyIn body
  | .importDecl _ _ => 0
  | .functionDecl _ _ _ body => emptyIn body
  | .block body => emptyIn body
  | .returnStmt argument => argument.emptySlots
  | .exprStmt expression => expression.emptySlots
  | .variableDecl _ _ _ value => value.emptySlots
  | .call _ arguments => listEmptySlots arguments
  | .binary left _ right => left.emptySlots + right.emptySlots
  | .literal _ => 0
  | .identifier _ => 0
  | .unsupported _ => 0

def emptyIn : Slots → Nat
  | [] => 0
  | none :: slots => emptyIn slots + 1
  | some n :: slots => n.emptySlots + emptyIn slots

def listEmptySlots : List Node → Nat
  | [] => 0
  | n :: nodes => n.emptySlots + listEmptySlots nodes

end

/-! ## What is left -/

theorem reduceOption_denseSlots (slots : Slots) :
    (denseSlots slots).reduceOption = slots.reduceOption.map dense :=
  Slots.eq_map (fun slots => (denseSlots slots).reduceOption) rfl (fun _ => rfl) (fun _ _ => rfl)
    slots

theorem denseList_eq_map (nodes : List Node) : denseList nodes = nodes.map dense := by
  induction nodes with
  | nil => rfl
  | cons n nodes ih => rw [denseList, ih, List.map_cons]

theorem kind?_dense (n : Node) : n.dense.kind? = n.kind? := by
  cases n <;> rfl

theorem emptyIn_denseSlots {slots : Slots} (ih : ∀ n, some n ∈ slots → n.dense.emptySlots = 0) :
    emptyIn (denseSlots slots) = 0 := by
  induction slots with
  | nil => rfl
  | cons slot slots ihs =>
    have hrest := ihs fun n hn => ih n (List.mem_cons_of_mem slot hn)
    cases slot with
    | none => exact hrest
    | some n => rw [denseSlots, emptyIn, ih n List.mem_cons_self, hrest]

theorem listEmptySlots_denseList {nodes : List Node} (ih : ∀ n ∈ nodes, n.dense.emptySlots = 0) :
    listEmptySlots (denseList nodes) = 0 := by
  induction nodes with
  | nil => rfl
  | cons n nodes ihs =>
    have hrest := ihs fun m hm => ih m (List.mem_cons_of_mem n hm)
    rw [denseList, listEmptySlots, ih n List.mem_cons_self, hrest]

theorem emptySlots_dense (t : Node) : t.dense.emptySlots = 0 := by
  induction t with
  | program body ih => exact emptyIn_denseSlots ih
  | importDecl std value => rfl
  | functionDecl name returnType params body ih => exact emptyIn_denseSlots ih
  | block body ih => exact emptyIn_denseSlots ih
  | returnStmt argument ih => exact ih
  | exprStmt expression ih => exact ih
  | variableDecl mutable name typing value ih => exact ih
  | call callee arguments ih => exact listEmptySlots_denseList ih
  | binary left op right ihl ihr => rw [dense, emptySlots, ihl, ihr]
  | literal text => rfl
  | identifier name => rfl
  | unsupported tag => rfl

theorem denseSlots_of_emptyIn {slots : Slots} (h : emptyIn slots = 0)
    (ih : ∀ n, some n ∈ slots → n.emptySlots = 0 → n.dense = n) : denseSlots slots = slots := by
  induction slots with
  | nil => rfl
  | cons slot slots ihs =>
    cases slot with
    | none => exact absurd h (Nat.succ_ne_zero _)
    | some n =>
      obtain ⟨hn, hslots⟩ := Nat.add_eq_zero_iff.1 h
      have hrest := ihs hslots fun m hm => ih m (List.mem_cons_of_mem _ hm)
      rw [denseSlots, ih n List.mem_cons_self hn, hrest]

theorem denseList_of_listEmptySlots {nodes : List Node} (h : listEmptySlots nodes = 0)
    (ih : ∀ n ∈ nodes, n.emptySlots = 0 → n.dense = n) : denseList nodes = nodes := by
  induction nodes with
  | nil => rfl
  | cons n nodes ihs =>
    obtain ⟨hn, hnodes⟩ := Nat.add_eq_zero_iff.1 h
    have hrest := ihs hnodes fun m hm => ih m (List.mem_cons_of_mem n hm)
    rw [denseList, ih n List.mem_cons_self hn, hrest]

/-- Nothing but empty slots is taken out. -/
theorem dense_of_emptySlots {t : Node} (h : t.emptySlots = 0) : t.dense = t := by
  induction t with
  | program body ih => exact congrArg program (denseSlots_of_emptyIn h ih)
  | importDecl std value => rfl
  | functionDecl name returnType params body ih =>
    exact congrArg (functionDecl name returnType params) (denseSlots_of_emptyIn h ih)
  | block body ih => exact congrArg block (denseSlots_of_emptyIn h ih)
  | returnStmt argument ih => exact congrArg returnStmt (ih h)
  | exprStmt expression ih => exact congrArg exprStmt (ih h)
  | variableDecl mutable name typing value ih =>
    exact congrArg (variableDecl mutable name typing) (ih h)
  | call callee arguments ih => exact congrArg (call callee) (denseList_of_listEmptySlots h ih)
  | binary left op right ihl ihr =>
    obtain ⟨hl, hr⟩ := Nat.add_eq_zero_iff.1 h
    rw [dense, ihl hl, ihr hr]
  | literal text => rfl
  | identifier name => rfl
  | unsupported tag => rfl

end Node

end SyntaxToC.Tree

namespace SyntaxToC.Code

open SyntaxToC.Tree SyntaxToC.Outcome

/-! ## Lists -/

theorem terminator_dense (layout : Layout) (n : Node) :
    terminator layout n.dense = terminator layout n := by
  unfold terminator
  rw [Node.kind?_dense]

section

variable {layout : Layout}

theorem emitItems_dense {slots : Slots}
    (ih : ∀ n, some n ∈ slots → emit layout n = emit layout n.dense) :
    emitItems layout slots = emitItems layout (Node.denseSlots slots) := by
  rw [emitItems_eq_mapM, emitItems_eq_mapM, Node.reduceOption_denseSlots]
  exact mapM_map_congr fun n hn => ih n (List.reduceOption_mem_iff.1 hn)

theorem emitStatements_dense {slots : Slots}
    (ih : ∀ n, some n ∈ slots → emit layout n = emit layout n.dense) :
    emitStatements layout slots = emitStatements layout (Node.denseSlots slots) := by
  rw [emitStatements_eq_mapM, emitStatements_eq_mapM, Node.reduceOption_denseSlots]
  refine mapM_map_congr fun n hn => ?_
  rw [emitStatement, emitStatement, terminator_dense, ih n (List.reduceOption_mem_iff.1 hn)]

theorem emitArguments_dense {nodes : List Node}
    (ih : ∀ n ∈ nodes, emit layout n = emit layout n.dense) :
    emitArguments layout nodes = emitArguments layout (Node.denseList nodes) := by
  rw [emitArguments_eq_mapM, emitArguments_eq_mapM, Node.denseList_eq_map]
  exact mapM_map_congr ih

end

/-! ## Trees -/

theorem emit_dense (layout : Layout) (t : Node) : emit layout t = emit layout t.dense := by
  induction t with
  | program body ih => simp only [emit, Node.dense, emitItems_dense ih]
  | importDecl std value => rfl
  | functionDecl name returnType params body ih =>
    simp only [emit, Node.dense, emitStatements_dense ih]
  | block body ih => simp only [emit, Node.dense, emitStatements_dense ih]
  | returnStmt argument ih => simp only [emit, Node.dense, ih]
  | exprStmt expression ih => simp only [emit, Node.dense, ih]
  | variableDecl mutable name typing value ih => simp only [emit, Node.dense, ih]
  | call callee arguments ih => simp only [emit, Node.dense, emitArguments_dense ih]
  | binary left op right ihl ihr => simp only [emit, Node.dense, ihl, ihr]
  | literal text => rfl
  | identifier name => rfl
  | unsupported tag => rfl

/-! ## Top theorem -/

/-- Taking the empty slots out of a tree, all of them and nothing else, does not change what is
emitted; so trees that differ in their empty slots only have the same text or the same error. -/
theorem empty_slots_invisible (layout : Layout) (t : Node) :
    (t.dense.emptySlots = 0 ∧ (t.emptySlots = 0 → t.dense = t)) ∧
      emit layout t = emit layout t.dense ∧
      ∀ u : Node, t.dense = u.dense → emit layout t = emit layout u := by
  refine ⟨⟨Node.emptySlots_dense t, Node.dense_of_emptySlots⟩, emit_dense layout t, ?_⟩
  intro u hdense
  calc
    emit layout t = emit layout t.dense := emit_dense layout t
    _ = emit layout u.dense := by rw [hdense]
    _ = emit layout u := (emit_dense layout u).symm

/-- Gaps in front of, between and behind statements, in a body of nothing but gaps and in a block
among the arguments of a call; and an error behind a gap. -/
theorem empty_slots_invisible_nested :
    let x : Node := .exprStmt (.identifier "x")
    let holed : Node := .program
      [none, some (.functionDecl "f" "int" [] [none, some x, none, none, some x, none]), none,
        some (.functionDecl "g" "int" [] [none, none]),
        some (.call "h" [.block [none, some x, none]])]
    let packed : Node := .program
      [some (.functionDecl "f" "int" [] [some x, some x]), some (.functionDecl "g" "int" [] []),
        some (.call "h" [.block [some x]])]
    let text := "int f (void) \x7b\n\tx;;\n\tx;;\n\x7d\nint g (void) \x7b\n\t\n\x7d\nh(x;;)"
    let failing : Node := .block [none, some (.unsupported "Loop"), none]
    (packed.emptySlots = 0 ∧ packed.dense = packed) ∧
      (holed.dense = packed.dense ∧ emit {} packed = .ok text ∧ emit {} holed = .ok text) ∧
      emit {} failing = emit {} (.block [some (.unsupported "Loop")]) := by
  intro x holed packed text failing
  have hzero : packed.emptySlots = 0 := rfl
  have hpacked : packed.dense = packed := (empty_slots_invisible {} packed).1.2 hzero
  have hdense : holed.dense = packed.dense := rfl
  have htext : emit {} packed = .ok text := rfl
  have hholed : emit {} holed = emit {} packed :=
    (empty_slots_invisible {} holed).2.2 packed hdense
  exact ⟨⟨hzero, hpacked⟩, ⟨hdense, htext, hholed.trans htext⟩,
    (empty_slots_invisible {} failing).2.1⟩

end SyntaxToC.Code
