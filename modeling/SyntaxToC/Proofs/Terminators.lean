import SyntaxToC.Proofs.Induction
import SyntaxToC.Proofs.Slots

/-!
# The two terminator policies

A block puts a terminator behind an expression statement that already has one, or leaves it out.
Which of the two is a matter of the layout, and the layouts differ in nothing else: keeping both
terminators is writing a tree in which each such statement is wrapped once more (`Node.double`),
and writing a single one takes one `;` away for each of them (`Node.expressionSlots`).

    emit ⟨indent, .preserve⟩ t = emit ⟨indent, .collapse⟩ t.double          (emit_double)
    emit ⟨indent, .collapse⟩ t is emit ⟨indent, .preserve⟩ t
      less t.expressionSlots terminators                                    (emit_trimmed)

Only the kind of the statement counts, and only in a slot of a block or a function: an expression
statement among the items of a program, the arguments of a call or inside another statement has
no second terminator to lose.
-/

namespace SyntaxToC.Tree

namespace Node

/-- An expression statement wrapped in another one; other nodes as they are. -/
def wrapped : Node → Node
  | .exprStmt expression => .exprStmt (.exprStmt expression)
  | n => n

def isExprStmt : Node → Bool
  | .exprStmt _ => true
  | _ => false

mutual

/-- The tree with the expression statements in the slots of its blocks and functions wrapped once
more, at every depth. -/
def double : Node → Node
  | .program body => .program (doubleItems body)
  | .importDecl std value => .importDecl std value
  | .functionDecl name returnType params body =>
    .functionDecl name returnType params (doubleStatements body)
  | .block body => .block (doubleStatements body)
  | .returnStmt argument => .returnStmt argument.double
  | .exprStmt expression => .exprStmt expression.double
  | .variableDecl mutable name typing value => .variableDecl mutable name typing value.double
  | .call callee arguments => .call callee (doubleArguments arguments)
  | .binary left op right => .binary left.double op right.double
  | .literal text => .literal text
  | .identifier name => .identifier name
  | .unsupported tag => .unsupported tag

def doubleItems : Slots → Slots
  | [] => []
  | none :: slots => none :: doubleItems slots
  | some n :: slots => some n.double :: doubleItems slots

def doubleStatements : Slots → Slots
  | [] => []
  | none :: slots => none :: doubleStatements slots
  | some n :: slots => some n.double.wrapped :: doubleStatements slots

def doubleArguments : List Node → List Node
  | [] => []
  | n :: nodes => n.double :: doubleArguments nodes

end

mutual

/-- How many slots of the blocks and functions in a tree hold an expression statement. -/
def expressionSlots : Node → Nat
  | .program body => itemsExpressionSlots body
  | .importDecl _ _ => 0
  | .functionDecl _ _ _ body => statementsExpressionSlots body
  | .block body => statementsExpressionSlots body
  | .returnStmt argument => argument.expressionSlots
  | .exprStmt expression => expression.expressionSlots
  | .variableDecl _ _ _ value => value.expressionSlots
  | .call _ arguments => argumentsExpressionSlots arguments
  | .binary left _ right => left.expressionSlots + right.expressionSlots
  | .literal _ => 0
  | .identifier _ => 0
  | .unsupported _ => 0

def itemsExpressionSlots : Slots → Nat
  | [] => 0
  | none :: slots => itemsExpressionSlots slots
  | some n :: slots => n.expressionSlots + itemsExpressionSlots slots

def statementsExpressionSlots : Slots → Nat
  | [] => 0
  | none :: slots => statementsExpressionSlots slots
  | some n :: slots => n.expressionSlots + n.isExprStmt.toNat + statementsExpressionSlots slots

def argumentsExpressionSlots : List Node → Nat
  | [] => 0
  | n :: nodes => n.expressionSlots + argumentsExpressionSlots nodes

end

/-! ## Lists -/

theorem reduceOption_doubleItems (slots : Slots) :
    (doubleItems slots).reduceOption = slots.reduceOption.map double :=
  Slots.eq_map (fun slots => (doubleItems slots).reduceOption) rfl (fun _ => rfl)
    (fun _ _ => rfl) slots

theorem reduceOption_doubleStatements (slots : Slots) :
    (doubleStatements slots).reduceOption = slots.reduceOption.map fun n => n.double.wrapped :=
  Slots.eq_map (fun slots => (doubleStatements slots).reduceOption) rfl (fun _ => rfl)
    (fun _ _ => rfl) slots

theorem doubleArguments_eq_map (nodes : List Node) : doubleArguments nodes = nodes.map double := by
  induction nodes with
  | nil => rfl
  | cons n nodes ih => rw [doubleArguments, ih, List.map_cons]

theorem itemsExpressionSlots_eq_sum (slots : Slots) :
    itemsExpressionSlots slots = (slots.reduceOption.map expressionSlots).sum :=
  Slots.eq_sum itemsExpressionSlots rfl (fun _ => rfl) (fun _ _ => rfl) slots

theorem statementsExpressionSlots_eq_sum (slots : Slots) :
    statementsExpressionSlots slots =
      (slots.reduceOption.map fun n => n.expressionSlots + n.isExprStmt.toNat).sum :=
  Slots.eq_sum statementsExpressionSlots rfl (fun _ => rfl) (fun _ _ => rfl) slots

theorem argumentsExpressionSlots_eq_sum (nodes : List Node) :
    argumentsExpressionSlots nodes = (nodes.map expressionSlots).sum := by
  induction nodes with
  | nil => rfl
  | cons n nodes ih => rw [argumentsExpressionSlots, ih, List.map_cons, List.sum_cons]

end Node

end SyntaxToC.Tree

namespace SyntaxToC.Code

open SyntaxToC.Tree SyntaxToC.Outcome

/-! ## Leaving out terminators -/

/-- The second text is the first one with `n` terminators left out and nothing else. -/
inductive Trims : Nat → List Char → List Char → Prop
  | nil : Trims 0 [] []
  | keep (c : Char) {n : Nat} {long short : List Char} :
      Trims n long short → Trims n (c :: long) (c :: short)
  | drop {n : Nat} {long short : List Char} :
      Trims n long short → Trims (n + 1) (';' :: long) short

namespace Trims

variable {m n : Nat} {long short long' short' : List Char}

theorem refl (text : List Char) : Trims 0 text text := by
  induction text with
  | nil => exact .nil
  | cons c text ih => exact .keep c ih

theorem append (h : Trims m long short) (h' : Trims n long' short') :
    Trims (m + n) (long ++ long') (short ++ short') := by
  induction h with
  | nil => simpa using h'
  | keep c _ ih => exact .keep c ih
  | @drop k _ _ _ ih =>
    rw [Nat.add_right_comm]
    exact .drop ih

theorem sublist (h : Trims n long short) : short.Sublist long := by
  induction h with
  | nil => exact .slnil
  | keep c _ ih => exact ih.cons_cons c
  | drop _ ih => exact ih.cons _

theorem length_eq (h : Trims n long short) : long.length = short.length + n := by
  induction h with
  | nil => rfl
  | keep c _ ih =>
    simp only [List.length_cons]
    omega
  | drop _ ih =>
    simp only [List.length_cons]
    omega

theorem eq_of_zero (h : Trims 0 long short) : long = short :=
  (h.sublist.eq_of_length h.length_eq.symm).symm

end Trims

abbrev Trimmed (n : Nat) (long short : String) : Prop := Trims n long.toList short.toList

namespace Trimmed

variable {m n : Nat} {long short long' short' : String}

theorem refl (text : String) : Trimmed 0 text text := Trims.refl text.toList

theorem append (h : Trimmed m long short) (h' : Trimmed n long' short') :
    Trimmed (m + n) (long ++ long') (short ++ short') := by
  unfold Trimmed
  rw [String.toList_append, String.toList_append]
  exact Trims.append h h'

theorem append_left (before : String) (h : Trimmed n long short) :
    Trimmed n (before ++ long) (before ++ short) := by
  simpa using (refl before).append h

theorem append_right (after : String) (h : Trimmed n long short) :
    Trimmed n (long ++ after) (short ++ after) :=
  h.append (refl after)

end Trimmed

/-- Texts trimmed one by one, of `n` terminators in all. -/
inductive TrimmedAll : Nat → List String → List String → Prop
  | nil : TrimmedAll 0 [] []
  | cons {m n : Nat} {long short : String} {longs shorts : List String} :
      Trimmed m long short → TrimmedAll n longs shorts →
      TrimmedAll (m + n) (long :: longs) (short :: shorts)

/-- What stands between the texts is kept. -/
theorem TrimmedAll.intercalate {n : Nat} {longs shorts : List String} (separator : String)
    (h : TrimmedAll n longs shorts) :
    Trimmed n (separator.intercalate longs) (separator.intercalate shorts) := by
  induction h with
  | nil => exact .refl _
  | cons hhead htail ih =>
    cases htail with
    | nil => simpa using hhead
    | cons hnext hrest =>
      rw [String.intercalate_cons_cons, String.intercalate_cons_cons]
      exact (hhead.append_right separator).append ih

/-! ## One statement -/

theorem terminator_preserve (indent : String) (n : Node) :
    terminator ⟨indent, .preserve⟩ n = ";" := by
  cases n <;> rfl

theorem terminator_collapse (indent : String) (n : Node) :
    terminator ⟨indent, .collapse⟩ n = if n.isExprStmt then "" else ";" := by
  cases n <;> rfl

/-- A statement keeps its second terminator by being wrapped. -/
theorem emitStatement_double {indent : String} {n : Node}
    (ih : emit ⟨indent, .preserve⟩ n = emit ⟨indent, .collapse⟩ n.double) :
    emitStatement ⟨indent, .preserve⟩ n =
      emitStatement ⟨indent, .collapse⟩ n.double.wrapped := by
  rw [emitStatement, emitStatement, ih, terminator_preserve, terminator_collapse]
  cases n with
  | exprStmt expression => simp [Node.double, Node.wrapped, Node.isExprStmt, emit]
  | _ => rfl

/-- A statement loses its second terminator if it has one. -/
theorem emitStatement_trimmed {indent : String} {n : Node}
    (ih : Parallel (Trimmed n.expressionSlots)
      (emit ⟨indent, .preserve⟩ n) (emit ⟨indent, .collapse⟩ n)) :
    Parallel (Trimmed (n.expressionSlots + n.isExprStmt.toNat))
      (emitStatement ⟨indent, .preserve⟩ n) (emitStatement ⟨indent, .collapse⟩ n) := by
  apply ih.map
  intro p c hpc
  rw [terminator_preserve, terminator_collapse]
  apply hpc.append
  cases n.isExprStmt with
  | true => exact .drop .nil
  | false => exact .refl _

/-! ## Lists of statements -/

section

variable {indent : String}

theorem emitItems_double {slots : Slots}
    (ih : ∀ n, some n ∈ slots →
      emit ⟨indent, .preserve⟩ n = emit ⟨indent, .collapse⟩ n.double) :
    emitItems ⟨indent, .preserve⟩ slots =
      emitItems ⟨indent, .collapse⟩ (Node.doubleItems slots) := by
  rw [emitItems_eq_mapM, emitItems_eq_mapM, Node.reduceOption_doubleItems]
  exact mapM_map_congr fun n hn => ih n (List.reduceOption_mem_iff.1 hn)

theorem emitStatements_double {slots : Slots}
    (ih : ∀ n, some n ∈ slots →
      emit ⟨indent, .preserve⟩ n = emit ⟨indent, .collapse⟩ n.double) :
    emitStatements ⟨indent, .preserve⟩ slots =
      emitStatements ⟨indent, .collapse⟩ (Node.doubleStatements slots) := by
  rw [emitStatements_eq_mapM, emitStatements_eq_mapM, Node.reduceOption_doubleStatements]
  exact mapM_map_congr fun n hn => emitStatement_double (ih n (List.reduceOption_mem_iff.1 hn))

theorem emitArguments_double {nodes : List Node}
    (ih : ∀ n ∈ nodes, emit ⟨indent, .preserve⟩ n = emit ⟨indent, .collapse⟩ n.double) :
    emitArguments ⟨indent, .preserve⟩ nodes =
      emitArguments ⟨indent, .collapse⟩ (Node.doubleArguments nodes) := by
  rw [emitArguments_eq_mapM, emitArguments_eq_mapM, Node.doubleArguments_eq_map]
  exact mapM_map_congr ih

/-- Node by node, the terminators that are left out add up. -/
theorem mapM_trimmed {f g : Node → Except EmitError String} {count : Node → Nat}
    {nodes : List Node} (h : ∀ n ∈ nodes, Parallel (Trimmed (count n)) (f n) (g n)) :
    Parallel (TrimmedAll (nodes.map count).sum) (nodes.mapM f) (nodes.mapM g) :=
  Parallel.mapM (T := fun nodes => TrimmedAll (nodes.map count).sum) .nil
    (fun hhead htail => .cons hhead htail) h

theorem emitItems_trimmed {slots : Slots}
    (ih : ∀ n, some n ∈ slots → Parallel (Trimmed n.expressionSlots)
      (emit ⟨indent, .preserve⟩ n) (emit ⟨indent, .collapse⟩ n)) :
    Parallel (TrimmedAll (Node.itemsExpressionSlots slots))
      (emitItems ⟨indent, .preserve⟩ slots) (emitItems ⟨indent, .collapse⟩ slots) := by
  rw [emitItems_eq_mapM, emitItems_eq_mapM, Node.itemsExpressionSlots_eq_sum]
  exact mapM_trimmed fun n hn => ih n (List.reduceOption_mem_iff.1 hn)

theorem emitStatements_trimmed {slots : Slots}
    (ih : ∀ n, some n ∈ slots → Parallel (Trimmed n.expressionSlots)
      (emit ⟨indent, .preserve⟩ n) (emit ⟨indent, .collapse⟩ n)) :
    Parallel (TrimmedAll (Node.statementsExpressionSlots slots))
      (emitStatements ⟨indent, .preserve⟩ slots) (emitStatements ⟨indent, .collapse⟩ slots) := by
  rw [emitStatements_eq_mapM, emitStatements_eq_mapM, Node.statementsExpressionSlots_eq_sum]
  exact mapM_trimmed fun n hn => emitStatement_trimmed (ih n (List.reduceOption_mem_iff.1 hn))

theorem emitArguments_trimmed {nodes : List Node}
    (ih : ∀ n ∈ nodes, Parallel (Trimmed n.expressionSlots)
      (emit ⟨indent, .preserve⟩ n) (emit ⟨indent, .collapse⟩ n)) :
    Parallel (TrimmedAll (Node.argumentsExpressionSlots nodes))
      (emitArguments ⟨indent, .preserve⟩ nodes) (emitArguments ⟨indent, .collapse⟩ nodes) := by
  rw [emitArguments_eq_mapM, emitArguments_eq_mapM, Node.argumentsExpressionSlots_eq_sum]
  exact mapM_trimmed ih

end

/-! ## Trees -/

theorem emit_double (indent : String) (t : Node) :
    emit ⟨indent, .preserve⟩ t = emit ⟨indent, .collapse⟩ t.double := by
  induction t with
  | program body ih => simp only [emit, Node.double, emitItems_double ih]
  | importDecl std value => rfl
  | functionDecl name returnType params body ih =>
    simp only [emit, Node.double, emitStatements_double ih, lines]
  | block body ih => simp only [emit, Node.double, emitStatements_double ih, lines]
  | returnStmt argument ih => simp only [emit, Node.double, ih]
  | exprStmt expression ih => simp only [emit, Node.double, ih]
  | variableDecl mutable name typing value ih => simp only [emit, Node.double, ih]
  | call callee arguments ih => simp only [emit, Node.double, emitArguments_double ih]
  | binary left op right ihl ihr => simp only [emit, Node.double, ihl, ihr]
  | literal text => rfl
  | identifier name => rfl
  | unsupported tag => rfl

theorem emit_trimmed (indent : String) (t : Node) :
    Parallel (Trimmed t.expressionSlots) (emit ⟨indent, .preserve⟩ t)
      (emit ⟨indent, .collapse⟩ t) := by
  induction t with
  | program body ih => exact (emitItems_trimmed ih).map fun _ _ h => h.intercalate _
  | importDecl std value => exact .ok (.refl _)
  | functionDecl name returnType params body ih =>
    refine (emitStatements_trimmed ih).map fun _ _ h => ?_
    exact ((h.intercalate ("\n" ++ indent)).append_left _).append_right _
  | block body ih => exact (emitStatements_trimmed ih).map fun _ _ h => h.intercalate _
  | returnStmt argument ih => exact ih.map fun _ _ h => h.append_left _
  | exprStmt expression ih => exact ih.map fun _ _ h => h.append_right _
  | variableDecl mutable name typing value ih => exact ih.map fun _ _ h => h.append_left _
  | call callee arguments ih =>
    refine (emitArguments_trimmed ih).map fun _ _ h => ?_
    exact ((h.intercalate ", ").append_left _).append_right _
  | binary left op right ihl ihr =>
    refine ihl.bind fun _ _ hl => ihr.map fun _ _ hr => ?_
    exact ((hl.append_right " ").append_right op |>.append_right " ").append hr
  | literal text => exact .ok (.refl _)
  | identifier name => exact .ok (.refl _)
  | unsupported tag => exact .error _

/-! ## Top theorem -/

/-- Keeping both terminators is collapsing a tree in which the statements that have two are wrapped;
collapsing takes one terminator away for each of them, and nothing if there is none. -/
theorem preserve_and_collapse (indent : String) (t : Node) :
    emit ⟨indent, .preserve⟩ t = emit ⟨indent, .collapse⟩ t.double ∧
      (∀ e, emit ⟨indent, .preserve⟩ t = .error e ↔ emit ⟨indent, .collapse⟩ t = .error e) ∧
      (∀ long, emit ⟨indent, .preserve⟩ t = .ok long →
        ∃ short, emit ⟨indent, .collapse⟩ t = .ok short ∧
          Trimmed t.expressionSlots long short ∧ short.toList.Sublist long.toList ∧
          long.length = short.length + t.expressionSlots) ∧
      (t.expressionSlots = 0 → emit ⟨indent, .preserve⟩ t = emit ⟨indent, .collapse⟩ t) := by
  have h := emit_trimmed indent t
  refine ⟨emit_double indent t, fun e => ?_, fun long hlong => ?_, fun hzero => ?_⟩
  · exact h.error_iff e
  · obtain ⟨short, hshort, htrim⟩ := h.exists_ok hlong
    have hlength := htrim.length_eq
    rw [String.length_toList, String.length_toList] at hlength
    exact ⟨short, hshort, htrim, htrim.sublist, hlength⟩
  · rw [hzero] at h
    exact h.eq_of_forall fun long short htrim => String.toList_inj.1 htrim.eq_of_zero

/-- Two statements in slots lose a terminator, the one in the argument list keeps its own, and so
does an item of a program. -/
theorem preserve_and_collapse_function :
    let t : Node := .functionDecl "f" "int" []
      [some (.exprStmt (.call "g" [.exprStmt (.literal "1")])), none,
        some (.block [some (.exprStmt (.exprStmt (.identifier "x")))])]
    let long := "int f (void) \x7b\n g(1;);;\n x;;;;\n\x7d"
    let short := "int f (void) \x7b\n g(1;);\n x;;;\n\x7d"
    let item : Node := .program [some (.exprStmt (.literal "1"))]
    (emit ⟨" ", .preserve⟩ t = .ok long ∧ emit ⟨" ", .collapse⟩ t = .ok short ∧
        Trimmed 2 long short) ∧
      item.expressionSlots = 0 ∧ emit ⟨" ", .preserve⟩ item = emit ⟨" ", .collapse⟩ item := by
  intro t long short item
  have hlong : emit ⟨" ", .preserve⟩ t = .ok long := rfl
  have hshort : emit ⟨" ", .collapse⟩ t = .ok short := rfl
  obtain ⟨text, htext, htrim, -⟩ := (preserve_and_collapse " " t).2.2.1 long hlong
  obtain rfl : text = short := Except.ok.inj (htext.symm.trans hshort)
  have hzero : item.expressionSlots = 0 := rfl
  exact ⟨⟨hlong, hshort, htrim⟩, hzero, (preserve_and_collapse " " item).2.2.2 hzero⟩

end SyntaxToC.Code
