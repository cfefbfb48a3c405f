import Mathlib.Algebra.BigOperators.Ring.List
import SyntaxToC.Proofs.Rooms
import SyntaxToC.Proofs.Weight

/-!
# The size of the code against its source

The C text of a tree is not much longer than the weight of the JSON value that denotes it.  A value
of weight 1 pays for `lineCost` bytes, enough for an indent and for all that the rules of emission
write around the parts of a node:

    Decodes v t → textSize layout t + lineCost layout ≤ lineCost layout * v.weight          (paid)

The summand on the left is what makes this an induction.  An entry of a list has it to spare for the
separator, and a node has one from each of its members for its own marks.
-/

namespace SyntaxToC.Code

open SyntaxToC.Tree SyntaxToC.Json
open SyntaxToC.Json.Value (itemsWeight)

/-! ## Pieces -/

theorem bytes_written_append (layout : Layout) (ps qs : List Piece) :
    bytes (written layout (ps ++ qs)) = bytes (written layout ps) + bytes (written layout qs) := by
  rw [written_append, bytes_append]

theorem bytes_written_cons (layout : Layout) (p : Piece) (ps : List Piece) :
    bytes (written layout (p :: ps)) = bytes (p.text layout) + bytes (written layout ps) := by
  rw [written_cons, bytes_append]

theorem bytes_written_nil (layout : Layout) : bytes (written layout []) = 0 := by
  rw [written_nil]
  rfl

theorem Mark.bytes_text_le (m : Mark) : bytes m.text ≤ 10 := by
  cases m <;> decide

/-- Every list brings at most one separator. -/
theorem bytes_intercalate_le {α : Type} {layout : Layout} {separator : List Piece}
    {f : α → List Piece} {g : α → Nat}
    (h : ∀ a, bytes (written layout (f a)) + bytes (written layout separator) ≤ g a) (as : List α) :
    bytes (written layout (separator.intercalate (as.map f))) ≤ (as.map g).sum := by
  induction as with
  | nil => exact Nat.le_of_eq (bytes_written_nil layout)
  | cons a as ih =>
    have ha := h a
    rw [List.map_cons, List.map_cons, List.sum_cons]
    cases as with
    | nil =>
      rw [List.map_nil, List.intercalate_singleton]
      omega
    | cons b as =>
      rw [List.map_cons] at ih ⊢
      rw [List.intercalate_cons_cons, bytes_written_append, bytes_written_append]
      omega

/-- The star of a type moves, and what stands in front of it is left out. -/
theorem bytes_typeText_le (typing : String) : bytes (typeText typing) ≤ bytes typing := by
  by_cases h : '*' ∈ typing.toList
  · obtain ⟨before, pointee, hbefore, rfl⟩ := exists_before_star h
    rw [typeText_star hbefore, bytes_append, bytes_append, bytes_append]
    omega
  · rw [typeText_of_not_mem h]

/-! ## What a value pays for -/

def lineCost (layout : Layout) : Nat := bytes layout.indent + 16

/-- The weight of the value pays for `n` bytes and for one `lineCost` more. -/
def Covers (layout : Layout) (v : Value) (n : Nat) : Prop :=
  n + lineCost layout ≤ lineCost layout * v.weight

namespace Covers

variable {layout : Layout} {v : Value} {m n : Nat}

theorem mono (h : Covers layout v n) (hle : m ≤ n) : Covers layout v m :=
  (Nat.add_le_add_right hle _).trans h

theorem of_weight (h : v.weight = 1 + n) : Covers layout v n := by
  have hpos : 0 < lineCost layout := Nat.succ_pos _
  have hle : n ≤ lineCost layout * n := Nat.le_mul_of_pos_left n hpos
  rw [Covers, h, Nat.mul_add, Nat.mul_one]
  omega

theorem bool (b : Bool) : Covers layout (.bool b) (bytes (toString b)) := of_weight rfl

theorem string (s : String) : Covers layout (.string s) (bytes s) := of_weight rfl

theorem array {ws : List Value} (h : n ≤ lineCost layout * itemsWeight ws) :
    Covers layout (.array ws) n := by
  rw [Covers, Value.weight, Nat.mul_add, Nat.mul_one]
  omega

theorem sum_le {ws : List Value} {ns : List Nat} (h : List.Forall₂ (Covers layout) ws ns) :
    (ns.map (· + lineCost layout)).sum ≤ lineCost layout * itemsWeight ws := by
  induction h with
  | nil => exact Nat.zero_le _
  | cons hhead _ ih =>
    rw [Covers] at hhead
    rw [List.map_cons, List.sum_cons, itemsWeight, Nat.mul_add]
    omega

theorem entries {ws : List Value} {ns : List Nat} (h : List.Forall₂ (Covers layout) ws ns) :
    Covers layout (.array ws) (ns.map (· + lineCost layout)).sum :=
  array (sum_le h)

/-- An object pays for what its members pay for, and for one `lineCost` for each of them. -/
theorem object (parts : List (String × Value × Nat)) (hne : parts ≠ [])
    (hkeys : (parts.map Prod.fst).Nodup)
    (h : parts.Forall fun p => v.get? p.1 = some p.2.1 ∧ Covers layout p.2.1 p.2.2) :
    Covers layout v (parts.map fun p => p.2.2 + lineCost layout).sum := by
  have hparts := List.forall_iff_forall_mem.1 h
  have hsum : (parts.map fun p => p.2.2 + lineCost layout).sum ≤
      lineCost layout * (parts.map fun p => p.2.1.weight).sum := by
    rw [← List.sum_map_mul_left]
    exact List.sum_le_sum fun p hp => (hparts p hp).2
  have hweight : (parts.map fun p => p.2.1.weight).sum < v.weight := by
    have hlt : ((parts.map fun p => (p.1, p.2.1)).map fun p => p.2.weight).sum < v.weight := by
      refine Value.sum_weight_lt (by simpa using hne) (by rwa [List.map_map]) fun p hp => ?_
      obtain ⟨q, hq, rfl⟩ := List.mem_map.1 hp
      exact (hparts q hq).1
    rwa [List.map_map] at hlt
  have hmul := Nat.mul_le_mul_left (lineCost layout) hweight
  rw [Nat.mul_succ] at hmul
  rw [Covers]
  omega

end Covers

/-! ## Attributes -/

section

variable {layout : Layout} {v : Value}

theorem covers_of_isName {name : String} (h : IsName v name) : Covers layout v (bytes name) := by
  cases h with
  | object hname =>
    refine .mono (.object [("name", .string name, bytes name)] (by simp) (by simp)
      ⟨hname, .string name⟩) ?_
    simp only [List.map_cons, List.map_nil, List.sum_cons, List.sum_nil]
    omega
  | array =>
    refine .mono (.entries (.cons (.string name) .nil)) ?_
    simp only [List.map_cons, List.map_nil, List.sum_cons, List.sum_nil]
    omega

theorem covers_of_isSource {std : Bool} {s : String} (h : IsSource v std s) :
    Covers layout v (bytes s) := by
  cases h with
  | object hstd hs =>
    refine .mono (.object [("std", .bool std, _), ("value", .string s, bytes s)] (by simp)
      (by simp) ⟨⟨hstd, .bool std⟩, hs, .string s⟩) ?_
    simp only [List.map_cons, List.map_nil, List.sum_cons, List.sum_nil]
    omega
  | array =>
    refine .mono (.entries (.cons (.bool std) (.cons (.string s) .nil))) ?_
    simp only [List.map_cons, List.map_nil, List.sum_cons, List.sum_nil]
    omega

theorem covers_of_isParam {p : Param} (h : IsParam v p) :
    Covers layout v (bytes (paramText p)) := by
  obtain ⟨name, typing⟩ := p
  have hspace : bytes " " = 1 := rfl
  have htype := bytes_typeText_le typing
  have hcost : 16 ≤ lineCost layout := Nat.le_add_left 16 _
  rw [paramText, bytes_append, bytes_append]
  cases h with
  | @object ms x y _ _ hx hname hy htyping =>
    refine .mono (.object [("name", x, bytes name), ("typing", y, bytes typing)] (by simp)
      (by simp) ⟨⟨hx, covers_of_isName hname⟩, hy, covers_of_isName htyping⟩) ?_
    simp only [List.map_cons, List.map_nil, List.sum_cons, List.sum_nil]
    omega
  | array hname htyping =>
    refine .mono (.entries (.cons (covers_of_isName hname)
      (.cons (covers_of_isName htyping) .nil))) ?_
    simp only [List.map_cons, List.map_nil, List.sum_cons, List.sum_nil]
    omega

theorem covers_of_isLiteral {s : String} (h : IsLiteral v s) : Covers layout v (bytes s) := by
  cases h with
  | string => exact .string s
  | integer => exact .of_weight rfl
  | real hd hs =>
    rw [isLiteral_real_iff.1 (.real hd hs)]
    exact .of_weight rfl
  | true => exact .bool true
  | false => exact .bool false

end

/-! ## Lists -/

/-- Every value that denotes the node pays for its text. -/
def Paid (layout : Layout) (n : Node) : Prop :=
  ∀ v, Decodes v n → Covers layout v (textSize layout n)

section

variable {layout : Layout} {ws : List Value}

theorem sum_slots_le {slots : Slots}
    (ih : ∀ n, some n ∈ slots → Paid layout n)
    (h : DecodesSlots ws slots) :
    (slots.reduceOption.map fun n => textSize layout n + lineCost layout).sum ≤
      lineCost layout * itemsWeight ws := by
  induction slots generalizing ws with
  | nil => exact Nat.zero_le _
  | cons slot slots ihs =>
    have ihslots : ∀ n, some n ∈ slots → Paid layout n :=
      fun n hn => ih n (List.mem_cons_of_mem slot hn)
    cases h with
    | empty _ hws =>
      have hrest := ihs ihslots hws
      rw [List.reduceOption_cons_of_none, itemsWeight, Nat.mul_add]
      omega
    | node _ hn hws =>
      have hrest := ihs ihslots hws
      have hhead := ih _ List.mem_cons_self _ hn
      rw [Covers] at hhead
      rw [List.reduceOption_cons_of_some, List.map_cons, List.sum_cons, itemsWeight, Nat.mul_add]
      omega

theorem forall₂_covers {nodes : List Node}
    (ih : ∀ n ∈ nodes, Paid layout n)
    (h : DecodesAll ws nodes) :
    List.Forall₂ (Covers layout) ws (nodes.map (textSize layout)) := by
  induction nodes generalizing ws with
  | nil =>
    cases h
    exact .nil
  | cons n nodes ihs =>
    cases h with
    | cons hn hws =>
      exact .cons (ih n List.mem_cons_self _ hn)
        (ihs (fun m hm => ih m (List.mem_cons_of_mem n hm)) hws)

theorem bytes_arguments_le {nodes : List Node}
    (ih : ∀ n ∈ nodes, Paid layout n)
    (h : DecodesAll ws nodes) :
    bytes (written layout ([.mark .comma].intercalate
      (Node.argumentsPieces layout.terminators nodes))) ≤ lineCost layout * itemsWeight ws := by
  refine Nat.le_trans ?_ (Covers.sum_le (forall₂_covers ih h))
  rw [argumentsPieces_eq_map, List.map_map]
  refine bytes_intercalate_le (fun n => ?_) nodes
  have hcomma := Mark.comma.bytes_text_le
  simp only [bytes_written_cons, bytes_written_nil, Piece.text, Function.comp_apply, textSize,
    lineCost]
  omega

theorem textSize_program_le {slots : Slots}
    (ih : ∀ n, some n ∈ slots → Paid layout n)
    (h : DecodesSlots ws slots) :
    textSize layout (.program slots) ≤ lineCost layout * itemsWeight ws := by
  refine Nat.le_trans ?_ (sum_slots_le ih h)
  rw [textSize, Node.pieces, itemsPieces_eq_map]
  refine bytes_intercalate_le (fun n => ?_) _
  have hbreak := Mark.newline.bytes_text_le
  simp only [bytes_written_cons, bytes_written_nil, Piece.text, textSize, lineCost]
  omega

/-- Every statement of a block has its terminator, and what separates it from the next. -/
theorem textSize_block_le {slots : Slots}
    (ih : ∀ n, some n ∈ slots → Paid layout n)
    (h : DecodesSlots ws slots) :
    textSize layout (.block slots) ≤ lineCost layout * itemsWeight ws := by
  refine Nat.le_trans ?_ (sum_slots_le ih h)
  rw [textSize, Node.pieces, linesPieces, statementsPieces_eq_map]
  refine bytes_intercalate_le (fun n => ?_) _
  have hterminator : bytes (terminator layout n) ≤ 1 := by
    unfold terminator
    split <;> decide
  have hbreak := Mark.newline.bytes_text_le
  simp only [statementPieces, bytes_written_append, bytes_written_cons, bytes_written_nil,
    written_terminatorPieces, Piece.text, textSize, lineCost]
  omega

/-- A function without parameters has four bytes in their place. -/
theorem bytes_paramsText_le {params : List Param} (h : List.Forall₂ IsParam ws params) :
    bytes (paramsText params) ≤ lineCost layout * itemsWeight ws + 4 := by
  have hcovers : List.Forall₂ (Covers layout) ws (params.map fun p => bytes (paramText p)) :=
    List.forall₂_map_right_iff.2 (h.imp fun _ _ => covers_of_isParam)
  have hsum := Covers.sum_le hcovers
  rw [← written_paramsPieces layout]
  cases params with
  | nil => exact Nat.le_add_left 4 _
  | cons p params =>
    refine Nat.le_trans ?_ (Nat.le_add_right_of_le hsum)
    rw [List.map_map]
    show bytes (written layout ([.mark .comma].intercalate ((p :: params).map paramPieces))) ≤ _
    refine bytes_intercalate_le (fun q => ?_) (p :: params)
    have hcomma := Mark.comma.bytes_text_le
    simp only [written_paramPieces, bytes_written_cons, bytes_written_nil, Piece.text, lineCost,
      Function.comp_apply]
    omega

end

/-! ## Trees -/

section

variable {layout : Layout} {v : Value}

/-- Next to its other members, an object pays for its tag. -/
theorem covers_of_tagged {tag : String} {n : Nat} (htag : Tagged v tag)
    (parts : List (String × Value × Nat)) (hkeys : ("type" :: parts.map Prod.fst).Nodup)
    (h : parts.Forall fun p => v.get? p.1 = some p.2.1 ∧ Covers layout p.2.1 p.2.2)
    (hle : n ≤ lineCost layout + (parts.map fun p => p.2.2 + lineCost layout).sum) :
    Covers layout v n := by
  refine .mono (.object (("type", .string tag, bytes tag) :: parts) (by simp) hkeys ?_) ?_
  · exact (List.forall_cons _ _ _).2 ⟨⟨htag, .string tag⟩, h⟩
  · rw [List.map_cons, List.sum_cons]
    omega

theorem covers_block {slots : Slots}
    (ih : ∀ n, some n ∈ slots → Paid layout n)
    (h : Decodes v (.block slots)) : Covers layout v (textSize layout (.block slots)) := by
  cases h with
  | @block _ ws _ htag hbody hslots =>
    refine covers_of_tagged htag [("body", .array ws, textSize layout (.block slots))] (by simp)
      ⟨hbody, .array (textSize_block_le ih hslots)⟩ ?_
    simp only [List.map_cons, List.map_nil, List.sum_cons, List.sum_nil]
    omega

end

theorem paid (layout : Layout) (t : Node) : Paid layout t := by
  have hcost : lineCost layout = bytes layout.indent + 16 := rfl
  have hmark := Mark.bytes_text_le
  induction t with
  | program body ih =>
    intro v h
    cases h with
    | @program _ ws _ htag hbody hslots =>
      refine covers_of_tagged htag [("body", .array ws, textSize layout (.program body))] (by simp)
        ⟨hbody, .array (textSize_program_le ih hslots)⟩ ?_
      simp only [List.map_cons, List.map_nil, List.sum_cons, List.sum_nil]
      omega
  | importDecl std value =>
    intro v h
    cases h with
    | @importDecl _ w _ _ htag hsource hw =>
      refine covers_of_tagged htag [("source", w, bytes value)] (by simp)
        ⟨hsource, covers_of_isSource hw⟩ ?_
      have hopen := hmark .systemOpen
      have hclose := hmark .systemClose
      have hheader := hmark .header
      rw [textSize, Node.pieces, includePieces]
      split <;>
      · simp only [bytes_written_cons, bytes_written_nil, Piece.text, List.map_cons, List.map_nil,
          List.sum_cons, List.sum_nil]
        omega
  | functionDecl name returnType params body ih =>
    intro v h
    cases h with
    | @functionDecl _ i r b _ _ ps _ _ htag hid hname hreturn hr hparams hps hbody hblock =>
      refine covers_of_tagged htag [("id", i, bytes name), ("returnType", r, bytes returnType),
        ("params", .array ps, lineCost layout * itemsWeight ps),
        ("body", b, textSize layout (.block body))] (by simp)
        ⟨⟨hid, covers_of_isName hname⟩, ⟨hreturn, covers_of_isName hr⟩,
          ⟨hparams, .array (Nat.le_refl _)⟩, hbody, covers_block ih hblock⟩ ?_
      have htype := bytes_typeText_le returnType
      have hlist : bytes (paramsText params) ≤ lineCost layout * itemsWeight ps + 4 :=
        bytes_paramsText_le hps
      have hspace := hmark .space
      have hparamsOpen := hmark .paramsOpen
      have hbodyOpen := hmark .bodyOpen
      have hbodyClose := hmark .bodyClose
      simp only [textSize, Node.pieces, signaturePieces, bytes_written_append, bytes_written_cons,
        bytes_written_nil, written_paramsPieces, Piece.text, List.map_cons, List.map_nil,
        List.sum_cons, List.sum_nil]
      omega
  | block body ih => exact fun v h => covers_block ih h
  | returnStmt argument ih =>
    intro v h
    cases h with
    | @returnStmt _ w _ htag hargument hw =>
      refine covers_of_tagged htag [("argument", w, textSize layout argument)] (by simp)
        ⟨hargument, ih w hw⟩ ?_
      have hreturning := hmark .returning
      simp only [textSize, Node.pieces, bytes_written_cons, Piece.text, List.map_cons,
        List.map_nil, List.sum_cons, List.sum_nil]
      omega
  | exprStmt expression ih =>
    intro v h
    cases h with
    | @exprStmt _ w _ htag hexpression hw =>
      refine covers_of_tagged htag [("expression", w, textSize layout expression)] (by simp)
        ⟨hexpression, ih w hw⟩ ?_
      have hterminator := hmark .terminator
      simp only [textSize, Node.pieces, bytes_written_append, bytes_written_cons, bytes_written_nil,
        Piece.text, List.map_cons, List.map_nil, List.sum_cons, List.sum_nil]
      omega
  | variableDecl mutable name typing value ih =>
    intro v h
    cases h with
    | @variableDecl _ i y w _ _ _ _ htag hmutable hid hname htyping hy hvalue hw =>
      refine covers_of_tagged htag [("mutable", .bool mutable, bytes (toString mutable)),
        ("id", i, bytes name), ("typing", y, bytes typing), ("value", w, textSize layout value)]
        (by simp) ⟨⟨hmutable, .bool mutable⟩, ⟨hid, covers_of_isName hname⟩,
          ⟨htyping, covers_of_isName hy⟩, hvalue, ih w hw⟩ ?_
      have htype := bytes_typeText_le typing
      have hconstant : bytes (written layout (if mutable then [] else [.mark .constant])) ≤ 10 := by
        split
        · exact Nat.zero_le 10
        · exact hmark .constant
      have hspace := hmark .space
      have hassign := hmark .assign
      simp only [textSize, Node.pieces, bytes_written_append, bytes_written_cons, bytes_written_nil,
        Piece.text, List.map_cons, List.map_nil, List.sum_cons, List.sum_nil]
      omega
  | call callee arguments ih =>
    intro v h
    cases h with
    | @call _ c _ ws _ htag hcallee hc harguments hws =>
      refine covers_of_tagged htag [("callee", c, bytes callee),
        ("arguments", .array ws, lineCost layout * itemsWeight ws)] (by simp)
        ⟨⟨hcallee, covers_of_isName hc⟩, harguments, .array (Nat.le_refl _)⟩ ?_
      have hlist := bytes_arguments_le ih hws
      have htype := bytes_typeText_le callee
      have hopen := hmark .argumentsOpen
      have hclose := hmark .argumentsClose
      simp only [textSize, Node.pieces, bytes_written_append, bytes_written_cons, bytes_written_nil,
        Piece.text, List.map_cons, List.map_nil, List.sum_cons, List.sum_nil]
      omega
  | binary left op right ihl ihr =>
    intro v h
    cases h with
    | @binary _ l r _ _ _ htag hop hl hleft hr hright =>
      refine covers_of_tagged htag [("op", .string op, bytes op), ("left", l, textSize layout left),
        ("right", r, textSize layout right)] (by simp)
        ⟨⟨hop, .string op⟩, ⟨hl, ihl l hleft⟩, hr, ihr r hright⟩ ?_
      have hspace := hmark .space
      simp only [textSize, Node.pieces, bytes_written_append, bytes_written_cons, bytes_written_nil,
        Piece.text, List.map_cons, List.map_nil, List.sum_cons, List.sum_nil]
      omega
  | literal text =>
    intro v h
    cases h with
    | @literal _ w _ htag hvalue hw =>
      refine covers_of_tagged htag [("value", w, bytes text)] (by simp)
        ⟨hvalue, covers_of_isLiteral hw⟩ ?_
      simp only [textSize, Node.pieces, bytes_written_cons, bytes_written_nil, Piece.text,
        List.map_cons, List.map_nil, List.sum_cons, List.sum_nil]
      omega
  | identifier name =>
    intro v h
    cases h with
    | identifier htag hname =>
      refine covers_of_tagged htag [("name", .string name, bytes name)] (by simp)
        ⟨hname, .string name⟩ ?_
      simp only [textSize, Node.pieces, bytes_written_cons, bytes_written_nil, Piece.text,
        List.map_cons, List.map_nil, List.sum_cons, List.sum_nil]
      omega
  | unsupported tag =>
    intro v h
    cases h with
    | unsupported htag =>
      refine covers_of_tagged htag [] (by simp) trivial ?_
      rw [textSize, Node.pieces, bytes_written_nil]
      exact Nat.zero_le _

/-- A text that loads is read into a value whose weight pays for the C text. -/
theorem textSize_le_of_loadText {layout : Layout} {source : String} {t : Node}
    (h : loadText source = .ok t) :
    textSize layout t ≤ lineCost layout * (growth * (source.toList.length + 1)) := by
  obtain ⟨v, hread, hload⟩ := loadText_eq_ok_iff.1 h
  have hcovers : Covers layout v (textSize layout t) :=
    paid layout t v (decodes_of_load hload)
  have hweight := Nat.mul_le_mul_left (lineCost layout) (weight_le_of_read hread)
  rw [Covers] at hcovers
  omega

end SyntaxToC.Code
