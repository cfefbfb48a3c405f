import Mathlib.Tactic.Choose
import SyntaxToC.Proofs.Lacking
import SyntaxToC.Proofs.Slots

/-!
# Reading expressions back

The C text of an expression has no parentheses around operations, so it does not tell how they are
grouped.  It tells everything else that C distinguishes: `Node.normalForm` is the list of operands
and operators from left to right, where an operand is an atom or a call with the normal forms of
its arguments, and two expressions have the same text exactly if they have the same normal form.

    emit layout a = emit layout' b ↔ a.normalForm = b.normalForm
    a.normalForm = b.normalForm ↔ Alike a b                                (alike_iff)

`Alike` is the least congruence under which three things are lost: the grouping of operations, the
difference between literals and names, and what stands before the first star of a callee.

Texts are read from the left.  A space ends an operand, but a chain of operands ends only at a comma
or a closing parenthesis, and so does each argument of a call: this is why stored texts must not
contain these characters themselves.
-/

namespace SyntaxToC.Code

open SyntaxToC.Tree

/-! ## Normal forms -/

/-- A part of the normal form of an expression. -/
inductive Item where
  | atom (text : String)
  | operator (text : String)
  | call (callee : String) (arguments : List (List Item))

theorem Item.induct {P : Item → Prop}
    (atom : ∀ text, P (.atom text))
    (operator : ∀ text, P (.operator text))
    (call : ∀ callee arguments, (∀ xs ∈ arguments, ∀ x ∈ xs, P x) → P (.call callee arguments))
    (x : Item) : P x := by
  refine @Item.rec P (fun arguments => ∀ xs ∈ arguments, ∀ x ∈ xs, P x) (fun xs => ∀ x ∈ xs, P x)
    atom operator call ?_ ?_ ?_ ?_ x
  · intro xs hxs
    cases hxs
  · intro ys arguments hys harguments xs hxs
    rcases List.mem_cons.1 hxs with rfl | h
    · exact hys
    · exact harguments xs h
  · intro x hx
    cases hx
  · intro y ys hy hys x hx
    rcases List.mem_cons.1 hx with rfl | h
    · exact hy
    · exact hys x h

end SyntaxToC.Code

namespace SyntaxToC.Tree.Node

open SyntaxToC.Code

mutual

/-- The operands and operators of an expression, from left to right. -/
def normalForm : Node → List Item
  | .literal text => [.atom text]
  | .identifier name => [.atom name]
  | .call callee arguments => [.call (typeText callee) (normalForms arguments)]
  | .binary left op right => left.normalForm ++ .operator op :: right.normalForm
  | _ => []

def normalForms : List Node → List (List Item)
  | [] => []
  | n :: nodes => n.normalForm :: normalForms nodes

end

end SyntaxToC.Tree.Node

namespace SyntaxToC.Code

open SyntaxToC.Tree SyntaxToC.Outcome

/-! ## Expressions -/

/-- The characters that end a text. -/
def breaks : List Char := [' ', ',', '(', ')']

/-- An expression of atoms, calls and operations in which no text has a space, a comma or a
parenthesis, and those of atoms are not empty. -/
inductive IsExpression : Node → Prop
  | literal {text : String} : text ≠ "" → Lacks breaks text → IsExpression (.literal text)
  | identifier {name : String} : name ≠ "" → Lacks breaks name → IsExpression (.identifier name)
  | call {callee : String} {arguments : List Node} :
      Lacks breaks callee → (∀ n ∈ arguments, IsExpression n) →
      IsExpression (.call callee arguments)
  | binary {left right : Node} {op : String} :
      IsExpression left → Lacks breaks op → IsExpression right →
      IsExpression (.binary left op right)

/-- Two expressions that differ in nothing but grouping, the kind of atoms, and what stands before
the first star of callees. -/
inductive Alike : Node → Node → Prop
  | refl (a : Node) : Alike a a
  | symm {a b : Node} : Alike a b → Alike b a
  | trans {a b c : Node} : Alike a b → Alike b c → Alike a c
  | grouping (a b c : Node) (op op' : String) :
      Alike (.binary (.binary a op b) op' c) (.binary a op (.binary b op' c))
  | atom (text : String) : Alike (.literal text) (.identifier text)
  | callee {before before' : String} (pointee : String) (arguments : List Node) :
      '*' ∉ before.toList → '*' ∉ before'.toList →
      Alike (.call (before ++ "*" ++ pointee) arguments)
        (.call (before' ++ "*" ++ pointee) arguments)
  | binary {a a' b b' : Node} (op : String) :
      Alike a a' → Alike b b' → Alike (.binary a op b) (.binary a' op b')
  | argument {a a' : Node} (callee : String) (before after : List Node) :
      Alike a a' →
      Alike (.call callee (before ++ a :: after)) (.call callee (before ++ a' :: after))

/-! ## The text of a normal form -/

mutual

def Item.chars : Item → List Char
  | .atom text => text.toList
  | .operator text => ' ' :: text.toList ++ [' ']
  | .call callee arguments =>
    callee.toList ++ '(' :: [',', ' '].intercalate (argumentsChars arguments) ++ [')']

def chainChars : List Item → List Char
  | [] => []
  | x :: xs => x.chars ++ chainChars xs

def argumentsChars : List (List Item) → List (List Char)
  | [] => []
  | xs :: arguments => chainChars xs :: argumentsChars arguments

end

theorem chainChars_append (xs ys : List Item) :
    chainChars (xs ++ ys) = chainChars xs ++ chainChars ys := by
  induction xs with
  | nil => rfl
  | cons x xs ih => rw [List.cons_append, chainChars, chainChars, ih, List.append_assoc]

theorem normalForms_eq_map (nodes : List Node) :
    Node.normalForms nodes = nodes.map Node.normalForm := by
  induction nodes with
  | nil => rfl
  | cons n nodes ih => rw [Node.normalForms, ih, List.map_cons]

theorem argumentsChars_eq_map (arguments : List (List Item)) :
    argumentsChars arguments = arguments.map chainChars := by
  induction arguments with
  | nil => rfl
  | cons xs arguments ih => rw [argumentsChars, ih, List.map_cons]

/-- An expression is written as its normal form is. -/
theorem emit_chars (layout : Layout) {t : Node} (h : IsExpression t) :
    ∃ text, emit layout t = .ok text ∧ text.toList = chainChars t.normalForm := by
  induction h with
  | literal hne hword => exact ⟨_, rfl, by simp [Node.normalForm, chainChars, Item.chars]⟩
  | identifier hne hword => exact ⟨_, rfl, by simp [Node.normalForm, chainChars, Item.chars]⟩
  | @call callee arguments hword hargs ih =>
    choose! text htext hchars using ih
    refine ⟨typeText callee ++ "(" ++ ", ".intercalate (arguments.map text) ++ ")", ?_, ?_⟩
    · rw [emit, emitArguments_eq_mapM, mapM_eq_ok_map htext]
      rfl
    · have harguments : (arguments.map text).map String.toList =
          argumentsChars (Node.normalForms arguments) := by
        rw [argumentsChars_eq_map, normalForms_eq_map, List.map_map, List.map_map]
        exact List.map_congr_left hchars
      simp [Node.normalForm, chainChars, Item.chars, String.toList_intercalate, ← harguments]
  | @binary left right op hleft hop hright ihl ihr =>
    obtain ⟨l, hl, hlchars⟩ := ihl
    obtain ⟨r, hr, hrchars⟩ := ihr
    refine ⟨l ++ " " ++ op ++ " " ++ r, ?_, ?_⟩
    · rw [emit, hl, hr]
      rfl
    · simp [Node.normalForm, chainChars_append, chainChars, Item.chars, hlchars, hrchars]

/-! ## Normal forms of expressions -/

/-- Operands with operators between them. -/
inductive Chain (Operand : Item → Prop) : List Item → Prop
  | single {x : Item} : Operand x → Chain Operand [x]
  | cons {x : Item} {op : String} {rest : List Item} :
      Operand x → Lacks breaks op → Chain Operand rest → Chain Operand (x :: .operator op :: rest)

inductive IsOperand : Item → Prop
  | atom {text : String} : text ≠ "" → Lacks breaks text → IsOperand (.atom text)
  | call {callee : String} {arguments : List (List Item)} :
      Lacks breaks callee → (∀ xs ∈ arguments, Chain IsOperand xs) →
      IsOperand (.call callee arguments)

theorem Chain.append {Operand : Item → Prop} {xs ys : List Item} {op : String}
    (hxs : Chain Operand xs) (hop : Lacks breaks op) (hys : Chain Operand ys) :
    Chain Operand (xs ++ .operator op :: ys) := by
  induction hxs with
  | single hx => exact .cons hx hop hys
  | cons hx hword hrest ih => exact .cons hx hword ih

theorem chain_normalForm {t : Node} (h : IsExpression t) : Chain IsOperand t.normalForm := by
  induction h with
  | literal hne hword => exact .single (.atom hne hword)
  | identifier hne hword => exact .single (.atom hne hword)
  | call hword hargs ih =>
    refine .single (.call (hword.typeText (by decide)) ?_)
    intro xs hxs
    rw [normalForms_eq_map] at hxs
    obtain ⟨n, hn, rfl⟩ := List.mem_map.1 hxs
    exact ih n hn
  | binary hleft hop hright ihl ihr => exact ihl.append hop ihr

/-! ## Reading from the left -/

/-- What may follow a chain, and what may follow an operand. -/
def chainStops : List Char := [',', ')']

def operandStops : List Char := [' ', ',', ')']

/-- The operand can be read off the front of a text, and so can what follows it. -/
def Readable (x : Item) : Prop :=
  ∀ y r r', IsOperand x → IsOperand y → StartsIn operandStops r → StartsIn operandStops r' →
    x.chars ++ r = y.chars ++ r' → x = y ∧ r = r'

theorem chain_unique {xs ys : List Item} {r r' : List Char} (hreadable : ∀ x ∈ xs, Readable x)
    (hxs : Chain IsOperand xs) (hys : Chain IsOperand ys)
    (hr : StartsIn chainStops r) (hr' : StartsIn chainStops r')
    (h : chainChars xs ++ r = chainChars ys ++ r') : xs = ys ∧ r = r' := by
  have hsub : chainStops ⊆ operandStops := by decide
  have hspace : ' ' ∈ operandStops := by decide
  have hbreak : ' ' ∈ breaks := by decide
  have hstop : ' ' ∉ chainStops := by decide
  induction hxs generalizing ys with
  | @single x hx =>
    cases hys with
    | @single y hy =>
      simp only [chainChars, List.append_nil] at h
      obtain ⟨rfl, hrest⟩ := hreadable x List.mem_cons_self y r r' hx hy (hr.mono hsub)
        (hr'.mono hsub) h
      exact ⟨rfl, hrest⟩
    | @cons y op rest hy hop hrest =>
      simp only [chainChars, Item.chars, List.append_nil, List.append_assoc, List.cons_append] at h
      -- the space before an operator does not end a chain
      obtain ⟨-, rfl⟩ := hreadable x List.mem_cons_self y _ _ hx hy (hr.mono hsub)
        (startsIn_cons hspace _) h
      exact absurd hr.mem hstop
  | @cons x op rest hx hop hrest ih =>
    cases hys with
    | @single y hy =>
      simp only [chainChars, Item.chars, List.append_nil, List.append_assoc, List.cons_append] at h
      obtain ⟨-, rfl⟩ := hreadable x List.mem_cons_self y _ _ hx hy (startsIn_cons hspace _)
        (hr'.mono hsub) h
      exact absurd hr'.mem hstop
    | @cons y op' rest' hy hop' hrest' =>
      simp only [chainChars, Item.chars, List.append_assoc, List.cons_append, List.nil_append] at h
      obtain ⟨rfl, hoperator⟩ := hreadable x List.mem_cons_self y _ _ hx hy
        (startsIn_cons hspace _) (startsIn_cons hspace _) h
      obtain ⟨rfl, hspaced⟩ := text_unique hop hop' (startsIn_cons hbreak _)
        (startsIn_cons hbreak _) (List.cons.inj hoperator).2
      obtain ⟨rfl, hends⟩ := ih (fun z hz => hreadable z (by simp [hz])) hrest'
        (List.cons.inj hspaced).2
      exact ⟨rfl, hends⟩

theorem operand_ne_close {x : Item} (hx : IsOperand x) (r r' : List Char) :
    x.chars ++ r ≠ ')' :: r' := by
  intro h
  have hclose : ')' ∈ breaks := by decide
  cases hx with
  | @atom text hne hword =>
    have hnil := word_eq_nil hword hclose h
    exact hne (String.toList_inj.1 hnil)
  | @call callee arguments hword hargs =>
    simp only [Item.chars, List.append_assoc, List.cons_append] at h
    rw [word_eq_nil hword hclose h] at h
    simp at h

theorem chain_ne_close {xs : List Item} (hxs : Chain IsOperand xs) (r r' : List Char) :
    chainChars xs ++ r ≠ ')' :: r' := by
  cases hxs with
  | single hx =>
    rw [chainChars, List.append_assoc]
    exact operand_ne_close hx _ r'
  | cons hx hop hrest =>
    rw [chainChars, List.append_assoc]
    exact operand_ne_close hx _ r'

/-- The text behind an argument of a call: the further arguments, the end of the call, and what
follows it. -/
def closing : List (List Item) → List Char → List Char
  | [], r => ')' :: r
  | xs :: rest, r => ',' :: ' ' :: (chainChars xs ++ closing rest r)

theorem argumentsChars_cons (xs : List Item) (rest : List (List Item)) (r : List Char) :
    [',', ' '].intercalate (argumentsChars (xs :: rest)) ++ ')' :: r =
      chainChars xs ++ closing rest r := by
  induction rest generalizing xs with
  | nil => simp [argumentsChars, closing]
  | cons ys rest ih =>
    rw [closing, ← ih ys]
    simp [argumentsChars, List.intercalate_cons_cons]

theorem startsIn_closing (rest : List (List Item)) (r : List Char) :
    StartsIn chainStops (closing rest r) := by
  cases rest with
  | nil => exact startsIn_cons (by decide) r
  | cons xs rest => exact startsIn_cons (by decide) _

theorem closing_unique {rest rest' : List (List Item)} {r r' : List Char}
    (hreadable : ∀ xs ∈ rest, ∀ x ∈ xs, Readable x)
    (hrest : ∀ xs ∈ rest, Chain IsOperand xs) (hrest' : ∀ xs ∈ rest', Chain IsOperand xs)
    (h : closing rest r = closing rest' r') : rest = rest' ∧ r = r' := by
  induction rest generalizing rest' with
  | nil =>
    cases rest' with
    | nil => exact ⟨rfl, (List.cons.inj h).2⟩
    | cons ys rest' => simp [closing] at h
  | cons xs rest ih =>
    cases rest' with
    | nil => simp [closing] at h
    | cons ys rest' =>
      rw [List.forall_mem_cons] at hreadable hrest hrest'
      have htail := (List.cons.inj (List.cons.inj h).2).2
      obtain ⟨rfl, hclosing⟩ := chain_unique hreadable.1 hrest.1 hrest'.1 (startsIn_closing rest r)
        (startsIn_closing rest' r') htail
      obtain ⟨rfl, hr⟩ := ih hreadable.2 hrest.2 hrest'.2 hclosing
      exact ⟨rfl, hr⟩

theorem arguments_unique {arguments arguments' : List (List Item)} {r r' : List Char}
    (hreadable : ∀ xs ∈ arguments, ∀ x ∈ xs, Readable x)
    (hargs : ∀ xs ∈ arguments, Chain IsOperand xs) (hargs' : ∀ xs ∈ arguments', Chain IsOperand xs)
    (h : [',', ' '].intercalate (argumentsChars arguments) ++ ')' :: r =
      [',', ' '].intercalate (argumentsChars arguments') ++ ')' :: r') :
    arguments = arguments' ∧ r = r' := by
  cases arguments with
  | nil =>
    cases arguments' with
    | nil => exact ⟨rfl, (List.cons.inj h).2⟩
    | cons ys rest' =>
      rw [argumentsChars_cons] at h
      exact absurd h.symm (chain_ne_close (hargs' ys List.mem_cons_self) _ r)
  | cons xs rest =>
    cases arguments' with
    | nil =>
      rw [argumentsChars_cons] at h
      exact absurd h (chain_ne_close (hargs xs List.mem_cons_self) _ r')
    | cons ys rest' =>
      -- a comma in front makes the first argument one like the others
      rw [argumentsChars_cons, argumentsChars_cons] at h
      exact closing_unique hreadable hargs hargs' (by rw [closing, closing, h])

theorem operand_readable (x : Item) : Readable x := by
  have hsub : operandStops ⊆ breaks := by decide
  have hopen : '(' ∈ breaks := by decide
  induction x using Item.induct with
  | atom text =>
    intro y r r' hx hy hr hr' h
    cases hx with | atom hne hword =>
    cases hy with
    | @atom text' hne' hword' =>
      obtain ⟨rfl, hrest⟩ := text_unique hword hword' (hr.mono hsub) (hr'.mono hsub) h
      exact ⟨rfl, hrest⟩
    | @call callee arguments hword' hargs =>
      simp only [Item.chars, List.append_assoc, List.cons_append] at h
      obtain ⟨-, rfl⟩ := text_unique hword hword' (hr.mono hsub) (startsIn_cons hopen _) h
      exact absurd hr.mem (by decide)
  | operator text =>
    intro y r r' hx
    cases hx
  | call callee arguments ih =>
    intro y r r' hx hy hr hr' h
    cases hx with | call hword hargs =>
    cases hy with
    | @atom text' hne' hword' =>
      simp only [Item.chars, List.append_assoc, List.cons_append] at h
      obtain ⟨-, rfl⟩ := text_unique hword hword' (startsIn_cons hopen _) (hr'.mono hsub) h
      exact absurd hr'.mem (by decide)
    | @call callee' arguments' hword' hargs' =>
      simp only [Item.chars, List.append_assoc, List.cons_append] at h
      obtain ⟨rfl, htail⟩ := text_unique hword hword' (startsIn_cons hopen _)
        (startsIn_cons hopen _) h
      obtain ⟨rfl, hrest⟩ := arguments_unique ih hargs hargs' (List.cons.inj htail).2
      exact ⟨rfl, hrest⟩

/-- Expressions with the same text have the same normal form. -/
theorem normalForm_of_emit {layout layout' : Layout} {a b : Node} (ha : IsExpression a)
    (hb : IsExpression b) (h : emit layout a = emit layout' b) : a.normalForm = b.normalForm := by
  obtain ⟨text, htext, hchars⟩ := emit_chars layout ha
  obtain ⟨text', htext', hchars'⟩ := emit_chars layout' hb
  have heq : text = text' := by
    rw [htext, htext'] at h
    exact Except.ok.inj h
  -- the end of the text counts as the end of an argument
  have hstop : StartsIn chainStops [')'] := startsIn_cons (by decide) []
  have hclosed : chainChars a.normalForm ++ [')'] = chainChars b.normalForm ++ [')'] := by
    rw [← hchars, ← hchars', heq]
  exact (chain_unique (fun x _ => operand_readable x) (chain_normalForm ha) (chain_normalForm hb)
    hstop hstop hclosed).1

theorem emit_of_normalForm {layout layout' : Layout} {a b : Node} (ha : IsExpression a)
    (hb : IsExpression b) (h : a.normalForm = b.normalForm) : emit layout a = emit layout' b := by
  obtain ⟨text, htext, hchars⟩ := emit_chars layout ha
  obtain ⟨text', htext', hchars'⟩ := emit_chars layout' hb
  have heq : text = text' := by
    apply String.toList_inj.1
    rw [hchars, hchars', h]
  rw [htext, htext', heq]

/-! ## What a normal form leaves open -/

theorem normalForm_of_alike {a b : Node} (h : Alike a b) : a.normalForm = b.normalForm := by
  induction h with
  | refl a => rfl
  | symm _ ih => exact ih.symm
  | trans _ _ ihab ihbc => exact ihab.trans ihbc
  | grouping a b c op op' => simp [Node.normalForm]
  | atom text => rfl
  | callee pointee arguments hbefore hbefore' =>
    rw [Node.normalForm, Node.normalForm, typeText_star hbefore, typeText_star hbefore']
  | binary op _ _ iha ihb => rw [Node.normalForm, Node.normalForm, iha, ihb]
  | argument callee before after _ ih => simp [Node.normalForm, normalForms_eq_map, ih]

/-- A callee that is written as `text`. -/
def pointing (text : String) : String :=
  if '*' ∈ text.toList then "*" ++ String.ofList text.toList.dropLast else text

mutual

/-- An expression with the given normal form, operations grouped to the right. -/
def chainNode : List Item → Node
  | x :: .operator op :: rest => .binary x.node op (chainNode rest)
  | x :: _ => x.node
  | [] => .identifier ""

def Item.node : Item → Node
  | .atom text => .identifier text
  | .operator text => .identifier text
  | .call callee arguments => .call (pointing callee) (chainNodes arguments)

def chainNodes : List (List Item) → List Node
  | [] => []
  | xs :: rest => chainNode xs :: chainNodes rest

end

theorem alike_pointing (callee : String) (arguments : List Node) :
    Alike (.call callee arguments) (.call (pointing (typeText callee)) arguments) := by
  by_cases hstar : '*' ∈ callee.toList
  · obtain ⟨before, pointee, hbefore, rfl⟩ := exists_before_star hstar
    have hpointing : pointing (pointee ++ "*") = "" ++ "*" ++ pointee := by
      simp [pointing]
    rw [typeText_star hbefore, hpointing]
    exact .callee pointee arguments hbefore (by simp)
  · have hpointing : pointing callee = callee := if_neg hstar
    rw [typeText_of_not_mem hstar, hpointing]
    exact .refl _

theorem alike_arguments {nodes : List Node}
    (ih : ∀ n ∈ nodes, Alike n (chainNode n.normalForm)) (callee : String) (before : List Node) :
    Alike (.call callee (before ++ nodes))
      (.call callee (before ++ chainNodes (Node.normalForms nodes))) := by
  induction nodes generalizing before with
  | nil => exact .refl _
  | cons n nodes ihs =>
    rw [List.forall_mem_cons] at ih
    have hrest := ihs ih.2 (before ++ [chainNode n.normalForm])
    rw [List.append_assoc, List.append_assoc] at hrest
    exact (Alike.argument callee before nodes ih.1).trans hrest

theorem alike_chainNode_append {Operand : Item → Prop} {xs : List Item}
    (hxs : Chain Operand xs) (op : String) (ys : List Item) :
    Alike (.binary (chainNode xs) op (chainNode ys)) (chainNode (xs ++ .operator op :: ys)) := by
  induction hxs with
  | single hx => exact .refl _
  | @cons x op' rest hx hword hrest ih =>
    exact (Alike.grouping x.node (chainNode rest) (chainNode ys) op' op).trans
      (.binary op' (.refl x.node) ih)

theorem alike_chainNode {t : Node} (h : IsExpression t) : Alike t (chainNode t.normalForm) := by
  induction h with
  | @literal text hne hword => exact .atom text
  | identifier hne hword => exact .refl _
  | @call callee arguments hword hargs ih =>
    exact (alike_pointing callee arguments).trans (alike_arguments ih _ [])
  | @binary left right op hleft hop hright ihl ihr =>
    exact (Alike.binary op ihl ihr).trans
      (alike_chainNode_append (chain_normalForm hleft) op right.normalForm)

theorem alike_iff {a b : Node} (ha : IsExpression a) (hb : IsExpression b) :
    a.normalForm = b.normalForm ↔ Alike a b := by
  constructor
  · intro h
    have hb' := alike_chainNode hb
    rw [← h] at hb'
    exact (alike_chainNode ha).trans hb'.symm
  · exact normalForm_of_alike

/-! ## Top theorem -/

/-- The text of an expression tells its normal form and nothing more, whatever the layout: only
grouping, the kind of atoms and what stands before the first star of callees are lost. -/
theorem emit_tells_normalForm (layout layout' : Layout) (a b : Node) (ha : IsExpression a)
    (hb : IsExpression b) :
    (∃ text, emit layout a = .ok text) ∧
      (emit layout a = emit layout' b ↔ a.normalForm = b.normalForm) ∧
      (a.normalForm = b.normalForm ↔ Alike a b) := by
  obtain ⟨text, htext, -⟩ := emit_chars layout ha
  exact ⟨⟨text, htext⟩, ⟨normalForm_of_emit ha hb, emit_of_normalForm ha hb⟩, alike_iff ha hb⟩

/-- `x + 2 * f*(1, g())` in two groupings, and with one argument less. -/
theorem emit_tells_normalForm_regrouped :
    let a : Node := .binary (.binary (.identifier "x") "+" (.literal "2")) "*"
      (.call "p*f" [.literal "1", .call "g" []])
    let b : Node := .binary (.identifier "x") "+" (.binary (.identifier "2") "*"
      (.call "q*f" [.identifier "1", .call "g" []]))
    let c : Node := .binary (.identifier "x") "+" (.binary (.identifier "2") "*"
      (.call "q*f" [.identifier "1"]))
    (IsExpression a ∧ IsExpression b ∧ IsExpression c) ∧
      emit ⟨"  ", .preserve⟩ a = emit ⟨"\t", .collapse⟩ b ∧ Alike a b ∧ ¬ Alike a c := by
  intro a b c
  have hwords : ∀ text ∈ ["x", "2", "1", "+", "*", "g", "p*f", "q*f"], Lacks breaks text := by
    simp [Lacks, breaks]
  simp only [List.forall_mem_cons, List.not_mem_nil, false_implies, implies_true] at hwords
  obtain ⟨hx, htwo, hone, hplus, hstar, hg, hpf, hqf, -⟩ := hwords
  have hcall : IsExpression (.call "g" []) := .call hg (by simp)
  have ha : IsExpression a :=
    .binary (.binary (.identifier (by decide) hx) hplus (.literal (by decide) htwo)) hstar
      (.call hpf (by simp [hcall, IsExpression.literal, hone]))
  have hb : IsExpression b :=
    .binary (.identifier (by decide) hx) hplus
      (.binary (.identifier (by decide) htwo) hstar
        (.call hqf (by simp [hcall, IsExpression.identifier, hone])))
  have hc : IsExpression c :=
    .binary (.identifier (by decide) hx) hplus
      (.binary (.identifier (by decide) htwo) hstar
        (.call hqf (by simp [IsExpression.identifier, hone])))
  obtain ⟨-, htext, halike⟩ :=
    emit_tells_normalForm ⟨"  ", .preserve⟩ ⟨"\t", .collapse⟩ a b ha hb
  obtain ⟨-, -, halike'⟩ := emit_tells_normalForm ⟨"  ", .preserve⟩ ⟨"\t", .collapse⟩ a c ha hc
  have hsame : a.normalForm = b.normalForm := rfl
  have hdiffer : a.normalForm ≠ c.normalForm := by
    simp [a, c, Node.normalForm, Node.normalForms]
  exact ⟨⟨ha, hb, hc⟩, htext.2 hsame, halike.1 hsame, fun h => hdiffer (halike'.2 h)⟩

end SyntaxToC.Code
