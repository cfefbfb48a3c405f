import SyntaxToC.Proofs.Reading
import SyntaxToC.Proofs.Reordering
import SyntaxToC.Proofs.Wire

/-!
# From a tree to JSON text and back

Every text of the JSON form of a tree, however its members are ordered, its tokens spaced and its
strings spelled, loads as that tree; unless the containers of the JSON form nest deeper than the
reader goes, and then every such text is refused.

    t.Loadable → Renders t.wire text →
      (t.wire.depth ≤ 127 → loadText text = .ok t) ∧
      (128 ≤ t.wire.depth → ∃ position, loadText text = .error (.json ⟨.tooDeep, position⟩))
-/

namespace SyntaxToC.Tree

open SyntaxToC.Json

/-! ## What holds of every JSON form -/

section

variable {P : Value → Prop} (null : P .null) (bool : ∀ b, P (.bool b)) (string : ∀ s, P (.string s))
  (array : ∀ vs, (∀ v ∈ vs, P v) → P (.array vs))
  (object : ∀ ms : Members, (ms.map Prod.fst).Nodup → (∀ m ∈ ms, P m.2) → P (.object ms))

include string object in
theorem wireNode_induct (tag : String) {attributes : Members}
    (hkeys : ("type" :: attributes.map Prod.fst).Nodup) (h : ∀ m ∈ attributes, P m.2) :
    P (wireNode tag attributes) :=
  object _ hkeys (List.forall_mem_cons.2 ⟨string tag, h⟩)

include string object in
theorem wireName_induct (s : String) : P (wireName s) :=
  object _ (by simp) (by simp [string])

include string object in
theorem wireParam_induct (p : Param) : P (wireParam p) :=
  object _ (by simp) (by simp [wireName_induct string object])

include null in
theorem wireSlots_induct {slots : Slots} (ih : ∀ n, some n ∈ slots → P n.wire) :
    ∀ v ∈ Node.wireSlots slots, P v := by
  induction slots with
  | nil =>
    intro v hv
    cases hv
  | cons slot slots ihs =>
    have hrest := ihs fun n hn => ih n (List.mem_cons_of_mem slot hn)
    cases slot with
    | none => exact List.forall_mem_cons.2 ⟨null, hrest⟩
    | some n => exact List.forall_mem_cons.2 ⟨ih n List.mem_cons_self, hrest⟩

theorem wireList_induct {nodes : List Node} (ih : ∀ n ∈ nodes, P n.wire) :
    ∀ v ∈ Node.wireList nodes, P v := by
  induction nodes with
  | nil =>
    intro v hv
    cases hv
  | cons n nodes ihs =>
    exact List.forall_mem_cons.2 ⟨ih n List.mem_cons_self,
      ihs fun m hm => ih m (List.mem_cons_of_mem n hm)⟩

include null bool string array object in
/-- The JSON form of a tree is made of null, flags, texts, arrays, and objects with distinct
keys. -/
theorem wire_induct (t : Node) : P t.wire := by
  have node := @wireNode_induct P string object
  have name := @wireName_induct P string object
  have slots : ∀ (tag : String) (body : Slots), (∀ n, some n ∈ body → P n.wire) →
      P (wireNode tag [("body", .array (Node.wireSlots body))]) := fun tag body ih =>
    node tag (by simp) (by simpa using array _ (wireSlots_induct null ih))
  induction t with
  | program body ih => exact slots "Program" body ih
  | importDecl std value =>
    have hsource : P (.object [("std", .bool std), ("value", .string value)]) :=
      object _ (by simp) (by simp [bool, string])
    exact node _ (by simp) (by simpa using hsource)
  | functionDecl name' returnType params body ih =>
    have hparams : P (.array (params.map wireParam)) :=
      array _ (by simp [wireParam_induct string object])
    exact node _ (by simp) (by simp [name, hparams, slots "BlockStatement" body ih])
  | block body ih => exact slots "BlockStatement" body ih
  | returnStmt argument ih => exact node _ (by simp) (by simpa using ih)
  | exprStmt expression ih => exact node _ (by simp) (by simpa using ih)
  | variableDecl mutable name' typing value ih =>
    exact node _ (by simp) (by simp [bool, name, ih])
  | call callee arguments ih =>
    exact node _ (by simp) (by simp [name, array _ (wireList_induct ih)])
  | binary left op right ihl ihr => exact node _ (by simp) (by simp [ihl, ihr, string])
  | literal text => exact node _ (by simp) (by simp [string])
  | identifier name' => exact node _ (by simp) (by simp [string])
  | unsupported tag => exact node _ (by simp) (by simp)

end

theorem distinct_wire (t : Node) : t.wire.Distinct :=
  wire_induct .null .bool .string (fun _ => .array) (fun _ => .object) t

/-- Every tree has a text. -/
theorem exists_renders_wire (t : Node) : ∃ text, Renders t.wire text := by
  have hwritten : ∃ cs, Written t.wire cs :=
    wire_induct ⟨_, .null⟩ (fun b => by cases b; exacts [⟨_, .false⟩, ⟨_, .true⟩])
      exists_written_string (fun _ => exists_written_array) (fun _ _ => exists_written_object) t
  obtain ⟨cs, hcs⟩ := hwritten
  refine ⟨String.ofList cs, t.wire, [], cs, [], .refl _, blanks_nil, hcs, blanks_nil, ?_⟩
  rw [String.toList_ofList, List.append_nil, List.nil_append]

/-! ## Top theorem -/

/-- A tree comes back from each text of its JSON form if the containers nest at most 127 deep, and
from none of them otherwise. -/
theorem loadText_of_renders (t : Node) (ht : t.Loadable) :
    (∃ text, Renders t.wire text) ∧ ∀ text, Renders t.wire text →
      (t.wire.depth ≤ 127 → loadText text = .ok t) ∧
      (128 ≤ t.wire.depth → ∃ position, loadText text = .error (.json ⟨.tooDeep, position⟩)) := by
  refine ⟨exists_renders_wire t, ?_⟩
  rintro text ⟨w, as, cs, bs, hw, has, hcs, hbs, htext⟩
  obtain ⟨position, hread⟩ :=
    read_of_written (hw.distinct (distinct_wire t)) has hcs hbs htext
  rw [hw.depth_eq, show maxDepth = 127 from rfl] at hread
  constructor
  · intro hdepth
    have hload : load w = .ok t :=
      load_of_decodes ((decodes_wire ht).reordered (distinct_wire t) hw)
    rw [loadText, hread, if_pos hdepth]
    show (load w).mapError LoadError.node = .ok t
    rw [hload]
    rfl
  · intro hdepth
    rw [loadText, hread, if_neg (by omega)]
    exact ⟨position, rfl⟩

/-- Members in another order, blanks between the tokens, and a name spelled in codes. -/
theorem renders_identifier :
    Renders (Node.identifier "x😀").wire
      "\x7b \"name\" :\"\\u0078\\uD83d\\ude00\",\n\"type\":\"Identifier\"\x7d\t" := by
  have hspace : Blanks [' '] := by simp [Blanks]
  have hbreak : Blanks ['\n'] := by simp [Blanks]
  have htab : Blanks ['\t'] := by simp [Blanks]
  have hx : IsCode ['0', '0', '7', '8'] 'x'.toNat :=
    .mk (a := 0) (b := 0) (c := 7) (d := 8) (.inl rfl) (.inl rfl) (.inl rfl) (.inl rfl)
  have hhigh : IsCode ['D', '8', '3', 'd'] (0xD800 + ('😀'.toNat - 0x10000) / 0x400) :=
    .mk (a := 13) (b := 8) (c := 3) (d := 13) (.inr rfl) (.inl rfl) (.inl rfl) (.inl rfl)
  have hlow : IsCode ['d', 'e', '0', '0'] (0xDC00 + ('😀'.toNat - 0x10000) % 0x400) :=
    .mk (a := 13) (b := 14) (c := 0) (d := 0) (.inl rfl) (.inl rfl) (.inl rfl) (.inl rfl)
  have hname : Quoted "x😀" ('"' :: ("\\u0078\\uD83d\\ude00".toList ++ ['"'])) :=
    ⟨_, .cons (.code hx) (.cons (.pair (by decide) hhigh hlow) .nil), rfl⟩
  have hkey : ∀ s ∈ ["name", "type", "Identifier"], Quoted s ('"' :: (s.toList ++ ['"'])) := by
    intro s hs
    simp only [List.mem_cons, List.not_mem_nil, or_false] at hs
    rcases hs with rfl | rfl | rfl <;> exact quoted_plain (by simp)
  have htype := WrittenMembers.last hbreak (hkey "type" (by simp)) blanks_nil blanks_nil
    (.string (hkey "Identifier" (by simp))) blanks_nil
  have hmembers := WrittenMembers.more hspace (hkey "name" (by simp)) hspace blanks_nil
    (.string hname) blanks_nil htype
  exact ⟨_, [], _, ['\t'], .object (.refl _) (.swap _ _ _), blanks_nil, .object hmembers, htab, rfl⟩

theorem depth_wire_repeat_returnStmt (n : Nat) (s : String) :
    (Nat.repeat Node.returnStmt n (.literal s)).wire.depth = n + 1 := by
  induction n with
  | zero => rfl
  | succ n ih => simp [Nat.repeat, Node.wire, wireNode, Value.depth, Value.membersDepth, ih]

/-- A text that loads, and trees on both sides of the limit. -/
theorem loadText_of_renders_both_sides :
    loadText "\x7b \"name\" :\"\\u0078\\uD83d\\ude00\",\n\"type\":\"Identifier\"\x7d\t" =
        .ok (.identifier "x😀") ∧
      (∃ text, loadText text = .ok (Nat.repeat Node.returnStmt 126 (.literal "1"))) ∧
      ∃ text position, Renders (Nat.repeat Node.returnStmt 127 (.literal "1")).wire text ∧
        loadText text = .error (.json ⟨.tooDeep, position⟩) := by
  have hforeign : ∀ n, (Nat.repeat Node.returnStmt n (.literal "1")).Loadable := by
    intro n
    induction n with
    | zero => exact foreign_nil
    | succ n ih => exact ih
  refine ⟨?_, ?_, ?_⟩
  · obtain ⟨-, h⟩ := loadText_of_renders (.identifier "x😀") foreign_nil
    exact (h _ renders_identifier).1 (by decide)
  · obtain ⟨⟨text, htext⟩, h⟩ := loadText_of_renders _ (hforeign 126)
    exact ⟨text, (h text htext).1 (by rw [depth_wire_repeat_returnStmt])⟩
  · obtain ⟨⟨text, htext⟩, h⟩ := loadText_of_renders _ (hforeign 127)
    obtain ⟨position, hload⟩ := (h text htext).2 (by rw [depth_wire_repeat_returnStmt])
    exact ⟨text, position, htext, hload⟩

end SyntaxToC.Tree
