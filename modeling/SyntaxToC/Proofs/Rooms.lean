import Mathlib.Algebra.Order.BigOperators.Group.List
import Mathlib.Algebra.Order.Ring.Nat
import SyntaxToC.Proofs.Pieces

/-!
# Texts and the room for them

`emitRoom` stops where `emit` does, and a room that it comes to is one for the text of `emit`.  Only
where there is no room does it stop earlier, and that takes a text of more than half of `maxRoom`:
the text of the tree itself, or the line break and the indent that separate two statements.

    Follows (Short layout (textSize layout t)) RoomFor (emitRoom layout t) (emit layout t)

The half is due to the doubling of rooms: a text never has more than twice the room that it needs.
-/

namespace SyntaxToC.Code

open SyntaxToC.Tree SyntaxToC.Outcome

/-! ## Rooms -/

/-- A room that holds the text and is at most twice as large, apart from the least size of rooms. -/
structure RoomFor (r : Room) (text : String) : Prop where
  size_eq : r.size = bytes text
  size_le : r.size ≤ r.capacity
  capacity_le : r.capacity ≤ max (2 * r.size) 8
  capacity_le_max : r.capacity ≤ maxRoom

/-- The first computation goes the way of the second one, unless it runs out of room, and then
`short` is the case. -/
inductive Follows {α β : Type} (short : Prop) (R : α → β → Prop) :
    Except Obstacle α → Except EmitError β → Prop
  | ok {a : α} {b : β} : R a b → Follows short R (.ok a) (.ok b)
  | unsupported (e : EmitError) : Follows short R (.error (.unsupported e)) (.error e)
  | exhausted (y : Except EmitError β) : short → Follows short R (.error .exhausted) y

namespace Follows

variable {α β γ δ : Type} {short short' : Prop} {R : α → β → Prop} {S : γ → δ → Prop}

theorem mono {x : Except Obstacle α} {y : Except EmitError β} (h : Follows short R x y)
    (hshort : short → short') : Follows short' R x y := by
  cases h with
  | ok hab => exact .ok hab
  | unsupported e => exact .unsupported e
  | exhausted y hs => exact .exhausted y (hshort hs)

theorem bind {x : Except Obstacle α} {y : Except EmitError β} {f : α → Except Obstacle γ}
    {g : β → Except EmitError δ} (h : Follows short R x y)
    (hfg : ∀ a b, y = .ok b → R a b → Follows short S (f a) (g b)) :
    Follows short S (x >>= f) (y >>= g) := by
  cases h with
  | ok hab => exact hfg _ _ rfl hab
  | unsupported e => exact .unsupported e
  | exhausted y hs => exact .exhausted _ hs

theorem mapM {ι : Type} {f : ι → Except Obstacle α} {g : ι → Except EmitError β} {is : List ι}
    (h : ∀ i ∈ is, Follows short R (f i) (g i)) :
    Follows short (List.Forall₂ R) (is.mapM f) (is.mapM g) := by
  induction is with
  | nil => exact .ok .nil
  | cons i is ih =>
    rw [List.forall_mem_cons] at h
    rw [List.mapM_cons, List.mapM_cons]
    exact h.1.bind fun a b _ hab => (ih h.2).bind fun as bs _ hrest => .ok (.cons hab hrest)

end Follows

theorem bytes_append (a b : String) : bytes (a ++ b) = bytes a + bytes b :=
  String.utf8ByteSize_append

namespace Room

theorem push_follows {r : Room} {text : String} (h : RoomFor r text) (part : String) :
    Follows (maxRoom < 2 * bytes (text ++ part)) RoomFor (r.push (bytes part))
      (.ok (text ++ part)) := by
  obtain ⟨hsize, hle, hcapacity, hmax⟩ := h
  rw [bytes_append, ← hsize]
  unfold push setAside
  dsimp only
  split
  · refine .ok ⟨?_, ?_, ?_, hmax⟩
    · rw [bytes_append, hsize]
    · assumption
    · show r.capacity ≤ max (2 * (r.size + bytes part)) 8
      omega
  · split
    · refine .ok ⟨?_, ?_, ?_, ?_⟩
      · rw [bytes_append, hsize]
      · show r.size + bytes part ≤ max (r.size + bytes part) (max (2 * r.capacity) 8)
        omega
      · show max (r.size + bytes part) (max (2 * r.capacity) 8) ≤ max (2 * (r.size + bytes part)) 8
        omega
      · assumption
    · have hbig : 8 ≤ maxRoom := by decide
      exact .exhausted _ (by omega)

theorem foldlM_push_follows {r : Room} {text : String} (h : RoomFor r text) (parts : List String) :
    Follows (maxRoom < 2 * bytes (text ++ String.join parts)) RoomFor
      ((parts.map bytes).foldlM push r) (.ok (text ++ String.join parts)) := by
  induction parts generalizing r text with
  | nil =>
    rw [String.join_nil, String.append_empty]
    exact .ok h
  | cons part parts ih =>
    rw [String.join_cons, ← String.append_assoc, List.map_cons, List.foldlM_cons]
    have hpush : Follows (maxRoom < 2 * bytes (text ++ part ++ String.join parts)) RoomFor
        (r.push (bytes part)) (.ok (text ++ part)) := by
      refine (push_follows h part).mono fun hlt => ?_
      rw [bytes_append]
      omega
    exact hpush.bind (g := fun s => .ok (s ++ String.join parts)) fun r' s hs hroom => by
      cases hs
      exact ih hroom

theorem formatted_follows {sizes : List Nat} (parts : List String) (h : sizes = parts.map bytes)
    {text : String} (htext : String.join parts = text) :
    Follows (maxRoom < 2 * bytes text) RoomFor (formatted sizes) (.ok text) := by
  have hempty : RoomFor ⟨0, 0⟩ "" := ⟨rfl, Nat.le_refl 0, Nat.zero_le _, Nat.zero_le _⟩
  have hparts := foldlM_push_follows hempty parts
  rw [String.empty_append, htext, ← h] at hparts
  exact hparts

theorem exact_follows (text : String) :
    Follows (maxRoom < 2 * bytes text) RoomFor (exact (bytes text)) (.ok text) := by
  unfold exact setAside
  split
  · refine .ok ⟨rfl, Nat.le_refl _, ?_, by assumption⟩
    show bytes text ≤ max (2 * bytes text) 8
    omega
  · exact .exhausted _ (by omega)

theorem joinedSize_eq {rs : List Room} {texts : List String} (h : List.Forall₂ RoomFor rs texts)
    (separator : String) : joinedSize (bytes separator) rs = bytes (separator.intercalate texts) := by
  induction h with
  | nil => rfl
  | cons hhead htail ih =>
    cases htail with
    | nil =>
      rw [joinedSize, hhead.size_eq, String.intercalate_singleton]
    | cons hnext hrest =>
      rw [String.intercalate_cons_cons, bytes_append, bytes_append, ← ih, ← hhead.size_eq]
      rfl

theorem joined_follows {rs : List Room} {texts : List String} (h : List.Forall₂ RoomFor rs texts)
    (separator : String) :
    Follows (maxRoom < 2 * bytes (separator.intercalate texts)) RoomFor
      (joined (bytes separator) rs) (.ok (separator.intercalate texts)) := by
  rw [joined, joinedSize_eq h]
  exact exact_follows _

end Room

/-! ## Sizes of texts -/

theorem bytes_written (layout : Layout) (ps : List Piece) :
    bytes (written layout ps) = (ps.map fun p => bytes (p.text layout)).sum := by
  induction ps with
  | nil => rfl
  | cons p ps ih => rw [written_cons, bytes_append, ih, List.map_cons, List.sum_cons]

theorem bytes_written_le {layout : Layout} {ps qs : List Piece} (h : ps.Sublist qs) :
    bytes (written layout ps) ≤ bytes (written layout qs) := by
  rw [bytes_written, bytes_written]
  exact (h.map _).sum_le_sum fun _ _ => Nat.zero_le _

/-- The bytes of the text of a tree, where an unsupported node has none. -/
def textSize (layout : Layout) (t : Node) : Nat :=
  bytes (written layout (t.pieces layout.terminators))

theorem textSize_eq {layout : Layout} {t : Node} {text : String} (h : emit layout t = .ok text) :
    textSize layout t = bytes text := by
  rw [textSize, ← emit_eq_written h]

theorem sublist_intercalate {ps separator : List Piece} {lists : List (List Piece)}
    (h : ps ∈ lists) : ps.Sublist (separator.intercalate lists) := by
  induction lists with
  | nil => cases h
  | cons qs rest ih =>
    cases rest with
    | nil =>
      rw [List.mem_singleton.1 h, List.intercalate_singleton]
    | cons qs' rest =>
      rw [List.intercalate_cons_cons, List.append_assoc]
      rcases List.mem_cons.1 h with rfl | hrest
      · exact List.sublist_append_left _ _
      · exact ((ih hrest).trans (List.sublist_append_right _ _)).trans
          (List.sublist_append_right _ _)

/-- A text of `n` bytes, or what separates two statements, takes more than half of the room that
there can be. -/
def Short (layout : Layout) (n : Nat) : Prop := maxRoom < 2 * max n (bytes layout.indent + 1)

theorem Short.mono {layout : Layout} {m n : Nat} (h : Short layout m) (hle : m ≤ n) :
    Short layout n := by
  unfold Short at *
  omega

theorem short_of_lt {layout : Layout} {m n : Nat} (h : maxRoom < 2 * m) (hle : m ≤ n) :
    Short layout n := by
  unfold Short
  omega

/-! ## Blocks -/

section

variable {layout : Layout} {body : Slots} {n : Nat}

def blockRoom (layout : Layout) (body : Slots) : Except Obstacle Room := do
  let separator ← separatorRoom layout
  Room.joined separator.size (← statementRooms layout body)

def emitBlock (layout : Layout) (body : Slots) : Except EmitError String := do
  return lines layout (← emitStatements layout body)

theorem separatorRoom_follows :
    Follows (Short layout n) RoomFor (separatorRoom layout) (.ok ("\n" ++ layout.indent)) := by
  have hseparator := Room.formatted_follows ["\n", layout.indent] rfl rfl
  rw [String.join_cons, String.join_cons, String.join_nil, String.append_empty] at hseparator
  refine hseparator.mono fun hlt => ?_
  have hbreak : bytes "\n" = 1 := rfl
  rw [bytes_append, hbreak] at hlt
  unfold Short
  omega

theorem statementRoom_follows {m : Node} (hle : bytes (written layout
      (statementPieces layout.terminators m)) ≤ n)
    (ih : Follows (Short layout (textSize layout m)) RoomFor (emitRoom layout m) (emit layout m)) :
    Follows (Short layout n) RoomFor (statementRoom layout m) (emitStatement layout m) := by
  rw [statementPieces, written_append, written_terminatorPieces, bytes_append] at hle
  refine (ih.mono fun hshort => hshort.mono ?_).bind fun r text htext hroom => ?_
  · exact Nat.le_trans (Nat.le_add_right _ _) hle
  · refine (Room.push_follows hroom _).mono fun hlt => short_of_lt hlt ?_
    rwa [bytes_append, ← textSize_eq htext]

theorem blockRoom_follows
    (ih : ∀ m, some m ∈ body →
      Follows (Short layout (textSize layout m)) RoomFor (emitRoom layout m) (emit layout m))
    (hle : textSize layout (.block body) ≤ n) :
    Follows (Short layout n) RoomFor (blockRoom layout body) (emitBlock layout body) := by
  have hstatements : Follows (Short layout n) (List.Forall₂ RoomFor) (statementRooms layout body)
      (emitStatements layout body) := by
    rw [statementRooms_eq_mapM, emitStatements_eq_mapM]
    refine .mapM fun m hm => statementRoom_follows (Nat.le_trans (bytes_written_le ?_) hle)
      (ih m (List.reduceOption_mem_iff.1 hm))
    apply sublist_intercalate
    rw [statementsPieces_eq_map]
    exact List.mem_map_of_mem hm
  refine separatorRoom_follows.bind (g := fun separator => do
    return separator.intercalate (← emitStatements layout body)) fun separator text hs hroom => ?_
  cases hs
  refine hstatements.bind fun rooms texts htexts hrooms => ?_
  rw [hroom.size_eq]
  refine (Room.joined_follows hrooms _).mono fun hlt => short_of_lt hlt (Nat.le_trans ?_ hle)
  have hemit : emit layout (.block body) = .ok (lines layout texts) := by
    rw [emit, htexts]
    rfl
  exact Nat.le_of_eq (textSize_eq hemit).symm

end

section

variable (layout : Layout) (name returnType : String) (params : List Param) (body : Slots)

theorem emitRoom_functionDecl :
    emitRoom layout (.functionDecl name returnType params body) =
      blockRoom layout body >>= fun statements =>
        Room.formatted [bytes (typeText returnType), bytes " ", bytes name, bytes " (",
          bytes (paramsText params), bytes ") \x7b\n", bytes layout.indent, statements.size,
          bytes "\n\x7d"] := by
  rw [emitRoom, blockRoom]
  cases separatorRoom layout with
  | error e => rfl
  | ok separator => cases statementRooms layout body <;> rfl

theorem emit_functionDecl :
    emit layout (.functionDecl name returnType params body) =
      emitBlock layout body >>= fun statements =>
        .ok (signature returnType name params ++ " \x7b\n" ++ layout.indent ++ statements ++
          "\n\x7d") := by
  rw [emit, emitBlock]
  cases emitStatements layout body <;> rfl

end

/-! ## Trees -/

/-- What a node adds to the texts of its parts is written in the last step. -/
theorem formatted_follows_emit {layout : Layout} {t : Node} {sizes : List Nat} {text : String}
    (parts : List String) (hsizes : sizes = parts.map bytes) (htext : String.join parts = text)
    (hemit : emit layout t = .ok text) :
    Follows (Short layout (textSize layout t)) RoomFor (Room.formatted sizes) (.ok text) := by
  refine (Room.formatted_follows parts hsizes htext).mono fun hlt => short_of_lt hlt ?_
  exact Nat.le_of_eq (textSize_eq hemit).symm

/-- A part of a tree is short of room only if the tree is. -/
theorem part_follows {layout : Layout} {t part : Node}
    (h : Follows (Short layout (textSize layout part)) RoomFor (emitRoom layout part)
      (emit layout part))
    (hsub : (part.pieces layout.terminators).Sublist (t.pieces layout.terminators)) :
    Follows (Short layout (textSize layout t)) RoomFor (emitRoom layout part) (emit layout part) :=
  h.mono fun hshort => hshort.mono (bytes_written_le hsub)

theorem emitRoom_follows (layout : Layout) (t : Node) :
    Follows (Short layout (textSize layout t)) RoomFor (emitRoom layout t) (emit layout t) := by
  induction t with
  | program body ih =>
    rw [emitRoom, emit, itemRooms_eq_mapM, emitItems_eq_mapM]
    have hitems : ∀ m ∈ body.reduceOption, Follows (Short layout (textSize layout (.program body)))
        RoomFor (emitRoom layout m) (emit layout m) := by
      intro m hm
      refine part_follows (ih m (List.reduceOption_mem_iff.1 hm)) (sublist_intercalate ?_)
      rw [itemsPieces_eq_map]
      exact List.mem_map_of_mem hm
    refine (Follows.mapM hitems).bind fun rooms texts htexts hrooms => ?_
    refine (Room.joined_follows hrooms "\n").mono fun hlt => short_of_lt hlt ?_
    have hemit : emit layout (.program body) = .ok ("\n".intercalate texts) := by
      rw [emit, emitItems_eq_mapM, htexts]
      rfl
    exact Nat.le_of_eq (textSize_eq hemit).symm
  | importDecl std value =>
    cases std with
    | true =>
      refine formatted_follows_emit ["#include <", value, ">"] rfl ?_ rfl
      simp [includeText, String.append_assoc]
    | false => exact formatted_follows_emit ["#include ", value] rfl (by simp [includeText]) rfl
  | functionDecl name returnType params body ih =>
    have hbody : Follows (Short layout (textSize layout (.functionDecl name returnType params body)))
        RoomFor (blockRoom layout body) (emitBlock layout body) := by
      refine blockRoom_follows ih (bytes_written_le ?_)
      exact (List.sublist_append_right _ _).trans (List.sublist_append_left _ _)
    rw [emitRoom_functionDecl, emit_functionDecl]
    refine hbody.bind fun r text htext hfits => ?_
    rw [hfits.size_eq]
    refine formatted_follows_emit [typeText returnType, " ", name, " (", paramsText params,
      ") \x7b\n", layout.indent, text, "\n\x7d"] rfl ?_ ?_
    · have hopen : ") \x7b\n" = ")" ++ " \x7b\n" := rfl
      simp [signature, hopen, String.append_assoc]
    · rw [emit_functionDecl, htext]
      rfl
  | block body ih => exact blockRoom_follows ih (Nat.le_refl _)
  | returnStmt argument ih =>
    refine (part_follows ih (List.sublist_cons_self _ _)).bind fun r text htext hroom => ?_
    rw [hroom.size_eq]
    refine formatted_follows_emit ["return ", text] rfl (by simp) ?_
    rw [emit, htext]
    rfl
  | exprStmt expression ih =>
    refine (part_follows ih (List.sublist_append_left _ _)).bind fun r text htext hroom => ?_
    rw [hroom.size_eq]
    refine formatted_follows_emit [text, ";"] rfl (by simp) ?_
    rw [emit, htext]
    rfl
  | variableDecl mutable name typing value ih =>
    refine (part_follows ih (List.sublist_append_right _ _)).bind fun r text htext hroom => ?_
    rw [hroom.size_eq]
    refine formatted_follows_emit [if mutable then "" else "const ", typeText typing, " ", name,
      " = ", text] rfl (by simp [String.append_assoc]) ?_
    rw [emit, htext]
    rfl
  | call callee arguments ih =>
    rw [emitRoom, emit, argumentRooms_eq_mapM, emitArguments_eq_mapM]
    have harguments : ∀ m ∈ arguments, Follows (Short layout (textSize layout
        (.call callee arguments))) RoomFor (emitRoom layout m) (emit layout m) := by
      intro m hm
      refine part_follows (ih m hm) (.trans (sublist_intercalate ?_)
        ((List.sublist_append_right _ _).trans (List.sublist_append_left _ _)))
      rw [argumentsPieces_eq_map]
      exact List.mem_map_of_mem hm
    refine (Follows.mapM harguments).bind fun rooms texts htexts hrooms => ?_
    have hemit : emit layout (.call callee arguments) =
        .ok (typeText callee ++ "(" ++ ", ".intercalate texts ++ ")") := by
      rw [emit, emitArguments_eq_mapM, htexts]
      rfl
    have hjoined : Follows (Short layout (textSize layout (.call callee arguments))) RoomFor
        (Room.joined (bytes ", ") rooms) (.ok (", ".intercalate texts)) := by
      refine (Room.joined_follows hrooms ", ").mono fun hlt => short_of_lt hlt ?_
      rw [textSize_eq hemit, bytes_append, bytes_append]
      omega
    refine hjoined.bind (g := fun s => .ok (typeText callee ++ "(" ++ s ++ ")"))
      fun r s hs hroom => ?_
    cases hs
    rw [hroom.size_eq]
    exact formatted_follows_emit [typeText callee, "(", ", ".intercalate texts, ")"] rfl
      (by simp [String.append_assoc]) hemit
  | binary left op right ihl ihr =>
    refine (part_follows ihl ?_).bind fun rl l hl hleft => ?_
    · exact (List.sublist_append_left _ _).trans (List.sublist_append_left _ _)
    refine (part_follows ihr (List.sublist_append_right _ _)).bind fun rr r hr hright => ?_
    rw [hleft.size_eq, hright.size_eq]
    refine formatted_follows_emit [l, " ", op, " ", r] rfl (by simp [String.append_assoc]) ?_
    rw [emit, hl, hr]
    rfl
  | literal text =>
    refine (Room.exact_follows text).mono fun hlt => short_of_lt hlt ?_
    exact Nat.le_of_eq (textSize_eq rfl).symm
  | identifier name =>
    refine (Room.exact_follows name).mono fun hlt => short_of_lt hlt ?_
    exact Nat.le_of_eq (textSize_eq rfl).symm
  | unsupported tag => exact .unsupported ⟨tag⟩

/-! ## Running out of room -/

section

variable {layout : Layout} {t : Node} {text : String}

theorem exhausts_iff : exhausts layout t ↔ emitRoom layout t = .error .exhausted := by
  unfold exhausts
  split <;> simp_all

/-- Without a text of more than half of the room that there can be, emission does not run out. -/
theorem short_of_exhausts (h : exhausts layout t) : Short layout (textSize layout t) := by
  have hfollows := emitRoom_follows layout t
  rw [exhausts_iff.1 h] at hfollows
  cases hfollows with
  | exhausted _ hshort => exact hshort

/-- There is no text of more than the room that there can be. -/
theorem exhausts_of_lt (h : emit layout t = .ok text) (hlt : maxRoom < bytes text) :
    exhausts layout t := by
  have hfollows := emitRoom_follows layout t
  rw [h] at hfollows
  rw [exhausts_iff]
  generalize emitRoom layout t = x at hfollows
  cases hfollows with
  | ok hroom =>
    have hle := hroom.size_le
    have hmax := hroom.capacity_le_max
    have hsize := hroom.size_eq
    omega
  | exhausted _ _ => rfl

end

theorem Room.push_eq_ok_iff {r r' : Room} {n : Nat} :
    r.push n = .ok r' ↔
      r.size + n ≤ r.capacity ∧ r' = ⟨r.size + n, r.capacity⟩ ∨
        r.capacity < r.size + n ∧ max (r.size + n) (max (2 * r.capacity) 8) ≤ maxRoom ∧
          r' = ⟨r.size + n, max (r.size + n) (max (2 * r.capacity) 8)⟩ := by
  unfold push setAside
  dsimp only
  split
  · have hnot : ¬ r.capacity < r.size + n := by omega
    simp [*, eq_comm]
  · have hlt : r.capacity < r.size + n := by omega
    split <;> simp [*, eq_comm]

theorem lineFits_iff_exists {text : String} :
    lineFits text ↔ ∃ r r', Room.push ⟨0, 0⟩ (bytes text) = .ok r ∧ r.push 1 = .ok r' := by
  have hformatted : Room.formatted [bytes text, bytes "\n"] =
      Room.push ⟨0, 0⟩ (bytes text) >>= fun r => r.push 1 >>= pure := rfl
  have hfits : lineFits text ↔ ∃ r, Room.formatted [bytes text, bytes "\n"] = .ok r := by
    unfold lineFits
    cases Room.formatted [bytes text, bytes "\n"] <;> simp
  rw [hfits, hformatted]
  simp only [bind_pure, bind_eq_ok_iff]
  exact ⟨fun ⟨r', r, hr, hr'⟩ => ⟨r, r', hr, hr'⟩, fun ⟨r, r', hr, hr'⟩ => ⟨r', r, hr, hr'⟩⟩

/-- The line break behind a text doubles its room. -/
theorem lineFits_iff {text : String} : lineFits text ↔ 2 * bytes text ≤ maxRoom := by
  have hbig : 16 ≤ maxRoom := by decide
  rw [lineFits_iff_exists]
  simp only [Room.push_eq_ok_iff, Nat.zero_add]
  constructor
  · rintro ⟨_, _, ⟨_, rfl⟩ | ⟨_, _, rfl⟩, ⟨_, rfl⟩ | ⟨_, _, rfl⟩⟩ <;> dsimp only at * <;> omega
  · intro hle
    by_cases hzero : bytes text = 0
    · exact ⟨_, _, .inl ⟨by omega, rfl⟩, .inr ⟨by dsimp only; omega, by dsimp only; omega, rfl⟩⟩
    refine ⟨⟨bytes text, max (bytes text) 8⟩, ?_⟩
    by_cases hsmall : bytes text < 8
    · exact ⟨_, .inr ⟨by omega, by omega, rfl⟩, .inl ⟨by dsimp only; omega, rfl⟩⟩
    · exact ⟨_, .inr ⟨by omega, by omega, rfl⟩,
        .inr ⟨by dsimp only; omega, by dsimp only; omega, rfl⟩⟩

end SyntaxToC.Code
