import SyntaxToC.Tree.Load

/-!
# Paths into a JSON value

A path is a list of segments in the program and a text in its messages.  `Value.at?` follows the
segments; `Value.pointed?` reads the text as a sequence of keys and indices, and a lone `/` as the
value itself.  The two agree on paths whose keys have no slash.

    v.at? p = some w → v.pointed? p.text = some w                (pointed?_text)
    (p ++ q).text = joinText p.text q.text                       (text_append)
-/

namespace SyntaxToC.Json.Value

open SyntaxToC.Tree

/-! ## Following a path -/

/-- The part of a value at a segment: a member of an object or an item of an array. -/
def part? : Value → Segment → Option Value
  | v, .member key => v.get? key
  | .array items, .item index => items[index]?
  | _, .item _ => none

/-- The part of a value at the end of a path. -/
def at? (v : Value) (p : Path) : Option Value := p.foldlM part? v

/-- The number that a text spells in decimal, without leading zeros. -/
def index? (text : String) : Option Nat :=
  let n := Nat.ofDigitChars 10 text.toList 0
  if toString n = text then some n else none

/-- The part of a value at a segment that is given by its text. -/
def named? : Value → String → Option Value
  | .object members, key => Members.get? members key
  | .array items, text => (index? text).bind fun index => items[index]?
  | _, _ => none

/-- The part of a value at the end of a path that is given by its text. -/
def pointed? (v : Value) (pointer : String) : Option Value :=
  if pointer = "/" then some v
  else
    match pointer.toList.splitOn '/' with
    | [] :: segments => (segments.map String.ofList).foldlM named? v
    | _ => none

theorem at?_member {v w : Value} {key : String} (h : v.get? key = some w) :
    v.at? [.member key] = some w := by
  simpa [at?, part?] using h

theorem at?_item {v w : Value} {key : String} {items : List Value} {index : Nat}
    (h : v.get? key = some (.array items)) (hw : items[index]? = some w) :
    v.at? [.member key, .item index] = some w := by
  simpa [at?, part?, h] using hw

theorem at?_append {v w : Value} {p : Path} (h : v.at? p = some w) (q : Path) :
    v.at? (p ++ q) = w.at? q := by
  unfold at? at h ⊢
  rw [List.foldlM_append, h]
  rfl

theorem index?_toString (n : Nat) : index? (toString n) = some n := by simp [index?]

theorem named?_text {v w : Value} {s : Segment} (h : v.part? s = some w) :
    v.named? s.text = some w := by
  cases s with
  | member key =>
    cases v with
    | object members => exact h
    | _ => cases h
  | item index =>
    cases v with
    | array items =>
      rw [Segment.text, named?, index?_toString]
      exact h
    | _ => cases h

theorem foldlM_named? {v w : Value} {p : Path} (h : v.at? p = some w) :
    (p.map Segment.text).foldlM named? v = some w := by
  induction p generalizing v with
  | nil => exact h
  | cons s p ih =>
    obtain ⟨x, hx, hp⟩ := Option.bind_eq_some_iff.1 h
    rw [List.map_cons, List.foldlM_cons, named?_text hx]
    exact ih hp

end SyntaxToC.Json.Value

/-! ## The text of a path -/

namespace SyntaxToC.Tree.Path

/-- No segment is empty or has a slash in it, so that the text can be taken apart again. -/
def Plain (p : Path) : Prop := ∀ s ∈ p, s.text.toList ≠ [] ∧ '/' ∉ s.text.toList

theorem plain_member {key : String} (h : key.toList ≠ [] ∧ '/' ∉ key.toList) :
    Plain [.member key] := by
  intro s hs
  obtain rfl := List.mem_singleton.1 hs
  exact h

theorem plain_item {key : String} (h : key.toList ≠ [] ∧ '/' ∉ key.toList) (index : Nat) :
    Plain [.member key, .item index] := by
  intro s hs
  rcases List.mem_cons.1 hs with rfl | hs
  · exact h
  · obtain rfl := List.mem_singleton.1 hs
    rw [Segment.text, Nat.toString_eq_repr, Nat.toList_repr]
    refine ⟨Nat.toDigits_ne_nil, fun hslash => ?_⟩
    have hdigit := Nat.isDigit_of_mem_toDigits (by decide) (by decide) hslash
    exact absurd hdigit (by decide)

theorem toList_foldl_text (p : Path) (written : String) :
    (p.foldl (fun written s => written ++ "/" ++ s.text) written).toList =
      written.toList ++ p.flatMap fun s => '/' :: s.text.toList := by
  induction p generalizing written with
  | nil => simp
  | cons s p ih =>
    rw [List.foldl_cons, ih, List.flatMap_cons]
    simp

theorem toList_text {p : Path} (hp : p ≠ []) :
    p.text.toList = p.flatMap fun s => '/' :: s.text.toList := by
  cases p with
  | nil => exact absurd rfl hp
  | cons s p => exact toList_foldl_text (s :: p) ""

/-- A slash in front of each segment is a slash between the pieces. -/
theorem append_flatMap_text (piece : List Char) (p : Path) :
    (piece ++ p.flatMap fun s => '/' :: s.text.toList) =
      ['/'].intercalate (piece :: p.map fun s => s.text.toList) := by
  induction p generalizing piece with
  | nil => simp
  | cons s p ih =>
    rw [List.map_cons, List.intercalate_cons_cons, ← ih, List.flatMap_cons]
    simp

theorem splitOn_text {p : Path} (hp : p ≠ []) (hplain : p.Plain) :
    p.text.toList.splitOn '/' = [] :: p.map fun s => s.text.toList := by
  have hpieces := append_flatMap_text [] p
  rw [List.nil_append] at hpieces
  rw [toList_text hp, hpieces, List.splitOn_intercalate]
  · intro piece hpiece
    rcases List.mem_cons.1 hpiece with rfl | hpiece
    · exact List.not_mem_nil
    · obtain ⟨s, hs, rfl⟩ := List.mem_map.1 hpiece
      exact (hplain s hs).2
  · exact List.cons_ne_nil _ _

theorem text_ne_slash {p : Path} (hp : p ≠ []) (hplain : p.Plain) : p.text ≠ "/" := by
  intro hroot
  have htext := toList_text hp
  rw [hroot] at htext
  cases p with
  | nil => exact hp rfl
  | cons s p =>
    rw [List.flatMap_cons, List.cons_append] at htext
    have hrest : [] = s.text.toList ++ _ := (List.cons.inj htext).2
    exact (hplain s List.mem_cons_self).1 (List.append_eq_nil_iff.1 hrest.symm).1

theorem text_eq_slash_iff {p : Path} (hplain : p.Plain) : p.text = "/" ↔ p = [] := by
  constructor
  · intro h
    cases p with
    | nil => rfl
    | cons s p => exact absurd h (text_ne_slash (List.cons_ne_nil s p) hplain)
  · intro h
    rw [h]
    rfl

/-- The text of a path behind another one; a lone slash adds nothing. -/
def joinText (before after : String) : String :=
  if before = "/" then after else if after = "/" then before else before ++ after

theorem text_append {p q : Path} (hp : p.Plain) (hq : q.Plain) :
    (p ++ q).text = joinText p.text q.text := by
  unfold joinText
  simp only [text_eq_slash_iff hp, text_eq_slash_iff hq]
  split
  · rename_i h
    rw [h, List.nil_append]
  · rename_i hp'
    split
    · rename_i h
      rw [h, List.append_nil]
    · rename_i hq'
      have hpq : p ++ q ≠ [] := fun h => hp' (List.append_eq_nil_iff.1 h).1
      apply String.toList_inj.1
      rw [String.toList_append, toList_text hpq, toList_text hp', toList_text hq',
        List.flatMap_append]

end SyntaxToC.Tree.Path

namespace SyntaxToC.Json.Value

open SyntaxToC.Tree

theorem pointed?_text {v w : Value} {p : Path} (h : v.at? p = some w) (hp : p.Plain) :
    v.pointed? p.text = some w := by
  cases p with
  | nil => simpa [pointed?, Path.text, at?] using h
  | cons s p =>
    have hne : s :: p ≠ [] := List.cons_ne_nil s p
    rw [pointed?, if_neg (Path.text_ne_slash hne hp), Path.splitOn_text hne hp]
    simpa [Function.comp_def] using foldlM_named? h

end SyntaxToC.Json.Value
