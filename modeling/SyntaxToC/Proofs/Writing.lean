import SyntaxToC.Proofs.Induction

/-!
# JSON texts

What it is to write a JSON value, stated without a reader: the spellings of a character inside
quotes (`Spelled`), the texts of a value with blanks between its tokens (`Written`), and the other
orders of the members of its objects (`Reordered`).  A value has many texts, and `Renders v text`
holds for each of them.

Of the numbers only the integers that fit a 64-bit word have a text here, the decimal one; no other
number is needed to write down a tree.
-/

namespace SyntaxToC.Json

/-! ## Characters -/

/-- The blanks that may stand between two tokens. -/
def Blanks (cs : List Char) : Prop := ∀ c ∈ cs, c ∈ [' ', '\t', '\n', '\r']

def lowerDigits : List Char :=
  ['0', '1', '2', '3', '4', '5', '6', '7', '8', '9', 'a', 'b', 'c', 'd', 'e', 'f']

def upperDigits : List Char :=
  ['0', '1', '2', '3', '4', '5', '6', '7', '8', '9', 'A', 'B', 'C', 'D', 'E', 'F']

/-- A hexadecimal digit and its value; letters come in both cases. -/
def IsHexDigit (c : Char) (d : Nat) : Prop := lowerDigits[d]? = some c ∨ upperDigits[d]? = some c

/-- Four hexadecimal digits and their value. -/
inductive IsCode : List Char → Nat → Prop
  | mk {w x y z : Char} {a b c d : Nat} :
      IsHexDigit w a → IsHexDigit x b → IsHexDigit y c → IsHexDigit z d →
      IsCode [w, x, y, z] (16 * (16 * (16 * a + b) + c) + d)

/-- The letters behind a backslash, with the characters that they stand for. -/
def shortEscapes : List (Char × Char) :=
  [('"', '"'), ('\\', '\\'), ('/', '/'), ('b', '\x08'), ('f', '\x0c'), ('n', '\n'), ('r', '\r'),
    ('t', '\t')]

/-- The ways to write a character inside quotes. -/
inductive Spelled : Char → List Char → Prop
  | plain {c : Char} : 0x20 ≤ c.toNat → c ≠ '"' → c ≠ '\\' → Spelled c [c]
  | short {c letter : Char} : (letter, c) ∈ shortEscapes → Spelled c ['\\', letter]
  | code {c : Char} {ds : List Char} : IsCode ds c.toNat → Spelled c ('\\' :: 'u' :: ds)
  /-- A character beyond 16 bits as two codes of ten bits each. -/
  | pair {c : Char} {ds es : List Char} : 0x10000 ≤ c.toNat →
      IsCode ds (0xD800 + (c.toNat - 0x10000) / 0x400) →
      IsCode es (0xDC00 + (c.toNat - 0x10000) % 0x400) →
      Spelled c ('\\' :: 'u' :: (ds ++ '\\' :: 'u' :: es))

inductive SpelledText : List Char → List Char → Prop
  | nil : SpelledText [] []
  | cons {c : Char} {s cs rest : List Char} :
      Spelled c cs → SpelledText s rest → SpelledText (c :: s) (cs ++ rest)

/-- The texts of a string, with its quotes. -/
def Quoted (s : String) (cs : List Char) : Prop :=
  ∃ body, SpelledText s.toList body ∧ cs = '"' :: (body ++ ['"'])

/-! ## Values -/

/-- The integers from `-2 ^ 63` to `2 ^ 64 - 1`. -/
def FitsWord (i : Int) : Prop := -9223372036854775808 ≤ i ∧ i ≤ 18446744073709551615

instance (i : Int) : Decidable (FitsWord i) := inferInstanceAs (Decidable (_ ∧ _))

mutual

/-- The texts of a value, from its first to its last token. -/
inductive Written : Value → List Char → Prop
  | null : Written .null ['n', 'u', 'l', 'l']
  | true : Written (.bool true) ['t', 'r', 'u', 'e']
  | false : Written (.bool false) ['f', 'a', 'l', 's', 'e']
  | integer {i : Int} : FitsWord i → Written (.number (.integer i)) (toString i).toList
  | string {s : String} {cs : List Char} : Quoted s cs → Written (.string s) cs
  | emptyArray {bs : List Char} : Blanks bs → Written (.array []) ('[' :: (bs ++ [']']))
  | array {vs : List Value} {cs : List Char} :
      WrittenItems vs cs → Written (.array vs) ('[' :: (cs ++ [']']))
  | emptyObject {bs : List Char} : Blanks bs → Written (.object []) ('\x7b' :: (bs ++ ['\x7d']))
  | object {ms : Members} {cs : List Char} :
      WrittenMembers ms cs → Written (.object ms) ('\x7b' :: (cs ++ ['\x7d']))

/-- One or more items with commas between them. -/
inductive WrittenItems : List Value → List Char → Prop
  | last {v : Value} {as cs bs : List Char} :
      Blanks as → Written v cs → Blanks bs → WrittenItems [v] (as ++ (cs ++ bs))
  | more {v : Value} {vs : List Value} {as cs bs rest : List Char} :
      Blanks as → Written v cs → Blanks bs → WrittenItems vs rest →
      WrittenItems (v :: vs) (as ++ (cs ++ (bs ++ ',' :: rest)))

/-- One or more members with commas between them. -/
inductive WrittenMembers : Members → List Char → Prop
  | last {key : String} {v : Value} {as ks bs ds cs es : List Char} :
      Blanks as → Quoted key ks → Blanks bs → Blanks ds → Written v cs → Blanks es →
      WrittenMembers [(key, v)] (as ++ (ks ++ (bs ++ ':' :: (ds ++ (cs ++ es)))))
  | more {key : String} {v : Value} {ms : Members} {as ks bs ds cs es rest : List Char} :
      Blanks as → Quoted key ks → Blanks bs → Blanks ds → Written v cs → Blanks es →
      WrittenMembers ms rest →
      WrittenMembers ((key, v) :: ms)
        (as ++ (ks ++ (bs ++ ':' :: (ds ++ (cs ++ (es ++ ',' :: rest))))))

end

/-! ## Order of members -/

mutual

/-- The same value, but for the order of the members in each of its objects. -/
inductive Reordered : Value → Value → Prop
  | refl (v : Value) : Reordered v v
  | array {vs ws : List Value} : ReorderedItems vs ws → Reordered (.array vs) (.array ws)
  | object {ms ns ns' : Members} :
      ReorderedMembers ms ns → ns.Perm ns' → Reordered (.object ms) (.object ns')

inductive ReorderedItems : List Value → List Value → Prop
  | nil : ReorderedItems [] []
  | cons {v w : Value} {vs ws : List Value} :
      Reordered v w → ReorderedItems vs ws → ReorderedItems (v :: vs) (w :: ws)

inductive ReorderedMembers : Members → Members → Prop
  | nil : ReorderedMembers [] []
  | cons {key : String} {v w : Value} {ms ns : Members} :
      Reordered v w → ReorderedMembers ms ns →
      ReorderedMembers ((key, v) :: ms) ((key, w) :: ns)

end

/-- The texts of a document: blanks around the value, and members in any order. -/
def Renders (v : Value) (text : String) : Prop :=
  ∃ w as cs bs, Reordered v w ∧ Blanks as ∧ Written w cs ∧ Blanks bs ∧
    text.toList = as ++ (cs ++ bs)

/-! ## Depth and distinct keys -/

namespace Value

mutual

/-- How deep arrays and objects nest in a value. -/
def depth : Value → Nat
  | .array items => itemsDepth items + 1
  | .object members => membersDepth members + 1
  | .null | .bool _ | .number _ | .string _ => 0

def itemsDepth : List Value → Nat
  | [] => 0
  | v :: vs => max v.depth (itemsDepth vs)

def membersDepth : List (String × Value) → Nat
  | [] => 0
  | (_, v) :: ms => max v.depth (membersDepth ms)

end

/-- No object in the value has two members with the same key. -/
inductive Distinct : Value → Prop
  | null : Distinct .null
  | bool (b : Bool) : Distinct (.bool b)
  | number (n : Number) : Distinct (.number n)
  | string (s : String) : Distinct (.string s)
  | array {items : List Value} : (∀ v ∈ items, Distinct v) → Distinct (.array items)
  | object {members : Members} :
      (members.map Prod.fst).Nodup → (∀ m ∈ members, Distinct m.2) → Distinct (.object members)

end Value

/-! ## Every string, array and object has a text -/

theorem exists_isHexDigit {d : Nat} (h : d < 16) : ∃ c, IsHexDigit c d :=
  ⟨lowerDigits[d], .inl (List.getElem?_eq_getElem h)⟩

theorem exists_isCode {n : Nat} (h : n < 0x10000) : ∃ ds, IsCode ds n := by
  obtain ⟨w, hw⟩ := exists_isHexDigit (d := n / 4096) (by omega)
  obtain ⟨x, hx⟩ := exists_isHexDigit (d := n / 256 % 16) (by omega)
  obtain ⟨y, hy⟩ := exists_isHexDigit (d := n / 16 % 16) (by omega)
  obtain ⟨z, hz⟩ := exists_isHexDigit (d := n % 16) (by omega)
  have hn : 16 * (16 * (16 * (n / 4096) + n / 256 % 16) + n / 16 % 16) + n % 16 = n := by omega
  exact ⟨[w, x, y, z], hn ▸ .mk hw hx hy hz⟩

theorem exists_spelled (c : Char) : ∃ cs, Spelled c cs := by
  by_cases hmin : 0x20 ≤ c.toNat
  · by_cases hquote : c = '"'
    · exact ⟨['\\', '"'], .short (by simp [shortEscapes, hquote])⟩
    · by_cases hslash : c = '\\'
      · exact ⟨['\\', '\\'], .short (by simp [shortEscapes, hslash])⟩
      · exact ⟨[c], .plain hmin hquote hslash⟩
  · obtain ⟨ds, hds⟩ := exists_isCode (n := c.toNat) (by omega)
    exact ⟨_, .code hds⟩

theorem exists_spelledText (s : List Char) : ∃ body, SpelledText s body := by
  induction s with
  | nil => exact ⟨[], .nil⟩
  | cons c s ih =>
    obtain ⟨cs, hcs⟩ := exists_spelled c
    obtain ⟨rest, hrest⟩ := ih
    exact ⟨_, .cons hcs hrest⟩

theorem exists_quoted (s : String) : ∃ cs, Quoted s cs := by
  obtain ⟨body, hbody⟩ := exists_spelledText s.toList
  exact ⟨_, body, hbody, rfl⟩

theorem spelledText_plain {s : List Char} (h : ∀ c ∈ s, 0x20 ≤ c.toNat ∧ c ≠ '"' ∧ c ≠ '\\') :
    SpelledText s s := by
  induction s with
  | nil => exact .nil
  | cons c s ih =>
    obtain ⟨⟨hmin, hquote, hslash⟩, hs⟩ := List.forall_mem_cons.1 h
    exact .cons (.plain hmin hquote hslash) (ih hs)

/-- A text without quotes, backslashes and control characters may stand as it is. -/
theorem quoted_plain {s : String} (h : ∀ c ∈ s.toList, 0x20 ≤ c.toNat ∧ c ≠ '"' ∧ c ≠ '\\') :
    Quoted s ('"' :: (s.toList ++ ['"'])) :=
  ⟨s.toList, spelledText_plain h, rfl⟩

theorem blanks_nil : Blanks [] := fun _ h => by cases h

theorem exists_written_string (s : String) : ∃ cs, Written (.string s) cs := by
  obtain ⟨cs, hcs⟩ := exists_quoted s
  exact ⟨cs, .string hcs⟩

theorem exists_writtenItems {v : Value} {vs : List Value}
    (h : ∀ w ∈ v :: vs, ∃ cs, Written w cs) : ∃ cs, WrittenItems (v :: vs) cs := by
  induction vs generalizing v with
  | nil =>
    obtain ⟨cs, hcs⟩ := h v List.mem_cons_self
    exact ⟨_, .last blanks_nil hcs blanks_nil⟩
  | cons w vs ih =>
    obtain ⟨⟨cs, hcs⟩, hvs⟩ := List.forall_mem_cons.1 h
    obtain ⟨rest, hrest⟩ := ih hvs
    exact ⟨_, .more blanks_nil hcs blanks_nil hrest⟩

theorem exists_written_array {vs : List Value} (h : ∀ v ∈ vs, ∃ cs, Written v cs) :
    ∃ cs, Written (.array vs) cs := by
  cases vs with
  | nil => exact ⟨_, .emptyArray blanks_nil⟩
  | cons v vs =>
    obtain ⟨cs, hcs⟩ := exists_writtenItems h
    exact ⟨_, .array hcs⟩

theorem exists_writtenMembers {m : String × Value} {ms : Members}
    (h : ∀ n ∈ m :: ms, ∃ cs, Written n.2 cs) : ∃ cs, WrittenMembers (m :: ms) cs := by
  induction ms generalizing m with
  | nil =>
    obtain ⟨ks, hks⟩ := exists_quoted m.1
    obtain ⟨cs, hcs⟩ := h m List.mem_cons_self
    exact ⟨_, .last blanks_nil hks blanks_nil blanks_nil hcs blanks_nil⟩
  | cons n ms ih =>
    obtain ⟨ks, hks⟩ := exists_quoted m.1
    obtain ⟨⟨cs, hcs⟩, hms⟩ := List.forall_mem_cons.1 h
    obtain ⟨rest, hrest⟩ := ih hms
    exact ⟨_, .more blanks_nil hks blanks_nil blanks_nil hcs blanks_nil hrest⟩

theorem exists_written_object {ms : Members} (h : ∀ m ∈ ms, ∃ cs, Written m.2 cs) :
    ∃ cs, Written (.object ms) cs := by
  cases ms with
  | nil => exact ⟨_, .emptyObject blanks_nil⟩
  | cons m ms =>
    obtain ⟨cs, hcs⟩ := exists_writtenMembers h
    exact ⟨_, .object hcs⟩

end SyntaxToC.Json
