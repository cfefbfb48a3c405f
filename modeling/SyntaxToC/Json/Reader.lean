import SyntaxToC.Json.Numeral

/-!
# Reading JSON text

The text is read in one pass, one character at a time, by a machine whose state is everything that
the characters so far have settled: the containers still open (`Frame`), what may come next
(`Mode`), and the position for a fault.

    read text = (text.foldl State.step State.start).finish

`next` is the whole grammar: it gives the next frames and mode, or a refusal.  A faulty text keeps
the fault that was noticed first.  Inside `maxDepth` open containers no further one is opened.
-/

namespace SyntaxToC.Json

/-- The number of containers that may be open at once. -/
def maxDepth : Nat := 127

/-! ## State -/

/-- An open container that waits for a value; the items of a list stand newest first. -/
inductive Frame where
  | item (items : List Value)
  | member (members : Members) (key : String)

/-- A place between two tokens. -/
inductive Place where
  /-- A value has to come. -/
  | value
  /-- After `[`. -/
  | firstItem
  /-- After a comma in a list. -/
  | nextItem (items : List Value)
  | afterItem (items : List Value)
  /-- After an opening brace. -/
  | firstKey
  /-- After a comma in an object. -/
  | nextKey (members : Members)
  | afterKey (members : Members) (key : String)
  | afterMember (members : Members)
  /-- After the whole document. -/
  | finished (v : Value)

/-- What a string in the text is. -/
inductive Role where
  | value
  | key (members : Members)

/-- A place inside an escape.  Escapes for characters beyond 16 bits come in pairs: `lead` is the
first half of such a pair. -/
inductive Escape where
  /-- After the backslash. -/
  | letter
  /-- Among the four bytes of a code; `code` is `none` once one of them is no digit. -/
  | digits (lead : Option Nat) (bytes : Nat) (code : Option Nat)
  /-- The backslash of the second half has to come. -/
  | pairBackslash (lead : Nat)
  /-- The letter of the second half has to come. -/
  | pairLetter (lead : Nat)

inductive Mode where
  | between (place : Place)
  /-- Inside a word, with the characters that it still needs. -/
  | word (expected : Char) (rest : List Char) (meaning : Value)
  | numeral (n : Numeral)
  | string (role : Role) (text : String)
  | escape (role : Role) (text : String) (e : Escape)

/-- A character that the grammar does not admit, and how many of its bytes are passed. -/
structure Refusal where
  cause : Cause
  bytes : Nat := 1

/-! ## Grammar -/

def isBlank (c : Char) : Bool := c == ' ' || c == '\n' || c == '\t' || c == '\r'

def refuse {α : Type} (cause : Cause) : Except Refusal α := .error { cause }

/-- Hands a complete value to the innermost open container. -/
def deliver (v : Value) : List Frame → List Frame × Place
  | [] => ([], .finished v)
  | .item items :: fs => (fs, .afterItem (v :: items))
  | .member ms key :: fs => (fs, .afterMember (ms.insert key v))

/-- As `deliver`, going on between two tokens. -/
def complete (v : Value) (fs : List Frame) : List Frame × Mode :=
  ((deliver v fs).1, .between (deliver v fs).2)

/-- A character in front of a value. -/
def beginValue (fs : List Frame) (c : Char) : Except Refusal (List Frame × Mode) :=
  match c with
  | '[' => if fs.length < maxDepth then .ok (fs, .between .firstItem) else refuse .tooDeep
  | '\x7b' => if fs.length < maxDepth then .ok (fs, .between .firstKey) else refuse .tooDeep
  | '"' => .ok (fs, .string .value "")
  | 't' => .ok (fs, .word 'r' ['u', 'e'] (.bool true))
  | 'f' => .ok (fs, .word 'a' ['l', 's', 'e'] (.bool false))
  | 'n' => .ok (fs, .word 'u' ['l', 'l'] .null)
  | c =>
    match Numeral.ofFirst? c with
    | some n => .ok (fs, .numeral n)
    | none => refuse .expectedValue

/-- A character between two tokens. -/
def nextToken (fs : List Frame) (place : Place) (c : Char) :
    Except Refusal (List Frame × Mode) :=
  if isBlank c then .ok (fs, .between place) else
    match place with
    | .value => beginValue fs c
    | .firstItem => if c = ']' then .ok (complete (.array []) fs) else beginValue (.item [] :: fs) c
    | .nextItem items =>
      if c = ']' then refuse .trailingComma else beginValue (.item items :: fs) c
    | .afterItem items =>
      if c = ',' then .ok (fs, .between (.nextItem items))
      else if c = ']' then .ok (complete (.array items.reverse) fs)
      else refuse .expectedListEnd
    | .firstKey =>
      if c = '\x7d' then .ok (complete (.object []) fs)
      else if c = '"' then .ok (fs, .string (.key []) "")
      else refuse .keyNotString
    | .nextKey ms =>
      if c = '\x7d' then refuse .trailingComma
      else if c = '"' then .ok (fs, .string (.key ms) "")
      else refuse .keyNotString
    | .afterKey ms key =>
      if c = ':' then .ok (.member ms key :: fs, .between .value) else refuse .expectedColon
    | .afterMember ms =>
      if c = ',' then .ok (fs, .between (.nextKey ms))
      else if c = '\x7d' then .ok (complete (.object ms) fs)
      else refuse .expectedObjectEnd
    | .finished _ => refuse .trailingCharacters

/-- The character that a one-letter escape stands for. -/
def escapeLetter? (c : Char) : Option Char :=
  match c with
  | '"' => some '"'
  | '\\' => some '\\'
  | '/' => some '/'
  | 'b' => some '\x08'
  | 'f' => some '\x0c'
  | 'n' => some '\n'
  | 'r' => some '\r'
  | 't' => some '\t'
  | _ => none

def hexDigit? (c : Char) : Option Nat :=
  if c.isDigit then some (c.toNat - '0'.toNat)
  else if 'a' ≤ c ∧ c ≤ 'f' then some (c.toNat - 'a'.toNat + 10)
  else if 'A' ≤ c ∧ c ≤ 'F' then some (c.toNat - 'A'.toNat + 10)
  else none

def isLead (code : Nat) : Bool := 0xD800 ≤ code && code < 0xDC00

def isTrail (code : Nat) : Bool := 0xDC00 ≤ code && code < 0xE000

/-- The end of a four-digit escape. -/
def closeCode (role : Role) (text : String) (lead : Option Nat) (code : Nat) :
    Except Refusal Mode :=
  match lead with
  | none =>
    if isTrail code then refuse .loneSurrogate
    else if isLead code then .ok (.escape role text (.pairBackslash code))
    else .ok (.string role (text.push (Char.ofNat code)))
  | some first =>
    if isTrail code then
      .ok (.string role
        (text.push (Char.ofNat (0x10000 + (first - 0xD800) * 0x400 + (code - 0xDC00)))))
    else refuse .loneSurrogate

/-- A character inside an escape.  A bad code is noticed after four bytes, which may be in the
middle of a character. -/
def nextEscape (role : Role) (text : String) (e : Escape) (c : Char) : Except Refusal Mode :=
  match e with
  | .letter =>
    if c = 'u' then .ok (.escape role text (.digits none 0 (some 0)))
    else match escapeLetter? c with
      | some x => .ok (.string role (text.push x))
      | none => refuse .invalidEscape
  | .digits lead bytes code =>
    let code := do return 16 * (← code) + (← hexDigit? c)
    if bytes + c.utf8Size < 4 then .ok (.escape role text (.digits lead (bytes + c.utf8Size) code))
    else match code with
      | some code => closeCode role text lead code
      | none => .error ⟨.invalidEscape, 4 - bytes⟩
  | .pairBackslash lead =>
    if c = '\\' then .ok (.escape role text (.pairLetter lead)) else refuse .unfinishedPair
  | .pairLetter lead =>
    if c = 'u' then .ok (.escape role text (.digits (some lead) 0 (some 0)))
    else refuse .unfinishedPair

/-- The end of a string. -/
def closeString (fs : List Frame) (role : Role) (text : String) : List Frame × Mode :=
  match role with
  | .value => complete (.string text) fs
  | .key ms => (fs, .between (.afterKey ms text))

/-- What a character does, whatever is being read. -/
def next (fs : List Frame) (mode : Mode) (c : Char) : Except Refusal (List Frame × Mode) :=
  match mode with
  | .between place => nextToken fs place c
  | .word expected rest v =>
    if c = expected then
      match rest with
      | [] => .ok (complete v fs)
      | x :: rest => .ok (fs, .word x rest v)
    else refuse .expectedWord
  | .numeral n =>
    match n.step c with
    | .take m => .ok (fs, .numeral m)
    | .refuse cause => refuse cause
    | .stop =>
      match n.number with
      | .ok x => nextToken (deliver (.number x) fs).1 (deliver (.number x) fs).2 c
      | .error cause => .error ⟨cause, 0⟩
  | .string role text =>
    if c = '"' then .ok (closeString fs role text)
    else if c = '\\' then .ok (fs, .escape role text .letter)
    else if c.toNat < 0x20 then refuse .controlCharacter
    else .ok (fs, .string role (text.push c))
  | .escape role text e => (nextEscape role text e c).map fun mode => (fs, mode)

/-! ## The pass over the text -/

/-- Why the text must not end at a place, unless it may. -/
def Place.atEnd : Place → Except Cause Value
  | .value | .nextItem _ | .nextKey _ => .error .endInValue
  | .firstItem | .afterItem _ => .error .endInList
  | .firstKey | .afterKey _ _ | .afterMember _ => .error .endInObject
  | .finished v => .ok v

def Mode.atEnd (fs : List Frame) : Mode → Except Cause Value
  | .between place => place.atEnd
  | .word _ _ _ => .error .endInValue
  | .numeral n => n.number.bind fun x => (deliver (.number x) fs).2.atEnd
  | .string _ _ | .escape _ _ _ => .error .endInString

inductive State where
  | reading (position : Position) (frames : List Frame) (mode : Mode)
  | failed (fault : Fault)

namespace State

def start : State := .reading .start [] (.between .value)

def step : State → Char → State
  | .reading p fs mode, c =>
    match next fs mode c with
    | .ok (fs, mode) => .reading (p.advance c c.utf8Size) fs mode
    | .error r => .failed ⟨r.cause, p.advance c r.bytes⟩
  | .failed f, _ => .failed f

def finish : State → Except Fault Value
  | .reading p fs mode => (mode.atEnd fs).mapError fun cause => ⟨cause, p⟩
  | .failed f => .error f

end State

/-- The value that a JSON text denotes, or the first fault in it. -/
def read (text : String) : Except Fault Value := (text.foldl State.step State.start).finish

/-- Reading looks at the characters in order and at nothing else. -/
theorem read_eq_foldl_toList (text : String) :
    read text = (text.toList.foldl State.step State.start).finish := by
  rw [read, String.foldl_eq_foldl_toList]

end SyntaxToC.Json
