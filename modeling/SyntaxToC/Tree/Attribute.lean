import SyntaxToC.Json.Value
import SyntaxToC.Text.Quoted
import SyntaxToC.Tree.Node

/-!
# Attributes of a node

An attribute is a text, a flag, or a small record: a reference to a name, a parameter, or the source
of an import.  A record is written as an object, whose other members are ignored, or as the array of
its fields in order.

Faults are found in a fixed order.  In an object the fields that are present are read first, in
their order, and then the first missing one counts; in an array the items are read up to the
number of fields, and then the length counts.
-/

namespace SyntaxToC.Tree

open SyntaxToC.Json

/-! ## Faults -/

inductive Record where
  | name
  | param
  | importSource
deriving DecidableEq, Repr

/-- What a value should have been. -/
inductive Wanted where
  | text
  | flag
  | sequence
  | record (r : Record)
deriving DecidableEq, Repr

inductive AttributeError where
  | wrongType (found : Value) (wanted : Wanted)
  | tooShort (length : Nat) (record : Record)
  | tooLong (length : Nat)
  | missing (field : String)
deriving Repr

/-- Numbers in messages have a point; outside `1e-5` to `1e16` they have an exponent.  Of two
shortest forms at the same distance the one with an even last digit is written. -/
def describeReal (x : Binary64) : String :=
  let d := x.magnitude.shortest .even
  Number.sign x.negative ++
    if -5 ≤ d.leading ∧ d.leading ≤ 15 then
      match d.places with
      | (whole, "") => whole ++ ".0"
      | (whole, fraction) => whole ++ "." ++ fraction
    else d.scientific

def describe : Value → String
  | .null => "null"
  | .bool b => "boolean `" ++ (if b then "true" else "false") ++ "`"
  | .number (.integer i) => "integer `" ++ toString i ++ "`"
  | .number (.real x) => "floating point `" ++ describeReal x ++ "`"
  | .string s => "string " ++ Text.quoted s
  | .array _ => "sequence"
  | .object _ => "map"

def Record.describe : Record → String
  | .name => "struct NameRef"
  | .param => "struct RawParam"
  | .importSource => "struct RawImportSource"

/-- The fields of a record, in words. -/
def Record.elements : Record → String
  | .name => "1 element"
  | .param | .importSource => "2 elements"

def Wanted.describe : Wanted → String
  | .text => "a string"
  | .flag => "a boolean"
  | .sequence => "a sequence"
  | .record r => r.describe

def AttributeError.message : AttributeError → String
  | .wrongType found wanted =>
    "invalid type: " ++ describe found ++ ", expected " ++ wanted.describe
  | .tooShort length r =>
    "invalid length " ++ toString length ++ ", expected " ++ r.describe ++ " with " ++ r.elements
  | .tooLong length =>
    "invalid length " ++ toString length ++ ", expected fewer elements in array"
  | .missing field => "missing field `" ++ field ++ "`"

/-! ## Reading -/

abbrev Decoder (α : Type) := Value → Except AttributeError α

namespace Attribute

def text : Decoder String
  | .string s => .ok s
  | v => .error (.wrongType v .text)

def flag : Decoder Bool
  | .bool b => .ok b
  | v => .error (.wrongType v .flag)

/-- A member of a record, if it is there. -/
def member {α : Type} (ms : Members) (field : String) (decode : Decoder α) :
    Except AttributeError (Option α) :=
  match ms.get? field with
  | some v => (decode v).map some
  | none => .ok none

def present {α : Type} (field : String) : Option α → Except AttributeError α
  | some a => .ok a
  | none => .error (.missing field)

/-- A reference to a name. -/
def name : Decoder String
  | .object ms => do present "name" (← member ms "name" text)
  | .array [] => .error (.tooShort 0 .name)
  | .array [v] => text v
  | .array (v :: vs) => do
    let _ ← text v
    .error (.tooLong (vs.length + 1))
  | v => .error (.wrongType v (.record .name))

/-- A record of two fields. -/
def record {α β : Type} (r : Record) (first : String) (decodeFirst : Decoder α)
    (second : String) (decodeSecond : Decoder β) : Decoder (α × β)
  | .object ms => do
    let a ← member ms first decodeFirst
    let b ← member ms second decodeSecond
    return (← present first a, ← present second b)
  | .array [] => .error (.tooShort 0 r)
  | .array [v] => do
    let _ ← decodeFirst v
    .error (.tooShort 1 r)
  | .array [v, w] => do return (← decodeFirst v, ← decodeSecond w)
  | .array (v :: w :: vs) => do
    let _ ← decodeFirst v
    let _ ← decodeSecond w
    .error (.tooLong (vs.length + 2))
  | v => .error (.wrongType v (.record r))

/-- The source of an import: whether it is a system header, and its text. -/
def importSource : Decoder (Bool × String) := record .importSource "std" flag "value" text

def param : Decoder Param := fun v =>
  (record .param "name" name "typing" name v).map fun (name, typing) => ⟨name, typing⟩

def params : Decoder (List Param)
  | .array items => items.mapM param
  | v => .error (.wrongType v .sequence)

end Attribute

end SyntaxToC.Tree
