import SyntaxToC.Code.Layout

/-!
# Arguments of the command line

    FILE [-o OUTPUT | --output OUTPUT] [--collapse-terminators] [--indent-width N]

The words are read from left to right into a `Draft`.  The value that a word supplies on its own,
be it the file or the word after an option, is `pending` until the next word is understood or the
words are over; only then is it checked (`settle`).  A value attached to its option (`-oX`, `-o=X`,
`--output=X`) is checked at once.  So a word that cannot be understood is reported before a faulty
value just in front of it.

After `--` every word is taken for the file.
-/

namespace SyntaxToC.Command

/-- The choices made on the command line. -/
structure Arguments where
  file : String
  output : Option String
  collapse : Bool
  indentWidth : Option Nat
deriving DecidableEq, Repr

/-- Why the words do not amount to a run of the generator. -/
inductive UsageError where
  | missingFile
  | invalidValue
  | invalidWidth
  | repeated
  | surplusValue
  | unknownArgument
  | helpAsked
  | versionAsked
deriving DecidableEq, Repr

/-! ## Words -/

/-- An option that takes a value. -/
inductive Setting where
  | output
  | indentWidth
deriving DecidableEq, Repr

/-- An option that stands alone. -/
inductive Switch where
  | collapse
  | help
  | version
deriving DecidableEq, Repr

/-- A word, as far as its dashes tell. -/
inductive Word where
  | separator
  | long (name : String) (value : Option String)
  | short (letter : Char) (rest : List Char)
  | plain
deriving DecidableEq, Repr

/-- Cuts a long option at its first `=`. -/
def longWord (cs : List Char) : Word :=
  let name := String.ofList (cs.takeWhile (· ≠ '='))
  match cs.dropWhile (· ≠ '=') with
  | [] => .long name none
  | _ :: value => .long name (some (String.ofList value))

def Word.ofString (word : String) : Word :=
  match word.toList with
  | ['-', '-'] => .separator
  | '-' :: '-' :: cs => longWord cs
  | '-' :: c :: cs => .short c cs
  | _ => .plain

inductive LongOption where
  | setting (s : Setting)
  | switch (s : Switch)

def LongOption.ofName? : String → Option LongOption
  | "output" => some (.setting .output)
  | "indent-width" => some (.setting .indentWidth)
  | "collapse-terminators" => some (.switch .collapse)
  | "help" => some (.switch .help)
  | "version" => some (.switch .version)
  | _ => none

/-! ## Draft -/

/-- A value that has been read and not been checked. -/
inductive Pending where
  | nothing
  | file (value : String)
  /-- An option whose value has to be the next word. -/
  | awaiting (s : Setting)
  | value (s : Setting) (text : String)
deriving DecidableEq, Repr

structure Draft where
  file : Option String := none
  output : Option String := none
  collapse : Bool := false
  indentWidth : Option Nat := none
  pending : Pending := .nothing
deriving DecidableEq, Repr

/-- Widths stay below `2 ^ 64`. -/
def widthLimit : Nat := 18446744073709551616

/-- A decimal number that fits a 64-bit word; a plus sign may stand in front. -/
def width? (text : String) : Option Nat :=
  let digits := match text.toList with
    | '+' :: ds => ds
    | ds => ds
  if digits ≠ [] ∧ digits.all Char.isDigit then
    let n := digits.foldl (fun n c => 10 * n + (c.toNat - '0'.toNat)) 0
    if n < widthLimit then some n else none
  else none

namespace Draft

/-- Takes the value of an option, which may be given once. -/
def assign (d : Draft) (s : Setting) (value : String) : Except UsageError Draft :=
  match s with
  | .output =>
    if d.output.isSome then .error .repeated
    else if value = "" then .error .invalidValue
    else .ok { d with output := some value }
  | .indentWidth =>
    if d.indentWidth.isSome then .error .repeated
    else match width? value with
      | some n => .ok { d with indentWidth := some n }
      | none => .error .invalidWidth

/-- Checks the pending value. -/
def settle (d : Draft) : Except UsageError Draft :=
  let rest := { d with pending := .nothing }
  match d.pending with
  | .nothing => .ok rest
  | .file value => if value = "" then .error .invalidValue else .ok { rest with file := some value }
  | .awaiting _ => .error .invalidValue
  | .value s text => rest.assign s text

/-- Whether a file has been named. -/
def hasFile (d : Draft) : Bool :=
  d.file.isSome || match d.pending with
    | .file _ => true
    | _ => false

/-- An option with a value, attached or in the next word. -/
def takeSetting (d : Draft) (s : Setting) (attached : Option String) : Except UsageError Draft := do
  let d ← d.settle
  match attached with
  | some value => d.assign s value
  | none => return { d with pending := .awaiting s }

def takeSwitch (d : Draft) (s : Switch) : Except UsageError Draft := do
  let d ← d.settle
  match s with
  | .collapse => if d.collapse then .error .repeated else return { d with collapse := true }
  | .help => .error .helpAsked
  | .version => .error .versionAsked

/-- A word that names the file; there is only one. -/
def takeFile (d : Draft) (word : String) : Except UsageError Draft :=
  if d.hasFile then .error .unknownArgument
  else return { ← d.settle with pending := .file word }

def takeLong (d : Draft) (name : String) (value : Option String) : Except UsageError Draft :=
  match LongOption.ofName? name, value with
  | some (.setting s), _ => d.takeSetting s value
  | some (.switch s), none => d.takeSwitch s
  | some (.switch _), some _ => .error .surplusValue
  | none, _ => .error .unknownArgument

/-- Letters behind one dash; `-o` takes the other letters for its value. -/
def takeShort (d : Draft) (letter : Char) (rest : List Char) : Except UsageError Draft :=
  match letter, rest with
  | 'o', [] => d.takeSetting .output none
  | 'o', '=' :: value => d.takeSetting .output (some (String.ofList value))
  | 'o', value => d.takeSetting .output (some (String.ofList value))
  | 'h', _ => d.takeSwitch .help
  | 'V', _ => d.takeSwitch .version
  | _, _ => .error .unknownArgument

def takePlain (d : Draft) (word : String) : Except UsageError Draft :=
  match d.pending with
  | .awaiting s => .ok { d with pending := .value s word }
  | _ => d.takeFile word

/-- Reads the words that are left. -/
def takeAll (d : Draft) : List String → Except UsageError Draft
  | [] => .ok d
  | word :: words =>
    match Word.ofString word with
    | .separator => words.foldlM takeFile d
    | .long name value => do (← d.takeLong name value).takeAll words
    | .short letter rest => do (← d.takeShort letter rest).takeAll words
    | .plain => do (← d.takePlain word).takeAll words

end Draft

namespace Arguments

/-- The choices that a list of words makes. -/
def parse (words : List String) : Except UsageError Arguments := do
  let d ← (← Draft.takeAll {} words).settle
  match d.file with
  | some file => return ⟨file, d.output, d.collapse, d.indentWidth⟩
  | none => .error .missingFile

/-- The layout that the options ask for. -/
def layout (a : Arguments) : Code.Layout :=
  let indented := match a.indentWidth with
    | some n => ({} : Code.Layout).withWidth n
    | none => {}
  if a.collapse then indented.withTerminators .collapse else indented

end Arguments

end SyntaxToC.Command
