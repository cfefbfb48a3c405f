import SyntaxToC.Code.Room
import SyntaxToC.Command.Arguments
import SyntaxToC.Command.FileSystem
import SyntaxToC.Tree.Load

/-!
# One run of the generator

A run reads a syntax tree from a file and writes its C text, followed by a line break, to another
file or to the standard output.  Nothing is written unless everything before has succeeded.  A run
that comes to a text without room for it fails like any other, but with a status of its own; apart
from that bound on a single text there is as much memory as it takes.

Runs are described over any way of reaching files (`FileAccess`).  `FileSystem.access` reaches the
files of a `FileSystem`, so that a run is a function from the files before to the files after:

    runOn fs words = (what is printed, the files after)
-/

namespace SyntaxToC.Command

open SyntaxToC.Tree (LoadError loadText)
open SyntaxToC.Code (Layout EmitError emit exhausts lineFits maxRoom)

/-- Why a run came to nothing. -/
inductive Failure where
  | reading (file : String) (error : FileError)
  | tooLarge (file : String) (size : Nat)
  | loading (file : String) (error : LoadError)
  | emitting (file : String) (error : EmitError)
  | writing (file : String) (error : FileError)
  /-- There is no room for a text. -/
  | exhausted

/-- The size in bytes up to which a file is read. -/
def maxSourceSize : Nat := 104857600

def Failure.message : Failure → String
  | .reading file e => "Error reading file '" ++ file ++ "': " ++ e.message
  | .tooLarge file size =>
    "File '" ++ file ++ "' is too large (" ++ toString size ++ " bytes, max " ++
      toString maxSourceSize ++ " bytes)"
  | .loading file e => file ++ ": error: " ++ e.message
  | .emitting file e => file ++ ": code generation error: " ++ e.message
  | .writing file e => "Error writing '" ++ file ++ "': " ++ e.message
  | .exhausted => "capacity overflow"

def Failure.exitCode : Failure → Nat
  | .exhausted => 101
  | _ => 1

/-- The C text for the tree in a text; `file` is where the text is from. -/
def generate (file : String) (layout : Layout) (source : String) : Except Failure String :=
  match loadText source with
  | .error e => .error (.loading file e)
  | .ok tree =>
    if exhausts layout tree then .error .exhausted
    else (emit layout tree).mapError (.emitting file ·)

/-- The text as it is written to a file. -/
def line (code : String) : Except Failure String :=
  if lineFits code then .ok (code ++ "\n") else .error .exhausted

/-! ## Files -/

/-- A way of reaching files. -/
structure FileAccess (m : Type → Type) where
  size : String → m (Except FileError Nat)
  read : String → m (Except FileError ByteArray)
  write : String → String → m (Except FileError Unit)

def FileSystem.access : FileAccess (StateM FileSystem) where
  size path := return (← get).size path
  read path := return (← get).fetch path
  write path text := modifyGet fun fs =>
    match fs.write path text with
    | .ok after => (.ok (), after)
    | .error e => (.error e, fs)

section

variable {m : Type → Type} [Monad m] (files : FileAccess m)

/-- The text of a file that is not too large. -/
def readSource (file : String) : ExceptT Failure m String := do
  let size ← ExceptT.mk (return (← files.size file).mapError (.reading file))
  if maxSourceSize < size then throw (.tooLarge file size)
  let bytes ← ExceptT.mk (return (← files.read file).mapError (.reading file))
  ExceptT.mk (return (decode bytes).mapError (.reading file))

/-- Generates the C text for a file and writes it to `output`, if there is one.  The result is what
goes to the standard output. -/
def emitFile (file : String) (output : Option String) (layout : Layout) :
    ExceptT Failure m String := do
  let source ← readSource files file
  let code ← ExceptT.mk (return generate file layout source)
  match output with
  | none => return code ++ "\n"
  | some out => do
    let text ← ExceptT.mk (return line code)
    ExceptT.mk (return (← files.write out text).mapError (.writing out))
    return ""

/-! ## The command -/

/-- How a run ends. -/
inductive Outcome where
  | success (printed : String)
  | failure (f : Failure)
  | misuse (e : UsageError)

def Outcome.exitCode : Outcome → Nat
  | .success _ => 0
  | .failure f => f.exitCode
  | .misuse _ => 2

def Outcome.stdout : Outcome → String
  | .success printed => printed
  | _ => ""

/-- The message of a failure.  How a misuse is reported is left open. -/
def Outcome.stderr : Outcome → String
  | .failure f => f.message ++ "\n"
  | _ => ""

/-- The widest indent that there is room for. -/
def maxIndentWidth : Nat := maxRoom

def versionText : String := "crb 0.1.0\n"

def helpText : String :=
  "Generate C source from a crb syntax tree

Usage: crb [OPTIONS] <FILE>

Arguments:
  <FILE>  Parser output to generate code from (JSON syntax tree)

Options:
  -o, --output <OUTPUT>       Write generated code to this file instead of stdout
      --collapse-terminators  Emit a single `;` after expression statements inside blocks
      --indent-width <N>      Indent function bodies with N spaces instead of a tab
  -h, --help                  Print help
  -V, --version               Print version
"

/-- Runs the command on a list of words. -/
def run (words : List String) : m Outcome := do
  match Arguments.parse words with
  | .error .helpAsked => return .success helpText
  | .error .versionAsked => return .success versionText
  | .error e => return .misuse e
  | .ok a =>
    if maxIndentWidth < a.indentWidth.getD 0 then return .failure .exhausted
    match ← emitFile files a.file a.output a.layout with
    | .ok printed => return .success printed
    | .error f => return .failure f

end

/-- The outcome of a run and the files that it leaves. -/
def runOn (fs : FileSystem) (words : List String) : Outcome × FileSystem :=
  (run FileSystem.access words).run fs

end SyntaxToC.Command
