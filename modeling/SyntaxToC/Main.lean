import SyntaxToC.Command.Run

/-!
# The command

Runs the generator on the files of the machine.
-/

namespace SyntaxToC.Command

/-- The number that the operating system gives to an error, which may arrive with its sign
turned. -/
def errorNumber (code : UInt32) : Nat :=
  min code.toNat (0 - code).toNat

def FileError.ofSystem (e : IO.Error) : FileError :=
  match e with
  | .noFileOrDirectory _ _ _ => .notFound
  | .inappropriateType _ code _ =>
    if errorNumber code = 20 then .notDirectory
    else if errorNumber code = 21 then .isDirectory
    else .other (toString e)
  | .invalidArgument _ code _ =>
    if errorNumber code = 36 then .nameTooLong else .other (toString e)
  | .permissionDenied _ code _ =>
    if errorNumber code = 13 then .other "Permission denied (os error 13)"
    else .other (toString e)
  | e => .other (toString e)

def attempt {α : Type} (action : IO α) : IO (Except FileError α) := do
  match ← action.toBaseIO with
  | .ok a => return .ok a
  | .error e => return .error (.ofSystem e)

/-- The files of the machine. -/
def machineFiles : FileAccess IO where
  size path := return (← attempt (IO.FS.readBinFile path)).map ByteArray.size
  read path := attempt (IO.FS.readBinFile path)
  write path text := attempt (IO.FS.writeFile path text)

end SyntaxToC.Command

open SyntaxToC.Command in
def main (words : List String) : IO UInt32 := do
  let outcome ← run machineFiles words
  IO.print outcome.stdout
  IO.eprint outcome.stderr
  return outcome.exitCode.toUInt32
