/-!
# Files and directories

A file system says what stands at each place, as seen from the working directory, and which places
it refuses to enter, to read or to write, whatever the reason.  Paths are followed piece by piece: a
piece can only be taken in a directory, `.` stays, and `..` goes up.  A path has at most `maxPath`
bytes, none of them zero, and a name in it at most `maxName`.

    read fs path         what a file holds
    fetch fs path        the same for someone who may be refused
    write fs path text   `fs` with `text` as the whole content of the file, which may be new
-/

namespace SyntaxToC.Command

inductive FileError where
  | notFound
  | notDirectory
  | isDirectory
  | nameTooLong
  | zeroInName
  | notText
  | other (message : String)
deriving DecidableEq, Repr

def FileError.message : FileError → String
  | .notFound => "No such file or directory (os error 2)"
  | .notDirectory => "Not a directory (os error 20)"
  | .isDirectory => "Is a directory (os error 21)"
  | .nameTooLong => "File name too long (os error 36)"
  | .zeroInName => "file name contained an unexpected NUL byte"
  | .notText => "stream did not contain valid UTF-8"
  | .other message => message

/-! ## Content -/

/-- The content of a file: some bytes, and zero bytes behind them that take no room. -/
structure Content where
  data : ByteArray
  hole : Nat := 0

namespace Content

def ofText (text : String) : Content := { data := text.toUTF8 }

def size (c : Content) : Nat := c.data.size + c.hole

/-- `n` zero bytes. -/
def zeros (n : Nat) : ByteArray :=
  if n = 0 then .empty
  else
    let half := zeros (n / 2)
    if n % 2 = 0 then half ++ half else (half ++ half).push 0

def bytes (c : Content) : ByteArray := if c.hole = 0 then c.data else c.data ++ zeros c.hole

end Content

/-- The text that bytes encode. -/
def decode (bytes : ByteArray) : Except FileError String :=
  match String.fromUTF8? bytes with
  | some text => .ok text
  | none => .error .notText

/-! ## Paths -/

/-- The most bytes that a name can have. -/
def maxName : Nat := 255

/-- The most bytes that a path can have. -/
def maxPath : Nat := 4095

/-- Whether a path can be followed at all, whatever files there are. -/
def checkPath (path : String) : Except FileError Unit :=
  if '\x00' ∈ path.toList then .error .zeroInName
  else if path = "" then .error .notFound
  else if maxPath < path.utf8ByteSize then .error .nameTooLong
  else .ok ()

/-- The names in a path. -/
def pieces (path : String) : List String :=
  ((path.toList.splitOn '/').map String.ofList).filter (· ≠ "")

/-! ## Places -/

/-- A place, by the names on the way from the working directory.  The way starts with `..` to go
above it, and with `/` to go from the root. -/
abbrev Place := List String

/-- Where a path starts. -/
def start (path : String) : Place := if path.startsWith "/" then ["/"] else []

/-- One piece further. -/
def follow (place : Place) (piece : String) : Place :=
  if piece = "." ∨ piece = ".." ∧ place = ["/"] then place
  else if piece = ".." ∧ place.getLast?.any (· ≠ "..") then place.dropLast
  else place ++ [piece]

/-- The place that a path names when everything on the way is a directory. -/
def Place.ofPath (path : String) : Place := (pieces path).foldl follow (start path)

inductive Entry where
  | file (content : Content)
  | directory

/-- What one may want with a place: to go on from a directory, or to open a file. -/
inductive Access where
  | enter
  | read
  | write
deriving DecidableEq, Repr

structure FileSystem where
  at? : Place → Option Entry
  /-- Why a place is not to be used like this, if so. -/
  refusal : Access → Place → Option FileError := fun _ _ => none

namespace FileSystem

/-- Nothing but the working directory, the directories above it and the root. -/
def empty : FileSystem where
  at? place := if place = ["/"] ∨ place.all (· == "..") then some .directory else none

def set (fs : FileSystem) (place : Place) (e : Entry) : FileSystem :=
  { fs with at? := fun other => if other = place then some e else fs.at? other }

def permit (fs : FileSystem) (access : Access) (place : Place) : Except FileError Unit :=
  match fs.refusal access place with
  | some e => .error e
  | none => .ok ()

/-- The place that pieces lead to; it need not exist, but what is on the way must. -/
def walk (fs : FileSystem) (place : Place) : List String → Except FileError Place
  | [] => .ok place
  | piece :: rest =>
    match fs.at? place with
    | some .directory => do
      fs.permit .enter place
      if maxName < piece.utf8ByteSize then .error .nameTooLong
      else walk fs (follow place piece) rest
    | some (.file _) => .error .notDirectory
    | none => .error .notFound

/-- What stands at a path; behind a slash it has to be a directory. -/
def find (fs : FileSystem) (path : String) : Except FileError Entry := do
  checkPath path
  match fs.at? (← fs.walk (start path) (pieces path)) with
  | some .directory => return .directory
  | some (.file c) => if path.endsWith "/" then .error .notDirectory else return .file c
  | none => .error .notFound

/-- The size of a file; a directory counts as empty. -/
def size (fs : FileSystem) (path : String) : Except FileError Nat := do
  match ← fs.find path with
  | .file c => return c.size
  | .directory => return 0

/-- What a file holds. -/
def read (fs : FileSystem) (path : String) : Except FileError ByteArray := do
  match ← fs.find path with
  | .file c => return c.bytes
  | .directory => .error .isDirectory

/-- As `read`, if the file may be read. -/
def fetch (fs : FileSystem) (path : String) : Except FileError ByteArray := do
  let entry ← fs.find path
  fs.permit .read (← fs.walk (start path) (pieces path))
  match entry with
  | .file c => return c.bytes
  | .directory => .error .isDirectory

/-- The place of the file that a path names, if it may be written there. -/
def target (fs : FileSystem) (path : String) : Except FileError Place := do
  checkPath path
  let directory ← fs.walk (start path) (pieces path).dropLast
  match fs.at? directory with
  | some .directory => do
    fs.permit .enter directory
    let name := (pieces path).getLastD "."
    if path.endsWith "/" ∨ name = "." ∨ name = ".." then .error .isDirectory
    else if maxName < name.utf8ByteSize then .error .nameTooLong
    else match fs.at? (directory ++ [name]) with
      | some .directory => .error .isDirectory
      | _ => do
        fs.permit .write (directory ++ [name])
        return directory ++ [name]
  | some (.file _) => .error .notDirectory
  | none => .error .notFound

def write (fs : FileSystem) (path : String) (text : String) : Except FileError FileSystem := do
  return fs.set (← fs.target path) (.file (.ofText text))

/-! ## Directories and removal -/

/-- Adds the directories below `base` that names lead through. -/
def addDirectories (fs : FileSystem) (base : Place) : List String → FileSystem
  | [] => fs
  | name :: names =>
    let place := base ++ [name]
    addDirectories (if (fs.at? place).isSome then fs else fs.set place .directory) place names

/-- Adds a directory and those above it. -/
def makeDirectory (fs : FileSystem) (path : String) : FileSystem :=
  fs.addDirectories [] (Place.ofPath path)

/-- Puts a file at a path, in a new directory if need be. -/
def put (fs : FileSystem) (path : String) (c : Content) : FileSystem :=
  let place := Place.ofPath path
  (fs.addDirectories [] place.dropLast).set place (.file c)

/-- Takes away what stands at a path, and everything below it. -/
def remove (fs : FileSystem) (path : String) : FileSystem :=
  let place := Place.ofPath path
  { fs with
    at? := fun other => if place ≠ [] ∧ place.isPrefixOf other then none else fs.at? other }

end FileSystem

end SyntaxToC.Command
