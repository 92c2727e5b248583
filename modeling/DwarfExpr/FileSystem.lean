/-
  DwarfExpr/FileSystem.lean
  =========================
  **Files.** Two views of a file system:

    * `FileAccess` is what the programs need of one: reading a file whole (`read_input`), and
      replacing or creating one (`write_output`).  It is given in a monad, so that the same program
      runs on the real file system and on a model of it;
    * `FileSystem` is the model: directories and files below a working directory, as a value.

  A name is a byte string.  It is resolved part by part from the working directory: each part but
  the last has to be a directory, `.` stays where it is and `..` goes up.
-/
import DwarfExpr.Text.Utf8

namespace DwarfExpr

/-- The name of a file; it need not be text. -/
abbrev FileName := List UInt8

/-- Why the system refuses to do something with a file. -/
inductive OsFault where
  | notFound
  | alreadyExists
  | notDirectory
  | isDirectory
  | nameTooLong
  | nulInName
  | other (description : String)
  deriving DecidableEq, Repr

def OsFault.message : OsFault → String
  | notFound => "No such file or directory (os error 2)"
  | alreadyExists => "File exists (os error 17)"
  | notDirectory => "Not a directory (os error 20)"
  | isDirectory => "Is a directory (os error 21)"
  | nameTooLong => "File name too long (os error 36)"
  | nulInName => "file name contained an unexpected NUL byte"
  | other description => description

/-- What a program needs of a file system. -/
structure FileAccess (m : Type → Type) where
  read : FileName → m (Except OsFault (List UInt8))
  /-- Replaces the content of a file, which is created if need be. -/
  write : FileName → List UInt8 → m (Except OsFault Unit)

/-! ### Names -/

namespace FileName

def slash : UInt8 := 0x2f

/-- `.`, the directory itself. -/
def here : FileName := [0x2e]

/-- `..`, the directory above. -/
def above : FileName := [0x2e, 0x2e]

/-- The parts of a name between slashes; empty ones do not count. -/
def parts (name : FileName) : List FileName :=
  (name.splitOnP (· == slash)).filter (!·.isEmpty)

/-- Whether a name ends in a slash, so that it can only mean a directory. -/
def endsInSlash (name : FileName) : Bool := name.getLast? == some slash

/-- Names are not empty, have no NUL byte, and are below 4096 bytes long. -/
def check (name : FileName) : Except OsFault Unit :=
  if name.contains 0 then .error .nulInName
  else if name.isEmpty then .error .notFound
  else if 4096 ≤ name.length then .error .nameTooLong
  else .ok ()

end FileName

/-! ### The model -/

/-- What a path leads to. -/
inductive Entry where
  | file (content : List UInt8)
  | directory
  deriving DecidableEq, Repr

/-- Files and directories by the parts of their paths below the working directory. -/
structure FileSystem where
  entries : List (List FileName × Entry) := []
  deriving DecidableEq, Repr

/-- Where a name leads. -/
inductive Place where
  | found (path : List FileName) (entry : Entry)
  /-- There is nothing, but there is the directory that it would be in. -/
  | vacant (path : List FileName)
  deriving DecidableEq, Repr

namespace FileSystem

def get? (fs : FileSystem) (path : List FileName) : Option Entry :=
  if path.isEmpty then some .directory else fs.entries.lookup path

/-- Puts an entry at a path, in the place of any other. -/
def put (fs : FileSystem) (path : List FileName) (entry : Entry) : FileSystem :=
  ⟨(path, entry) :: fs.entries.filter (·.1 != path)⟩

/-- Follows the parts of a name from a directory on. -/
def resolve (fs : FileSystem) (directory : List FileName) : List FileName → Except OsFault Place
  | [] => .ok (.found directory .directory)
  | part :: rest =>
    if part = FileName.here then fs.resolve directory rest
    else if part = FileName.above then fs.resolve directory.dropLast rest
    else if 255 < part.length then .error .nameTooLong
    else
      let path := directory ++ [part]
      match fs.get? path with
      | some .directory => fs.resolve path rest
      | some (.file content) =>
        if rest.isEmpty then .ok (.found path (.file content)) else .error .notDirectory
      | none => if rest.isEmpty then .ok (.vacant path) else .error .notFound

def locate (fs : FileSystem) (name : FileName) : Except OsFault Place := do
  name.check
  fs.resolve [] name.parts

/-- The content of a file. -/
def read (fs : FileSystem) (name : FileName) : Except OsFault (List UInt8) := do
  match ← fs.locate name with
  | .found _ (.file content) =>
    if name.endsInSlash then .error .notDirectory else .ok content
  | .found _ .directory => .error .isDirectory
  | .vacant _ => .error .notFound

/-- The file system in which a file has a new content.  A name that ends in a slash can only mean a
directory and is refused as one; its last part is not looked up, but the parts before it have to
lead to a directory. -/
def write (fs : FileSystem) (name : FileName) (content : List UInt8) :
    Except OsFault FileSystem := do
  name.check
  if name.endsInSlash then
    let _ ← fs.resolve [] (name.parts.dropLast ++ [FileName.here])
    .error .isDirectory
  else
    match ← fs.resolve [] name.parts with
    | .found _ .directory => .error .isDirectory
    | .found path (.file _) | .vacant path => .ok (fs.put path (.file content))

/-- The file system with a new directory. -/
def makeDirectory (fs : FileSystem) (name : FileName) : Except OsFault FileSystem := do
  match ← fs.locate name with
  | .found _ _ => .error .alreadyExists
  | .vacant path => .ok (fs.put path .directory)

end FileSystem

end DwarfExpr
