/-
  ScriptLang.Command.Folder — files as a command reaches them, and a folder in memory.

  `Files` is all that a command can do to files. `Folder` is a folder of plain files held in
  memory: a path is walked name by name, `.` stays in a folder and `..` leaves it, and
  nothing is known of what lies outside.
  - A name of more than 255 bytes, or a path of 4096 or more, is too long.
  - A path that goes on after a file fails, and so does one that goes on after a name that
    is not there.
  - A path that ends in a slash asks for a folder, so no file is read or created by it; on
    creation that is judged before the length of the last name.
-/

namespace ScriptLang.Command

/-- Why the system refused a file: its words and its number for them. -/
structure FileFault where
  reason : String
  code : Nat
  deriving DecidableEq, Repr

namespace FileFault

def message (f : FileFault) : String := s!"{f.reason} (os error {f.code})"

def notFound : FileFault := ⟨"No such file or directory", 2⟩

def notFolder : FileFault := ⟨"Not a directory", 20⟩

def isFolder : FileFault := ⟨"Is a directory", 21⟩

def nameTooLong : FileFault := ⟨"File name too long", 36⟩

end FileFault

/-- What a command can do to files. -/
structure Files (m : Type → Type) where
  /-- Makes a file with the given text, in place of one of that name. -/
  create : String → String → m (Except FileFault Unit)
  read : String → m (Except FileFault (List UInt8))

/-- Files by name, each name once. -/
abbrev Folder := List (String × List UInt8)

namespace Folder

/-! ## Paths -/

/-- Where a path leads. -/
inductive Place where
  /-- This folder. -/
  | here
  /-- A folder outside this one. -/
  | outside
  /-- The place of a file in this folder, there or not. -/
  | entry (name : String)
  /-- The place of a file in a folder outside this one. -/
  | foreign (name : String)
  deriving DecidableEq, Repr

def longestPath : Nat := 4095

/-- No file can have this name. -/
def isLong (name : String) : Bool := 255 < name.utf8ByteSize

/-- Why a name of which nothing is known leads nowhere. -/
def absent (name : String) : FileFault := if isLong name then .nameTooLong else .notFound

/-- The place that a name leads to from a place. -/
def follow (folder : Folder) (place : Place) (name : String) : Except FileFault Place :=
  match place with
  | .entry file => .error (if (folder.lookup file).isSome then .notFolder else absent file)
  | .foreign file => .error (absent file)
  | .here => .ok (if name = "." then .here else if name = ".." then .outside else .entry name)
  | .outside => .ok (if name = "." ∨ name = ".." then .outside else .foreign name)

def startsAtRoot (path : String) : Bool := path.toList.head? == some '/'

def endsInSlash (path : String) : Bool := path.toList.getLast? == some '/'

def names (path : String) : List String := (path.splitOn "/").filter (· != "")

def locate (folder : Folder) (path : String) : Except FileFault Place :=
  if path = "" then .error .notFound
  else if longestPath < path.utf8ByteSize then .error .nameTooLong
  else (names path).foldlM (follow folder) (if startsAtRoot path then .outside else .here)

/-! ## Operations -/

def create (path text : String) : StateM Folder (Except FileFault Unit) := fun folder =>
  match locate folder path with
  | .error fault => (.error fault, folder)
  | .ok .here | .ok .outside => (.error .isFolder, folder)
  | .ok (.entry name) =>
    if endsInSlash path then (.error .isFolder, folder)
    else if isLong name then (.error .nameTooLong, folder)
    else (.ok (), (name, text.toUTF8.toList) :: folder.filter (·.1 != name))
  | .ok (.foreign name) =>
    (if endsInSlash path then .error .isFolder else if isLong name then .error .nameTooLong else .ok (), folder)

def read (path : String) : StateM Folder (Except FileFault (List UInt8)) := fun folder =>
  let result := match locate folder path with
    | .error fault => .error fault
    | .ok .here | .ok .outside => .error .isFolder
    | .ok (.foreign name) => .error (absent name)
    | .ok (.entry name) =>
      match folder.lookup name with
      | none => .error (absent name)
      | some bytes => if endsInSlash path then .error .notFolder else .ok bytes
  (result, folder)

def files : Files (StateM Folder) := ⟨create, read⟩

/-- The names of the files, sorted. -/
def listing (folder : Folder) : List String := (folder.map (·.1)).mergeSort fun a b => a ≤ b

end Folder

end ScriptLang.Command
