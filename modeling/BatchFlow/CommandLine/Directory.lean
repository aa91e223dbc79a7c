import BatchFlow.Table
import BatchFlow.Text.Split

namespace BatchFlow.CommandLine

/-!
# Files by path

* `FileFault` — why a file cannot be read, with the number and the words of the system for it.
* `Directory` — the texts of the files below the place where a command is started.
* `Directory.read` — the text to which a path leads. The parts of a path are followed one after
  another, and the first that leads nowhere decides about the fault.
-/

/-- Why a file cannot be read. -/
inductive FileFault where
  | missing
  | denied
  /-- The path goes on behind a file. -/
  | notDirectory
  | isDirectory
  | nameTooLong
deriving DecidableEq, Repr

namespace FileFault

/-- The number of the fault. -/
def code : FileFault → Nat
  | .missing => 2
  | .denied => 13
  | .notDirectory => 20
  | .isDirectory => 21
  | .nameTooLong => 36

/-- The wording of the system. -/
def wording : FileFault → String
  | .missing => "No such file or directory"
  | .denied => "Permission denied"
  | .notDirectory => "Not a directory"
  | .isDirectory => "Is a directory"
  | .nameTooLong => "File name too long"

/-- What is shown for a file that cannot be read. -/
def message (fault : FileFault) : String := s!"{fault.wording} (os error {fault.code})"

/-- The fault of a number. -/
def ofCode? : Nat → Option FileFault
  | 2 => some .missing
  | 13 => some .denied
  | 20 => some .notDirectory
  | 21 => some .isDirectory
  | 36 => some .nameTooLong
  | _ => none

/-- A fault is known by its code. -/
theorem ofCode?_code (fault : FileFault) : ofCode? fault.code = some fault := by
  cases fault <;> rfl

end FileFault

/-- The texts of files by their paths, whose parts are joined by slashes. -/
abbrev Directory := Table String String

/-- Where the first parts of a path lead. -/
inductive Place where
  /-- The directory of these names below the start. -/
  | inside (names : List String)
  /-- A directory of which nothing is known. -/
  | outside
  | file (text : String)
deriving DecidableEq, Repr

namespace Directory

/-- The most bytes of one name. -/
def nameLimit : Nat := 255

/-- The most bytes of a path. -/
def pathLimit : Nat := 4095

/-- What a directory below the start has under a name. -/
def lookup (files : Directory) (names : List String) (name : String) : Except FileFault Place :=
  let path := "/".intercalate (names ++ [name])
  match files.get? path with
  | some text => .ok (.file text)
  | none =>
    if files.any fun (other, _) => other.startsWith (path ++ "/") then
      .ok (.inside (names ++ [name]))
    else .error .missing

/-- Follows one part of a path. -/
def step (files : Directory) : Place → String → Except FileFault Place
  | .file _, _ => .error .notDirectory
  | place, "" | place, "." => .ok place
  | .inside names, ".." => .ok (if names.isEmpty then .outside else .inside names.dropLast)
  | .outside, ".." => .ok .outside
  | place, name =>
    if nameLimit < name.utf8ByteSize then .error .nameTooLong
    else match place with
      | .inside names => files.lookup names name
      | _ => .error .missing

/-- The text to which a path leads. -/
def read (files : Directory) (path : String) : Except FileFault String :=
  if path.isEmpty then .error .missing
  else if pathLimit < path.utf8ByteSize then .error .nameTooLong
  else do
    let start := if path.startsWith "/" then .outside else .inside []
    match ← (Text.pieces '/' path).foldlM files.step start with
    | .file text => return text
    | _ => .error .isDirectory

end Directory

end BatchFlow.CommandLine
