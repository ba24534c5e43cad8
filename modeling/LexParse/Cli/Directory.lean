import LexParse.Text.Quoted

/-!
# Files in a working directory

What reading a path gives when the working directory holds some files and nothing else is known. A
path is followed component by component. Empty components and single dots stay where they are, two
dots leave a directory, and outside the working directory no name is found. Beyond a file the path
cannot go on, not even by a dot or a slash.
-/

namespace LexParse.Cli

/-- Why a file cannot be read. -/
inductive FileFault where
  /-- There is no such file. -/
  | missing
  /-- The path goes on beyond a file. -/
  | notDirectory
  /-- The path leads to a directory. -/
  | isDirectory
  /-- The path, or a name in it, is too long. -/
  | nameTooLong
  /-- The path holds a null character. -/
  | nullCharacter
  /-- No path is given. -/
  | noPath
deriving DecidableEq, Repr

namespace FileFault

/-- The wording of a fault of a path. -/
def message (path : String) : FileFault → String
  | .missing => "[Errno 2] No such file or directory: " ++ Text.quoted path
  | .notDirectory => "[Errno 20] Not a directory: " ++ Text.quoted path
  | .isDirectory => "[Errno 21] Is a directory: " ++ Text.quoted path
  | .nameTooLong => "[Errno 36] File name too long: " ++ Text.quoted path
  | .nullCharacter => "embedded null byte"
  | .noPath => "expected str, bytes or os.PathLike object, not list"

/-- The fault lies in the argument and not in the files, so the program does not expect it. -/
def isUnexpected : FileFault → Bool
  | .nullCharacter | .noPath => true
  | _ => false

end FileFault

/-- The files of a working directory, by their paths from there. -/
abbrev Directory := List (String × List UInt8)

/-- Where a path has led to. -/
inductive Location where
  /-- A directory, by the names that lead to it from the working directory. -/
  | inside (names : List String)
  /-- A directory that is not known. -/
  | outside
  /-- A file with its content. -/
  | file (content : List UInt8)
deriving DecidableEq, Repr

/-- The components of a path. -/
def components (path : String) : List String := path.splitOn "/"

namespace Directory

/-- The most bytes a name may have. -/
def nameLimit : Nat := 255

/-- A path has fewer bytes than this. -/
def pathLimit : Nat := 4096

/-- What stands at some names: a file, or a directory if a file lies in it. -/
def locate? (d : Directory) (names : List String) : Option Location :=
  match List.find? (fun entry => components entry.1 == names) d with
  | some (_, content) => some (.file content)
  | none =>
    if d.any fun entry => names.isPrefixOf (components entry.1) then some (.inside names) else none

/-- Find a name in a directory. -/
def enter (d : Directory) (at_ : Location) (name : String) : Except FileFault Location :=
  if nameLimit < name.utf8ByteSize then .error .nameTooLong
  else
    match at_ with
    | .inside names =>
      match d.locate? (names ++ [name]) with
      | some location => .ok location
      | none => .error .missing
    | _ => .error .missing

/-- Leave a directory. -/
def leave : Location → Location
  | .inside [] => .outside
  | .inside names => .inside names.dropLast
  | location => location

/-- Follow the components of a path. -/
def follow (d : Directory) (at_ : Location) : List String → Except FileFault Location
  | [] => .ok at_
  | name :: rest =>
    match at_, name with
    | .file _, _ => .error .notDirectory
    | at_, "" | at_, "." => follow d at_ rest
    | at_, ".." => follow d (leave at_) rest
    | at_, name => do follow d (← enter d at_ name) rest

/-- Where a path starts: an absolute one outside the working directory. -/
def origin (path : String) : Location :=
  if path.toList.head? = some '/' then .outside else .inside []

/-- Read the file at a path. -/
def read (d : Directory) (path : String) : Except FileFault (List UInt8) := do
  if path.toList.contains (Char.ofNat 0) then throw .nullCharacter
  if path.isEmpty then throw .missing
  if pathLimit ≤ path.utf8ByteSize then throw .nameTooLong
  match ← d.follow (origin path) (components path) with
  | .file content => return content
  | .inside _ | .outside => throw .isDirectory

end Directory

end LexParse.Cli
