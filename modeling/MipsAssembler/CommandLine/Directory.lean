import MipsAssembler.ByteString.Basic

/-!
# Working directories

The files that a run can see, by their paths from the working directory. Paths are followed name by
name: `.` and empty names stay where they are, `..` goes up. A path that is too long is refused at
once, a name that is too long when it is looked up. Of what lies outside the working directory, only
the standard directories of the root are known, and the null device, which is empty and takes
everything.
-/

namespace MipsAssembler

open ByteString

namespace CommandLine

/-- The files of a working directory. A path is a list of names. -/
structure Directory where
  files : List (List ByteString × ByteString) := []
  deriving DecidableEq, Repr

/-- Why a file operation fails. -/
inductive FileFault where
  | missing
  | isDirectory
  | notDirectory
  /-- A path or one of its names has too many bytes. -/
  | nameTooLong
  /-- Any other fault, in the words of the system. -/
  | other (words : ByteString)
  deriving DecidableEq, Repr

/-- A file operation that failed. -/
structure FileError where
  operation : ByteString
  path : ByteString
  fault : FileFault
  deriving DecidableEq, Repr

/-- The wording of the error. -/
def FileError.message (e : FileError) : ByteString :=
  let cause : ByteString := match e.fault with
    | .missing => "no such file or directory"
    | .isDirectory => "is a directory"
    | .notDirectory => "not a directory"
    | .nameTooLong => "file name too long"
    | .other words => words
  e.operation ++ " " ++ e.path ++ ": " ++ cause

/-- The directories that a path can lead to. -/
inductive Folder where
  /-- The working directory or one below it, with the names that lead there. -/
  | inside (names : List ByteString)
  | root
  /-- The directory of the devices. -/
  | devices
  /-- A directory of which nothing is known. -/
  | outside
  deriving DecidableEq, Repr

/-- Where the names of a path lead. -/
inductive Spot where
  | directory (folder : Folder)
  | file (names : List ByteString) (contents : ByteString)
  | nullDevice
  /-- A name that is free in an existing directory. -/
  | vacant (names : List ByteString)
  /-- A name of which nothing is known. -/
  | unknown
  deriving DecidableEq, Repr

/-- The directory above. The root is above itself. -/
def Folder.parent : Folder → Folder
  | inside [] => outside
  | inside names => inside names.dropLast
  | root | devices => root
  | outside => outside

namespace Directory

/-- The number of bytes that a name may have. -/
def nameLimit : Nat := 255

/-- The number of bytes that a path may have. -/
def pathLimit : Nat := 4095

/-- Names that do not change the place: the empty name and the point. -/
def isStay (name : ByteString) : Bool := name == [] || name == ofString "."

/-- What stands under a list of names in the working directory. -/
def find (d : Directory) (names : List ByteString) : Spot :=
  match d.files.lookup names with
  | some contents => .file names contents
  | none =>
    if d.files.any fun (path, _) => names.isPrefixOf path then .directory (.inside names)
    else .vacant names

/-- The names of the standard directories of the root, without that of the devices. -/
def standardNames : List ByteString :=
  ["bin", "boot", "etc", "home", "lib", "media", "mnt", "opt", "proc", "root", "run", "sbin", "srv",
    "sys", "tmp", "usr", "var"]

/-- What a directory holds under a name. -/
def entry (d : Directory) (folder : Folder) (name : ByteString) : Spot :=
  match folder with
  | .inside names => d.find (names ++ [name])
  | .root =>
    if name = ofString "dev" then .directory .devices
    else if standardNames.contains name then .directory .outside
    else .unknown
  | .devices => if name = ofString "null" then .nullDevice else .unknown
  | .outside => .unknown

/-- Follows one name, which only a directory allows. -/
def follow (d : Directory) (spot : Spot) (name : ByteString) : Except FileFault Spot :=
  match spot with
  | .file .. | .nullDevice => .error .notDirectory
  | .vacant _ | .unknown => .error .missing
  | .directory folder =>
    if isStay name then .ok spot
    else if name = ofString ".." then .ok (.directory folder.parent)
    else if nameLimit < name.length then .error .nameTooLong
    else .ok (d.entry folder name)

/-- Where a path starts: at the root if it starts with a slash. -/
def origin (path : ByteString) : Folder :=
  if path.head? = some (ascii '/') then .root else .inside []

/-- Follows names from where a path starts. -/
def walk (d : Directory) (path : ByteString) (names : List ByteString) : Except FileFault Spot :=
  names.foldlM d.follow (.directory (origin path))

/-- Refuses a path that is empty or too long. -/
def checkLength (path : ByteString) : Except FileFault Unit :=
  if path = [] then .error .missing
  else if pathLimit < path.length then .error .nameTooLong
  else .ok ()

/-- Follows a path. -/
def locate (d : Directory) (path : ByteString) : Except FileFault Spot := do
  checkLength path
  d.walk path (splitOn (ascii '/') path)

/-- The contents of a file. A directory can be opened but not read. -/
def read (d : Directory) (path : ByteString) : Except FileError ByteString :=
  match d.locate path with
  | .ok (.file _ contents) => .ok contents
  | .ok .nullDevice => .ok []
  | .ok (.directory _) => .error { operation := "read", path, fault := .isDirectory }
  | .ok _ => .error { operation := "open", path, fault := .missing }
  | .error fault => .error { operation := "open", path, fault }

/-- Does a path end with a slash? -/
def endsWithSlash (path : ByteString) : Bool := path.getLast? == some (ascii '/')

/-- The names of a path before the last one that is not empty. -/
def leadingNames (path : ByteString) : List ByteString :=
  (splitOn (ascii '/') (path.reverse.dropWhile (· == ascii '/')).reverse).dropLast

/-- The names under which a path creates a file; `none` if that cannot be seen from the working
directory. A path that ends with a slash names a directory and creates nothing: the directory that
would hold it must be there, but its last name is not looked up. -/
def target (d : Directory) (path : ByteString) : Except FileFault (Option (List ByteString)) := do
  checkLength path
  if endsWithSlash path then
    let _ ← d.walk path (leadingNames path ++ [[]])
    .error .isDirectory
  else match ← d.locate path with
    | .file names _ | .vacant names => .ok (some names)
    | .directory _ => .error .isDirectory
    | .nullDevice | .unknown => .ok none

/-- Writes a file. -/
def write (d : Directory) (names : List ByteString) (contents : ByteString) : Directory :=
  ⟨(names, contents) :: d.files.filter (·.1 ≠ names)⟩

/-- Creates a file, or replaces the contents of an old one. -/
def create (d : Directory) (path contents : ByteString) : Except FileError Directory :=
  match d.target path with
  | .ok (some names) => .ok (d.write names contents)
  | .ok none => .ok d
  | .error fault => .error { operation := "open", path, fault }

end Directory

end CommandLine

end MipsAssembler
