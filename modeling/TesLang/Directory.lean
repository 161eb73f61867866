import TesLang.Text.Quoted
/-!
# Directories

The files and folders around a command, and how a path is followed among them.  A path is followed part by part, from
the directory itself or, if it starts with a slash, from outside of it.  An empty part and a single dot stay where they
are, and two dots go one folder up.  Only the directory's own content is known: what is above it is a folder, and nothing
else is found there.

A path ends in a folder, in a file, or in a `FileError`, which names the first part that could not be followed.
-/
namespace TesLang

open Text

/-- Why a file cannot be read or written. -/
inductive FileError where
  | notFound
  /-- a part of the path other than the last is a file -/
  | notFolder
  | isFolder
  | nameTooLong
  /-- the path holds the character that ends texts for the system -/
  | nullCharacter
  deriving DecidableEq, Repr

def FileError.message (path : String) : FileError → String
  | notFound      => "[Errno 2] No such file or directory: " ++ quoted path
  | notFolder     => "[Errno 20] Not a directory: " ++ quoted path
  | isFolder      => "[Errno 21] Is a directory: " ++ quoted path
  | nameTooLong   => "[Errno 36] File name too long: " ++ quoted path
  | nullCharacter => "embedded null byte"

/-- The files and folders in a directory, each under the names that lead to it. -/
structure Directory where
  files : List (List String × List UInt8) := []
  folders : List (List String) := []
  deriving DecidableEq, Repr

namespace Directory

/-- Where following a path has led. -/
inductive Spot where
  /-- a folder that is not in the directory -/
  | outside
  /-- the directory itself, or a folder in it -/
  | folder (names : List String)
  | file (names : List String)
  deriving DecidableEq, Repr

/-- The most bytes that a name may have. -/
def maxName : Nat := 255

/-- The most bytes that a path may have. -/
def maxPath : Nat := 4095

/-- What `name` is in the folder at `names`. -/
def lookIn (d : Directory) (names : List String) (name : String) : Except FileError Spot :=
  let there := names ++ [name]
  if maxName < name.utf8ByteSize then .error .nameTooLong
  else if d.folders.contains there then .ok (.folder there)
  else if (d.files.lookup there).isSome then .ok (.file there)
  else .error .notFound

/-- Follows one part of a path. -/
def step (d : Directory) (part : String) : Spot → Except FileError Spot
  | .file _       => .error .notFolder
  | .outside      =>
    if part = "" ∨ part = "." ∨ part = ".." then .ok .outside
    else if maxName < part.utf8ByteSize then .error .nameTooLong
    else .error .notFound
  | .folder names =>
    if part = "" ∨ part = "." then .ok (.folder names)
    else if part = ".." then .ok (if names.isEmpty then .outside else .folder names.dropLast)
    else d.lookIn names part

def follow (d : Directory) : List String → Spot → Except FileError Spot
  | [],            spot => .ok spot
  | part :: parts, spot => do d.follow parts (← d.step part spot)

/-- The parts of a path: what stands between its slashes. -/
def parts (path : List Char) : List String :=
  match path with
  | []      => [""]
  | c :: cs =>
    let rest := parts cs
    if c = '/' then "" :: rest
    else String.ofList (c :: (rest.headD "").toList) :: rest.tail

/-- Where the first part of a path is sought. -/
def start (path : String) : Spot := if path.toList.head? = some '/' then .outside else .folder []

/-- What can be wrong with a path whatever is in the directory. -/
def refuse? (path : String) : Option FileError :=
  if path.toList.contains '\x00' then some .nullCharacter
  else if path.isEmpty then some .notFound
  else if maxPath < path.utf8ByteSize then some .nameTooLong
  else none

def read (d : Directory) (path : String) : Except FileError (List UInt8) :=
  match refuse? path with
  | some e => .error e
  | none   => do
    match ← d.follow (parts path.toList) (start path) with
    | .file names => pure ((d.files.lookup names).getD [])
    | _           => throw .isFolder

/-- Puts a file in its place. -/
def put (d : Directory) (names : List String) (bytes : List UInt8) : Directory :=
  { d with files := d.files.filter (·.1 ≠ names) ++ [(names, bytes)] }

/-- Writes a file, in place of the one of that name. -/
def write (d : Directory) (path : String) (bytes : List UInt8) : Except FileError Directory :=
  match refuse? path with
  | some e => .error e
  | none   => do
    let ps := parts path.toList
    let name := ps.getLastD ""
    match ← d.follow ps.dropLast (start path) with
    | .file _       => throw .notFolder
    | .outside      => throw .isFolder
    | .folder names =>
      match d.lookIn names name with
      | .ok (.folder _)    => throw .isFolder
      | .error .nameTooLong => throw .nameTooLong
      | _                  => pure (d.put (names ++ [name]) bytes)

/-- The names that a path leads along, if it stays in the directory. -/
def namesOf (path : String) : List String :=
  (parts path.toList).foldl
    (fun names part =>
      if part = "" ∨ part = "." then names else if part = ".." then names.dropLast else names ++ [part])
    []

/-- Makes the folder that `names` lead to, and the folders around it. -/
def makeFolder (d : Directory) (names : List String) : Directory :=
  { d with folders := d.folders ++ (List.range names.length).map fun i => names.take (i + 1) }

/-- Makes a folder and the folders around it. -/
def withFolder (d : Directory) (path : String) : Directory := d.makeFolder (namesOf path)

/-- Makes a file and the folders around it. -/
def withFile (d : Directory) (path : String) (bytes : List UInt8) : Directory :=
  (d.makeFolder (namesOf path).dropLast).put (namesOf path) bytes

/-- The files that stand directly in the directory. -/
def ownFiles (d : Directory) : List (String × List UInt8) :=
  d.files.filterMap fun (names, bytes) =>
    match names with
    | [name] => some (name, bytes)
    | _      => none

end Directory

end TesLang
