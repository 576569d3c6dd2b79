/-!
# Reading a source

What can go wrong when a source is read, and a file tree given as data.

* `ReadFailure`: the causes, with their wording.
* `decode`: the text of some bytes, which have to be UTF-8.
* `FileTree.read`: the contents of the file at a path. The path is followed name by name, and each
  name but the first needs a directory to stand in, a trailing slash too.
-/

namespace ReversePolish.CommandLine

/-- Why a source cannot be read. -/
inductive ReadFailure where
  | missing
  | notDirectory
  | isDirectory
  | nameTooLong
  | notText
  | other (cause : String)
  deriving DecidableEq, Repr

/-- The cause in words. -/
def ReadFailure.cause : ReadFailure → String
  | .missing => "No such file or directory (os error 2)"
  | .notDirectory => "Not a directory (os error 20)"
  | .isDirectory => "Is a directory (os error 21)"
  | .nameTooLong => "File name too long (os error 36)"
  | .notText => "stream did not contain valid UTF-8"
  | .other cause => cause

/-- The text that the bytes encode. -/
def decode (bytes : ByteArray) : Except ReadFailure String :=
  match String.fromUTF8? bytes with
  | some text => .ok text
  | none => .error .notText

/-! ## Places -/

/-- A place in a file tree: the names that lead to it from the working directory, the last one
first. Places above the working directory are spelled with `..` alone, and a place named from the
root has `/` for its first name. -/
abbrev Place := List String

namespace Place

/-- The place one level up. The root is its own parent. -/
def parent : Place → Place
  | [] => [".."]
  | ["/"] => ["/"]
  | ".." :: place => ".." :: ".." :: place
  | _ :: place => place

/-- The place that a name leads to from a directory. An empty name and a dot lead nowhere else. -/
def enter (place : Place) (name : String) : Place :=
  if name = "" ∨ name = "." then place
  else if name = ".." then place.parent
  else name :: place

/-- Where a path starts: at the root if it begins with a slash. -/
def start (path : String) : Place := if path.startsWith "/" then ["/"] else []

/-- The names along a path. -/
def names (path : String) : List String := path.splitOn "/"

/-- The place that a path names, if all of it exists. -/
def ofPath (path : String) : Place := (names path).foldl enter (start path)

end Place

/-! ## File trees -/

/-- The files of a tree, by their paths from the working directory or from the root. -/
structure FileTree where
  files : List (String × ByteArray)

/-- What can stand at a place. -/
inductive Entry where
  | file (contents : ByteArray)
  | directory

/-- The most bytes that a name may have. -/
def nameLimit : Nat := 255

/-- The most bytes that a path may have. -/
def pathLimit : Nat := 4095

namespace FileTree

/-- What stands at a place. The root, the working directory and the places above it are
directories, and so is every place on the way to a file. -/
def entry? (tree : FileTree) (place : Place) : Option Entry :=
  match tree.files.find? fun file => Place.ofPath file.1 == place with
  | some file => some (.file file.2)
  | none =>
    if place == ["/"] || place.all (· == "..") ||
        tree.files.any fun file => place.isSuffixOf (Place.ofPath file.1) then
      some .directory
    else none

/-- Follows names from a place where `entry` stands. -/
def follow (tree : FileTree) : List String → Place → Entry → Except ReadFailure Entry
  | [], _, entry => .ok entry
  | _ :: _, _, .file _ => .error .notDirectory
  | name :: names, place, .directory =>
    if nameLimit < name.utf8ByteSize then .error .nameTooLong
    else
      match tree.entry? (place.enter name) with
      | some entry => tree.follow names (place.enter name) entry
      | none => .error .missing

/-- The contents of the file at a path. -/
def read (tree : FileTree) (path : String) : Except ReadFailure ByteArray :=
  if pathLimit < path.utf8ByteSize then .error .nameTooLong
  else
    match tree.follow (Place.names path) (Place.start path) .directory with
    | .ok (.file contents) => .ok contents
    | .ok .directory => .error .isDirectory
    | .error e => .error e

end FileTree

end ReversePolish.CommandLine
