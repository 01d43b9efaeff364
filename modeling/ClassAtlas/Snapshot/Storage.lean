import ClassAtlas.Json.Writer
import ClassAtlas.ModelError
import ClassAtlas.Snapshot.Basic

/-! # Writing snapshots

A directory tree with files, as far as writing a file at a path needs it. Directories on the way are
made; a path that cannot be used is an error, but directories that were made for it before stay.
-/

namespace ClassAtlas

/-- Directories and files below a root, by the names on the way. -/
structure Storage where
  directories : List (List String) := []
  files : List (List String × String) := []
  deriving Repr, DecidableEq, Inhabited

namespace Storage

def nameLimit : Nat := 255

def pathLimit : Nat := 4095

/-- Whether a part of a path names something: empty parts and dots stay where they are. -/
def isName (part : String) : Bool := part != "" && part != "."

def trimParts (parts : List String) : List String := (parts.reverse.dropWhile (! isName ·)).reverse

def parentParts (parts : List String) : List String := trimParts (trimParts parts).dropLast

/-- Whether a text can be used as a path at all. -/
def isPath (text : String) : Bool :=
  !text.toList.contains '\x00' && decide (text.utf8ByteSize ≤ pathLimit)

def hasDots : List Char → Bool
  | '.' :: '.' :: _ => true
  | _ :: cs => hasDots cs
  | [] => false

/-- Whether a path starts at the root of the tree and never leaves it. -/
def staysBelow (path : String) : Bool := !path.startsWith "/" && !hasDots path.toList

def read? (s : Storage) (path : List String) : Option String := Ordered.get? path s.files

def makeDirectories : (done rest : List String) → Storage → Bool × Storage
  | _, [], s => (true, s)
  | done, name :: rest, s =>
    let path := done ++ [name]
    if s.directories.contains path then makeDirectories path rest s
    else if (s.read? path).isSome || decide (nameLimit < name.utf8ByteSize) then (false, s)
    else makeDirectories path rest { s with directories := s.directories ++ [path] }

/-- Write a file whose directory is there. Tells whether that was possible. -/
def writeFile (text : String) (parts : List String) (content : String) (s : Storage) : Bool × Storage :=
  let path := parts.filter isName
  let usable := isPath text && (parts.getLast?.any isName) &&
    (path.getLast?.all fun name => decide (name.utf8ByteSize ≤ nameLimit)) &&
    !s.directories.contains path
  if usable then (true, { s with files := Ordered.put path content s.files }) else (false, s)

def write (path content : String) (s : Storage) : Except ModelError Unit × Storage :=
  let parts := path.splitOn "/"
  let parent := parentParts parts
  if !isPath ("/".intercalate parent) then (.error (.io path), s)
  else
    match makeDirectories [] (parent.filter isName) s with
    | (false, s) => (.error (.io path), s)
    | (true, s) =>
      match writeFile path parts content s with
      | (false, s) => (.error (.io path), s)
      | (true, s) => (.ok (), s)

def readPath? (s : Storage) (path : String) : Option String := s.read? ((path.splitOn "/").filter isName)

end Storage

namespace Snapshot

def toText (s : Snapshot) : String := s.toJson.pretty

def write (s : Snapshot) (path : String) (storage : Storage) : Except ModelError Unit × Storage :=
  storage.write path s.toText

end Snapshot

end ClassAtlas
