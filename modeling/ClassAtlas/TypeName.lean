/-! # Type names

A type is known by its dotted binary name, such as `java.util.Map$Entry` or `int`. Class files write
the same name with slashes (the internal form) and refer to types by descriptors.
-/

namespace ClassAtlas

/-- A dotted binary type name. Any text is accepted; nothing checks that the type exists. -/
structure TypeName where
  text : String
  deriving Repr, DecidableEq, Inhabited

namespace TypeName

def primitives : List (Char × String) :=
  [('B', "byte"), ('C', "char"), ('D', "double"), ('F', "float"), ('I', "int"), ('J', "long"),
    ('S', "short"), ('Z', "boolean"), ('V', "void")]

def object : TypeName := ⟨"java.lang.Object"⟩

def string : TypeName := ⟨"java.lang.String"⟩

def void : TypeName := ⟨"void"⟩

def exchange (old new : Char) (s : String) : String :=
  String.ofList (s.toList.map fun c => if c = old then new else c)

def ofInternal (s : String) : TypeName := ⟨exchange '/' '.' s⟩

def toInternal (t : TypeName) : String := exchange '.' '/' t.text

def primitive? (c : Char) : Option TypeName := (primitives.find? (·.1 == c)).map fun p => ⟨p.2⟩

def descriptorChar? (t : TypeName) : Option Char := (primitives.find? (·.2 == t.text)).map (·.1)

def isPrimitive (t : TypeName) : Bool := t.descriptorChar?.isSome

/-- The type that a descriptor without its array brackets names. -/
def ofElementDescriptor? : List Char → Option TypeName
  | [] => none
  | 'L' :: rest => if rest.getLast? = some ';' then some (ofInternal (String.ofList rest.dropLast)) else none
  | [c] => primitive? c
  | _ => none

def brackets (count : Nat) : List Char := (List.replicate count ['[', ']']).flatten

/-- The type that a field descriptor names. An array type has a pair of brackets after its element
type for each dimension. -/
def ofDescriptor? (s : String) : Option TypeName :=
  let dimensions := (s.toList.takeWhile (· == '[')).length
  (ofElementDescriptor? (s.toList.drop dimensions)).map fun t =>
    ⟨String.ofList (t.text.toList ++ brackets dimensions)⟩

/-- What follows the last occurrence of a mark, or everything. -/
def afterLast (mark : Char) (cs : List Char) : List Char :=
  (cs.reverse.takeWhile (· != mark)).reverse

/-- What precedes the last occurrence of a mark, or nothing. -/
def beforeLast (mark : Char) (cs : List Char) : List Char :=
  (cs.reverse.dropWhile (· != mark)).tail.reverse

def simpleName (t : TypeName) : String :=
  String.ofList (afterLast '$' (afterLast '.' t.text.toList))

def package (t : TypeName) : String := String.ofList (beforeLast '.' t.text.toList)

end TypeName

end ClassAtlas
