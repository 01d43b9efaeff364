import ClassAtlas.TypeName
import ClassAtlas.Json.Decode

/-! # Literals

Constant values: field initialisers, constants loaded by instructions and values of annotations.
-/

namespace ClassAtlas

inductive Literal where
  | str (value : String)
  | int (value : Int32)
  | long (value : Int64)
  | float (value : Binary32)
  | double (value : Binary64)
  | bool (value : Bool)
  | char (value : Char)
  | type (value : TypeName)
  deriving Repr, DecidableEq, Inhabited

def boolText (b : Bool) : String := if b then "true" else "false"

namespace TypeName

def toJson (t : TypeName) : Json := .string t.text

def ofJson? (v : Json) : Option TypeName := v.string?.map TypeName.mk

end TypeName

namespace Literal

def text : Literal → String
  | .str s => s
  | .int n => integerText n.toInt
  | .long n => integerText n.toInt
  | .float x => x.text
  | .double x => x.text
  | .bool b => boolText b
  | .char c => String.ofList [c]
  | .type t => t.text

def toJson : Literal → Json
  | .str s => .object [("kind", .string "str"), ("value", .string s)]
  | .int n => .object [("kind", .string "int"), ("value", .int n.toInt)]
  | .long n => .object [("kind", .string "long"), ("value", .int n.toInt)]
  | .float x => .object [("kind", .string "float"), ("value", .ofBinary32 x)]
  | .double x => .object [("kind", .string "double"), ("value", .ofBinary64 x)]
  | .bool b => .object [("kind", .string "bool"), ("value", .bool b)]
  | .char c => .object [("kind", .string "char"), ("value", .string (String.ofList [c]))]
  | .type t => .object [("kind", .string "type"), ("value", t.toJson)]

def kinds : List String := ["str", "int", "long", "float", "double", "bool", "char", "type"]

def decode (spelling : Json.Spelling) (v : Json) : Option Literal := do
  let (kind, value) ← v.labelled? spelling "kind" "value" kinds
  match kind with
  | "str" => value.string?.map .str
  | "int" => value.int32?.map .int
  | "long" => value.int64?.map .long
  | "float" => value.binary32?.map .float
  | "double" => value.binary64?.map .double
  | "bool" => value.bool?.map .bool
  | "char" => value.char?.map .char
  | "type" => (TypeName.ofJson? value).map .type
  | _ => none

def ofJson? (v : Json) : Option Literal := decode .plain v

end Literal

end ClassAtlas
