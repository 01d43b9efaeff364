import ClassAtlas.Element.Basic

/-! # Properties of entities

Named lists of values. Values given later under a name come after the earlier ones.
-/

namespace ClassAtlas

inductive PropertyValue where
  | text (value : String)
  | number (value : Int64)
  | decimal (value : Binary64)
  | bool (value : Bool)
  | type (value : TypeName)
  | element (value : ElementId)
  deriving Repr, DecidableEq, Inhabited

abbrev Properties := List (String × List PropertyValue)

namespace PropertyValue

/-- The value of a literal: integers become numbers, floating-point numbers decimals, characters
texts. -/
def ofLiteral : Literal → PropertyValue
  | .str s => .text s
  | .int n => .number n.toInt64
  | .long n => .number n
  | .float x => .decimal x.widen
  | .double x => .decimal x
  | .bool b => .bool b
  | .char c => .text (String.ofList [c])
  | .type t => .type t

/-- The value as text, without quotes. -/
def shown : PropertyValue → String
  | .text s => s
  | .number n => integerText n.toInt
  | .decimal x => x.text
  | .bool b => boolText b
  | .type t => t.text
  | .element e => e.text

def toJson : PropertyValue → Json
  | .text s => .object [("kind", .string "text"), ("value", .string s)]
  | .number n => .object [("kind", .string "number"), ("value", .int n.toInt)]
  | .decimal x => .object [("kind", .string "decimal"), ("value", .ofBinary64 x)]
  | .bool b => .object [("kind", .string "bool"), ("value", .bool b)]
  | .type t => .object [("kind", .string "type"), ("value", t.toJson)]
  | .element e => .object [("kind", .string "element"), ("value", e.toJson)]

def kinds : List String := ["text", "number", "decimal", "bool", "type", "element"]

def ofJson? (v : Json) : Option PropertyValue := do
  let (kind, value) ← v.labelled? .plain "kind" "value" kinds
  match kind with
  | "text" => value.string?.map .text
  | "number" => value.int64?.map .number
  | "decimal" => value.binary64?.map .decimal
  | "bool" => value.bool?.map .bool
  | "type" => (TypeName.ofJson? value).map .type
  | "element" => (ElementId.ofJson? value).map .element
  | _ => none

end PropertyValue

namespace Properties

/-- Append values to those of a name, which comes last if it is new. -/
def merge (key : String) (values : List PropertyValue) : Properties → Properties
  | [] => [(key, values)]
  | (k, old) :: rest => if k == key then (k, old ++ values) :: rest else (k, old) :: merge key values rest

def mergeAll (properties more : Properties) : Properties :=
  more.foldl (fun ps m => merge m.1 m.2 ps) properties

def values? (properties : Properties) (key : String) : Option (List PropertyValue) :=
  (List.find? (fun p => p.1 == key) properties).map (·.2)

def text? (properties : Properties) (key : String) : Option String :=
  ((values? properties key).bind List.head?).map PropertyValue.shown

end Properties

end ClassAtlas
