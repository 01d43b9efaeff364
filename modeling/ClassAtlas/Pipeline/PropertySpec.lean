import ClassAtlas.Entity.Property

/-! # Property specifications

How the properties of an entity are read from its element, and templates for labels.
-/

namespace ClassAtlas

inductive PropertyStrategy where
  | name
  | label
  /-- The literals that an annotation of this type gives to one of its elements. -/
  | annotationValue (type : TypeName) (field : String)
  | resolvedType
  | erasedType
  | literal (value : Literal)
  deriving Repr, DecidableEq, Inhabited

structure PropertySpec where
  key : String
  value : PropertyStrategy
  deriving Repr, DecidableEq, Inhabited

namespace PropertyStrategy

def defaultField : String := "value"

def toJson : PropertyStrategy → Json
  | .name => .object [("strategy", .string "name")]
  | .label => .object [("strategy", .string "label")]
  | .annotationValue type field =>
    .object [("strategy", .string "annotation_value"), ("annotation", type.toJson),
      ("field", .string field)]
  | .resolvedType => .object [("strategy", .string "resolved_type")]
  | .erasedType => .object [("strategy", .string "erased_type")]
  | .literal value => .object [("strategy", .string "literal"), ("value", value.toJson)]

def names : List String :=
  ["name", "label", "annotation_value", "resolved_type", "erased_type", "literal"]

def decode (spelling : Json.Spelling) (v : Json) : Option PropertyStrategy := do
  let (strategy, rest) ← v.tagged? spelling "strategy" names
  match strategy with
  | "name" => rest.bare? .name
  | "label" => rest.bare? .label
  | "annotation_value" => do
      let ms ← rest.members? ["annotation", "field"] 1
      let type ← ms.required "annotation" TypeName.ofJson?
      let field ← ms.defaulted "field" Json.string? defaultField
      return .annotationValue type field
  | "resolved_type" => rest.bare? .resolvedType
  | "erased_type" => rest.bare? .erasedType
  | "literal" => do
      let ms ← rest.members? ["value"] 1
      return .literal (← ms.required "value" (Literal.decode .setAside))
  | _ => none

def ofJson? (v : Json) : Option PropertyStrategy := decode .plain v

end PropertyStrategy

namespace PropertySpec

def toJson (s : PropertySpec) : Json :=
  .object [("key", .string s.key), ("value", s.value.toJson)]

def decode (spelling : Json.Spelling) (v : Json) : Option PropertySpec := do
  let ms ← v.members? ["key", "value"] 2
  let key ← ms.required "key" Json.string?
  let value ← ms.required "value" (PropertyStrategy.decode spelling)
  return { key, value }

def ofJson? (v : Json) : Option PropertySpec := decode .plain v

end PropertySpec

/-! ## Label templates -/

namespace LabelTemplate

def isKeyChar (c : Char) : Bool :=
  c.isAlphanum || c == '_' || c == '.' || c == '-'

def opening : List Char := ['$', '\x7b']

/-- Replace placeholders from left to right. `held` are the characters of a placeholder under way,
the latest first; when it turns out to be none, its text is copied. Inserted text is not looked at
again. -/
def renderChars (value : String → String) : (held : Option (List Char)) → List Char → List Char
  | none, [] => []
  | some key, [] => opening ++ key.reverse
  | none, '$' :: '\x7b' :: rest => renderChars value (some []) rest
  | none, c :: rest => c :: renderChars value none rest
  | some key, '$' :: '\x7b' :: rest => opening ++ key.reverse ++ renderChars value (some []) rest
  | some key, c :: rest =>
    if isKeyChar c then renderChars value (some (c :: key)) rest
    else if c = '\x7d' ∧ key ≠ [] then
      (value (String.ofList key.reverse)).toList ++ renderChars value none rest
    else opening ++ key.reverse ++ c :: renderChars value none rest
termination_by structural _ cs => cs

def render (value : String → String) (template : String) : String :=
  String.ofList (renderChars value none template.toList)

end LabelTemplate

end ClassAtlas
