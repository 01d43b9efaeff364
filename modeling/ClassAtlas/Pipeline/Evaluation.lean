import ClassAtlas.Model
import ClassAtlas.Pipeline.PropertySpec

/-! # Reading properties

What property strategies mean. Reading the values of an annotation makes them elements of their own.
-/

namespace ClassAtlas

namespace PropertyStrategy

def internLiterals (owner : ElementId) (field : String) : (i : Nat) → List Literal → ElementIndex → ElementIndex
  | _, [], ix => ix
  | i, l :: ls, ix =>
    internLiterals owner field (i + 1) ls
      (ix.internValue owner (field ++ "[" ++ naturalText i ++ "]") l).2

/-- The literals that an element's first annotation of a type gives to one of the annotation's
elements. -/
def annotationLiterals (id : ElementId) (type : TypeName) (field : String) (ix : ElementIndex) :
    List Literal × ElementIndex :=
  let entries := ix.annotationEntries id
  match entries.findIdx? (·.typeName? == some type) with
  | none => ([], ix)
  | some position =>
    let literals := ((entries[position]?.bind (·.value? field)).map (·.literals)).getD []
    let (ids, ix) := ix.annotations id
    match ids[position]? with
    | none => ([], ix)
    | some owner => (literals, internLiterals owner field 0 literals ix)

def read (id : ElementId) : PropertyStrategy → ElementIndex → SignatureResolver →
    List PropertyValue × ElementIndex × SignatureResolver
  | .name, ix, r => ([.text (ix.name id)], ix, r)
  | .label, ix, r => ([.text (ix.label id)], ix, r)
  | .annotationValue type field, ix, r =>
    let (literals, ix) := annotationLiterals id type field ix
    (literals.map .ofLiteral, ix, r)
  | .resolvedType, ix, r =>
    let (s, r) := r.declaredType ix id
    (s.toList.map fun s => .text s.text, ix, r)
  | .erasedType, ix, r =>
    match r.declaredType ix id with
    | (none, r) => ([], ix, r)
    | (some s, r) =>
      let (t, r) := r.erasure ix.classes s
      ([.type t], ix, r)
  | .literal value, ix, r => ([.ofLiteral value], ix, r)

end PropertyStrategy

namespace PropertySpec

/-- The properties of an element in order. Properties without values are left out; a name may come
twice. -/
def readAll (id : ElementId) : List PropertySpec → ElementIndex → SignatureResolver →
    Properties × ElementIndex × SignatureResolver
  | [], ix, r => ([], ix, r)
  | spec :: specs, ix, r =>
    let (values, ix, r) := spec.value.read id ix r
    let (rest, ix, r) := readAll id specs ix r
    (if values.isEmpty then rest else (spec.key, values) :: rest, ix, r)

def evaluate (specs : List PropertySpec) (id : ElementId) : ModelM Properties := fun m =>
  let (ps, ix, r) := readAll id specs m.index m.caches.resolver
  (.ok ps, { m with index := ix, caches := { m.caches with resolver := r } })

end PropertySpec

namespace LabelTemplate

/-- The value of a placeholder: the element's name or label, or the first value of a property. -/
def value (ix : ElementIndex) (id : ElementId) (properties : Properties) (key : String) : String :=
  if key = "name" then ix.name id
  else if key = "label" then ix.label id
  else (properties.text? key).getD ""

def labelOf (ix : ElementIndex) (id : ElementId) (properties : Properties) (template : String) : String :=
  render (value ix id properties) template

end LabelTemplate

end ClassAtlas
