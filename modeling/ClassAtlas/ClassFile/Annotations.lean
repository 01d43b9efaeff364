import ClassAtlas.Literal

/-! # Annotations of declarations

An annotation names its type by a descriptor and gives values to some of its elements. A value may
hold further values, and may itself be an annotation.
-/

namespace ClassAtlas

inductive AnnotationValue where
  | literal (value : Literal)
  /-- A constant of the enumeration with this descriptor. -/
  | enumConstant (desc value : String)
  | array (values : List AnnotationValue)
  | nested (desc : String) (values : List (String × AnnotationValue))
  deriving Repr, Inhabited

structure AnnotationEntry where
  /-- Descriptor of the annotation's type. -/
  desc : String
  values : List (String × AnnotationValue) := []
  deriving Repr, Inhabited

namespace AnnotationValue

mutual
/-- The literals in a value, flattened. An enumeration constant counts as its name and a nested
annotation as its type, if that can be read. -/
def literals : AnnotationValue → List Literal
  | .literal v => [v]
  | .enumConstant _ v => [.str v]
  | .array vs => allLiterals vs
  | .nested desc _ => (TypeName.ofDescriptor? desc).toList.map .type
termination_by structural v => v
def allLiterals : List AnnotationValue → List Literal
  | [] => []
  | v :: vs => v.literals ++ allLiterals vs
termination_by structural vs => vs
end

mutual
def toJson : AnnotationValue → Json
  | .literal v => .object [("kind", .string "literal"), ("value", v.toJson)]
  | .enumConstant desc v =>
    .object [("kind", .string "enum"),
      ("value", .object [("desc", .string desc), ("value", .string v)])]
  | .array vs => .object [("kind", .string "array"), ("value", .array (listToJson vs))]
  | .nested desc vs =>
    .object [("kind", .string "annotation"),
      ("value", .object [("desc", .string desc), ("values", .array (pairsToJson vs))])]
termination_by structural v => v
def listToJson : List AnnotationValue → List Json
  | [] => []
  | v :: vs => v.toJson :: listToJson vs
termination_by structural vs => vs
def pairsToJson : List (String × AnnotationValue) → List Json
  | [] => []
  | (n, v) :: vs => .array [.string n, v.toJson] :: pairsToJson vs
termination_by structural vs => vs
end

def kinds : List String := ["literal", "enum", "array", "annotation"]

mutual
def decode : (fuel : Nat) → Json → Option AnnotationValue
  | 0, _ => none
  | fuel + 1, v => do
      let (kind, value) ← v.labelled? .plain "kind" "value" kinds
      match kind with
      | "literal" => (Literal.ofJson? value).map .literal
      | "enum" => do
          let ms ← value.members? ["desc", "value"] 2
          let desc ← ms.required "desc" Json.string?
          let constant ← ms.required "value" Json.string?
          return .enumConstant desc constant
      | "array" => (value.list? (decode fuel)).map .array
      | "annotation" => (decodeEntry fuel value).map fun (desc, vs) => .nested desc vs
      | _ => none
def decodeEntry : (fuel : Nat) → Json → Option (String × List (String × AnnotationValue))
  | 0, _ => none
  | fuel + 1, v => do
      let ms ← v.members? ["desc", "values"] 1
      let desc ← ms.required "desc" Json.string?
      let values ← ms.defaulted "values" (Json.list? (Json.pair? Json.string? (decode fuel))) []
      return (desc, values)
end

def ofJson? (v : Json) : Option AnnotationValue := decode v.decodeFuel v

end AnnotationValue

namespace AnnotationEntry

def ofType (t : TypeName) : AnnotationEntry :=
  { desc := String.ofList ('L' :: t.toInternal.toList ++ [';']) }

def withValue (a : AnnotationEntry) (name : String) (value : AnnotationValue) : AnnotationEntry :=
  { a with values := a.values ++ [(name, value)] }

def typeName? (a : AnnotationEntry) : Option TypeName := TypeName.ofDescriptor? a.desc

def value? (a : AnnotationEntry) (name : String) : Option AnnotationValue :=
  (a.values.find? (·.1 == name)).map (·.2)

def toJson (a : AnnotationEntry) : Json :=
  .object [("desc", .string a.desc), ("values", .array (AnnotationValue.pairsToJson a.values))]

def ofJson? (v : Json) : Option AnnotationEntry :=
  (AnnotationValue.decodeEntry v.decodeFuel v).map fun (desc, values) => ⟨desc, values⟩

end AnnotationEntry

end ClassAtlas
