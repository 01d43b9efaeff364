import ClassAtlas.Element.Index
import ClassAtlas.Signature.Printer

/-! # Names and labels of elements -/

namespace ClassAtlas.ElementIndex

/-- The name that patterns are tested against: qualified for classes and annotations. -/
def name (ix : ElementIndex) (id : ElementId) : String :=
  match ix.get? id with
  | some (.classDef c) => (ix.classes[c]?.map (·.typeName.text)).getD ""
  | some (.member .field _ _ _ _) => ((ix.fieldDeclaration? id).map (·.2.name)).getD ""
  | some (.member .method _ _ _ _) => ((ix.methodDeclaration? id).map (·.2.name)).getD ""
  | some (.parameter method position) =>
    ((ix.methodDeclaration? method).bind (·.2.parameterNames[position]?)).getD
      ("arg" ++ naturalText position)
  | some (.annotationUse _ _) =>
    (((ix.annotationAt? id).bind AnnotationEntry.typeName?).map TypeName.text).getD ""
  | some (.signature _ type) => type.text
  | some (.value _ literal) => literal.text
  | none => ""

def ownerName (ix : ElementIndex) (id : ElementId) : String :=
  ((ix.classDeclaration? id).map (·.typeName.simpleName)).getD ""

def label (ix : ElementIndex) (id : ElementId) : String :=
  match ix.get? id with
  | some (.classDef c) => (ix.classes[c]?.map (·.typeName.simpleName)).getD ""
  | some (.member .field _ _ owner _) => ix.ownerName owner ++ "." ++ ix.name id
  | some (.member .method _ _ owner _) => ix.ownerName owner ++ "::" ++ ix.name id
  | some (.annotationUse _ _) =>
    (((ix.annotationAt? id).bind AnnotationEntry.typeName?).map fun t =>
      "@" ++ t.simpleName).getD ""
  | _ => ix.name id

end ClassAtlas.ElementIndex
