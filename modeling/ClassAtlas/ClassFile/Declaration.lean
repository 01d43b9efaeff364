import ClassAtlas.ClassFile.Annotations
import ClassAtlas.ClassFile.Instruction

/-! # Declarations

Classes, fields and methods as a loader hands them over. Class names in declarations are internal
names.
-/

namespace ClassAtlas

abbrev Access := UInt32

namespace Access

def publicFlag : Access := 0x0001

def privateFlag : Access := 0x0002

def staticFlag : Access := 0x0008

def interfaceFlag : Access := 0x0200

def syntheticFlag : Access := 0x1000

def has (access flags : Access) : Bool := access &&& flags == flags

end Access

structure FieldDeclaration where
  name : String
  desc : String
  access : Access := 0
  /-- Generic signature, when the class file keeps one. -/
  signature : Option String := none
  annotations : List AnnotationEntry := []
  value : Option Literal := none
  deriving Repr, Inhabited

structure MethodDeclaration where
  name : String
  desc : String
  access : Access := Access.publicFlag
  signature : Option String := none
  annotations : List AnnotationEntry := []
  /-- Annotations of each parameter; the list may be shorter than the parameter list. -/
  parameterAnnotations : List (List AnnotationEntry) := []
  parameterNames : List String := []
  instructions : List Instruction := []
  deriving Repr, Inhabited

structure ClassDeclaration where
  /-- Internal name. -/
  name : String
  access : Access := Access.publicFlag
  superName : Option String := none
  interfaces : List String := []
  signature : Option String := none
  outerClass : Option String := none
  annotations : List AnnotationEntry := []
  fields : List FieldDeclaration := []
  methods : List MethodDeclaration := []
  deriving Repr, Inhabited

namespace MethodDeclaration

def isConstructor (m : MethodDeclaration) : Bool := m.name == "<init>"

def isStaticInitializer (m : MethodDeclaration) : Bool := m.name == "<clinit>"

def annotationsOf (m : MethodDeclaration) (index : Nat) : List AnnotationEntry :=
  (m.parameterAnnotations[index]?).getD []

end MethodDeclaration

namespace ClassDeclaration

/-- A public class that extends the root of the hierarchy and has no members. -/
def ofType (t : TypeName) : ClassDeclaration :=
  { name := t.toInternal, superName := some TypeName.object.toInternal }

def typeName (c : ClassDeclaration) : TypeName := TypeName.ofInternal c.name

def superType? (c : ClassDeclaration) : Option TypeName := c.superName.map TypeName.ofInternal

def interfaceTypes (c : ClassDeclaration) : List TypeName := c.interfaces.map TypeName.ofInternal

def isInterface (c : ClassDeclaration) : Bool := c.access &&& Access.interfaceFlag != 0

end ClassDeclaration

/-! ## Documents -/

def Access.toJson (a : Access) : Json := .nat a.toNat

namespace FieldDeclaration

def toJson (f : FieldDeclaration) : Json :=
  .object [("name", .string f.name), ("desc", .string f.desc), ("access", Access.toJson f.access),
    ("signature", .option .string f.signature),
    ("annotations", .list AnnotationEntry.toJson f.annotations),
    ("value", .option Literal.toJson f.value)]

def ofJson? (v : Json) : Option FieldDeclaration := do
  let ms ← v.members? ["name", "desc", "access", "signature", "annotations", "value"] 2
  let name ← ms.required "name" Json.string?
  let desc ← ms.required "desc" Json.string?
  let access ← ms.defaulted "access" Json.uint32? 0
  let signature ← ms.optional "signature" Json.string?
  let annotations ← ms.defaulted "annotations" (Json.list? AnnotationEntry.ofJson?) []
  let value ← ms.optional "value" Literal.ofJson?
  return { name, desc, access, signature, annotations, value }

end FieldDeclaration

namespace MethodDeclaration

def toJson (m : MethodDeclaration) : Json :=
  .object [("name", .string m.name), ("desc", .string m.desc), ("access", Access.toJson m.access),
    ("signature", .option .string m.signature),
    ("annotations", .list AnnotationEntry.toJson m.annotations),
    ("parameter_annotations", .list (.list AnnotationEntry.toJson) m.parameterAnnotations),
    ("parameter_names", .list .string m.parameterNames),
    ("instructions", .list Instruction.toJson m.instructions)]

def ofJson? (v : Json) : Option MethodDeclaration := do
  let ms ← v.members? ["name", "desc", "access", "signature", "annotations", "parameter_annotations",
    "parameter_names", "instructions"] 2
  let name ← ms.required "name" Json.string?
  let desc ← ms.required "desc" Json.string?
  let access ← ms.defaulted "access" Json.uint32? 0
  let signature ← ms.optional "signature" Json.string?
  let annotations ← ms.defaulted "annotations" (Json.list? AnnotationEntry.ofJson?) []
  let parameterAnnotations ←
    ms.defaulted "parameter_annotations" (Json.list? (Json.list? AnnotationEntry.ofJson?)) []
  let parameterNames ← ms.defaulted "parameter_names" (Json.list? Json.string?) []
  let instructions ← ms.defaulted "instructions" (Json.list? Instruction.ofJson?) []
  return ⟨name, desc, access, signature, annotations, parameterAnnotations, parameterNames,
    instructions⟩

end MethodDeclaration

namespace ClassDeclaration

def toJson (c : ClassDeclaration) : Json :=
  .object [("name", .string c.name), ("access", Access.toJson c.access),
    ("super_name", .option .string c.superName), ("interfaces", .list .string c.interfaces),
    ("signature", .option .string c.signature), ("outer_class", .option .string c.outerClass),
    ("annotations", .list AnnotationEntry.toJson c.annotations),
    ("fields", .list FieldDeclaration.toJson c.fields),
    ("methods", .list MethodDeclaration.toJson c.methods)]

def ofJson? (v : Json) : Option ClassDeclaration := do
  let ms ← v.members? ["name", "access", "super_name", "interfaces", "signature", "outer_class",
    "annotations", "fields", "methods"] 1
  let name ← ms.required "name" Json.string?
  let access ← ms.defaulted "access" Json.uint32? 0
  let superName ← ms.optional "super_name" Json.string?
  let interfaces ← ms.defaulted "interfaces" (Json.list? Json.string?) []
  let signature ← ms.optional "signature" Json.string?
  let outerClass ← ms.optional "outer_class" Json.string?
  let annotations ← ms.defaulted "annotations" (Json.list? AnnotationEntry.ofJson?) []
  let fields ← ms.defaulted "fields" (Json.list? FieldDeclaration.ofJson?) []
  let methods ← ms.defaulted "methods" (Json.list? MethodDeclaration.ofJson?) []
  return { name, access, superName, interfaces, signature, outerClass, annotations, fields, methods }

end ClassDeclaration

end ClassAtlas
