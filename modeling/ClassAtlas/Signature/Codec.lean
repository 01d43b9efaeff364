import ClassAtlas.Literal
import ClassAtlas.Signature.Scope

/-! # Signatures in documents -/

namespace ClassAtlas

namespace TypeVariableOwner

def toJson : TypeVariableOwner → Json
  | .ofClass t => .object [("kind", .string "class"), ("class", t.toJson)]
  | .ofMethod t name desc =>
    .object [("kind", .string "method"), ("class", t.toJson), ("name", .string name),
      ("desc", .string desc)]

def decode (spelling : Json.Spelling) (v : Json) : Option TypeVariableOwner := do
  let (kind, rest) ← v.tagged? spelling "kind" ["class", "method"]
  match kind with
  | "class" => do
      let ms ← rest.members? ["class"] 1
      return .ofClass (← ms.required "class" TypeName.ofJson?)
  | "method" => do
      let ms ← rest.members? ["class", "name", "desc"] 3
      let type ← ms.required "class" TypeName.ofJson?
      let name ← ms.required "name" Json.string?
      let desc ← ms.required "desc" Json.string?
      return .ofMethod type name desc
  | _ => none

def ofJson? (v : Json) : Option TypeVariableOwner := decode .plain v

end TypeVariableOwner

namespace TypeVariable

def toJson (v : TypeVariable) : Json :=
  .object [("name", .string v.name), ("owner", v.owner.toJson)]

def decode (spelling : Json.Spelling) (v : Json) : Option TypeVariable := do
  let ms ← v.members? ["name", "owner"] 2
  let name ← ms.required "name" Json.string?
  let owner ← ms.required "owner" (TypeVariableOwner.decode spelling)
  return { name, owner }

end TypeVariable

namespace TypeHead

/-- An object with one member, whose key tells a type from a variable. -/
def toJson : TypeHead → Json
  | .named t => .object [("plain", t.toJson)]
  | .var v => .object [("var", v.toJson)]

def decode (spelling : Json.Spelling) (v : Json) : Option TypeHead := do
  let (key, value) ← v.keyed?
  match key with
  | "plain" => (TypeName.ofJson? value).map .named
  | "var" => (TypeVariable.decode spelling value).map .var
  | _ => none

end TypeHead

namespace Variance

def names : List (String × Variance) :=
  [("exact", .invariant), ("extends", .covariant), ("super", .contravariant), ("unbounded", .any)]

def name : Variance → String
  | .invariant => "exact"
  | .covariant => "extends"
  | .contravariant => "super"
  | .any => "unbounded"

end Variance

namespace TypeSignature

mutual
def toJson : TypeSignature → Json
  | ⟨head, variance, depth, args⟩ =>
    .object [("arg", head.toJson), ("bound", .string variance.name), ("array_depth", .nat depth.toNat),
      ("args", .array (listToJson args))]
termination_by structural s => s
def listToJson : List TypeSignature → List Json
  | [] => []
  | s :: ss => s.toJson :: listToJson ss
termination_by structural ss => ss
end

def decode (spelling : Json.Spelling) : (fuel : Nat) → Json → Option TypeSignature
  | 0, _ => none
  | fuel + 1, v => do
      let ms ← v.members? ["arg", "bound", "array_depth", "args"] 1
      let head ← ms.required "arg" (TypeHead.decode spelling)
      let variance ← ms.defaulted "bound" (Json.choice? spelling Variance.names) .invariant
      let depth ← ms.defaulted "array_depth" Json.uint32? 0
      let args ← ms.defaulted "args" (Json.list? (decode spelling fuel)) []
      return ⟨head, variance, depth, args⟩

def ofJson? (v : Json) : Option TypeSignature := decode .plain v.decodeFuel v

end TypeSignature

namespace FormalParameter

def toJson (p : FormalParameter) : Json :=
  .object [("name", .string p.name), ("bound", .option TypeSignature.toJson p.bound),
    ("interface_bounds", .list TypeSignature.toJson p.interfaceBounds)]

def decode (spelling : Json.Spelling) (v : Json) : Option FormalParameter := do
  let ms ← v.members? ["name", "bound", "interface_bounds"] 2
  let signature := fun (w : Json) => TypeSignature.decode spelling w.decodeFuel w
  let name ← ms.required "name" Json.string?
  let bound ← ms.optional "bound" signature
  let interfaceBounds ← ms.defaulted "interface_bounds" (Json.list? signature) []
  return { name, bound, interfaceBounds }

/-- Read a list of parameters, or of names of parameters without bounds. -/
def listOfJson? (v : Json) : Option (List FormalParameter) :=
  match v.list? Json.string? with
  | some names => some (names.map fun n => { name := n })
  | none => v.list? (decode .kept)

end FormalParameter

namespace ScopeFrame

def ofJson? (v : Json) : Option ScopeFrame := do
  let ms ← v.members? ["owner", "parameters"] 2
  let owner ← ms.required "owner" TypeVariableOwner.ofJson?
  let parameters ← ms.required "parameters" FormalParameter.listOfJson?
  return { owner, parameters }

end ScopeFrame

namespace ClassSignature

def toJson (s : ClassSignature) : Json :=
  .object [("type_parameters", .list FormalParameter.toJson s.parameters),
    ("superclass", .option TypeSignature.toJson s.superclass),
    ("interfaces", .list TypeSignature.toJson s.interfaces)]

end ClassSignature

namespace MethodSignature

def toJson (s : MethodSignature) : Json :=
  .object [("type_parameters", .list FormalParameter.toJson s.typeParameters),
    ("parameters", .list TypeSignature.toJson s.parameters),
    ("return_type", s.returnType.toJson),
    ("exceptions", .list TypeSignature.toJson s.exceptions)]

end MethodSignature

end ClassAtlas
