import ClassAtlas.Json.Reader
import ClassAtlas.Json.Writer
import ClassAtlas.Pipeline.Action

/-! # Pipelines in documents

An action is a record tagged with its name. Its text form is indented, and reading accepts members
in any order.
-/

namespace ClassAtlas

namespace SynthesisTarget

def toJson (t : SynthesisTarget) : Json :=
  .object [("type_name", t.type.toJson), ("methods", .list .string t.methods)]

def ofJson? (v : Json) : Option SynthesisTarget := do
  let ms ← v.members? ["type_name", "methods"] 1
  let type ← ms.required "type_name" TypeName.ofJson?
  let methods ← ms.defaulted "methods" (Json.list? Json.string?) []
  return { type, methods }

end SynthesisTarget

namespace Step

def record (name : String) (members : List (String × Json)) : Json :=
  .object (("action", .string name) :: members)

def entityRecord (name : String) (type : EntityType) (label : Option String)
    (properties : List PropertySpec) : Json :=
  record name [("entity", .string type), ("label", .option .string label),
    ("properties", .list PropertySpec.toJson properties)]

def toJson : Step → Json
  | .identity => record "identity" []
  | .classes => record "classes" []
  | .elementsOf type => record "elements_of" [("entity", .string type)]
  | .methods inherited => record "methods" [("inherited", .bool inherited)]
  | .fields inherited => record "fields" [("inherited", .bool inherited)]
  | .parameters => record "parameters" []
  | .annotations type => record "annotations" [("annotation", .option TypeName.toJson type)]
  | .signature => record "signature" []
  | .typeArguments => record "type_arguments" []
  | .explodeType create => record "explode_type" [("synthesize", .bool create)]
  | .ascend kind => record "ascend" [("kind", kind.toJson)]
  | .filter predicate => record "filter" [("predicate", predicate.toJson)]
  | .registerEntity type label properties => entityRecord "register_entity" type label properties
  | .updateEntity type label properties => entityRecord "update_entity" type label properties
  | .associate parent key child =>
    record "associate" [("parent", .string parent), ("key", .string key), ("child", .string child)]
  | .synthesize targets => record "synthesize" [("targets", .list SynthesisTarget.toJson targets)]
  | .relate kind source target key backtrack =>
    record "relate" [("kind", .string kind.name), ("source", .string source),
      ("target", .string target), ("key", .option .string key), ("backtrack", .bool backtrack)]

def entityMembers? (v : Json) : Option (EntityType × Option String × List PropertySpec) := do
  let ms ← v.members? ["entity", "label", "properties"] 1
  let type ← ms.required "entity" Json.string?
  let label ← ms.optional "label" Json.string?
  let properties ← ms.defaulted "properties" (Json.list? (PropertySpec.decode .setAside)) []
  return (type, label, properties)

/-- Read a member that is off unless given. -/
def switch? (name : String) (v : Json) : Option Bool := do
  let ms ← v.members? [name] 0
  ms.defaulted name Json.bool? false

def predicate? (v : Json) : Option Predicate := Predicate.decode v.decodeFuel .setAside v

def ofMembers? (name : String) (v : Json) : Option Step :=
  match name with
  | "identity" => v.bare? .identity
  | "classes" => v.bare? .classes
  | "elements_of" => do
      let ms ← v.members? ["entity"] 1
      return .elementsOf (← ms.required "entity" Json.string?)
  | "methods" => (switch? "inherited" v).map .methods
  | "fields" => (switch? "inherited" v).map .fields
  | "parameters" => v.bare? .parameters
  | "annotations" => do
      let ms ← v.members? ["annotation"] 0
      return .annotations (← ms.optional "annotation" TypeName.ofJson?)
  | "signature" => v.bare? .signature
  | "type_arguments" => v.bare? .typeArguments
  | "explode_type" => (switch? "synthesize" v).map .explodeType
  | "ascend" => do
      let ms ← v.members? ["kind"] 1
      return .ascend (← ms.required "kind" (ScopeKind.decode .setAside))
  | "filter" => do
      let ms ← v.members? ["predicate"] 1
      return .filter (← ms.required "predicate" predicate?)
  | "register_entity" => (entityMembers? v).map fun (type, label, ps) => .registerEntity type label ps
  | "update_entity" => (entityMembers? v).map fun (type, label, ps) => .updateEntity type label ps
  | "associate" => do
      let ms ← v.members? ["parent", "key", "child"] 3
      let parent ← ms.required "parent" Json.string?
      let key ← ms.required "key" Json.string?
      let child ← ms.required "child" Json.string?
      return .associate parent key child
  | "synthesize" => do
      let ms ← v.members? ["targets"] 1
      return .synthesize (← ms.required "targets" (Json.list? SynthesisTarget.ofJson?))
  | "relate" => do
      let ms ← v.members? ["kind", "source", "target", "key", "backtrack"] 3
      let kind ← ms.required "kind" (Json.choice? .setAside RelationKind.names)
      let source ← ms.required "source" Json.string?
      let target ← ms.required "target" Json.string?
      let key ← ms.optional "key" Json.string?
      let backtrack ← ms.defaulted "backtrack" Json.bool? false
      return .relate kind source target key backtrack
  | _ => none

end Step

namespace Action

mutual
def toJson : Action → Json
  | .step s => s.toJson
  | .chain actions => Step.record "chain" [("actions", .array (listToJson actions))]
  | .compose first second =>
    Step.record "compose" [("first", first.toJson), ("second", second.toJson)]
  | .fork predicate onMatch otherwise =>
    Step.record "fork" [("predicate", predicate.toJson), ("then", onMatch.toJson),
      ("otherwise", optionToJson otherwise)]
  | .nested body => Step.record "nested" [("body", body.toJson)]
  | .outerScope kind body =>
    Step.record "outer_scope" [("kind", kind.toJson), ("body", body.toJson)]
termination_by structural a => a
def listToJson : List Action → List Json
  | [] => []
  | a :: rest => a.toJson :: listToJson rest
termination_by structural actions => actions
def optionToJson : Option Action → Json
  | none => .null
  | some a => a.toJson
termination_by structural a => a
end

def names : List String :=
  ["chain", "compose", "fork", "nested", "identity", "classes", "elements_of", "methods", "fields",
    "parameters", "annotations", "signature", "type_arguments", "explode_type", "outer_scope",
    "ascend", "filter", "register_entity", "update_entity", "associate", "synthesize", "relate"]

def decode : (fuel : Nat) → Json.Spelling → Json → Option Action
  | 0, _, _ => none
  | fuel + 1, spelling, v => do
      let (name, rest) ← v.tagged? spelling "action" names
      match name with
      | "chain" => do
          let ms ← rest.members? ["actions"] 1
          return .chain (← ms.required "actions" (Json.list? (decode fuel .setAside)))
      | "compose" => do
          let ms ← rest.members? ["first", "second"] 2
          let first ← ms.required "first" (decode fuel .setAside)
          let second ← ms.required "second" (decode fuel .setAside)
          return .compose first second
      | "fork" => do
          let ms ← rest.members? ["predicate", "then", "otherwise"] 2
          let predicate ← ms.required "predicate" Step.predicate?
          let onMatch ← ms.required "then" (decode fuel .setAside)
          let otherwise ← ms.optional "otherwise" (decode fuel .setAside)
          return .fork predicate onMatch otherwise
      | "nested" => do
          let ms ← rest.members? ["body"] 1
          return .nested (← ms.required "body" (decode fuel .setAside))
      | "outer_scope" => do
          let ms ← rest.members? ["kind", "body"] 2
          let kind ← ms.required "kind" (ScopeKind.decode .setAside)
          let body ← ms.required "body" (decode fuel .setAside)
          return .outerScope kind body
      | _ => (Step.ofMembers? name rest).map .step

def ofJson? (v : Json) : Option Action := decode v.decodeFuel .plain v

end Action

namespace Pipeline

def toJson (p : Pipeline) : Json := .object [("name", .string p.name), ("action", p.action.toJson)]

def memberNames : List String := ["name", "action"]

def ofJson? (v : Json) : Option Pipeline := do
  let ms ← v.members? memberNames 2
  let name ← ms.required "name" Json.string?
  let action ← ms.required "action" Action.ofJson?
  return { name, action }

def toText (p : Pipeline) : String := p.toJson.pretty

/-- Read a pipeline's text. Members of other names are not looked at. -/
def ofText (text : String) : Except ModelError Pipeline :=
  match (Json.readRecord? memberNames text).bind ofJson? with
  | some p => .ok p
  | none => .error .serialization

end Pipeline

end ClassAtlas
