import ClassAtlas.ClassFile.Declaration
import ClassAtlas.Entity.Basic

/-! # Predicates

Tests on elements, as pipelines write them.
-/

namespace ClassAtlas

inductive Predicate where
  /-- A pattern is found in the element's name. -/
  | name (pattern : String)
  /-- Every one of the access flags is set. -/
  | modifiers (flags : Access)
  | annotatedBy (type : TypeName)
  /-- The element's class has this supertype. -/
  | implements (type : TypeName)
  /-- The element's declared type erases to this class. -/
  | typeIs (type : TypeName)
  /-- The element has an entity, of this type if one is given. -/
  | hasEntity (type : Option EntityType)
  | synthetic
  | negation (predicate : Predicate)
  | all (predicates : List Predicate)
  | any (predicates : List Predicate)
  deriving Repr, BEq, Inhabited

namespace Predicate

mutual
def toJson : Predicate → Json
  | .name pattern => .object [("test", .string "name"), ("pattern", .string pattern)]
  | .modifiers flags => .object [("test", .string "modifiers"), ("flags", Access.toJson flags)]
  | .annotatedBy type => .object [("test", .string "annotated_by"), ("annotation", type.toJson)]
  | .implements type => .object [("test", .string "implements"), ("type_name", type.toJson)]
  | .typeIs type => .object [("test", .string "type_is"), ("type_name", type.toJson)]
  | .hasEntity type => .object [("test", .string "has_entity"), ("entity", .option .string type)]
  | .synthetic => .object [("test", .string "synthetic")]
  | .negation p => .object [("test", .string "not"), ("predicate", p.toJson)]
  | .all ps => .object [("test", .string "all"), ("predicates", .array (listToJson ps))]
  | .any ps => .object [("test", .string "any"), ("predicates", .array (listToJson ps))]
termination_by structural p => p
def listToJson : List Predicate → List Json
  | [] => []
  | p :: ps => p.toJson :: listToJson ps
termination_by structural ps => ps
end

def names : List String :=
  ["name", "modifiers", "annotated_by", "implements", "type_is", "has_entity", "synthetic", "not",
    "all", "any"]

def decode : (fuel : Nat) → Json.Spelling → Json → Option Predicate
  | 0, _, _ => none
  | fuel + 1, spelling, v => do
      let (test, rest) ← v.tagged? spelling "test" names
      match test with
      | "name" => do
          let ms ← rest.members? ["pattern"] 1
          return .name (← ms.required "pattern" Json.string?)
      | "modifiers" => do
          let ms ← rest.members? ["flags"] 1
          return .modifiers (← ms.required "flags" Json.uint32?)
      | "annotated_by" => do
          let ms ← rest.members? ["annotation"] 1
          return .annotatedBy (← ms.required "annotation" TypeName.ofJson?)
      | "implements" => do
          let ms ← rest.members? ["type_name"] 1
          return .implements (← ms.required "type_name" TypeName.ofJson?)
      | "type_is" => do
          let ms ← rest.members? ["type_name"] 1
          return .typeIs (← ms.required "type_name" TypeName.ofJson?)
      | "has_entity" => do
          let ms ← rest.members? ["entity"] 0
          return .hasEntity (← ms.optional "entity" Json.string?)
      | "synthetic" => rest.bare? .synthetic
      | "not" => do
          let ms ← rest.members? ["predicate"] 1
          return .negation (← ms.required "predicate" (decode fuel .setAside))
      | "all" => do
          let ms ← rest.members? ["predicates"] 1
          return .all (← ms.required "predicates" (Json.list? (decode fuel .setAside)))
      | "any" => do
          let ms ← rest.members? ["predicates"] 1
          return .any (← ms.required "predicates" (Json.list? (decode fuel .setAside)))
      | _ => none

def ofJson? (v : Json) : Option Predicate := decode v.decodeFuel .plain v

end Predicate

end ClassAtlas
