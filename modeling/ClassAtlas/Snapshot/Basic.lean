import ClassAtlas.Entity.Basic
import ClassAtlas.Measurement

/-! # Snapshots

The document that a run is written to: its entities and their relations, with figures and
measurements.
-/

namespace ClassAtlas

structure EntityRecord where
  id : EntityId
  type : EntityType
  label : String
  element : ElementId
  /-- The element belongs to a class that was made up. -/
  synthetic : Bool := false
  /-- Sorted by name. -/
  properties : List (String × List PropertyValue) := []
  /-- The children by key, sorted by key. -/
  children : List (String × List EntityId) := []
  deriving Repr, DecidableEq, Inhabited

structure RelationRecord where
  source : EntityId
  target : EntityId
  key : String
  deriving Repr, DecidableEq, Inhabited

structure Snapshot where
  version : String := "1.0"
  /-- What the snapshot is of, sorted by name. -/
  metadata : List (String × Json) := []
  stats : List (String × Json) := []
  entities : List EntityRecord := []
  relations : List RelationRecord := []
  /-- Empty when none were recorded. -/
  measurements : List Measurement := []
  deriving Repr, Inhabited

namespace EntityRecord

def toJson (e : EntityRecord) : Json :=
  .object [("id", e.id.toJson), ("type", .string e.type), ("label", .string e.label),
    ("element", e.element.toJson), ("synthetic", .bool e.synthetic),
    ("properties", .map (.list PropertyValue.toJson) e.properties),
    ("children", .map (.list EntityId.toJson) e.children)]

def ofJson? (v : Json) : Option EntityRecord := do
  let ms ← v.members? ["id", "type", "label", "element", "synthetic", "properties", "children"] 4
  let id ← ms.required "id" EntityId.ofJson?
  let type ← ms.required "type" Json.string?
  let label ← ms.required "label" Json.string?
  let element ← ms.required "element" ElementId.ofJson?
  let synthetic ← ms.defaulted "synthetic" Json.bool? false
  let properties ← ms.defaulted "properties" (Json.map? (Json.list? PropertyValue.ofJson?)) []
  let children ← ms.defaulted "children" (Json.map? (Json.list? EntityId.ofJson?)) []
  return { id, type, label, element, synthetic, properties, children }

end EntityRecord

namespace RelationRecord

def toJson (r : RelationRecord) : Json :=
  .object [("source", r.source.toJson), ("target", r.target.toJson), ("key", .string r.key)]

def ofJson? (v : Json) : Option RelationRecord := do
  let ms ← v.members? ["source", "target", "key"] 3
  let source ← ms.required "source" EntityId.ofJson?
  let target ← ms.required "target" EntityId.ofJson?
  let key ← ms.required "key" Json.string?
  return { source, target, key }

end RelationRecord

namespace Snapshot

def toJson (s : Snapshot) : Json :=
  .object [("version", .string s.version), ("metadata", .object s.metadata), ("stats", .object s.stats),
    ("entities", .list EntityRecord.toJson s.entities),
    ("relations", .list RelationRecord.toJson s.relations),
    ("measurements", .list Measurement.toJson s.measurements)]

/-- Any value, as a map where it is an object. -/
def figure? (v : Json) : Option Json := some v.canonical

def ofJson? (v : Json) : Option Snapshot := do
  let ms ← v.members? ["version", "metadata", "stats", "entities", "relations", "measurements"] 0
  let version ← ms.defaulted "version" Json.string? "1.0"
  let metadata ← ms.defaulted "metadata" (Json.map? figure?) []
  let stats ← ms.defaulted "stats" (Json.map? figure?) []
  let entities ← ms.defaulted "entities" (Json.list? EntityRecord.ofJson?) []
  let relations ← ms.defaulted "relations" (Json.list? RelationRecord.ofJson?) []
  let measurements ← ms.defaulted "measurements" (Json.list? Measurement.ofJson?) []
  return { version, metadata, stats, entities, relations, measurements }

end Snapshot

end ClassAtlas
