import ClassAtlas.Pipeline.Run
import ClassAtlas.Snapshot.Basic

/-! # The snapshot of a run -/

namespace ClassAtlas

def coreVersion : String := "1.0.0"

namespace EntityRecord

/-- The record of an entity. Of a property that was given twice, the last list counts. -/
def ofEntity (store : EntityStore) (e : Entity) : EntityRecord :=
  { id := e.id
    type := e.type
    label := e.label
    element := e.element
    synthetic := e.element.isSynthetic
    properties := Ordered.byName e.properties
    children := store.children e.id }

end EntityRecord

namespace RunResult

def countsByType (r : RunResult) : List (String × Json) :=
  r.entities.types.map fun t => (t, .nat (r.entities.ofType t).length)

def stats (r : RunResult) : List (String × Json) :=
  Ordered.byName
    [("elements", .nat r.elements.size),
      ("synthetic_elements", .nat r.elements.synthetic.length),
      ("entities", .nat r.entities.size),
      ("entities_by_type", .object r.countsByType),
      ("relations", .nat r.entities.relations.length),
      ("signature_fallbacks", .nat r.signatureFallbacks)]

def snapshot (r : RunResult) : Snapshot :=
  { metadata := [("core_version", .string coreVersion), ("pipeline", .string r.pipeline)]
    stats := r.stats
    entities := r.entities.entities.map (.ofEntity r.entities)
    relations := r.entities.relations.map fun e => ⟨e.parent, e.child, e.key⟩
    measurements := r.measurements }

end RunResult

end ClassAtlas
