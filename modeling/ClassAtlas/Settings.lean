import ClassAtlas.Json.Decode

/-! # Settings of a run -/

namespace ClassAtlas

structure Settings where
  /-- Methods captured by dynamic calls count as called. -/
  followLambdas : Bool := true
  /-- Record what every action does. -/
  recordMeasurements : Bool := true
  /-- Associating a child that has no parent is an error and not left out. -/
  strictRelations : Bool := true
  deriving Repr, DecidableEq, Inhabited

namespace Settings

def toJson (s : Settings) : Json :=
  .object [("follow_lambdas", .bool s.followLambdas),
    ("record_measurements", .bool s.recordMeasurements), ("strict_relations", .bool s.strictRelations)]

/-- Read settings; each is on unless given. -/
def ofJson? (v : Json) : Option Settings := do
  let ms ← v.members? ["follow_lambdas", "record_measurements", "strict_relations"] 0
  let followLambdas ← ms.defaulted "follow_lambdas" Json.bool? true
  let recordMeasurements ← ms.defaulted "record_measurements" Json.bool? true
  let strictRelations ← ms.defaulted "strict_relations" Json.bool? true
  return { followLambdas, recordMeasurements, strictRelations }

end Settings

end ClassAtlas
