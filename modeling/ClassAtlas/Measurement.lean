import ClassAtlas.Pipeline.ScopeKind

/-! # Measurements

A record of what a pipeline did: for every action a node with the size of its scope before and
after, and the nodes of the actions inside it below. The clock is not part of it; durations are kept
for documents that have them.
-/

namespace ClassAtlas

structure Measurement where
  action : String
  scopeIn : ScopeKind
  /-- Missing when the action failed. -/
  scopeOut : Option ScopeKind
  input : Nat
  output : Nat
  durationUs : Nat
  /-- Entities after the action less entities before it. -/
  entitiesDelta : Int
  failed : Bool
  children : List Measurement
  deriving Repr, Inhabited

namespace Measurement

mutual
/-- The actions from this node down to the innermost one that failed, following the first failed
child. -/
def failurePath? : Measurement → Option (List String)
  | ⟨action, _, _, _, _, _, _, failed, children⟩ =>
    if failed then some (action :: (firstFailure children).getD []) else none
termination_by structural m => m
/-- The path of the first node that failed. -/
def firstFailure : List Measurement → Option (List String)
  | [] => none
  | m :: ms => m.failurePath?.or (firstFailure ms)
termination_by structural ms => ms
end

mutual
def nodeCount : Measurement → Nat
  | ⟨_, _, _, _, _, _, _, _, children⟩ => 1 + totalCount children
termination_by structural m => m
def totalCount : List Measurement → Nat
  | [] => 0
  | m :: ms => m.nodeCount + totalCount ms
termination_by structural ms => ms
end

mutual
def encode (timed : Bool) : Measurement → Json
  | ⟨action, scopeIn, scopeOut, input, output, durationUs, entitiesDelta, failed, children⟩ =>
    .object ([("action", .string action), ("scope_in", scopeIn.toJson),
      ("scope_out", .option ScopeKind.toJson scopeOut), ("input", .nat input), ("output", .nat output)] ++
      (if timed then [("duration_us", .nat durationUs)] else []) ++
      [("entities_delta", .int entitiesDelta), ("failed", .bool failed),
        ("children", .array (encodeAll timed children))])
termination_by structural m => m
def encodeAll (timed : Bool) : List Measurement → List Json
  | [] => []
  | m :: ms => encode timed m :: encodeAll timed ms
termination_by structural ms => ms
end

def toJson (m : Measurement) : Json := encode true m

def decode : (fuel : Nat) → Json → Option Measurement
  | 0, _ => none
  | fuel + 1, v => do
      let ms ← v.members? ["action", "scope_in", "scope_out", "input", "output", "duration_us",
        "entities_delta", "failed", "children"] 7
      let action ← ms.required "action" Json.string?
      let scopeIn ← ms.required "scope_in" ScopeKind.ofJson?
      let scopeOut ← ms.optional "scope_out" ScopeKind.ofJson?
      let input ← ms.required "input" Json.nat?
      let output ← ms.required "output" Json.nat?
      let durationUs ← ms.required "duration_us" Json.nat?
      let entitiesDelta ← ms.required "entities_delta" Json.int64?
      let failed ← ms.defaulted "failed" Json.bool? false
      let children ← ms.defaulted "children" (Json.list? (decode fuel)) []
      return ⟨action, scopeIn, scopeOut, input, output, durationUs, entitiesDelta.toInt, failed, children⟩

def ofJson? (v : Json) : Option Measurement := decode v.decodeFuel v

end Measurement

structure OpenMeasurement where
  action : String
  scopeIn : ScopeKind
  input : Nat
  entitiesBefore : Nat
  children : List Measurement := []
  deriving Repr, Inhabited

structure MeasurementRecorder where
  enabled : Bool := true
  /-- Nodes under way, the innermost first. -/
  pending : List OpenMeasurement := []
  roots : List Measurement := []
  deriving Repr, Inhabited

namespace OpenMeasurement

/-- How many entities were added since the action began, as a signed 64-bit word. -/
def entitiesSince (o : OpenMeasurement) (entities : Nat) : Int :=
  (Int64.ofNat entities - Int64.ofNat o.entitiesBefore).toInt

def close (o : OpenMeasurement) (scopeOut : Option ScopeKind) (output entities : Nat) (failed : Bool) :
    Measurement :=
  ⟨o.action, o.scopeIn, scopeOut, o.input, output, 0, o.entitiesSince entities, failed, o.children⟩

end OpenMeasurement

namespace MeasurementRecorder

def begin (r : MeasurementRecorder) (action : String) (scopeIn : ScopeKind) (input entities : Nat) :
    MeasurementRecorder :=
  if r.enabled then { r with pending := ⟨action, scopeIn, input, entities, []⟩ :: r.pending } else r

/-- Put a closed node below the innermost node under way, or among the roots. -/
def attach (m : Measurement) : List OpenMeasurement → List Measurement →
    List OpenMeasurement × List Measurement
  | [], roots => ([], roots ++ [m])
  | p :: rest, roots => ({ p with children := p.children ++ [m] } :: rest, roots)

/-- The innermost action ends; nothing happens when none is under way. -/
def finishAction (r : MeasurementRecorder) (scopeOut : ScopeKind) (output entities : Nat) :
    MeasurementRecorder :=
  match r.pending with
  | [] => r
  | o :: rest =>
    let (pending, roots) := attach (o.close (some scopeOut) output entities false) rest r.roots
    { r with pending := pending, roots := roots }

/-- Close nodes as failed, innermost first; `closed` is the node closed before, which goes below the
next. -/
def failAll (entities : Nat) : (closed : List Measurement) → List OpenMeasurement → List Measurement
  | closed, [] => closed
  | closed, o :: rest =>
    failAll entities
      [{ o with children := o.children ++ closed }.close none 0 entities true] rest
termination_by structural _ pending => pending

def fail (r : MeasurementRecorder) (entities : Nat) : MeasurementRecorder :=
  { r with pending := [], roots := r.roots ++ failAll entities [] r.pending }

/-- The finished trees; nodes still under way are dropped. -/
def finish (r : MeasurementRecorder) : List Measurement := r.roots

end MeasurementRecorder

end ClassAtlas
