import ClassAtlas.Measurement
import ClassAtlas.Pipeline.Step

/-! # Executing actions

Actions run on a model while a journal notes which actions are under way and what each did. An
action that fails stays in the journal, so that the path to the failure can be shown.
-/

namespace ClassAtlas

structure Execution where
  model : Model
  /-- Descriptions of the actions under way, outermost first. -/
  path : List String := []
  recorder : MeasurementRecorder := {}
  deriving Inhabited

abbrev ExecutionM := ExceptT ModelError (StateM Execution)

namespace Execution

def ofClasses (settings : Settings) (classes : List ClassDeclaration) : Execution :=
  { model := .ofClasses settings classes, recorder := { enabled := settings.recordMeasurements } }

def entityCount (e : Execution) : Nat := e.model.entities.size

def enter (description : String) (scope : Scope) (e : Execution) : Execution :=
  { e with
    path := e.path ++ [description]
    recorder := e.recorder.begin description scope.kind scope.size e.entityCount }

def leave (out : Scope) (e : Execution) : Execution :=
  { e with
    path := e.path.dropLast
    recorder := e.recorder.finishAction out.kind out.size e.entityCount }

def fail (e : Execution) : Execution := { e with recorder := e.recorder.fail e.entityCount }

def onModel {α : Type} (f : ModelM α) : ExecutionM α := fun e =>
  let (a, m) := f e.model
  (a, { e with model := m })

/-- Note an action in the journal. When it fails, the journal keeps it under way. -/
def noted (description : String) (scope : Scope) (body : ExecutionM Scope) : ExecutionM Scope := do
  modify (enter description scope)
  let out ← body
  modify (leave out)
  return out

end Execution

namespace Action

/-- Unite a scope with what an action gives for some elements, if there are any. -/
def unitedWith (out : Scope) (kind : ScopeKind) (ids : List ElementId) (run : Scope → ExecutionM Scope) :
    ExecutionM Scope :=
  if ids.isEmpty then return out
  else do
    let more ← run (.ofIds kind ids)
    return out.union more

mutual
def execute : Action → Scope → ExecutionM Scope
  | .step s, scope => Execution.noted s.describe scope (Execution.onModel (s.apply scope))
  | .chain actions, scope =>
    Execution.noted (Action.chain actions).describe scope (executeAll actions scope)
  | .compose first second, scope =>
    Execution.noted (Action.compose first second).describe scope do
      let left ← first.execute scope
      let right ← second.execute scope
      return left.union right
  | .fork predicate onMatch otherwise, scope =>
    Execution.noted (Action.fork predicate onMatch otherwise).describe scope do
      let ids ← scope.expectElements
      let (matched, rest) ← Execution.onModel (predicate.splitIn ids)
      let out ← unitedWith (.elements scope.kind []) scope.kind matched onMatch.execute
      unitedWith out scope.kind rest (executeOption otherwise)
  | .nested body, scope =>
    Execution.noted (Action.nested body).describe scope do
      let _ ← body.execute scope
      return scope
  | .outerScope kind body, scope =>
    Execution.noted (Action.outerScope kind body).describe scope do
      let outer ← Execution.onModel ((Step.ascend kind).apply scope)
      let _ ← body.execute outer
      return scope
termination_by structural a => a
def executeAll : List Action → Scope → ExecutionM Scope
  | [], scope => return scope
  | a :: rest, scope => do
      let out ← a.execute scope
      executeAll rest out
termination_by structural actions => actions
def executeOption : Option Action → Scope → ExecutionM Scope
  | none, scope => return scope
  | some a, scope => a.execute scope
termination_by structural a => a
end

end Action

end ClassAtlas
