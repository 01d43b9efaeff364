import ClassAtlas.Pipeline.Execution

/-! # Running pipelines -/

namespace ClassAtlas

structure RunResult where
  pipeline : String
  elements : ElementIndex
  entities : EntityStore
  provenance : Provenance
  measurements : List Measurement
  signatureFallbacks : Nat
  deriving Inhabited

structure RunFailure where
  error : ModelError
  /-- The actions under way, outermost first. -/
  action : String
  measurements : List Measurement
  provenance : Provenance
  deriving Inhabited

namespace RunResult

/-- Why an element is part of the model, a line for each element it comes from. -/
def explain (r : RunResult) (id : ElementId) : List String := r.provenance.explain r.elements id

end RunResult

namespace RunFailure

def message (f : RunFailure) : String := "pipeline failed in `" ++ f.action ++ "`: " ++ f.error.message

end RunFailure

namespace Pipeline

def run (settings : Settings) (classes : List ClassDeclaration) (p : Pipeline) :
    Except RunFailure RunResult :=
  match p.action.execute .template (.ofClasses settings classes) with
  | (.ok _, e) =>
    .ok
      { pipeline := p.name
        elements := e.model.index
        entities := e.model.entities
        provenance := e.model.provenance
        measurements := e.recorder.finish
        signatureFallbacks := e.model.caches.resolver.fallbacks }
  | (.error error, e) =>
    .error
      { error := error
        action := " > ".intercalate e.path
        measurements := e.fail.recorder.finish
        provenance := e.model.provenance }

end Pipeline

end ClassAtlas
