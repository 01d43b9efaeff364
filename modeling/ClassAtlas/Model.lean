import ClassAtlas.CallGraph
import ClassAtlas.Provenance
import ClassAtlas.Settings
import ClassAtlas.Signature.Resolver
import ClassAtlas.Text.Pattern.Automaton

/-! # The model

Everything that actions read and build. An operation on a model that fails keeps what it did before,
so results are an error or a value together with the model afterwards.
-/

namespace ClassAtlas

/-- Work that is done once and remembered. -/
structure Caches where
  resolver : SignatureResolver := {}
  /-- Automata by the text of their patterns. -/
  patterns : List (String × Text.Automaton) := []
  deriving Inhabited

namespace Caches

def resolve {α : Type} (f : SignatureResolver → α × SignatureResolver) (c : Caches) : α × Caches :=
  let (a, r) := f c.resolver
  (a, { c with resolver := r })

def pattern (text : String) (c : Caches) : Except ModelError Text.Automaton × Caches :=
  match Ordered.get? text c.patterns with
  | some a => (.ok a, c)
  | none =>
    match Text.Automaton.ofText? text with
    | none => (.error (.invalidPattern text), c)
    | some a => (.ok a, { c with patterns := c.patterns ++ [(text, a)] })

def declaredClass? (ix : ElementIndex) (id : ElementId) (c : Caches) : Option TypeName × Caches :=
  c.resolve fun r =>
    match r.declaredType ix id with
    | (none, r) => (none, r)
    | (some s, r) =>
      let (t, r) := r.erasure ix.classes s
      (some t, r)

end Caches

/-- Elements of classes, the entities among them and why they are there. -/
structure Model where
  settings : Settings := {}
  index : ElementIndex
  caches : Caches := {}
  entities : EntityStore := {}
  provenance : Provenance := {}
  scanner : CallScanner := {}
  deriving Inhabited

abbrev ModelM := ExceptT ModelError (StateM Model)

namespace Model

def ofClasses (settings : Settings) (classes : List ClassDeclaration) : Model :=
  { settings := settings, index := .ofClasses classes,
    scanner := { followLambdas := settings.followLambdas } }

/-- Everything an element comes from, nearest first. -/
def ancestors (m : Model) (id : ElementId) : List ElementId := m.provenance.ancestors m.index id

/-- The entity of a type that the element, or else the nearest element it comes from, has. -/
def enclosingEntity? (m : Model) (id : ElementId) (type : EntityType) : Option Entity :=
  (id :: m.ancestors id).findSome? fun e => (m.entities.find? e).filter (·.type == type)

/-- The entities of a type whose elements come from an element. -/
def descendants (m : Model) (type : EntityType) (anchor : ElementId) : List EntityId :=
  ((m.entities.ofType type).filter fun e => (m.ancestors e.element).contains anchor).map (·.id)

def onIndex {α : Type} (f : ElementIndex → α × ElementIndex) : ModelM α := fun m =>
  let (a, ix) := f m.index
  (.ok a, { m with index := ix })

/-- Apply a function of the remembered work, which sees index and entities. -/
def onCaches {α : Type}
    (f : ElementIndex → EntityStore → Caches → Except ModelError α × Caches) : ModelM α := fun m =>
  let (a, c) := f m.index m.entities m.caches
  (a, { m with caches := c })

def onResolver {α : Type} (f : ElementIndex → SignatureResolver → α × SignatureResolver) :
    ModelM α := fun m =>
  let (a, c) := m.caches.resolve (f m.index)
  (.ok a, { m with caches := c })

end Model

end ClassAtlas
