import ClassAtlas.Pipeline.Action
import ClassAtlas.Pipeline.Evaluation
import ClassAtlas.Pipeline.Scope
import ClassAtlas.Pipeline.Test

/-! # Steps on a model

What the steps of a pipeline do. A step gets a scope and gives the next one.
-/

namespace ClassAtlas

namespace Step

def gather (f : ElementId → ElementIndex → List ElementId × ElementIndex) :
    List ElementId → ElementIndex → List ElementId × ElementIndex
  | [], ix => ([], ix)
  | id :: ids, ix =>
    let (found, ix) := f id ix
    let (rest, ix) := gather f ids ix
    (found ++ rest, ix)

def annotationsOfType (type : Option TypeName) (id : ElementId) (ix : ElementIndex) :
    List ElementId × ElementIndex :=
  let (found, ix) := ix.annotations id
  match type with
  | none => (found, ix)
  | some t => (found.filter fun a => (ix.annotationAt? a).bind (·.typeName?) == some t, ix)

def declaredSignature (id : ElementId) : ModelM (List ElementId) := do
  match ← Model.onResolver fun ix => SignatureResolver.declaredType ix id with
  | none => return []
  | some s => return [← Model.onIndex (·.internSignature id .declared s)]

def internArguments (owner : ElementId) : (i : Nat) → List TypeSignature → ElementIndex →
    List ElementId × ElementIndex
  | _, [], ix => ([], ix)
  | i, s :: rest, ix =>
    let (id, ix) := ix.internSignature owner (.argument i) s
    let (ids, ix) := internArguments owner (i + 1) rest ix
    (id :: ids, ix)

def argumentsOf (id : ElementId) (ix : ElementIndex) : List ElementId × ElementIndex :=
  match ix.get? id with
  | some (.signature _ type) => internArguments id 0 type.args ix
  | _ => ([], ix)

/-- The class of a name, made up if it is asked for and no primitive. -/
def classNamed (create : Bool) (t : TypeName) (ix : ElementIndex) : Option ElementId × ElementIndex :=
  match ix.classByName? t with
  | some id => (some id, ix)
  | none =>
    if create && !t.isPrimitive then
      let (id, ix) := ix.synthesizeClass t []
      (some id, ix)
    else (none, ix)

/-- The class of an element's declared type, caused by the element. -/
def explode (create : Bool) (id : ElementId) : ModelM (List ElementId) := do
  match ← Model.onResolver fun ix => SignatureResolver.declaredType ix id with
  | none => return []
  | some s =>
    match ← Model.onResolver fun ix => SignatureResolver.concreteClass ix.classes s with
    | .error e => throw (.signature e)
    | .ok t =>
      match ← Model.onIndex (classNamed create t) with
      | none => return []
      | some c =>
        modify fun m => { m with provenance := m.provenance.record c id }
        return [c]

def collect (f : ElementId → ModelM (List ElementId)) : List ElementId → ModelM (List ElementId)
  | [] => return []
  | id :: ids => do
      let found ← f id
      let rest ← collect f ids
      return found ++ rest

def onEach (f : ElementId → ModelM Unit) : List ElementId → ModelM Unit
  | [] => return ()
  | id :: ids => do
      f id
      onEach f ids

/-- The nearest elements of a kind that the elements come from. -/
def ascendFrom (m : Model) (kind : ScopeKind) (ids : List ElementId) : List ElementId :=
  ids.filterMap fun id => (m.ancestors id).find? fun a => (m.index.kind? a).map .elements == some kind

/-- Give an element an entity. A new entity without a template has the element's label. -/
def registerAs (type : EntityType) (template : Option String) (specs : List PropertySpec)
    (id : ElementId) : ModelM Unit := do
  match (← get).index.kind? id with
  | none => throw (.unknownElement id)
  | some kind =>
    let properties ← PropertySpec.evaluate specs id
    let m ← get
    let label := match template with
      | some t => some (LabelTemplate.labelOf m.index id properties t)
      | none => if (m.entities.find? id).isNone then some (m.index.label id) else none
    let (_, entities) ← m.entities.register type id kind label properties
    set { m with entities := entities }

/-- Extend the entity that encloses an element by properties of the element. -/
def updateFrom (type : EntityType) (template : Option String) (specs : List PropertySpec)
    (id : ElementId) : ModelM Unit := do
  match (← get).enclosingEntity? id type with
  | none => throw (.entityNotFound id)
  | some target =>
    let properties ← PropertySpec.evaluate specs id
    let m ← get
    let label := template.map (LabelTemplate.labelOf m.index id properties)
    set { m with entities := (m.entities.update target.id label properties).2 }

/-- The pairs of parent and child that an element gives. Both enclose it, or one does and the others
come from that one's element. -/
def associationPairs (m : Model) (parent : EntityType) (key : String) (child : EntityType)
    (id : ElementId) : Except ModelError (List (EntityId × EntityId)) :=
  match m.enclosingEntity? id parent, m.enclosingEntity? id child with
  | some p, some c => .ok [(p.id, c.id)]
  | some p, none => .ok ((m.descendants child p.element).map (p.id, ·))
  | none, some c =>
    let parents := m.descendants parent c.element
    if parents.isEmpty && m.settings.strictRelations then
      .error (.failedToResolveParentRelation parent key child)
    else .ok (parents.map (·, c.id))
  | none, none => .ok []

def linkPairs (key : String) (pairs : List (EntityId × EntityId)) (store : EntityStore) : EntityStore :=
  pairs.foldl (fun s (p, c) => if p = c then s else (s.addChild p key c).2) store

def associateAt (parent : EntityType) (key : String) (child : EntityType) (id : ElementId) :
    ModelM Unit := do
  let m ← get
  let pairs ← associationPairs m parent key child id
  set { m with entities := linkPairs key pairs m.entities }

def synthesizeAll : List SynthesisTarget → ElementIndex → List ElementId × ElementIndex
  | [], ix => ([], ix)
  | t :: ts, ix =>
    let (id, ix) := ix.synthesizeClass t.type t.methods
    let (ids, ix) := synthesizeAll ts ix
    (id :: ids, ix)

def relateTypes (kind : RelationKind) (source target : EntityType) (key : Option String)
    (backtrack : Bool) (m : Model) : Nat × Model :=
  let (count, entities, scanner) :=
    m.scanner.relate m.index kind source target (key.getD kind.name) backtrack m.entities
  (count, { m with entities := entities, scanner := scanner })

def apply (scope : Scope) : Step → ModelM Scope
  | .identity => return scope
  | .classes => do
      scope.expectTemplate
      return .ofKind .classDef (← get).index.classIds
  | .elementsOf type => do
      let m ← get
      return .ofIds (((m.entities.kindOf? type).map .elements).getD .unresolved)
        ((m.entities.ofType type).map (·.element))
  | .methods inherited => do
      let ids ← scope.expect [.elements .classDef]
      return .ofKind .method (← Model.onIndex (gather (fun id => ElementIndex.methods id inherited) ids))
  | .fields inherited => do
      let ids ← scope.expect [.elements .classDef]
      return .ofKind .field (← Model.onIndex (gather (fun id => ElementIndex.fields id inherited) ids))
  | .parameters => do
      let ids ← scope.expect [.elements .method]
      return .ofKind .parameter (← Model.onIndex (gather ElementIndex.parameters ids))
  | .annotations type => do
      let ids ← scope.expect
        [.elements .classDef, .elements .field, .elements .method, .elements .parameter]
      return .ofKind .annotationUse (← Model.onIndex (gather (annotationsOfType type) ids))
  | .signature => do
      let ids ← scope.expect [.elements .field, .elements .parameter, .elements .method]
      return .ofKind .signature (← collect declaredSignature ids)
  | .typeArguments => do
      let ids ← scope.expect [.elements .signature]
      return .ofKind .signature (← Model.onIndex (gather argumentsOf ids))
  | .explodeType create => do
      let ids ← scope.expect [.elements .field, .elements .parameter, .elements .method,
        .elements .signature, .elements .annotationUse, .elements .value]
      return .ofKind .classDef (← collect (explode create) ids)
  | .ascend kind => do
      let ids ← scope.expectElements
      return .ofIds kind (ascendFrom (← get) kind ids)
  | .filter predicate => do
      let ids ← scope.expectElements
      let (passed, _) ← predicate.splitIn ids
      return .ofIds scope.kind passed
  | .registerEntity type label properties => do
      let ids ← scope.expectElements
      onEach (registerAs type label properties) ids
      return scope
  | .updateEntity type label properties => do
      let ids ← scope.expectElements
      onEach (updateFrom type label properties) ids
      return scope
  | .associate parent key child => do
      let ids ← scope.expectElements
      onEach (associateAt parent key child) ids
      return scope
  | .synthesize targets => do
      scope.expectTemplate
      return .ofKind .classDef (← Model.onIndex (synthesizeAll targets))
  | .relate kind source target key backtrack => do
      modify fun m => (relateTypes kind source target key backtrack m).2
      return scope

end Step

end ClassAtlas
