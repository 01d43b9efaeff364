import ClassAtlas.ModelError
import ClassAtlas.Ordered

/-! # The entity store

Entities and their relations. Registering is the only way an entity comes into being; registering
its element again under the same type adds to it.
-/

namespace ClassAtlas

structure EntityStore where
  /-- Each at the position of its number. -/
  entities : List Entity := []
  /-- The kind of elements that each type was first given to. -/
  typeKinds : List (EntityType × ElementKind) := []
  /-- In order of creation. -/
  edges : List Relation := []
  deriving Repr, Inhabited

namespace EntityStore

def empty : EntityStore := {}

def size (s : EntityStore) : Nat := s.entities.length

def get? (s : EntityStore) (id : EntityId) : Option Entity := s.entities[id.val]?

def find? (s : EntityStore) (element : ElementId) : Option Entity :=
  List.find? (fun e => e.element == element) s.entities

def entityFor (s : EntityStore) (element : ElementId) : Except ModelError Entity :=
  match s.find? element with
  | some e => .ok e
  | none => .error (.entityNotFound element)

def kindOf? (s : EntityStore) (type : EntityType) : Option ElementKind := Ordered.get? type s.typeKinds

def ofType (s : EntityStore) (type : EntityType) : List Entity := s.entities.filter (·.type == type)

/-- The numbers of a type's entities; the type has to be known. -/
def idsOfType (s : EntityStore) (type : EntityType) : Except ModelError (List EntityId) :=
  if (s.kindOf? type).isSome then .ok ((s.ofType type).map (·.id))
  else .error (.entityNotRegistered type)

def types (s : EntityStore) : List EntityType :=
  Ordered.addAll (fun a b => decide (a < b)) (s.entities.map (·.type)) []

/-- An entity with a new label, if one is given, and with more properties. -/
def extended (e : Entity) (label : Option String) (properties : Properties) : Entity :=
  { e with label := label.getD e.label, properties := e.properties.mergeAll properties }

def extend (s : EntityStore) (id : EntityId) (label : Option String) (properties : Properties) :
    EntityStore :=
  { s with entities := s.entities.modify id.val fun e => extended e label properties }

def create (s : EntityStore) (type : EntityType) (element : ElementId) (kind : ElementKind)
    (label : Option String) (properties : Properties) : EntityId × EntityStore :=
  let id : EntityId := ⟨s.entities.length⟩
  (id, { s with
    entities := s.entities ++ [⟨id, type, label.getD "", element, properties⟩]
    typeKinds := Ordered.put type kind s.typeKinds })

/-- Give an element a type. The first time, this makes an entity that has just these properties;
later, it extends the entity. -/
def register (s : EntityStore) (type : EntityType) (element : ElementId) (kind : ElementKind)
    (label : Option String) (properties : Properties) : Except ModelError (EntityId × EntityStore) :=
  match s.find? element with
  | some e =>
    if e.type = type then .ok (e.id, s.extend e.id label properties)
    else .error (.entityAlreadyExists element e.id e.type type)
  | none =>
    match s.kindOf? type with
    | some existing =>
      if existing = kind then .ok (s.create type element kind label properties)
      else .error (.illegalEntityAssignment type existing kind)
    | none => .ok (s.create type element kind label properties)

/-- Extend an entity. Tells whether there is one of that number. -/
def update (s : EntityStore) (id : EntityId) (label : Option String) (properties : Properties) :
    Bool × EntityStore :=
  if (s.get? id).isSome then (true, s.extend id label properties) else (false, s)

/-- Link two entities. Tells whether the link is new; it needs both entities. -/
def addChild (s : EntityStore) (parent : EntityId) (key : String) (child : EntityId) :
    Bool × EntityStore :=
  let edge : Relation := ⟨parent, key, child⟩
  if (s.get? parent).isNone || (s.get? child).isNone || s.edges.contains edge then (false, s)
  else (true, { s with edges := s.edges ++ [edge] })

def relations (s : EntityStore) : List Relation := Ordered.sort Relation.before s.edges

/-- The children of an entity by key, both sorted. -/
def children (s : EntityStore) (id : EntityId) : List (String × List EntityId) :=
  let own := s.relations.filter (·.parent == id)
  let keys := Ordered.addAll (fun a b => decide (a < b)) (own.map (·.key)) []
  keys.map fun k => (k, (own.filter (·.key == k)).map (·.child))

def childrenUnder (s : EntityStore) (id : EntityId) (key : String) : List EntityId :=
  (Ordered.get? key (s.children id)).getD []

def parents (s : EntityStore) (id : EntityId) : List (EntityId × String) :=
  (s.relations.filter (·.child == id)).map fun r => (r.parent, r.key)

end EntityStore

end ClassAtlas
