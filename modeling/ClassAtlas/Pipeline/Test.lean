import ClassAtlas.Model
import ClassAtlas.Pipeline.Predicate

/-! # Testing elements

What predicates mean. A test reads the index and the entities and changes neither; it only remembers
patterns and signatures. The parts of a conjunction or disjunction are tested up to the first that
decides.
-/

namespace ClassAtlas.Predicate

abbrev TestM := ExceptT ModelError (StateM Caches)

def accessFlags? (ix : ElementIndex) (id : ElementId) : Option Access :=
  match ix.get? id with
  | some (.classDef _) => (ix.classDeclaration? id).map (·.access)
  | some (.member .field _ _ _ _) => (ix.fieldDeclaration? id).map (·.2.access)
  | some (.member .method _ _ _ _) => (ix.methodDeclaration? id).map (·.2.access)
  | _ => none

/-- Whether an element is an annotation of a type or has one. -/
def isAnnotatedBy (ix : ElementIndex) (id : ElementId) (type : TypeName) : Bool :=
  ((ix.annotationAt? id).toList ++ ix.annotationEntries id).any (·.typeName? == some type)

/-- Whether an entity is there and has the type, if one is given. -/
def isEntityOf (type : Option EntityType) (e : Option Entity) : Bool :=
  match e, type with
  | none, _ => false
  | some _, none => true
  | some e, some t => e.type == t

/-- The class an element stands for: itself, or else that of its declared type. -/
def classOf? (ix : ElementIndex) (id : ElementId) (c : Caches) : Option Nat × Caches :=
  match ix.ownClass? id with
  | some k => (some k, c)
  | none =>
    let (t, c) := c.declaredClass? ix id
    (t.bind ix.classes.indexOf?, c)

/-- Work that cannot fail. -/
def remember {α : Type} (f : Caches → α × Caches) : TestM α := fun c =>
  let (a, c) := f c
  (.ok a, c)

/-- Test whether a pattern is found in a text. -/
def testText (pattern text : String) : TestM Bool := fun c =>
  match c.pattern pattern with
  | (.ok a, c) => (.ok (a.isMatch text), c)
  | (.error e, c) => (.error e, c)

mutual
def test (ix : ElementIndex) (entities : EntityStore) (id : ElementId) : Predicate → TestM Bool
  | .name pattern => testText pattern (ix.name id)
  | .modifiers flags => pure ((accessFlags? ix id).any (·.has flags))
  | .annotatedBy type => pure (isAnnotatedBy ix id type)
  | .implements type => do
      let c ← remember (classOf? ix id)
      return c.any fun k => (ix.classes.supertypes k).contains type
  | .typeIs type => do
      let t ← remember (·.declaredClass? ix id)
      return t == some type
  | .hasEntity type => pure (isEntityOf type (entities.find? id))
  | .synthetic => pure id.isSynthetic
  | .negation p => do
      let b ← test ix entities id p
      return !b
  | .all ps => testAll ix entities id ps
  | .any ps => testAny ix entities id ps
termination_by structural p => p
def testAll (ix : ElementIndex) (entities : EntityStore) (id : ElementId) : List Predicate → TestM Bool
  | [] => pure true
  | p :: ps => do
      let b ← test ix entities id p
      if b then testAll ix entities id ps else return false
termination_by structural ps => ps
def testAny (ix : ElementIndex) (entities : EntityStore) (id : ElementId) : List Predicate → TestM Bool
  | [] => pure false
  | p :: ps => do
      let b ← test ix entities id p
      if b then return true else testAny ix entities id ps
termination_by structural ps => ps
end

/-- Split elements into those that pass and the others; every element is tested before. -/
def split (ix : ElementIndex) (entities : EntityStore) (p : Predicate) :
    List ElementId → TestM (List ElementId × List ElementId)
  | [] => pure ([], [])
  | id :: ids => do
      let b ← test ix entities id p
      let (yes, no) ← split ix entities p ids
      return if b then (id :: yes, no) else (yes, id :: no)

def testIn (p : Predicate) (id : ElementId) : ModelM Bool :=
  Model.onCaches fun ix entities => p.test ix entities id

def splitIn (p : Predicate) (ids : List ElementId) : ModelM (List ElementId × List ElementId) :=
  Model.onCaches fun ix entities => p.split ix entities ids

end ClassAtlas.Predicate
