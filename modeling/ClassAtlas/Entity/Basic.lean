import ClassAtlas.Entity.Property

/-! # Entities

The nodes of a model: elements that were given a type, such as `controller`, with a label and
properties.
-/

namespace ClassAtlas

abbrev EntityType := String

/-- The number of an entity, counted from zero. -/
structure EntityId where
  val : Nat
  deriving Repr, DecidableEq, Inhabited

namespace EntityId

def text (id : EntityId) : String := "E" ++ naturalText id.val

def before (a b : EntityId) : Bool := a.val < b.val

def toJson (id : EntityId) : Json := .nat id.val

def ofJson? (v : Json) : Option EntityId := v.uint32?.map fun n => ⟨n.toNat⟩

end EntityId

structure Entity where
  id : EntityId
  type : EntityType
  label : String
  element : ElementId
  properties : Properties
  deriving Repr, Inhabited

/-- A labelled link from a parent to a child. -/
structure Relation where
  parent : EntityId
  key : String
  child : EntityId
  deriving Repr, DecidableEq, Inhabited

namespace Relation

def before (a b : Relation) : Bool :=
  a.parent.before b.parent ||
    (a.parent == b.parent && (decide (a.key < b.key) || (a.key == b.key && a.child.before b.child)))

end Relation

end ClassAtlas
