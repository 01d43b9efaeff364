import ClassAtlas.Entity.Basic
import ClassAtlas.Pipeline.ScopeKind
import ClassAtlas.Signature.Error

/-! # Errors of a model -/

namespace ClassAtlas

inductive ModelError where
  /-- An element has one entity at most. -/
  | entityAlreadyExists (element : ElementId) (existing : EntityId) (existingType attempted : EntityType)
  | entityNotFound (element : ElementId)
  | entityNotRegistered (type : EntityType)
  | failedToResolveParentRelation (parent : EntityType) (key : String) (child : EntityType)
  /-- The entities of a type are all about elements of one kind. -/
  | illegalEntityAssignment (type : EntityType) (existing attempted : ElementKind)
  | illegalScope (expected found : ScopeKind)
  | signature (error : SignatureError)
  | invalidPattern (pattern : String)
  /-- A pipeline text cannot be read. -/
  | serialization
  | unknownElement (element : ElementId)
  | io (path : String)
  deriving Repr, DecidableEq, Inhabited

namespace ModelError

def message : ModelError → String
  | .entityAlreadyExists element existing existingType attempted =>
    "element " ++ element.text ++ " is bound to `" ++ existingType ++ "` entity " ++ existing.text ++
      ", not `" ++ attempted ++ "`"
  | .entityNotFound element => "no entity is bound to element " ++ element.text
  | .entityNotRegistered type => "entity type `" ++ type ++ "` has not been registered"
  | .failedToResolveParentRelation parent key child =>
    "cannot resolve a `" ++ parent ++ "` entity for `" ++ child ++ "` entities under key `" ++ key ++
      "`"
  | .illegalEntityAssignment type existing attempted =>
    "entity type `" ++ type ++ "` is bound to " ++ existing.name ++ " elements, not " ++ attempted.name
  | .illegalScope expected found => "expected a " ++ expected.name ++ " scope, found " ++ found.name
  | .signature error => error.message
  | .invalidPattern pattern => "invalid name pattern `" ++ pattern ++ "`"
  | .serialization => "pipeline serialization failed"
  | .unknownElement element => "unknown element " ++ element.text
  | .io path => "failed to write " ++ path

end ModelError

end ClassAtlas
