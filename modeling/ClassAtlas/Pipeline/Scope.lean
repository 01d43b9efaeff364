import ClassAtlas.ModelError
import ClassAtlas.Search

/-! # Scopes

What flows between the actions of a pipeline: the template, or a list of elements without
repetition. An empty scope and one of an unresolved kind go wherever elements are expected.
-/

namespace ClassAtlas

inductive Scope where
  | template
  | elements (kind : ScopeKind) (ids : List ElementId)
  deriving Repr, DecidableEq, Inhabited

namespace Scope

def ofIds (kind : ScopeKind) (ids : List ElementId) : Scope := .elements kind (Search.fresh [] ids)

/-- Elements of one kind, each once. -/
def ofKind (kind : ElementKind) (ids : List ElementId) : Scope := ofIds (.elements kind) ids

def kind : Scope → ScopeKind
  | .template => .template
  | .elements kind _ => kind

def ids : Scope → List ElementId
  | .template => []
  | .elements _ ids => ids

def size (s : Scope) : Nat := s.ids.length

def expectTemplate : Scope → Except ModelError Unit
  | .template => .ok ()
  | .elements kind _ => .error (.illegalScope .template kind)

def expectElements : Scope → Except ModelError (List ElementId)
  | .template => .error (.illegalScope .unresolved .template)
  | .elements _ ids => .ok ids

/-- Elements of one of these kinds are required. An error names the first of the kinds. -/
def expect (accepted : List ScopeKind) : Scope → Except ModelError (List ElementId)
  | .template => .error (.illegalScope (accepted.head?.getD .unresolved) .template)
  | .elements kind ids =>
    if ids.isEmpty || kind == .unresolved || accepted.contains kind then .ok ids
    else .error (.illegalScope (accepted.head?.getD .unresolved) kind)

/-- The kind of two scopes together: an empty one does not count. -/
def unionKind (a : ScopeKind) (left : List ElementId) (b : ScopeKind) (right : List ElementId) :
    ScopeKind :=
  if left.isEmpty then b
  else if right.isEmpty then a
  else if a = b then a
  else .unresolved

/-- The elements of both scopes, each once, in order. The template adds nothing. -/
def union : Scope → Scope → Scope
  | .template, s => s
  | s, .template => s
  | .elements a left, .elements b right => ofIds (unionKind a left b right) (left ++ right)

end Scope

end ClassAtlas
