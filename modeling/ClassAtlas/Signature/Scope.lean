import ClassAtlas.Signature.Basic

/-! # Scopes of type variables

The declarations around a signature, outermost first. A name means the innermost declaration of it.
-/

namespace ClassAtlas

/-- A declaration and its type parameters. -/
structure ScopeFrame where
  owner : TypeVariableOwner
  parameters : List FormalParameter
  deriving Repr, DecidableEq, Inhabited

namespace ScopeFrame

def find? (f : ScopeFrame) (name : String) : Option FormalParameter :=
  f.parameters.find? (·.name == name)

end ScopeFrame

/-- Enclosing declarations, innermost last. -/
structure TypeScope where
  frames : List ScopeFrame := []
  deriving Repr, DecidableEq, Inhabited

namespace TypeScope

def empty : TypeScope := {}

def push (s : TypeScope) (owner : TypeVariableOwner) (parameters : List FormalParameter) : TypeScope :=
  ⟨s.frames ++ [⟨owner, parameters⟩]⟩

/-- The innermost declaration of a name, with its owner. -/
def lookup? (s : TypeScope) (name : String) : Option (TypeVariableOwner × FormalParameter) :=
  s.frames.reverse.findSome? fun f => (f.find? name).map (f.owner, ·)

/-- The parameter that a variable of a known owner refers to. -/
def declaration? (s : TypeScope) (v : TypeVariable) : Option FormalParameter :=
  (s.frames.filter (·.owner == v.owner)).findSome? (·.find? v.name)

end TypeScope

end ClassAtlas
