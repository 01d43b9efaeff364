import ClassAtlas.Element.Basic

/-! # Kinds of scopes -/

namespace ClassAtlas

inductive ScopeKind where
  /-- The start of a pipeline, before anything was selected. -/
  | template
  | elements (kind : ElementKind)
  /-- Elements of several kinds, or of a kind that is not known. -/
  | unresolved
  deriving Repr, DecidableEq, Inhabited

namespace ScopeKind

def name : ScopeKind → String
  | .template => "template"
  | .elements kind => kind.name
  | .unresolved => "unresolved"

def names : List (String × ScopeKind) :=
  ("template", .template) :: ElementKind.names.map (fun k => (k.1, .elements k.2)) ++
    [("unresolved", .unresolved)]

def toJson (k : ScopeKind) : Json := .string k.name

def decode (spelling : Json.Spelling) (v : Json) : Option ScopeKind := v.choice? spelling names

def ofJson? (v : Json) : Option ScopeKind := decode .plain v

end ScopeKind

end ClassAtlas
