import ClassAtlas.Literal
import ClassAtlas.Signature.Basic

/-! # Elements

Everything that a model can be about is an element with a number of its own: classes, their members,
parameters, annotations, and the signatures and values derived from them. Elements of the given
classes count up from one, elements of classes made up later count down from zero.
-/

namespace ClassAtlas

structure ElementId where
  val : Int
  deriving Repr, DecidableEq, Inhabited

namespace ElementId

def isSynthetic (id : ElementId) : Bool := id.val ≤ 0

def text (id : ElementId) : String := "#" ++ integerText id.val

def toJson (id : ElementId) : Json := .int id.val

def ofJson? (v : Json) : Option ElementId := v.int32?.map fun n => ⟨n.toInt⟩

end ElementId

inductive ElementKind where
  | classDef
  | field
  | method
  | parameter
  | annotationUse
  | signature
  | value
  deriving Repr, DecidableEq, Inhabited

namespace ElementKind

def name : ElementKind → String
  | .classDef => "class"
  | .field => "field"
  | .method => "method"
  | .parameter => "parameter"
  | .annotationUse => "annotation"
  | .signature => "signature"
  | .value => "value"

def names : List (String × ElementKind) :=
  [("class", .classDef), ("field", .field), ("method", .method), ("parameter", .parameter),
    ("annotation", .annotationUse), ("signature", .signature), ("value", .value)]

def toJson (k : ElementKind) : Json := .string k.name

def ofJson? (v : Json) : Option ElementKind := v.choice? .plain names

end ElementKind

/-- Which of a class's members are meant. -/
inductive MemberKind where
  | field
  | method
  deriving Repr, DecidableEq, Inhabited

/-- An element. Classes and members are addressed by position. -/
inductive Element where
  | classDef (index : Nat)
  /-- A field or method: the declaring class, the position in it, the class it is seen from and,
  when that is another class, the element it has in its declaring class. -/
  | member (kind : MemberKind) (declaring position : Nat) (owner : ElementId) (origin : Option ElementId)
  | parameter (method : ElementId) (position : Nat)
  | annotationUse (owner : ElementId) (position : Nat)
  | signature (owner : ElementId) (type : TypeSignature)
  | value (owner : ElementId) (literal : Literal)
  deriving Repr, DecidableEq, Inhabited

namespace MemberKind

def elementKind : MemberKind → ElementKind
  | .field => .field
  | .method => .method

end MemberKind

namespace Element

def kind : Element → ElementKind
  | .classDef _ => .classDef
  | .member k _ _ _ _ => k.elementKind
  | .parameter _ _ => .parameter
  | .annotationUse _ _ => .annotationUse
  | .signature _ _ => .signature
  | .value _ _ => .value

/-- The element that an element is part of; classes are part of none. -/
def parent? : Element → Option ElementId
  | .classDef _ => none
  | .member _ _ _ owner _ => some owner
  | .parameter method _ => some method
  | .annotationUse owner _ => some owner
  | .signature owner _ => some owner
  | .value owner _ => some owner

end Element

/-- Which signature of its owner an element stands for. -/
inductive SignatureSlot where
  | declared
  | argument (position : Nat)
  deriving Repr, DecidableEq, Inhabited

/-- What makes two elements the same one. -/
inductive ElementKey where
  | classDef (index : Nat)
  | member (kind : MemberKind) (declaring position seenFrom : Nat)
  | parameter (method : ElementId) (position : Nat)
  | annotationUse (owner : ElementId) (position : Nat)
  | signature (owner : ElementId) (slot : SignatureSlot)
  | value (owner : ElementId) (key : String)
  deriving Repr, DecidableEq, Inhabited

end ClassAtlas
