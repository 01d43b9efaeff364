import ClassAtlas.ClassFile.Declaration
import ClassAtlas.Search

/-! # The class hierarchy

The known classes in order, addressed by position. A name stands for the first class of that name.
Links to classes that are not known lead nowhere, and links may form cycles.
-/

namespace ClassAtlas

abbrev ClassPool := List ClassDeclaration

namespace ClassPool

def indexOf? (pool : ClassPool) (t : TypeName) : Option Nat := pool.findIdx? (·.typeName == t)

def superclass? (pool : ClassPool) (c : Nat) : Option Nat :=
  pool[c]?.bind fun d => d.superType?.bind (indexOf? pool)

def outerClass? (pool : ClassPool) (c : Nat) : Option Nat :=
  pool[c]?.bind fun d => d.outerClass.bind fun o => indexOf? pool (.ofInternal o)

def interfaces (pool : ClassPool) (c : Nat) : List Nat :=
  match pool[c]? with
  | none => []
  | some d => d.interfaceTypes.filterMap (indexOf? pool)

/-- The superclass's name, then the interfaces' names, known or not. -/
def directSupertypes (pool : ClassPool) (c : Nat) : List TypeName :=
  match pool[c]? with
  | none => []
  | some d => d.superType?.toList ++ d.interfaceTypes

def knownSupertypes (pool : ClassPool) (c : Nat) : List Nat :=
  (directSupertypes pool c).filterMap (indexOf? pool)

/-- The class and its known superclasses, nearest first. -/
def superclassChain (pool : ClassPool) (c : Nat) : List Nat :=
  Search.walk (superclass? pool) pool.length [c] c

/-- The known enclosing classes, outermost first. -/
def outerChain (pool : ClassPool) (c : Nat) : List Nat :=
  (Search.walk (outerClass? pool) pool.length [c] c).tail.reverse

/-- Where a method is looked for: the superclass chain, then the interfaces of those classes and of
one another, level by level. -/
def lookupOrder (pool : ClassPool) (c : Nat) : List Nat :=
  let chain := superclassChain pool c
  Search.sweep (interfaces pool) (pool.length + 1) chain chain

/-- The direct supertypes of the class of that name, none for an unknown class. -/
def namedSupertypes (pool : ClassPool) (t : TypeName) : List TypeName :=
  match indexOf? pool t with
  | none => []
  | some c => directSupertypes pool c

def linkCount (pool : ClassPool) : Nat := 
  pool.foldl (fun n d => n + d.interfaces.length + 1) 0

/-- All supertypes by name, nearest first, those of unknown classes included. -/
def supertypes (pool : ClassPool) (c : Nat) : List TypeName :=
  let direct := Search.fresh [] (directSupertypes pool c)
  Search.sweep (namedSupertypes pool) (linkCount pool + 1) direct direct

/-- A shortest chain of supertypes from one class up to another, both included. -/
def supertypePath? (pool : ClassPool) (low high : Nat) : Option (List Nat) :=
  Search.findPath (knownSupertypes pool) high (pool.length + 1) [[low]] [low]

end ClassPool

end ClassAtlas
