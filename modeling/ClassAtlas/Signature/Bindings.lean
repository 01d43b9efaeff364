import ClassAtlas.Signature.Basic

/-! # Specialisation

Putting types in place of type variables. A binding gives its array dimensions to the occurrence it
replaces, where both numbers are added as words, and an occurrence marked as a wildcard keeps its
mark.
-/

namespace ClassAtlas

/-- Types of type variables. A variable has at most one entry. -/
structure TypeBindings where
  entries : List (TypeVariable × TypeSignature) := []
  deriving Repr, DecidableEq, Inhabited

namespace TypeBindings

def empty : TypeBindings := {}

def find? (b : TypeBindings) (v : TypeVariable) : Option TypeSignature :=
  (b.entries.find? (·.1 == v)).map (·.2)

/-- Bind a variable, in place of an earlier binding. -/
def bind (b : TypeBindings) (v : TypeVariable) (s : TypeSignature) : TypeBindings :=
  ⟨b.entries.filter (·.1 != v) ++ [(v, s)]⟩

def ofClass (type : TypeName) (pairs : List (String × TypeSignature)) : TypeBindings :=
  pairs.foldl (fun b p => b.bind ⟨p.1, .ofClass type⟩ p.2) .empty

/-- Bind a class's parameters to arguments by position. Surplus parameters or arguments bind
nothing, so a raw type binds nothing at all. -/
def ofArguments (type : TypeName) (formals : List FormalParameter) (args : List TypeSignature) :
    TypeBindings :=
  ofClass type ((formals.map (·.name)).zip args)

end TypeBindings

namespace TypeSignature

/-- What an occurrence of a variable becomes when the variable is bound. -/
def replace (variance : Variance) (depth : UInt32) (s : TypeSignature) : TypeSignature :=
  { s with
    depth := s.depth + depth
    variance := if variance = .invariant then s.variance else variance }

mutual
/-- Put the bound types in place of their variables; other variables stay. -/
def specialize (b : TypeBindings) : TypeSignature → TypeSignature
  | ⟨.var v, variance, depth, args⟩ =>
    match b.find? v with
    | some s => s.replace variance depth
    | none => ⟨.var v, variance, depth, args⟩
  | ⟨.named t, variance, depth, args⟩ => ⟨.named t, variance, depth, specializeAll b args⟩
termination_by structural s => s
def specializeAll (b : TypeBindings) : List TypeSignature → List TypeSignature
  | [] => []
  | s :: ss => s.specialize b :: specializeAll b ss
termination_by structural ss => ss
end

end TypeSignature

namespace MethodSignature

/-- Specialise parameter, return and exception types. The method's own type parameters stay. -/
def specialize (b : TypeBindings) (s : MethodSignature) : MethodSignature :=
  { s with
    parameters := TypeSignature.specializeAll b s.parameters
    returnType := s.returnType.specialize b
    exceptions := TypeSignature.specializeAll b s.exceptions }

end MethodSignature

end ClassAtlas
