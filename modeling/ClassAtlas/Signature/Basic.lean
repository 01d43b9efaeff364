import ClassAtlas.TypeName

/-! # Generic signatures

The decoded form of the generic signatures that class files keep beside descriptors. Every type
variable names the declaration that owns it, so that two variables of one spelling are not mixed up.
-/

namespace ClassAtlas

inductive TypeVariableOwner where
  | ofClass (type : TypeName)
  | ofMethod (type : TypeName) (name desc : String)
  deriving Repr, DecidableEq, Inhabited

structure TypeVariable where
  name : String
  owner : TypeVariableOwner
  deriving Repr, DecidableEq, Inhabited

/-- What a signature is about, before arguments and array brackets. -/
inductive TypeHead where
  | named (type : TypeName)
  | var (of : TypeVariable)
  deriving Repr, DecidableEq, Inhabited

inductive Variance where
  | invariant
  | covariant
  | contravariant
  | any
  deriving Repr, DecidableEq, Inhabited

structure TypeSignature where
  head : TypeHead
  variance : Variance
  /-- Number of array dimensions, a 32-bit word. -/
  depth : UInt32
  args : List TypeSignature
  deriving Repr, Inhabited

structure FormalParameter where
  name : String
  /-- Class bound; absent when only interfaces bound the parameter. -/
  bound : Option TypeSignature := none
  interfaceBounds : List TypeSignature := []
  deriving Repr, Inhabited

structure ClassSignature where
  parameters : List FormalParameter
  superclass : Option TypeSignature
  interfaces : List TypeSignature
  deriving Repr, Inhabited

structure MethodSignature where
  typeParameters : List FormalParameter
  parameters : List TypeSignature
  returnType : TypeSignature
  exceptions : List TypeSignature
  deriving Repr, Inhabited

namespace TypeVariableOwner

def type : TypeVariableOwner → TypeName
  | .ofClass t => t
  | .ofMethod t _ _ => t

def isMethod : TypeVariableOwner → Bool
  | .ofClass _ => false
  | .ofMethod _ _ _ => true

def text : TypeVariableOwner → String
  | .ofClass t => t.text
  | .ofMethod t name _ => t.text ++ "::" ++ name

end TypeVariableOwner

namespace TypeSignature

mutual
def decEq : (a b : TypeSignature) → Decidable (a = b)
  | ⟨h, v, d, xs⟩, ⟨h', v', d', ys⟩ =>
    if p : h = h' ∧ v = v' ∧ d = d' then
      match decEqList xs ys with
      | isTrue q => isTrue (by rw [p.1, p.2.1, p.2.2, q])
      | isFalse n => isFalse fun e => n (congrArg TypeSignature.args e)
    else
      isFalse fun e => p ⟨congrArg TypeSignature.head e, congrArg TypeSignature.variance e,
        congrArg TypeSignature.depth e⟩
termination_by structural a => a
def decEqList : (xs ys : List TypeSignature) → Decidable (xs = ys)
  | [], [] => isTrue rfl
  | [], _ :: _ => isFalse (by simp)
  | _ :: _, [] => isFalse (by simp)
  | x :: xs, y :: ys =>
    match decEq x y, decEqList xs ys with
    | isTrue p, isTrue q => isTrue (by rw [p, q])
    | isFalse n, _ => isFalse fun e => n (List.cons.inj e).1
    | _, isFalse n => isFalse fun e => n (List.cons.inj e).2
termination_by structural xs => xs
end

instance : DecidableEq TypeSignature := decEq

def ofType (t : TypeName) (args : List TypeSignature := []) : TypeSignature :=
  ⟨.named t, .invariant, 0, args⟩

def ofVariable (v : TypeVariable) : TypeSignature := ⟨.var v, .invariant, 0, []⟩

def unbounded : TypeSignature := ⟨.named .object, .any, 0, []⟩

/-- The named type, whatever its array depth; type variables have none. -/
def typeName? (s : TypeSignature) : Option TypeName :=
  match s.head with
  | .named t => some t
  | .var _ => none

def isArray (s : TypeSignature) : Bool := 0 < s.depth

/-- What the signature is: an array type, a type variable or a named type. -/
def shapeName (s : TypeSignature) : String :=
  if s.isArray then "array"
  else match s.head with
    | .named _ => "plain"
    | .var _ => "type_variable"

/-- The method's type variable that the signature is, if it is one. Its type is known at a call
only. -/
def methodVariable? (s : TypeSignature) : Option TypeVariable :=
  match s.head with
  | .var v => if v.owner.isMethod then some v else none
  | .named _ => none

mutual
def hasVariables : TypeSignature → Bool
  | ⟨.var _, _, _, _⟩ => true
  | ⟨.named _, _, _, args⟩ => anyHasVariables args
termination_by structural s => s
def anyHasVariables : List TypeSignature → Bool
  | [] => false
  | s :: ss => s.hasVariables || anyHasVariables ss
termination_by structural ss => ss
end

end TypeSignature

deriving instance DecidableEq for FormalParameter
deriving instance DecidableEq for ClassSignature
deriving instance DecidableEq for MethodSignature

namespace FormalParameter

/-- The leftmost bound, to which the parameter erases. -/
def upperBound? (p : FormalParameter) : Option TypeSignature := p.bound.or p.interfaceBounds.head?

end FormalParameter

namespace ClassSignature

def supertypes (s : ClassSignature) : List TypeSignature := s.superclass.toList ++ s.interfaces

end ClassSignature

end ClassAtlas
