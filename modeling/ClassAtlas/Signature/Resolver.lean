import ClassAtlas.Element.Index
import ClassAtlas.Ordered
import ClassAtlas.Signature.Bindings

/-! # Resolving signatures

The generic types of declarations. A signature is parsed in the scope of the classes around its
declaration, once, and remembered. A declaration without a signature, or with one that cannot be
parsed, has the type that its descriptor or its named supertypes give; the latter kind is counted.
-/

namespace ClassAtlas

structure SignatureResolver where
  classes : List (Nat × ClassSignature) := []
  /-- By class and position; `none` when not even the descriptor can be parsed. -/
  methods : List ((Nat × Nat) × Option MethodSignature) := []
  fields : List ((Nat × Nat) × Option TypeSignature) := []
  /-- By subtype and supertype. -/
  bindings : List ((Nat × Nat) × TypeBindings) := []
  /-- How many signatures could not be parsed. -/
  fallbacks : Nat := 0
  deriving Repr, Inhabited

namespace SignatureResolver

/-- The signature that a class has by its named supertypes alone. -/
def erasedClass (pool : ClassPool) (c : Nat) : ClassSignature :=
  match pool[c]? with
  | none => ⟨[], none, []⟩
  | some d => ⟨[], d.superType?.map (TypeSignature.ofType ·), d.interfaceTypes.map (TypeSignature.ofType ·)⟩

def setClass (c : Nat) (s : ClassSignature) (r : SignatureResolver) : SignatureResolver :=
  { r with classes := Ordered.put c s r.classes }

/-- Extend a scope by the parameters of several classes, resolving each. -/
def pushClasses (pool : ClassPool)
    (resolve : Nat → SignatureResolver → ClassSignature × SignatureResolver) :
    List Nat → TypeScope → SignatureResolver → TypeScope × SignatureResolver
  | [], scope, r => (scope, r)
  | c :: rest, scope, r =>
    let (s, r) := resolve c r
    let scope := match pool[c]? with
      | none => scope
      | some d => scope.push (.ofClass d.typeName) s.parameters
    pushClasses pool resolve rest scope r

/-- Parse the declared signature of a class in a scope, or count that it cannot be parsed. -/
def parseClass (pool : ClassPool) (c : Nat) (scope : TypeScope) (r : SignatureResolver) :
    ClassSignature × SignatureResolver :=
  match pool[c]? with
  | none => (erasedClass pool c, r)
  | some d =>
    match d.signature with
    | none => (erasedClass pool c, r)
    | some text =>
      match Signature.parseClass scope d.typeName text with
      | .ok s => (s, r)
      | .error _ => (erasedClass pool c, { r with fallbacks := r.fallbacks + 1 })

/-- The signature of a class. The classes around it are resolved first; where they lead back to a
class that is being resolved, its erased signature stands in. -/
def resolveClass (pool : ClassPool) : (fuel : Nat) → (c : Nat) → SignatureResolver →
    ClassSignature × SignatureResolver
  | 0, c, r => (erasedClass pool c, r)
  | fuel + 1, c, r =>
    match Ordered.get? c r.classes with
    | some s => (s, r)
    | none =>
      let r := r.setClass c (erasedClass pool c)
      let (scope, r) := pushClasses pool (resolveClass pool fuel) (pool.outerChain c) .empty r
      let (s, r) := parseClass pool c scope r
      (s, r.setClass c s)

/-- The signature of a class. No class is resolved inside itself, so that the number of classes
bounds the nesting. -/
def classSignature (pool : ClassPool) (c : Nat) (r : SignatureResolver) :
    ClassSignature × SignatureResolver :=
  resolveClass pool (pool.length + 1) c r

/-- The type variables visible inside a class: those of the classes around it, then its own. -/
def classScope (pool : ClassPool) (c : Nat) (r : SignatureResolver) : TypeScope × SignatureResolver :=
  pushClasses pool (classSignature pool) (pool.outerChain c ++ [c]) .empty r

/-- Parse a declared signature, or else the descriptor. Tells whether a declared signature was
refused. -/
def parseDeclared {α : Type} (parse : String → Except SignatureError α) (signature : Option String)
    (desc : String) : Option α × Bool :=
  match signature with
  | none => ((parse desc).toOption, false)
  | some text =>
    match parse text with
    | .ok s => (some s, false)
    | .error _ => ((parse desc).toOption, true)

def countIf (refused : Bool) (r : SignatureResolver) : SignatureResolver :=
  if refused then { r with fallbacks := r.fallbacks + 1 } else r

def methodSignature (pool : ClassPool) (c m : Nat) (r : SignatureResolver) :
    Option MethodSignature × SignatureResolver :=
  match Ordered.get? (c, m) r.methods with
  | some s => (s, r)
  | none =>
    let (scope, r) := classScope pool c r
    let (s, refused) : Option MethodSignature × Bool :=
      match pool[c]?.bind fun d => d.methods[m]?.map (d, ·) with
      | none => (none, false)
      | some (d, method) =>
        let owner := TypeVariableOwner.ofMethod d.typeName method.name method.desc
        parseDeclared (Signature.parseMethod scope owner) method.signature method.desc
    let r := r.countIf refused
    (s, { r with methods := Ordered.put (c, m) s r.methods })

def fieldSignature (pool : ClassPool) (c f : Nat) (r : SignatureResolver) :
    Option TypeSignature × SignatureResolver :=
  match Ordered.get? (c, f) r.fields with
  | some s => (s, r)
  | none =>
    let (scope, r) := classScope pool c r
    let (s, refused) : Option TypeSignature × Bool :=
      match pool[c]?.bind fun d => d.fields[f]? with
      | none => (none, false)
      | some field => parseDeclared (Signature.parseField scope) field.signature field.desc
    let r := r.countIf refused
    (s, { r with fields := Ordered.put (c, f) s r.fields })

/-- Carry bindings from a class to a direct supertype: the arguments that the class gives to the
supertype, specialised by what is bound so far. -/
def stepBindings (pool : ClassPool) (low high : Nat) (current : TypeBindings) (r : SignatureResolver) :
    TypeBindings × SignatureResolver :=
  match pool[high]? with
  | none => (current, r)
  | some d =>
    let (lowSignature, r) := classSignature pool low r
    let (highSignature, r) := classSignature pool high r
    let reference := lowSignature.supertypes.find? fun s => s.typeName? == some d.typeName
    let args := (reference.map fun s => TypeSignature.specializeAll current s.args).getD []
    (TypeBindings.ofArguments d.typeName highSignature.parameters args, r)

def pathBindings (pool : ClassPool) : List Nat → TypeBindings → SignatureResolver →
    TypeBindings × SignatureResolver
  | low :: high :: rest, current, r =>
    let (current, r) := stepBindings pool low high current r
    pathBindings pool (high :: rest) current r
  | _, current, r => (current, r)

/-- The types of a supertype's parameters as seen from a subtype; nothing is bound when the one is
not known to be a supertype of the other. -/
def bindingsFor (pool : ClassPool) (low high : Nat) (r : SignatureResolver) :
    TypeBindings × SignatureResolver :=
  match Ordered.get? (low, high) r.bindings with
  | some b => (b, r)
  | none =>
    let (b, r) := match pool.supertypePath? low high with
      | none => (TypeBindings.empty, r)
      | some path => pathBindings pool path .empty r
    (b, { r with bindings := Ordered.put (low, high) b r.bindings })

/-- A type of a declaring class as seen from a class element. -/
def seenFrom (ix : ElementIndex) (owner : ElementId) (declaring : Nat) (s : TypeSignature)
    (r : SignatureResolver) : TypeSignature × SignatureResolver :=
  match ix.classIndex? owner with
  | none => (s, r)
  | some seen =>
    if seen = declaring then (s, r)
    else
      let (b, r) := bindingsFor ix.classes seen declaring r
      (s.specialize b, r)

def seenFromOption (ix : ElementIndex) (owner : ElementId) (declaring : Nat) (s : Option TypeSignature)
    (r : SignatureResolver) : Option TypeSignature × SignatureResolver :=
  match s with
  | none => (none, r)
  | some s =>
    let (s, r) := seenFrom ix owner declaring s r
    (some s, r)

/-- The generic form of a class: its name applied to its own parameters. -/
def ownType (pool : ClassPool) (c : Nat) (r : SignatureResolver) :
    Option TypeSignature × SignatureResolver :=
  match pool[c]? with
  | none => (none, r)
  | some d =>
    let (s, r) := classSignature pool c r
    (some (.ofType d.typeName (s.parameters.map fun p =>
      .ofVariable ⟨p.name, .ofClass d.typeName⟩)), r)

/-- The declared type of an element: the type of a field or parameter, the type that a method
returns, the class that an annotation or class literal names. Members are seen from the class of
their element. -/
def declaredType (ix : ElementIndex) (id : ElementId) (r : SignatureResolver) :
    Option TypeSignature × SignatureResolver :=
  match ix.get? id with
  | none => (none, r)
  | some (.classDef c) => ownType ix.classes c r
  | some (.member .field declaring position owner _) =>
    let (s, r) := fieldSignature ix.classes declaring position r
    seenFromOption ix owner declaring s r
  | some (.member .method declaring position owner _) =>
    let (s, r) := methodSignature ix.classes declaring position r
    seenFromOption ix owner declaring (s.map (·.returnType)) r
  | some (.parameter method i) =>
    match ix.get? method with
    | some (.member .method declaring position owner _) =>
      let (s, r) := methodSignature ix.classes declaring position r
      seenFromOption ix owner declaring (s.bind (·.parameters[i]?)) r
    | _ => (none, r)
  | some (.signature _ s) => (some s, r)
  | some (.annotationUse _ _) =>
    (((ix.annotationAt? id).bind AnnotationEntry.typeName?).map (TypeSignature.ofType ·), r)
  | some (.value _ (.type t)) => (some (.ofType t), r)
  | some (.value _ (.str _)) => (some (.ofType .string), r)
  | some (.value _ _) => (none, r)

/-- The class that a type erases to. A variable erases to its leftmost bound if that names a type,
and to the root of the hierarchy otherwise. -/
def erasure (pool : ClassPool) (s : TypeSignature) (r : SignatureResolver) :
    TypeName × SignatureResolver :=
  match s.head with
  | .named t => (t, r)
  | .var v =>
    let (scope, r) := match pool.indexOf? v.owner.type with
      | none => (TypeScope.empty, r)
      | some c => classScope pool c r
    let bound := ((scope.declaration? v).bind FormalParameter.upperBound?).bind TypeSignature.typeName?
    (bound.getD .object, r)

def concreteClass (pool : ClassPool) (s : TypeSignature) (r : SignatureResolver) :
    Except SignatureError TypeName × SignatureResolver :=
  match s.methodVariable? with
  | some v => (.error (.callSiteResolution v.name v.owner.text), r)
  | none =>
    let (t, r) := erasure pool s r
    (.ok t, r)

end SignatureResolver

end ClassAtlas
