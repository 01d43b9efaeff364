import ClassAtlas.Signature.Parser

/-! # The grammar of signatures

Derivations are trees that follow the grammar production by production. A derivation has a text, which
is what it derives, and a decoded tree, which is what it means. Neither mentions a parser, so a parser
can be held against them.
-/

namespace ClassAtlas.Signature

/-- A name: at least one character, and none that ends it. -/
structure Name (stops : List Char) where
  chars : List Char
  nonempty : chars ≠ []
  clear : ∀ c ∈ chars, c ∉ stops

def Name.string {stops : List Char} (n : Name stops) : String := String.ofList n.chars

/-- The primitive types that a field can have. -/
inductive BaseType where
  | byte | char | double | float | int | long | short | boolean
  deriving DecidableEq

namespace BaseType

def letter : BaseType → Char
  | .byte => 'B'
  | .char => 'C'
  | .double => 'D'
  | .float => 'F'
  | .int => 'I'
  | .long => 'J'
  | .short => 'S'
  | .boolean => 'Z'

def type : BaseType → TypeName
  | .byte => ⟨"byte"⟩
  | .char => ⟨"char"⟩
  | .double => ⟨"double"⟩
  | .float => ⟨"float"⟩
  | .int => ⟨"int"⟩
  | .long => ⟨"long"⟩
  | .short => ⟨"short"⟩
  | .boolean => ⟨"boolean"⟩

end BaseType

/-- What may stand before the type of an argument. -/
inductive Mark where
  | plain | plus | minus
  deriving DecidableEq

namespace Mark

def chars : Mark → List Char
  | .plain => []
  | .plus => ['+']
  | .minus => ['-']

def variance : Mark → Variance
  | .plain => .invariant
  | .plus => .covariant
  | .minus => .contravariant

end Mark

/-! ## Types -/

mutual
/-- A primitive type or a reference type. -/
inductive TypeSyntax where
  | base (b : BaseType)
  | ref (r : RefSyntax)
/-- A class type, a type variable or an array type. -/
inductive RefSyntax where
  | cls (name : Name classStops) (rest : ClassSyntax)
  | var (name : Name [';'])
  | array (element : TypeSyntax)
/-- What follows a class name: arguments, then the end or an inner class. -/
inductive ClassSyntax where
  | done (args : ArgsSyntax)
  | inner (args : ArgsSyntax) (name : Name classStops) (rest : ClassSyntax)
/-- Type arguments, which may be left out. -/
inductive ArgsSyntax where
  | absent
  | given (list : ArgList)
/-- Type arguments up to the closing bracket. -/
inductive ArgList where
  | close
  | any (rest : ArgList)
  | type (mark : Mark) (r : RefSyntax) (rest : ArgList)
end

mutual
def TypeSyntax.text : TypeSyntax → List Char
  | .base b => [b.letter]
  | .ref r => r.text
termination_by structural d => d
def RefSyntax.text : RefSyntax → List Char
  | .cls name rest => 'L' :: (name.chars ++ rest.text)
  | .var name => 'T' :: (name.chars ++ [';'])
  | .array element => '[' :: element.text
termination_by structural d => d
def ClassSyntax.text : ClassSyntax → List Char
  | .done args => args.text ++ [';']
  | .inner args name rest => args.text ++ '.' :: (name.chars ++ rest.text)
termination_by structural d => d
def ArgsSyntax.text : ArgsSyntax → List Char
  | .absent => []
  | .given list => '<' :: list.text
termination_by structural d => d
def ArgList.text : ArgList → List Char
  | .close => ['>']
  | .any rest => '*' :: rest.text
  | .type mark r rest => mark.chars ++ (r.text ++ rest.text)
termination_by structural d => d
end

mutual
def TypeSyntax.variableNames : TypeSyntax → List String
  | .base _ => []
  | .ref r => r.variableNames
termination_by structural d => d
def RefSyntax.variableNames : RefSyntax → List String
  | .cls _ rest => rest.variableNames
  | .var name => [name.string]
  | .array element => element.variableNames
termination_by structural d => d
def ClassSyntax.variableNames : ClassSyntax → List String
  | .done args => args.variableNames
  | .inner args _ rest => args.variableNames ++ rest.variableNames
termination_by structural d => d
def ArgsSyntax.variableNames : ArgsSyntax → List String
  | .absent => []
  | .given list => list.variableNames
termination_by structural d => d
def ArgList.variableNames : ArgList → List String
  | .close => []
  | .any rest => rest.variableNames
  | .type _ r rest => r.variableNames ++ rest.variableNames
termination_by structural d => d
end

mutual
/-- The decoded tree of a derivation, given the owners of type variables. An inner class's name is
    joined to its outer class's by a dollar sign, and the innermost arguments count. -/
def TypeSyntax.tree (owner : String → TypeVariableOwner) : TypeSyntax → TypeSignature
  | .base b => .ofType b.type
  | .ref r => r.tree owner
termination_by structural d => d
def RefSyntax.tree (owner : String → TypeVariableOwner) : RefSyntax → TypeSignature
  | .cls name rest => rest.tree owner name.string
  | .var name => .ofVariable ⟨name.string, owner name.string⟩
  | .array element => { element.tree owner with depth := (element.tree owner).depth + 1 }
termination_by structural d => d
def ClassSyntax.tree (owner : String → TypeVariableOwner) : ClassSyntax → String → TypeSignature
  | .done args, name => .ofType (.ofInternal name) (args.trees owner)
  | .inner _ inner rest, name => rest.tree owner (name ++ "$" ++ inner.string)
termination_by structural d => d
def ArgsSyntax.trees (owner : String → TypeVariableOwner) : ArgsSyntax → List TypeSignature
  | .absent => []
  | .given list => list.trees owner
termination_by structural d => d
def ArgList.trees (owner : String → TypeVariableOwner) : ArgList → List TypeSignature
  | .close => []
  | .any rest => .unbounded :: rest.trees owner
  | .type mark r rest => { r.tree owner with variance := mark.variance } :: rest.trees owner
termination_by structural d => d
end

/-! ## Type parameters -/

/-- A type parameter. Its name does not start like the end of the list. -/
structure FormalSyntax where
  name : Name [':']
  opening : name.chars.head? ≠ some '>'
  bound : Option RefSyntax
  interfaces : List RefSyntax

namespace FormalSyntax

def interfaceText (f : FormalSyntax) : List Char := f.interfaces.flatMap fun r => ':' :: r.text

def text (f : FormalSyntax) : List Char :=
  f.name.chars ++ ':' :: ((f.bound.elim [] RefSyntax.text) ++ f.interfaceText)

def variableNames (f : FormalSyntax) : List String :=
  f.bound.elim [] RefSyntax.variableNames ++ f.interfaces.flatMap RefSyntax.variableNames

def tree (owner : String → TypeVariableOwner) (f : FormalSyntax) : FormalParameter :=
  ⟨f.name.string, f.bound.map (·.tree owner), f.interfaces.map (·.tree owner)⟩

def listText : List FormalSyntax → List Char
  | [] => ['>']
  | f :: fs => f.text ++ listText fs

/-- Wherever a class bound is left out, what follows does not start like one. -/
def Unmistakable : List FormalSyntax → Prop
  | [] => True
  | f :: fs =>
    (f.bound = none → startsReference (f.interfaceText ++ listText fs) = false) ∧ Unmistakable fs

end FormalSyntax

/-- The type parameters of a declaration. -/
structure FormalsSyntax where
  list : List FormalSyntax
  unmistakable : FormalSyntax.Unmistakable list

namespace FormalsSyntax

def text (fs : FormalsSyntax) : List Char := '<' :: FormalSyntax.listText fs.list

def variableNames (fs : FormalsSyntax) : List String := fs.list.flatMap FormalSyntax.variableNames

def trees (owner : String → TypeVariableOwner) (fs : FormalsSyntax) : List FormalParameter :=
  fs.list.map (·.tree owner)

end FormalsSyntax

/-- The names that type parameters declare; there may be none. -/
def declaredNames (formals : Option FormalsSyntax) : List String :=
  formals.elim [] fun fs => fs.list.map (·.name.string)

/-! ## Whole signatures -/

/-- A class type. -/
structure ClassTypeSyntax where
  name : Name classStops
  rest : ClassSyntax

def ClassTypeSyntax.ref (c : ClassTypeSyntax) : RefSyntax := .cls c.name c.rest

/-- A class type or a type variable. -/
inductive ExceptionSyntax where
  | cls (c : ClassTypeSyntax)
  | var (name : Name [';'])

def ExceptionSyntax.ref : ExceptionSyntax → RefSyntax
  | .cls c => c.ref
  | .var name => .var name

/-- The signature of a class. -/
structure ClassSigSyntax where
  formals : Option FormalsSyntax
  superclass : ClassTypeSyntax
  interfaces : List ClassTypeSyntax

namespace ClassSigSyntax

def text (d : ClassSigSyntax) : List Char :=
  d.formals.elim [] FormalsSyntax.text ++ (d.superclass.ref.text ++ d.interfaces.flatMap (·.ref.text))

def variableNames (d : ClassSigSyntax) : List String :=
  d.formals.elim [] FormalsSyntax.variableNames ++
    (d.superclass.ref.variableNames ++ d.interfaces.flatMap (·.ref.variableNames))

def tree (owner : String → TypeVariableOwner) (d : ClassSigSyntax) : ClassSignature where
  parameters := d.formals.elim [] (·.trees owner)
  superclass := some (d.superclass.ref.tree owner)
  interfaces := d.interfaces.map (·.ref.tree owner)

end ClassSigSyntax

/-- The signature of a method. Without a result it is `void`. -/
structure MethodSigSyntax where
  formals : Option FormalsSyntax
  parameters : List TypeSyntax
  result : Option TypeSyntax
  exceptions : List ExceptionSyntax

namespace MethodSigSyntax

def text (d : MethodSigSyntax) : List Char :=
  d.formals.elim [] FormalsSyntax.text ++
    '(' :: (d.parameters.flatMap TypeSyntax.text ++
      ')' :: (d.result.elim ['V'] TypeSyntax.text ++ d.exceptions.flatMap fun e => '^' :: e.ref.text))

def variableNames (d : MethodSigSyntax) : List String :=
  d.formals.elim [] FormalsSyntax.variableNames ++
    (d.parameters.flatMap TypeSyntax.variableNames ++
      (d.result.elim [] TypeSyntax.variableNames ++ d.exceptions.flatMap (·.ref.variableNames)))

def tree (owner : String → TypeVariableOwner) (d : MethodSigSyntax) : MethodSignature where
  typeParameters := d.formals.elim [] (·.trees owner)
  parameters := d.parameters.map (·.tree owner)
  returnType := d.result.elim (.ofType .void) (·.tree owner)
  exceptions := d.exceptions.map (·.ref.tree owner)

end MethodSigSyntax

/-! ## Names in scope -/

/-- A name is declared by the type parameters or by the scope around them. -/
def Declared (scope : TypeScope) (names : List String) (name : String) : Prop :=
  name ∈ names ∨ (scope.lookup? name).isSome

/-- The owner of a declared name: type parameters hide what is around them. -/
def ownerIn (scope : TypeScope) (owner : TypeVariableOwner) (names : List String) (name : String) :
    TypeVariableOwner :=
  if name ∈ names then owner else ((scope.lookup? name).map (·.1)).getD owner

end ClassAtlas.Signature
