import ClassAtlas.Signature.Error
import ClassAtlas.Signature.Scope

/-! # Parsing signatures

One function for each production of the grammar. A reader takes the rest of the text and gives back
what it read and what is left. Field descriptors are signatures too.

Type parameters may refer to one another in any order, so their list is read twice: once for the
names it declares and once with those names known.
-/

namespace ClassAtlas.Signature

/-- Why reading stopped. Where a character was wrong, the rest of the text starts with it. -/
inductive Fault where
  | ended (expected : String)
  | unexpected (rest : List Char) (expected : String)
  | unbound (name : String)
  deriving Repr, DecidableEq

abbrev Parsed (α : Type) := α × List Char

/-- The owner of each variable in scope. -/
abbrev Resolve := String → Option TypeVariableOwner

def mismatch (rest : List Char) (expected : String) : Fault :=
  match rest with
  | [] => .ended expected
  | _ :: _ => .unexpected rest expected

def expect (c : Char) (expected : String) : List Char → Except Fault (Parsed Unit)
  | [] => .error (.ended expected)
  | d :: rest => if d = c then .ok ((), rest) else .error (.unexpected (d :: rest) expected)

def identifier (stops : List Char) (expected : String) (s : List Char) : Except Fault (Parsed String) :=
  let name := s.takeWhile fun c => !stops.contains c
  match s.dropWhile fun c => !stops.contains c with
  | [] => .error (.ended expected)
  | stop :: rest =>
    if name.isEmpty then .error (.unexpected (stop :: rest) expected)
    else .ok (String.ofList name, stop :: rest)

def classStops : List Char := ['<', '.', ';']

def baseType? : List Char → Option (TypeSignature × List Char)
  | [] => none
  | c :: rest =>
    if c = 'V' then none else (TypeName.primitive? c).map fun t => (TypeSignature.ofType t, rest)

def typeVariable (resolve : Resolve) (s : List Char) : Except Fault (Parsed TypeSignature) := do
  let (name, rest) ← identifier [';'] "type variable name" s
  match resolve name with
  | none => .error (.unbound name)
  | some owner => .ok (.ofVariable ⟨name, owner⟩, rest.tail)

mutual
def reference (resolve : Resolve) : (fuel : Nat) → List Char → Except Fault (Parsed TypeSignature)
  | 0, s => .error (mismatch s "reference type")
  | fuel + 1, s =>
    match s with
    | 'L' :: rest => do
        let (name, rest) ← identifier classStops "class name" rest
        classTail resolve fuel name rest
    | 'T' :: rest => typeVariable resolve rest
    | '[' :: rest =>
      match baseType? rest with
      | some (t, rest) => .ok ({ t with depth := t.depth + 1 }, rest)
      | none => do
          let (t, rest) ← reference resolve fuel rest
          .ok ({ t with depth := t.depth + 1 }, rest)
    | _ => .error (mismatch s "reference type")
/-- What follows a class name: arguments, inner classes, a semicolon. An inner class's name is
joined to its outer class's by a dollar sign, and only the innermost arguments are kept. -/
def classTail (resolve : Resolve) : (fuel : Nat) → (name : String) → List Char → Except Fault (Parsed TypeSignature)
  | 0, _, s => .error (mismatch s "`;`")
  | fuel + 1, name, s => do
      let (args, s) ← match s with
        | '<' :: rest => arguments resolve fuel rest
        | _ => .ok ([], s)
      match s with
      | '.' :: rest => do
          let (inner, rest) ← identifier classStops "inner class name" rest
          classTail resolve fuel (name ++ "$" ++ inner) rest
      | ';' :: rest => .ok (.ofType (.ofInternal name) args, rest)
      | _ => .error (mismatch s "`;`")
def arguments (resolve : Resolve) : (fuel : Nat) → List Char → Except Fault (Parsed (List TypeSignature))
  | 0, s => .error (mismatch s "`>`")
  | fuel + 1, s =>
    match s with
    | [] => .error (.ended "`>`")
    | '>' :: rest => .ok ([], rest)
    | '*' :: rest => do
        let (args, rest) ← arguments resolve fuel rest
        .ok (.unbounded :: args, rest)
    | '+' :: rest => do
        let (t, rest) ← reference resolve fuel rest
        let (args, rest) ← arguments resolve fuel rest
        .ok ({ t with variance := .covariant } :: args, rest)
    | '-' :: rest => do
        let (t, rest) ← reference resolve fuel rest
        let (args, rest) ← arguments resolve fuel rest
        .ok ({ t with variance := .contravariant } :: args, rest)
    | _ => do
        let (t, rest) ← reference resolve fuel s
        let (args, rest) ← arguments resolve fuel rest
        .ok (t :: args, rest)
end

def javaType (resolve : Resolve) (fuel : Nat) (s : List Char) : Except Fault (Parsed TypeSignature) :=
  match baseType? s with
  | some r => .ok r
  | none => reference resolve fuel s

def classType (resolve : Resolve) (fuel : Nat) (s : List Char) : Except Fault (Parsed TypeSignature) :=
  match s with
  | 'L' :: _ => reference resolve fuel s
  | _ => .error (mismatch s "`L`")

def exceptionType (resolve : Resolve) (fuel : Nat) (s : List Char) : Except Fault (Parsed TypeSignature) :=
  match s with
  | 'L' :: _ => reference resolve fuel s
  | 'T' :: _ => reference resolve fuel s
  | _ => .error (mismatch s "exception type")

def startsReference : List Char → Bool
  | 'L' :: _ => true
  | 'T' :: _ => true
  | '[' :: _ => true
  | _ => false

def interfaceBounds (resolve : Resolve) : (fuel : Nat) → List Char → Except Fault (Parsed (List TypeSignature))
  | fuel + 1, ':' :: rest => do
      let (t, rest) ← reference resolve (fuel + 1) rest
      let (ts, rest) ← interfaceBounds resolve fuel rest
      .ok (t :: ts, rest)
  | _, s => .ok ([], s)

/-- A type parameter: a name, a class bound that may be left out, interface bounds. -/
def formalParameter (resolve : Resolve) (fuel : Nat) (s : List Char) : Except Fault (Parsed FormalParameter) := do
  let (name, s) ← identifier [':'] "type parameter name" s
  let (_, s) ← expect ':' "`:`" s
  let (bound, s) ←
    if startsReference s then
      (reference resolve fuel s).map fun (t, rest) => (some t, rest)
    else .ok (none, s)
  let (interfaces, s) ← interfaceBounds resolve fuel s
  .ok (⟨name, bound, interfaces⟩, s)

def formalParameters (resolve : Resolve) : (fuel : Nat) → List Char → Except Fault (Parsed (List FormalParameter))
  | 0, s => .error (mismatch s "`>`")
  | fuel + 1, s =>
    match s with
    | [] => .error (.ended "`>`")
    | '>' :: rest => .ok ([], rest)
    | _ => do
        let (p, rest) ← formalParameter resolve (fuel + 1) s
        let (ps, rest) ← formalParameters resolve fuel rest
        .ok (p :: ps, rest)

/-- The owner of a name inside a declaration: the declaration itself, then its scope. -/
def resolveIn (scope : TypeScope) (owner : TypeVariableOwner) (declared : List String) : Resolve :=
  fun name => if declared.contains name then some owner else (scope.lookup? name).map (·.1)

/-- The type parameters of a declaration, if it has any, and how names are resolved after them. -/
def typeParameters (scope : TypeScope) (owner : TypeVariableOwner) (fuel : Nat) (s : List Char) :
    Except Fault (Parsed (List FormalParameter × Resolve)) :=
  match s with
  | '<' :: rest => do
      let (collected, _) ← formalParameters (fun _ => some owner) fuel rest
      let resolve := resolveIn scope owner (collected.map (·.name))
      let (ps, rest) ← formalParameters resolve fuel rest
      .ok ((ps, resolve), rest)
  | _ => .ok (([], resolveIn scope owner []), s)

def classTypes (resolve : Resolve) : (fuel : Nat) → List Char → Except Fault (Parsed (List TypeSignature))
  | _, [] => .ok ([], [])
  | 0, s => .error (mismatch s "`L`")
  | fuel + 1, s => do
      let (t, rest) ← classType resolve (fuel + 1) s
      let (ts, rest) ← classTypes resolve fuel rest
      .ok (t :: ts, rest)

def parameterTypes (resolve : Resolve) : (fuel : Nat) → List Char → Except Fault (Parsed (List TypeSignature))
  | 0, s => .error (mismatch s "`)`")
  | fuel + 1, s =>
    match s with
    | [] => .error (.ended "`)`")
    | ')' :: rest => .ok ([], rest)
    | _ => do
        let (t, rest) ← javaType resolve (fuel + 1) s
        let (ts, rest) ← parameterTypes resolve fuel rest
        .ok (t :: ts, rest)

def returnType (resolve : Resolve) (fuel : Nat) (s : List Char) : Except Fault (Parsed TypeSignature) :=
  match s with
  | 'V' :: rest => .ok (.ofType .void, rest)
  | _ => javaType resolve fuel s

def exceptionTypes (resolve : Resolve) : (fuel : Nat) → List Char → Except Fault (Parsed (List TypeSignature))
  | fuel + 1, '^' :: rest => do
      let (t, rest) ← exceptionType resolve (fuel + 1) rest
      let (ts, rest) ← exceptionTypes resolve fuel rest
      .ok (t :: ts, rest)
  | _, s => .ok ([], s)

def classSignature (scope : TypeScope) (owner : TypeVariableOwner) (fuel : Nat) (s : List Char) :
    Except Fault (Parsed ClassSignature) := do
  let ((parameters, resolve), s) ← typeParameters scope owner fuel s
  let (superclass, s) ← classType resolve fuel s
  let (interfaces, s) ← classTypes resolve fuel s
  .ok (⟨parameters, some superclass, interfaces⟩, s)

def methodSignature (scope : TypeScope) (owner : TypeVariableOwner) (fuel : Nat) (s : List Char) :
    Except Fault (Parsed MethodSignature) := do
  let ((formals, resolve), s) ← typeParameters scope owner fuel s
  let (_, s) ← expect '(' "`(`" s
  let (parameters, s) ← parameterTypes resolve fuel s
  let (result, s) ← returnType resolve fuel s
  let (exceptions, s) ← exceptionTypes resolve fuel s
  .ok (⟨formals, parameters, result, exceptions⟩, s)

def byteLength : List Char → Nat
  | [] => 0
  | c :: cs => c.utf8Size + byteLength cs

/-- The first byte of a character, as the character of that value. -/
def leadByte (c : Char) : Char :=
  let n := c.toNat
  if n < 0x80 then c
  else if n < 0x800 then Char.ofNat (0xC0 + n / 0x40)
  else if n < 0x10000 then Char.ofNat (0xE0 + n / 0x1000)
  else Char.ofNat (0xF0 + n / 0x40000)

def position (input : String) (rest : List Char) : Nat := byteLength input.toList - byteLength rest

def Fault.toError (input : String) : Fault → SignatureError
  | .ended expected => .unexpectedEnd input expected
  | .unexpected [] expected => .unexpectedEnd input expected
  | .unexpected (c :: rest) expected =>
    .unexpected input (position input (c :: rest)) (leadByte c) expected
  | .unbound name => .unboundTypeVariable name

/-- Run a reader on a whole text, of which nothing may be left. Every production takes a character
before it comes back to itself, so that the length of the text bounds the work. -/
def parseWith {α : Type} (read : (fuel : Nat) → List Char → Except Fault (Parsed α)) (input : String) :
    Except SignatureError α :=
  match read (input.toList.length + 2) input.toList with
  | .ok (value, []) => .ok value
  | .ok (_, rest) => .error (.trailingInput input (position input rest))
  | .error fault => .error (fault.toError input)

def parseField (scope : TypeScope) (input : String) : Except SignatureError TypeSignature :=
  parseWith (javaType (resolveIn scope (.ofClass ⟨""⟩) [])) input

def parseClass (scope : TypeScope) (type : TypeName) (input : String) :
    Except SignatureError ClassSignature :=
  parseWith (classSignature scope (.ofClass type)) input

def parseMethod (scope : TypeScope) (owner : TypeVariableOwner) (input : String) :
    Except SignatureError MethodSignature :=
  parseWith (methodSignature scope owner) input

def parameterCount (desc : String) : Except SignatureError Nat :=
  (parseMethod .empty (.ofMethod ⟨""⟩ "" desc) desc).map (·.parameters.length)

end ClassAtlas.Signature
