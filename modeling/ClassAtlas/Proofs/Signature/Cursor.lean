import ClassAtlas.Proofs.Signature.Encoding

/-! # Reading signatures from bytes

The productions of the grammar once more, for a text of which some bytes are left. Here things can go wrong that
cannot go wrong with characters: a byte is taken where none is left, a name is cut out within a character, or a loop
goes on without taking anything. Each of these is a mishap of its own, so that it can be said that none of them
happens.
-/

namespace ClassAtlas.Signature

inductive Mishap where
  | outOfRange
  /-- A name starts or ends within a character. -/
  | splitCharacter
  /-- The fuel is used up. -/
  | endless
  deriving DecidableEq

/-- Why a reader of bytes stopped. Where a byte was wrong, the bytes left start with it. -/
inductive Halt where
  | ended (expected : String)
  | unexpected (left : List UInt8) (expected : String)
  | unbound (name : String)
  | mishap (m : Mishap)
  deriving DecidableEq

/-- A reader of bytes goes on from the bytes that are left. -/
abbrev Cursor (α : Type) := StateT (List UInt8) (Except Halt) α

namespace Cursor

variable {α β : Type}

def halt (h : Halt) : Cursor α := fun _ => .error h

def advance : Cursor Unit
  | [] => .error (.mishap .outOfRange)
  | _ :: left => .ok ((), left)

def refuse (expected : String) : Cursor α := fun left =>
  .error (if left.isEmpty then .ended expected else .unexpected left expected)

/-- Go by the next byte, which is taken if it is a key. -/
@[irreducible]
def byNext (keys : List Char) (atEnd : Cursor α) (taken : Char → Cursor α) (other : Cursor α) : Cursor α
  | [] => atEnd []
  | b :: left =>
    if (keys.map byte).contains b then (advance >>= fun _ => taken (Char.ofNat b.toNat)) (b :: left)
    else other (b :: left)

def onKey (keys : List Char) (taken : Char → Cursor α) (other : Cursor α) : Cursor α := byNext keys other taken other

def expect (k : Char) (expected : String) : Cursor Unit := onKey [k] (fun _ => pure ()) (refuse expected)

/-- Cut out what comes before the next of the stops. -/
def identifier (stops : List Char) (expected : String) : Cursor String := fun left =>
  let name := left.takeWhile fun b => !(stops.map byte).contains b
  let behind := left.dropWhile fun b => !(stops.map byte).contains b
  if behind.isEmpty then .error (.ended expected)
  else if name.isEmpty then .error (.unexpected behind expected)
  else (String.fromUTF8? name.toByteArray).elim (.error (.mishap .splitCharacter)) fun name => .ok (name, behind)

/-- An item, which gets a mark, and the items after it. -/
def listOf (mark : α → α) (item : Cursor α) (items : Cursor (List α)) : Cursor (List α) := do
  let v ← item
  let vs ← items
  return mark v :: vs

/-- Read something, go back to its start and read it again. -/
def again (first : Cursor α) (second : α → Cursor β) : Cursor β := do
  let start ← get
  let v ← first
  set start
  second v

/-! ## Types -/

def baseTypeOr (other : Cursor TypeSignature) : Cursor TypeSignature :=
  onKey ['B', 'C', 'D', 'F', 'I', 'J', 'S', 'Z']
    (fun c => (TypeName.primitive? c).elim (refuse "base type") fun t => return .ofType t) other

/-- A type variable after its `T`. -/
def typeVariable (resolve : Resolve) : Cursor TypeSignature := do
  let name ← identifier [';'] "type variable name"
  advance
  (resolve name).elim (halt (.unbound name)) fun owner => return .ofVariable ⟨name, owner⟩

/-- A reference type after its first character. -/
def afterKey (resolve : Resolve) (element : Cursor TypeSignature) (tail : String → Cursor TypeSignature) :
    (key : Char) → Cursor TypeSignature
  | 'L' => identifier classStops "class name" >>= tail
  | 'T' => typeVariable resolve
  | _ => do
    let t ← element
    return { t with depth := t.depth + 1 }

def classArguments (arguments : Cursor (List TypeSignature)) : Cursor (List TypeSignature) :=
  onKey ['<'] (fun _ => arguments) (pure [])

def classEnd (tail : String → Cursor TypeSignature) (name : String) (args : List TypeSignature) : Cursor TypeSignature :=
  onKey ['.', ';'] (fun
    | '.' => do
      let inner ← identifier classStops "inner class name"
      tail (name ++ "$" ++ inner)
    | _ => pure (.ofType (.ofInternal name) args)) (refuse "`;`")

mutual
def reference (resolve : Resolve) : (fuel : Nat) → Cursor TypeSignature
  | 0 => halt (.mishap .endless)
  | fuel + 1 =>
    onKey ['L', 'T', '['] (afterKey resolve (baseTypeOr (reference resolve fuel)) (classTail resolve fuel))
      (refuse "reference type")
def classTail (resolve : Resolve) : (fuel : Nat) → (name : String) → Cursor TypeSignature
  | 0, _ => halt (.mishap .endless)
  | fuel + 1, name => classArguments (arguments resolve fuel) >>= classEnd (classTail resolve fuel) name
def arguments (resolve : Resolve) : (fuel : Nat) → Cursor (List TypeSignature)
  | 0 => halt (.mishap .endless)
  | fuel + 1 =>
    let marked (mark : TypeSignature → TypeSignature) := listOf mark (reference resolve fuel) (arguments resolve fuel)
    byNext ['>', '*', '+', '-'] (refuse "`>`") (fun
      | '>' => pure []
      | '*' => do
        let args ← arguments resolve fuel
        return .unbounded :: args
      | '+' => marked fun t => { t with variance := .covariant }
      | _ => marked fun t => { t with variance := .contravariant }) (marked id)
end

def javaType (resolve : Resolve) (fuel : Nat) : Cursor TypeSignature := baseTypeOr (reference resolve fuel)

/-- A reference type that starts with one of the keys. -/
def only (keys : List Char) (expected : String) (resolve : Resolve) : (fuel : Nat) → Cursor TypeSignature
  | 0 => halt (.mishap .endless)
  | fuel + 1 => onKey keys (afterKey resolve (javaType resolve fuel) (classTail resolve fuel)) (refuse expected)

def returnType (resolve : Resolve) (fuel : Nat) : Cursor TypeSignature :=
  onKey ['V'] (fun _ => pure (.ofType .void)) (javaType resolve fuel)

/-! ## Declarations -/

def classBound (resolve : Resolve) : (fuel : Nat) → Cursor (Option TypeSignature)
  | 0 => halt (.mishap .endless)
  | fuel + 1 => onKey ['L', 'T', '['] (fun key => do
      let t ← afterKey resolve (javaType resolve fuel) (classTail resolve fuel) key
      return some t) (pure none)

/-- Items that a key stands before, as long as there are any. -/
def eachAfter (k : Char) (item : (fuel : Nat) → Cursor α) : (fuel : Nat) → Cursor (List α)
  | 0 => halt (.mishap .endless)
  | fuel + 1 => onKey [k] (fun _ => listOf id (item (fuel + 1)) (eachAfter k item fuel)) (pure [])

/-- Items up to a closing key, which is taken, or up to the end. -/
def eachUntil (close : List Char) (atEnd : Cursor (List α)) (item : (fuel : Nat) → Cursor α) :
    (fuel : Nat) → Cursor (List α)
  | 0 => halt (.mishap .endless)
  | fuel + 1 => byNext close atEnd (fun _ => pure []) (listOf id (item (fuel + 1)) (eachUntil close atEnd item fuel))

def formalParameter (resolve : Resolve) (fuel : Nat) : Cursor FormalParameter := do
  let name ← identifier [':'] "type parameter name"
  expect ':' "`:`"
  let bound ← classBound resolve fuel
  let interfaces ← eachAfter ':' (reference resolve) fuel
  return ⟨name, bound, interfaces⟩

/-- A list of type parameters after its `<`. -/
def formalParameters (resolve : Resolve) : (fuel : Nat) → Cursor (List FormalParameter) :=
  eachUntil ['>'] (refuse "`>`") (formalParameter resolve)

/-- The list is read for its names, and once more with these names known. -/
def typeParameters (scope : TypeScope) (owner : TypeVariableOwner) (fuel : Nat) :
    Cursor (List FormalParameter × Resolve) :=
  onKey ['<'] (fun _ => again (formalParameters (fun _ => some owner) fuel) fun collected => do
    let resolve := resolveIn scope owner (collected.map (·.name))
    let ps ← formalParameters resolve fuel
    return (ps, resolve)) (pure ([], resolveIn scope owner []))

def classTypes (resolve : Resolve) : (fuel : Nat) → Cursor (List TypeSignature) :=
  eachUntil [] (pure []) (only ['L'] "`L`" resolve)

def supertypes (resolve : Resolve) (parameters : List FormalParameter) (fuel : Nat) : Cursor ClassSignature := do
  let superclass ← only ['L'] "`L`" resolve fuel
  let interfaces ← classTypes resolve fuel
  return ⟨parameters, some superclass, interfaces⟩

def methodTypes (resolve : Resolve) (formals : List FormalParameter) (fuel : Nat) : Cursor MethodSignature := do
  expect '(' "`(`"
  let parameters ← eachUntil [')'] (refuse "`)`") (javaType resolve) fuel
  let result ← returnType resolve fuel
  let exceptions ← eachAfter '^' (only ['L', 'T'] "exception type" resolve) fuel
  return ⟨formals, parameters, result, exceptions⟩

def classSignature (scope : TypeScope) (owner : TypeVariableOwner) (fuel : Nat) : Cursor ClassSignature := do
  let (parameters, resolve) ← typeParameters scope owner fuel
  supertypes resolve parameters fuel

def methodSignature (scope : TypeScope) (owner : TypeVariableOwner) (fuel : Nat) : Cursor MethodSignature := do
  let (formals, resolve) ← typeParameters scope owner fuel
  methodTypes resolve formals fuel

/-! ## Whole texts -/

def place (input : String) (left : List UInt8) : Nat := (bytes input).length - left.length

/-- The error that a text is refused with. The byte that it shows is looked up here. -/
def report (input : String) : Halt → Except Mishap SignatureError
  | .ended expected => .ok (.unexpectedEnd input expected)
  | .unexpected left expected => left.head?.elim (.error .outOfRange) fun b =>
      .ok (.unexpected input (place input left) (Char.ofNat b.toNat) expected)
  | .unbound name => .ok (.unboundTypeVariable name)
  | .mishap m => .error m

/-- Read a text from its start, of which nothing may be left. -/
def whole (input : String) (read : Cursor α) : Except Mishap (Except SignatureError α) :=
  match read (bytes input) with
  | .ok (v, left) => .ok (if left.isEmpty then .ok v else .error (.trailingInput input (place input left)))
  | .error halt => (report input halt).map .error

end Cursor

end ClassAtlas.Signature
