import ClassAtlas.ClassPool
import ClassAtlas.Element.Basic
import ClassAtlas.Signature.Parser

/-! # The element index

All elements of a model. Every element has a key, and asking for a key a second time gives the
element that it had the first time. The given classes are discovered at once, with their members,
parameters and annotations; other elements appear when they are asked for.
-/

namespace ClassAtlas

/-- The elements of a model and the classes they are about. -/
structure ElementIndex where
  classes : ClassPool
  /-- How many of the classes were given; the others were made up. -/
  given : Nat
  /-- Elements with the numbers 1, 2, 3, … -/
  discovered : List (ElementKey × Element) := []
  /-- Elements with the numbers 0, -1, -2, … -/
  synthetic : List (ElementKey × Element) := []
  /-- The elements that discovery found below an element. -/
  childLists : List (ElementId × List ElementId) := []
  deriving Repr, Inhabited

namespace ElementIndex

/-! ## Interning -/

def find? (ix : ElementIndex) (key : ElementKey) : Option ElementId :=
  match ix.discovered.findIdx? (·.1 == key) with
  | some i => some ⟨(i : Int) + 1⟩
  | none => (ix.synthetic.findIdx? (·.1 == key)).map fun i => ⟨-(i : Int)⟩

def derivesSynthetic (ix : ElementIndex) : Element → Bool
  | .classDef c => ix.given ≤ c
  | .member _ declaring _ owner _ => decide (ix.given ≤ declaring) || owner.isSynthetic
  | .parameter method _ => method.isSynthetic
  | .annotationUse owner _ => owner.isSynthetic
  | .signature owner _ => owner.isSynthetic
  | .value owner _ => owner.isSynthetic

/-- The key's element, added to the index if the key is new. -/
def intern (key : ElementKey) (element : Element) (ix : ElementIndex) : ElementId × ElementIndex :=
  match ix.find? key with
  | some id => (id, ix)
  | none =>
    if ix.derivesSynthetic element then
      (⟨-(ix.synthetic.length : Int)⟩, { ix with synthetic := ix.synthetic ++ [(key, element)] })
    else
      (⟨(ix.discovered.length : Int) + 1⟩, { ix with discovered := ix.discovered ++ [(key, element)] })

def internAll : List (ElementKey × Element) → ElementIndex → List ElementId × ElementIndex
  | [], ix => ([], ix)
  | (key, element) :: rest, ix =>
    let (id, ix) := ix.intern key element
    let (ids, ix) := internAll rest ix
    (id :: ids, ix)

/-! ## Looking up -/

def get? (ix : ElementIndex) (id : ElementId) : Option Element :=
  if 0 < id.val then (ix.discovered[(id.val - 1).toNat]?).map (·.2)
  else (ix.synthetic[id.val.natAbs]?).map (·.2)

def kind? (ix : ElementIndex) (id : ElementId) : Option ElementKind := (ix.get? id).map Element.kind

def parent? (ix : ElementIndex) (id : ElementId) : Option ElementId := (ix.get? id).bind Element.parent?

/-- What discovery found below an element, in declaration order. -/
def children (ix : ElementIndex) (id : ElementId) : List ElementId :=
  ((ix.childLists.find? (·.1 == id)).map (·.2)).getD []

/-- The class elements: given classes first, then those made up. -/
def classIds (ix : ElementIndex) : List ElementId :=
  (List.range ix.classes.length).filterMap fun c => ix.find? (.classDef c)

def classByName? (ix : ElementIndex) (t : TypeName) : Option ElementId :=
  (ix.classes.indexOf? t).bind fun c => ix.find? (.classDef c)

def ids (ix : ElementIndex) : List ElementId :=
  (List.range ix.synthetic.length).reverse.map (fun i => ⟨-(i : Int)⟩) ++
    (List.range ix.discovered.length).map fun i => ⟨(i : Int) + 1⟩

def size (ix : ElementIndex) : Nat := ix.discovered.length + ix.synthetic.length

def ownClass? (ix : ElementIndex) (id : ElementId) : Option Nat :=
  match ix.get? id with
  | some (.classDef c) => some c
  | _ => none

/-- Position of the class that an element is, or that a member is seen from. -/
def classIndex? (ix : ElementIndex) (id : ElementId) : Option Nat :=
  match ix.get? id with
  | some (.classDef c) => some c
  | some (.member _ _ _ owner _) => ix.ownClass? owner
  | _ => none

def classDeclaration? (ix : ElementIndex) (id : ElementId) : Option ClassDeclaration :=
  (ix.ownClass? id).bind fun c => ix.classes[c]?

def methodDeclaration? (ix : ElementIndex) (id : ElementId) :
    Option (ClassDeclaration × MethodDeclaration) :=
  match ix.get? id with
  | some (.member .method declaring position _ _) => do
      let c ← ix.classes[declaring]?
      let m ← c.methods[position]?
      return (c, m)
  | _ => none

def fieldDeclaration? (ix : ElementIndex) (id : ElementId) :
    Option (ClassDeclaration × FieldDeclaration) :=
  match ix.get? id with
  | some (.member .field declaring position _ _) => do
      let c ← ix.classes[declaring]?
      let f ← c.fields[position]?
      return (c, f)
  | _ => none

def annotationEntries (ix : ElementIndex) (id : ElementId) : List AnnotationEntry :=
  match ix.get? id with
  | some (.classDef c) => (ix.classes[c]?.map (·.annotations)).getD []
  | some (.member .field _ _ _ _) => ((ix.fieldDeclaration? id).map (·.2.annotations)).getD []
  | some (.member .method _ _ _ _) => ((ix.methodDeclaration? id).map (·.2.annotations)).getD []
  | some (.parameter method position) =>
    ((ix.methodDeclaration? method).map (·.2.annotationsOf position)).getD []
  | _ => []

def annotationAt? (ix : ElementIndex) (id : ElementId) : Option AnnotationEntry :=
  match ix.get? id with
  | some (.annotationUse owner position) => (ix.annotationEntries owner)[position]?
  | _ => none

/-! ## Members -/

def annotations (owner : ElementId) (ix : ElementIndex) : List ElementId × ElementIndex :=
  ix.internAll ((List.range (ix.annotationEntries owner).length).map fun i =>
    (.annotationUse owner i, .annotationUse owner i))

/-- Number of parameters of a method element; a descriptor that cannot be read has none. -/
def parameterCount (ix : ElementIndex) (method : ElementId) : Nat :=
  match ix.methodDeclaration? method with
  | none => 0
  | some (_, m) => (Signature.parameterCount m.desc).toOption.getD 0

def parameters (method : ElementId) (ix : ElementIndex) : List ElementId × ElementIndex :=
  ix.internAll ((List.range (ix.parameterCount method)).map fun i =>
    (.parameter method i, .parameter method i))

def declaredMember (kind : MemberKind) (declaring position : Nat) (ix : ElementIndex) :
    ElementId × ElementIndex :=
  let (owner, ix) := ix.intern (.classDef declaring) (.classDef declaring)
  ix.intern (.member kind declaring position declaring) (.member kind declaring position owner none)

/-- The element of a member as seen from a class. -/
def member (kind : MemberKind) (declaring position seenFrom : Nat) (ix : ElementIndex) :
    ElementId × ElementIndex :=
  if seenFrom = declaring then ix.declaredMember kind declaring position
  else
    let (owner, ix) := ix.intern (.classDef seenFrom) (.classDef seenFrom)
    let (origin, ix) := ix.declaredMember kind declaring position
    ix.intern (.member kind declaring position seenFrom)
      (.member kind declaring position owner (some origin))

/-- The elements of several members, given by declaring class and position, as seen from a class. -/
def members (kind : MemberKind) (seenFrom : Nat) :
    List (Nat × Nat) → ElementIndex → List ElementId × ElementIndex
  | [], ix => ([], ix)
  | (declaring, position) :: rest, ix =>
    let (id, ix) := ix.member kind declaring position seenFrom
    let (ids, ix) := members kind seenFrom rest ix
    (id :: ids, ix)

/-- What a subclass sees of a superclass's members: a name (and, of methods, a descriptor), unless
the member is hidden from it. -/
def visibleMembers (kind : MemberKind) (d : ClassDeclaration) : List (Option (String × String)) :=
  let hidden := fun (access : Access) => access &&& (Access.privateFlag ||| Access.staticFlag) != 0
  match kind with
  | .field => d.fields.map fun f => if hidden f.access then none else some (f.name, "")
  | .method => d.methods.map fun m =>
    if m.isConstructor || m.isStaticInitializer || hidden m.access then none
    else some (m.name, m.desc)

def memberNames (kind : MemberKind) (d : ClassDeclaration) : List (String × String) :=
  match kind with
  | .field => d.fields.map fun f => (f.name, "")
  | .method => d.methods.map fun m => (m.name, m.desc)

/-- Positions of the visible members whose names are new, and all names after them. -/
def selectNew (declaring : Nat) : (position : Nat) → List (Option (String × String)) →
    List (String × String) → List (Nat × Nat) × List (String × String)
  | _, [], seen => ([], seen)
  | i, none :: rest, seen => selectNew declaring (i + 1) rest seen
  | i, some name :: rest, seen =>
    if seen.contains name then selectNew declaring (i + 1) rest seen
    else
      let (found, seen) := selectNew declaring (i + 1) rest (name :: seen)
      ((declaring, i) :: found, seen)

/-- The members that a class takes over from these superclasses, nearest first. -/
def inheritedFrom (kind : MemberKind) (pool : ClassPool) :
    (supers : List Nat) → List (String × String) → List (Nat × Nat)
  | [], _ => []
  | c :: rest, seen =>
    let (found, seen) := selectNew c 0 ((pool[c]?.map (visibleMembers kind)).getD []) seen
    found ++ inheritedFrom kind pool rest seen

/-- The members of a class by declaring class and position: its own and, when asked for, the ones it
takes over. -/
def memberPlaces (kind : MemberKind) (pool : ClassPool) (c : Nat) (inherited : Bool) :
    List (Nat × Nat) :=
  let own := (pool[c]?.map (memberNames kind)).getD []
  let declared := (List.range own.length).map fun i => (c, i)
  if inherited then declared ++ inheritedFrom kind pool (pool.superclassChain c).tail own else declared

def membersOf (kind : MemberKind) (id : ElementId) (inherited : Bool) (ix : ElementIndex) :
    List ElementId × ElementIndex :=
  match ix.classIndex? id with
  | none => ([], ix)
  | some c => ix.members kind c (memberPlaces kind ix.classes c inherited)

def fields (id : ElementId) (inherited : Bool) (ix : ElementIndex) : List ElementId × ElementIndex :=
  ix.membersOf .field id inherited

def methods (id : ElementId) (inherited : Bool) (ix : ElementIndex) : List ElementId × ElementIndex :=
  ix.membersOf .method id inherited

def internSignature (owner : ElementId) (slot : SignatureSlot) (type : TypeSignature)
    (ix : ElementIndex) : ElementId × ElementIndex :=
  ix.intern (.signature owner slot) (.signature owner type)

def internValue (owner : ElementId) (key : String) (literal : Literal) (ix : ElementIndex) :
    ElementId × ElementIndex :=
  ix.intern (.value owner key) (.value owner literal)

/-! ## Discovery -/

def setChildren (id : ElementId) (ids : List ElementId) (ix : ElementIndex) : ElementIndex :=
  { ix with childLists := ix.childLists ++ [(id, ids)] }

/-- Intern the annotations of each element and remember them as its children. -/
def annotateAll : List ElementId → ElementIndex → ElementIndex
  | [], ix => ix
  | id :: rest, ix =>
    let (marks, ix) := ix.annotations id
    annotateAll rest (ix.setChildren id marks)

def discoverField (c position : Nat) (ix : ElementIndex) : ElementId × ElementIndex :=
  let (id, ix) := ix.declaredMember .field c position
  (id, ix.annotateAll [id])

def discoverMethod (c position : Nat) (ix : ElementIndex) : ElementId × ElementIndex :=
  let (id, ix) := ix.declaredMember .method c position
  let (marks, ix) := ix.annotations id
  let (params, ix) := ix.parameters id
  let ix := ix.annotateAll params
  (id, ix.setChildren id (marks ++ params))

def forPositions (step : Nat → ElementIndex → ElementId × ElementIndex) :
    List Nat → ElementIndex → List ElementId × ElementIndex
  | [], ix => ([], ix)
  | i :: rest, ix =>
    let (id, ix) := step i ix
    let (ids, ix) := forPositions step rest ix
    (id :: ids, ix)

def discoverClass (c : Nat) (ix : ElementIndex) : ElementIndex :=
  match ix.classes[c]? with
  | none => ix
  | some d =>
    let (id, ix) := ix.intern (.classDef c) (.classDef c)
    let (marks, ix) := ix.annotations id
    let (fieldIds, ix) := forPositions (discoverField c) (List.range d.fields.length) ix
    let (methodIds, ix) := forPositions (discoverMethod c) (List.range d.methods.length) ix
    ix.setChildren id (marks ++ fieldIds ++ methodIds)

def ofClasses (classes : List ClassDeclaration) : ElementIndex :=
  (List.range classes.length).foldl (fun ix c => ix.discoverClass c)
    { classes := classes, given := classes.length }

/-- A class that stands for a type known by name only, with a method of no parameters for each name.
-/
def stub (t : TypeName) (methods : List String) : ClassDeclaration :=
  let base := ClassDeclaration.ofType t
  { base with
    access := base.access ||| Access.syntheticFlag
    methods := methods.map fun name => { name := name, desc := "()V" } }

/-- The class of a name, made up if there is none. -/
def synthesizeClass (t : TypeName) (methods : List String) (ix : ElementIndex) :
    ElementId × ElementIndex :=
  match ix.classByName? t with
  | some id => (id, ix)
  | none =>
    let c := ix.classes.length
    let ix := { ix with classes := ix.classes ++ [stub t methods] }
    let ix := ix.discoverClass c
    ix.intern (.classDef c) (.classDef c)

/-! ## Calls -/

/-- The method of a class that a call with this name and descriptor means. Methods of made-up
classes are known by name alone. -/
def methodPosition? (ix : ElementIndex) (name desc : String) (c : Nat) : Option Nat :=
  (ix.classes[c]?).bind fun d =>
    if ix.given ≤ c then d.methods.findIdx? (·.name == name)
    else d.methods.findIdx? fun m => m.name == name && m.desc == desc

/-- The method that a call means: the first match in the lookup order of the owner's class. -/
def resolveMethod? (ix : ElementIndex) (owner : TypeName) (name desc : String) : Option ElementId := do
  let c ← ix.classes.indexOf? owner
  let (d, m) ← (ix.classes.lookupOrder c).findSome? fun d =>
    (ix.methodPosition? name desc d).map (d, ·)
  ix.find? (.member .method d m d)

end ElementIndex

end ClassAtlas
