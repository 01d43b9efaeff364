import ClassAtlas.Proofs.EnclosingCycles

/-! # Erasing type variables

A variable stands for the first type that is reached from its declaration along leftmost bounds. The
resolver takes one step of that way only, and it looks for declarations among the parameters of classes.
So a variable whose leftmost bound is a variable, and every variable that a method declares, erases to the
root of the hierarchy.
-/

namespace ClassAtlas

namespace ClassPool

variable {pool : ClassPool} {c x : Nat} {t : TypeName}

theorem typeName_of_indexOf? (known : pool.indexOf? t = some c) : ∃ d, pool[c]? = some d ∧ d.typeName = t := by
  obtain ⟨inside, named, -⟩ := List.findIdx?_eq_some_iff_getElem.mp known
  exact ⟨pool[c], List.getElem?_eq_getElem inside, by simpa using named⟩

/-- A class is not around the class that its name denotes: links lead to the first class of a name. -/
theorem outerChain_otherName (known : pool.indexOf? t = some c) (member : x ∈ pool.outerChain c)
    {d : ClassDeclaration} (found : pool[x]? = some d) : d.typeName ≠ t := by
  obtain ⟨around, other⟩ := mem_outerChain_iff.mp member
  rcases around.cases_tail with same | ⟨inner, -, link⟩
  · exact absurd same other
  · obtain ⟨inside, -, named⟩ := Option.bind_eq_some_iff.mp link
    obtain ⟨name, -, first⟩ := Option.bind_eq_some_iff.mp named
    obtain ⟨d', found', spelled⟩ := typeName_of_indexOf? first
    cases Option.some.inj (found.symm.trans found')
    intro same
    rw [← spelled, same] at first
    exact other (Option.some.inj (first.symm.trans known))

end ClassPool

namespace SignatureResolver

variable {pool : ClassPool} {r : SignatureResolver} {c : Nat} {v w : TypeVariable} {p : FormalParameter}
  {s : TypeSignature} {t : TypeName}

/-! ## The scope of a class -/

/-- The parameters that a resolver remembers of a class. -/
def frameOf (pool : ClassPool) (r : SignatureResolver) (c : Nat) : Option ScopeFrame :=
  pool[c]?.map fun d => ⟨.ofClass d.typeName, ((r.known c).map (·.parameters)).getD []⟩

theorem scopeOf_frames (pool : ClassPool) (r : SignatureResolver) (cs : List Nat) (scope : TypeScope) :
    (scopeOf pool r cs scope).frames = scope.frames ++ cs.filterMap (frameOf pool r) := by
  induction cs generalizing scope with
  | nil => simp [scopeOf]
  | cons c rest ih =>
    rw [scopeOf, ih, List.filterMap_cons, frameOf]
    cases pool[c]? with
    | none => rfl
    | some d => simp [TypeScope.push]

theorem classSignature_of_known {signature : ClassSignature} (there : r.known c = some signature) :
    (classSignature pool c r).1 = signature := by
  have found : Ordered.get? c r.classes = some signature := there
  rw [classSignature, resolveClass, found]

theorem classScope_declaration? (known : pool.indexOf? t = some c) (name : String) (r : SignatureResolver) :
    (classScope pool c r).1.declaration? ⟨name, .ofClass t⟩ =
      (classSignature pool c (classScope pool c r).2).1.parameters.find? (·.name == name) := by
  obtain ⟨d, found, named⟩ := ClassPool.typeName_of_indexOf? known
  rw [classScope, pushClasses_eq]
  generalize after : settleAll pool (pool.outerChain c ++ [c]) r = r'
  have resolved : (r'.known c).isSome := after ▸ known_settleAll pool (by simp) r
  obtain ⟨signature, there⟩ := Option.isSome_iff_exists.mp resolved
  have others : ((pool.outerChain c).filterMap (frameOf pool r')).filter (·.owner == .ofClass t) = [] := by
    rw [List.filter_eq_nil_iff]
    intro frame member same
    obtain ⟨x, around, given⟩ := List.mem_filterMap.mp member
    obtain ⟨d', found', rfl⟩ := Option.map_eq_some_iff.mp given
    exact ClassPool.outerChain_otherName known around found' (by simpa using same)
  have own : frameOf pool r' c = some ⟨.ofClass t, signature.parameters⟩ := by
    simp [frameOf, found, named, there]
  simp [TypeScope.declaration?, scopeOf_frames, TypeScope.empty, others, own, classSignature_of_known there,
    ScopeFrame.find?]

theorem classScope_owners (pool : ClassPool) (c : Nat) (r : SignatureResolver) :
    ∀ frame ∈ (classScope pool c r).1.frames, ∃ t, frame.owner = .ofClass t := by
  intro frame member
  rw [classScope, pushClasses_eq, scopeOf_frames] at member
  simp only [TypeScope.empty, List.nil_append] at member
  obtain ⟨x, -, given⟩ := List.mem_filterMap.mp member
  obtain ⟨d, -, rfl⟩ := Option.map_eq_some_iff.mp given
  exact ⟨d.typeName, rfl⟩

/-! ## Bounds -/

/-- What a resolver finds the owner of a variable to declare under the variable's name. -/
inductive Declares (pool : ClassPool) (r : SignatureResolver) : TypeVariable → FormalParameter → Prop
  | ofClass {name : String} {t : TypeName} {c : Nat} {p : FormalParameter} (known : pool.indexOf? t = some c)
      (found : (classSignature pool c r).1.parameters.find? (·.name == name) = some p) :
      Declares pool r ⟨name, .ofClass t⟩ p
  | ofMethod {name : String} {t : TypeName} {c m : Nat} {d : ClassDeclaration} {method : MethodDeclaration}
      {signature : MethodSignature} {p : FormalParameter} (known : pool.indexOf? t = some c)
      (there : pool[c]? = some d) (member : d.methods[m]? = some method)
      (parsed : (methodSignature pool c m r).1 = some signature)
      (found : signature.typeParameters.find? (·.name == name) = some p) :
      Declares pool r ⟨name, .ofMethod t method.name method.desc⟩ p

/-- Following leftmost bounds from a variable's declaration, one comes to this type first. -/
inductive ErasesTo (pool : ClassPool) (r : SignatureResolver) : TypeVariable → TypeName → Prop
  | unbounded {v : TypeVariable} {p : FormalParameter} (declared : Declares pool r v p)
      (free : p.upperBound? = none) : ErasesTo pool r v .object
  | named {v : TypeVariable} {p : FormalParameter} {bound : TypeSignature} {t : TypeName}
      (declared : Declares pool r v p) (leftmost : p.upperBound? = some bound)
      (names : bound.typeName? = some t) : ErasesTo pool r v t
  | through {v w : TypeVariable} {p : FormalParameter} {bound : TypeSignature} {t : TypeName}
      (declared : Declares pool r v p) (leftmost : p.upperBound? = some bound) (next : bound.head = .var w)
      (rest : ErasesTo pool r w t) : ErasesTo pool r v t

/-- A class declares the variable, with a leftmost bound that names a type. -/
def BoundByClass (pool : ClassPool) (r : SignatureResolver) (v : TypeVariable) (t : TypeName) : Prop :=
  ∃ owner p bound, v.owner = .ofClass owner ∧ Declares pool r v p ∧ p.upperBound? = some bound ∧
    bound.typeName? = some t

theorem Declares.unique {owner : TypeName} {p' : FormalParameter} (owned : v.owner = .ofClass owner)
    (declared : Declares pool r v p) (declared' : Declares pool r v p') : p' = p := by
  cases declared with
  | ofClass known found =>
    cases declared' with
    | ofClass known' found' =>
      cases Option.some.inj (known.symm.trans known')
      exact Option.some.inj (found'.symm.trans found)
  | ofMethod => cases owned

/-! ## What the resolver answers -/

theorem erasure_of_class {name : String} (head : s.head = .var ⟨name, .ofClass t⟩)
    (known : pool.indexOf? t = some c) :
    (erasure pool s r).1 = ((((classSignature pool c (erasure pool s r).2).1.parameters.find?
      (·.name == name)).bind FormalParameter.upperBound?).bind TypeSignature.typeName?).getD .object := by
  simp only [erasure, head, TypeVariableOwner.type, known]
  rw [classScope_declaration? known]

theorem erasure_of_method {name method desc : String} (head : s.head = .var ⟨name, .ofMethod t method desc⟩) :
    (erasure pool s r).1 = .object := by
  have nowhere (scope : TypeScope) (classes : ∀ frame ∈ scope.frames, ∃ t, frame.owner = .ofClass t) :
      scope.declaration? ⟨name, .ofMethod t method desc⟩ = none := by
    have none : scope.frames.filter (·.owner == .ofMethod t method desc) = [] := by
      rw [List.filter_eq_nil_iff]
      intro frame member same
      obtain ⟨t', owned⟩ := classes frame member
      rw [owned] at same
      simp at same
    rw [TypeScope.declaration?, none]
    rfl
  simp only [erasure, head, TypeVariableOwner.type]
  cases pool.indexOf? t with
  | none => rfl
  | some c => simp only [nowhere _ (classScope_owners pool c r), Option.bind_none, Option.getD_none]

theorem erasure_cases (head : s.head = .var v) (declared : Declares pool (erasure pool s r).2 v p) :
    BoundByClass pool (erasure pool s r).2 v (erasure pool s r).1 ∨
      (erasure pool s r).1 = .object ∧ ∀ t, ¬BoundByClass pool (erasure pool s r).2 v t := by
  cases declared with
  | @ofClass name t c p known found =>
    have answer := erasure_of_class (r := r) head known
    rw [found, Option.bind_some] at answer
    cases named : p.upperBound?.bind TypeSignature.typeName? with
    | some b =>
      rw [named, Option.getD_some] at answer
      obtain ⟨bound, leftmost, names⟩ := Option.bind_eq_some_iff.mp named
      exact .inl ⟨t, p, bound, rfl, .ofClass known found, leftmost, answer ▸ names⟩
    | none =>
      rw [named, Option.getD_none] at answer
      refine .inr ⟨answer, ?_⟩
      rintro b ⟨-, p', bound, -, declared, leftmost, names⟩
      rw [(Declares.ofClass known found).unique rfl declared] at leftmost
      simp [leftmost, names] at named
  | ofMethod =>
    refine .inr ⟨erasure_of_method head, ?_⟩
    rintro b ⟨owner, -, -, owned, -⟩
    cases owned

theorem ErasesTo.declared (chain : ErasesTo pool r v t) : ∃ p, Declares pool r v p := by
  cases chain with
  | unbounded declared | named declared | through declared => exact ⟨_, declared⟩

theorem ErasesTo.of_boundByClass {u : TypeName} (chain : ErasesTo pool r v t) (bound : BoundByClass pool r v u) :
    t = u := by
  obtain ⟨owner, p, b, owned, declared, leftmost, names⟩ := bound
  cases chain with
  | unbounded declared' free =>
    rw [declared.unique owned declared', leftmost] at free
    cases free
  | named declared' leftmost' names' =>
    rw [declared.unique owned declared', leftmost] at leftmost'
    cases leftmost'
    exact Option.some.inj (names'.symm.trans names)
  | through declared' leftmost' next =>
    rw [declared.unique owned declared', leftmost] at leftmost'
    cases leftmost'
    simp [TypeSignature.typeName?, next] at names

/-- A variable erases to the type at the end of its leftmost bounds exactly if that is the root of the
    hierarchy, or a class declares the variable and gives it this type as its leftmost bound. Otherwise it
    erases to the root. -/
theorem erasure_follows_bounds_iff (pool : ClassPool) (r : SignatureResolver) (s : TypeSignature)
    (v : TypeVariable) (head : s.head = .var v) (t : TypeName)
    (chain : ErasesTo pool (erasure pool s r).2 v t) :
    ((erasure pool s r).1 = t ↔ t = .object ∨ BoundByClass pool (erasure pool s r).2 v t) ∧
      ((erasure pool s r).1 ≠ t → (erasure pool s r).1 = .object) := by
  obtain ⟨p, declared⟩ := chain.declared
  rcases erasure_cases head declared with bound | ⟨root, unbound⟩
  · have same := chain.of_boundByClass bound
    refine ⟨⟨fun _ => .inr (same ▸ bound), fun _ => same.symm⟩, fun different => absurd same.symm different⟩
  · refine ⟨⟨fun same => .inl (same.symm.trans root), ?_⟩, fun _ => root⟩
    rintro (rfl | bound)
    · exact root
    · exact absurd bound (unbound t)

end SignatureResolver

/-! ## A bound by a variable, and a variable of a method -/

namespace BoundedVariables

open SignatureResolver

def box : TypeName := .ofInternal "app/Box"

def number : TypeName := .ofInternal "java/lang/Number"

def owner : TypeName := .ofInternal "app/Owner"

/-- Its second parameter is bound by the first, and its method has a parameter of its own. -/
def classes : ClassPool :=
  [{ name := "app/Box", signature := some "<T:Ljava/lang/Number;S:TT;>Ljava/lang/Object;"
     fields := [{ name := "first", desc := "Ljava/lang/Number;", signature := some "TT;" },
       { name := "second", desc := "Ljava/lang/Number;", signature := some "TS;" }]
     methods := [{ name := "own", desc := "(Lapp/Owner;)Lapp/Owner;", signature := some "<S:Lapp/Owner;>(TS;)TS;" }] }]

def first : TypeVariable := ⟨"T", .ofClass box⟩

def second : TypeVariable := ⟨"S", .ofClass box⟩

def methodOwn : TypeVariable := ⟨"S", .ofMethod box "own" "(Lapp/Owner;)Lapp/Owner;"⟩

/-- The resolver after it erased a variable. -/
def after (v : TypeVariable) : SignatureResolver := (erasure classes (.ofVariable v) {}).2

theorem first_declared (v : TypeVariable) (h : v = first ∨ v = second) :
    Declares classes (after v) first ⟨"T", some (.ofType number), []⟩ := by
  rcases h with rfl | rfl <;>
    exact .ofClass (by decide +kernel : classes.indexOf? box = some 0) (by decide +kernel)

/-- The field's variable `T` erases to its bound. The bound of `S` is `T`, and that of the method's `S` is
    `app.Owner`, but both erase to the root of the hierarchy. -/
theorem bounds_not_followed :
    ((fieldSignature classes 0 0 {}).1 = some (.ofVariable first) ∧ ErasesTo classes (after first) first number ∧
      (erasure classes (.ofVariable first) {}).1 = number) ∧
    ((fieldSignature classes 0 1 {}).1 = some (.ofVariable second) ∧
      ErasesTo classes (after second) second number ∧
      (erasure classes (.ofVariable second) {}).1 = .object ∧
      (erasure classes (.ofVariable second) {}).1 ≠ number) ∧
    ((methodSignature classes 0 0 {}).1.map (·.returnType) = some (.ofVariable methodOwn) ∧
      ErasesTo classes (after methodOwn) methodOwn owner ∧
      (erasure classes (.ofVariable methodOwn) {}).1 = .object ∧
      (erasure classes (.ofVariable methodOwn) {}).1 ≠ owner) := by
  have firstChain : ErasesTo classes (after first) first number :=
    .named (first_declared first (.inl rfl)) rfl rfl
  have secondChain : ErasesTo classes (after second) second number :=
    .through (.ofClass (by decide +kernel : classes.indexOf? box = some 0)
      (by decide +kernel : _ = some ⟨"S", some (.ofVariable first), []⟩)) rfl rfl
      (.named (first_declared second (.inr rfl)) rfl rfl)
  have ownChain : ErasesTo classes (after methodOwn) methodOwn owner := by
    have parsed : (methodSignature classes 0 0 (after methodOwn)).1 = some ⟨[⟨"S", some (.ofType owner), []⟩],
        [.ofVariable methodOwn], .ofVariable methodOwn, []⟩ := by decide +kernel
    exact .named (.ofMethod (by decide +kernel : classes.indexOf? box = some 0) rfl rfl parsed rfl) rfl rfl
  obtain ⟨firstExact, -⟩ := erasure_follows_bounds_iff classes {} _ first rfl number firstChain
  obtain ⟨-, secondRoot⟩ := erasure_follows_bounds_iff classes {} _ second rfl number secondChain
  obtain ⟨-, ownRoot⟩ := erasure_follows_bounds_iff classes {} _ methodOwn rfl owner ownChain
  have secondOther : (erasure classes (.ofVariable second) {}).1 ≠ number := by decide +kernel
  have ownOther : (erasure classes (.ofVariable methodOwn) {}).1 ≠ owner := by decide +kernel
  have firstSame : (erasure classes (.ofVariable first) {}).1 = number :=
    firstExact.mpr (.inr ⟨box, _, _, rfl, first_declared first (.inl rfl), rfl, rfl⟩)
  exact ⟨⟨by decide +kernel, firstChain, firstSame⟩,
    ⟨by decide +kernel, secondChain, secondRoot secondOther, secondOther⟩,
    ⟨by decide +kernel, ownChain, ownRoot ownOther, ownOther⟩⟩

end BoundedVariables

end ClassAtlas
