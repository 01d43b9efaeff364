import ClassAtlas.Proofs.Growth
import ClassAtlas.Proofs.Ordered

/-! # Types once resolved stay

A resolver forgets nothing, and what it remembers it does not resolve again. So the declared type of an
element, once it has been asked for, is the same ever after, although the index grows and classes are
added to it that would make a difference to a new resolver.
-/

namespace ClassAtlas

namespace Ordered

variable {κ ν : Type} [BEq κ]

def Includes (a b : List (κ × ν)) : Prop := ∀ key value, get? key a = some value → get? key b = some value

theorem Includes.refl (a : List (κ × ν)) : Includes a a := fun _ _ found => found

theorem Includes.trans {a b c : List (κ × ν)} (h : Includes a b) (h' : Includes b c) : Includes a c :=
  fun key value found => h' key value (h key value found)

theorem Includes.put [LawfulBEq κ] {a b : List (κ × ν)} (h : Includes a b) {key : κ}
    (absent : get? key a = none) (value : ν) : Includes a (put key value b) := by
  intro other value' found
  have different : other ≠ key := by
    rintro rfl
    rw [absent] at found
    cases found
  rw [get?_put_ne different]
  exact h other value' found

end Ordered

namespace SignatureResolver

open Ordered (Includes)

variable {r r' : SignatureResolver} (pool : ClassPool)

/-- One resolver is an earlier state of another. -/
structure Extends (r r' : SignatureResolver) : Prop where
  classes : Includes r.classes r'.classes
  methods : Includes r.methods r'.methods
  fields : Includes r.fields r'.fields
  bindings : Includes r.bindings r'.bindings

theorem Extends.refl (r : SignatureResolver) : Extends r r := ⟨.refl _, .refl _, .refl _, .refl _⟩

theorem Extends.trans {a b c : SignatureResolver} (h : Extends a b) (h' : Extends b c) : Extends a c :=
  ⟨h.classes.trans h'.classes, h.methods.trans h'.methods, h.fields.trans h'.fields,
    h.bindings.trans h'.bindings⟩

theorem Extends.countIf (h : Extends r r') (refused : Bool) : Extends r (r'.countIf refused) := by
  cases refused with
  | true => exact ⟨h.classes, h.methods, h.fields, h.bindings⟩
  | false => exact h

/-! ## Queries forget nothing -/

theorem parseClass_extends (c : Nat) (scope : TypeScope) (r : SignatureResolver) :
    r.Extends (parseClass pool c scope r).2 := by
  unfold parseClass
  split
  · exact .refl r
  · split
    · exact .refl r
    · split
      · exact .refl r
      · exact (Extends.refl r).countIf true

theorem pushClasses_extends {resolve : Nat → SignatureResolver → ClassSignature × SignatureResolver}
    (each : ∀ c r, Extends r (resolve c r).2) (cs : List Nat) (scope : TypeScope) (r : SignatureResolver) :
    r.Extends (pushClasses pool resolve cs scope r).2 := by
  induction cs generalizing scope r with
  | nil => exact .refl r
  | cons c rest ih => exact (each c r).trans (ih _ _)

theorem resolveClass_extends (fuel c : Nat) (r : SignatureResolver) :
    r.Extends (resolveClass pool fuel c r).2 := by
  induction fuel generalizing c r with
  | zero => exact .refl r
  | succ fuel ih =>
    unfold resolveClass
    cases found : Ordered.get? c r.classes with
    | some s => exact .refl r
    | none =>
      have begun : r.Extends (r.setClass c (erasedClass pool c)) :=
        { Extends.refl r with classes := (Includes.refl _).put found _ }
      have around := begun.trans (pushClasses_extends pool ih (pool.outerChain c) .empty _)
      have parsed := fun scope => around.trans (parseClass_extends pool c scope _)
      exact { parsed _ with classes := (parsed _).classes.put found _ }

theorem classSignature_extends (c : Nat) (r : SignatureResolver) : r.Extends (classSignature pool c r).2 :=
  resolveClass_extends pool _ c r

theorem classScope_extends (c : Nat) (r : SignatureResolver) : r.Extends (classScope pool c r).2 :=
  pushClasses_extends pool (classSignature_extends pool) _ _ r

theorem methodSignature_extends (c m : Nat) (r : SignatureResolver) :
    r.Extends (methodSignature pool c m r).2 := by
  unfold methodSignature
  cases found : Ordered.get? (c, m) r.methods with
  | some s => exact .refl r
  | none =>
    have counted := fun refused => (classScope_extends pool c r).countIf refused
    exact { counted _ with methods := (counted _).methods.put found _ }

theorem fieldSignature_extends (c f : Nat) (r : SignatureResolver) : r.Extends (fieldSignature pool c f r).2 := by
  unfold fieldSignature
  cases found : Ordered.get? (c, f) r.fields with
  | some s => exact .refl r
  | none =>
    have counted := fun refused => (classScope_extends pool c r).countIf refused
    exact { counted _ with fields := (counted _).fields.put found _ }

theorem stepBindings_extends (low high : Nat) (current : TypeBindings) (r : SignatureResolver) :
    r.Extends (stepBindings pool low high current r).2 := by
  unfold stepBindings
  cases pool[high]? with
  | none => exact .refl r
  | some d => exact (classSignature_extends pool low r).trans (classSignature_extends pool high _)

theorem pathBindings_extends (pool : ClassPool) (path : List Nat) (current : TypeBindings)
    (r : SignatureResolver) : r.Extends (pathBindings pool path current r).2 := by
  match path with
  | [] | [_] => exact .refl r
  | low :: high :: rest =>
    exact (stepBindings_extends pool low high current r).trans (pathBindings_extends pool (high :: rest) _ _)

theorem bindingsFor_extends (low high : Nat) (r : SignatureResolver) :
    r.Extends (bindingsFor pool low high r).2 := by
  unfold bindingsFor
  cases found : Ordered.get? (low, high) r.bindings with
  | some b => exact .refl r
  | none =>
    cases pool.supertypePath? low high with
    | none => exact { Extends.refl r with bindings := (Includes.refl _).put found _ }
    | some path =>
      have carried := pathBindings_extends pool path .empty r
      exact { carried with bindings := carried.bindings.put found _ }

theorem seenFromOption_extends (ix : ElementIndex) (owner : ElementId) (declaring : Nat)
    (s : Option TypeSignature) (r : SignatureResolver) :
    r.Extends (seenFromOption ix owner declaring s r).2 := by
  cases s with
  | none => exact .refl r
  | some s =>
    simp only [seenFromOption, seenFrom]
    cases ix.classIndex? owner with
    | none => exact .refl r
    | some seen =>
      by_cases same : seen = declaring
      · simp only [if_pos same]
        exact .refl r
      · simp only [if_neg same]
        exact bindingsFor_extends ix.classes seen declaring r

theorem declaredType_extends (ix : ElementIndex) (id : ElementId) (r : SignatureResolver) :
    r.Extends (declaredType ix id r).2 := by
  unfold declaredType
  split
  · exact .refl r
  · next c _ =>
      unfold ownType
      cases ix.classes[c]? with
      | none => exact .refl r
      | some d => exact classSignature_extends ix.classes c r
  · exact (fieldSignature_extends _ _ _ r).trans (seenFromOption_extends _ _ _ _ _)
  · exact (methodSignature_extends _ _ _ r).trans (seenFromOption_extends _ _ _ _ _)
  · split
    · exact (methodSignature_extends _ _ _ r).trans (seenFromOption_extends _ _ _ _ _)
    · exact .refl r
  all_goals exact .refl r

theorem erasure_extends (s : TypeSignature) (r : SignatureResolver) : r.Extends (erasure pool s r).2 := by
  unfold erasure
  cases s.head with
  | named t => exact .refl r
  | var v =>
    simp only
    cases pool.indexOf? v.owner.type with
    | none => exact .refl r
    | some c => exact classScope_extends pool c r

/-! ## Answers last -/

section Lasting

variable {pool pool' : ClassPool} {r r' : SignatureResolver}

theorem classSignature_remembered (pool : ClassPool) (c : Nat) (r : SignatureResolver) :
    Ordered.get? c (classSignature pool c r).2.classes = some (classSignature pool c r).1 := by
  unfold classSignature resolveClass
  cases found : Ordered.get? c r.classes with
  | some s => exact found
  | none => exact Ordered.get?_put_self _ _ _

theorem classSignature_lasts {c : Nat} (later : (classSignature pool c r).2.Extends r') :
    classSignature pool' c r' = ((classSignature pool c r).1, r') := by
  rw [classSignature, resolveClass, later.classes c _ (classSignature_remembered pool c r)]

theorem methodSignature_lasts {c m : Nat} (later : (methodSignature pool c m r).2.Extends r') :
    methodSignature pool' c m r' = ((methodSignature pool c m r).1, r') := by
  have remembered : Ordered.get? (c, m) (methodSignature pool c m r).2.methods =
      some (methodSignature pool c m r).1 := by
    unfold methodSignature
    cases found : Ordered.get? (c, m) r.methods with
    | some s => exact found
    | none => exact Ordered.get?_put_self _ _ _
  rw [methodSignature, later.methods (c, m) _ remembered]

theorem fieldSignature_remembered (pool : ClassPool) (c f : Nat) (r : SignatureResolver) :
    Ordered.get? (c, f) (fieldSignature pool c f r).2.fields = some (fieldSignature pool c f r).1 := by
  unfold fieldSignature
  cases found : Ordered.get? (c, f) r.fields with
  | some s => exact found
  | none => exact Ordered.get?_put_self _ _ _

theorem fieldSignature_lasts {c f : Nat} (later : (fieldSignature pool c f r).2.Extends r') :
    fieldSignature pool' c f r' = ((fieldSignature pool c f r).1, r') := by
  rw [fieldSignature, later.fields (c, f) _ (fieldSignature_remembered pool c f r)]

theorem bindingsFor_lasts {low high : Nat} (later : (bindingsFor pool low high r).2.Extends r') :
    bindingsFor pool' low high r' = ((bindingsFor pool low high r).1, r') := by
  have remembered : Ordered.get? (low, high) (bindingsFor pool low high r).2.bindings =
      some (bindingsFor pool low high r).1 := by
    unfold bindingsFor
    cases found : Ordered.get? (low, high) r.bindings with
    | some b => exact found
    | none => exact Ordered.get?_put_self _ _ _
  rw [bindingsFor, later.bindings (low, high) _ remembered]

end Lasting

theorem seenFromOption_lasts {ix ix' : ElementIndex} {owner : ElementId} {declaring seen : Nat}
    {s : Option TypeSignature} (known : ix.classIndex? owner = some seen)
    (known' : ix'.classIndex? owner = some seen) (later : (seenFromOption ix owner declaring s r).2.Extends r') :
    (seenFromOption ix' owner declaring s r').1 = (seenFromOption ix owner declaring s r).1 := by
  cases s with
  | none => rfl
  | some s =>
    simp only [seenFromOption, seenFrom, known, known'] at later ⊢
    by_cases same : seen = declaring
    · simp only [if_pos same]
    · simp only [if_neg same] at later ⊢
      rw [bindingsFor_lasts later]

end SignatureResolver

/-! ## What a growing index keeps -/

namespace ElementIndex

variable {a b : ElementIndex} {id : ElementId} {entry : AnnotationEntry}

theorem Grows.class? (h : Grows a b) {c : Nat} {d : ClassDeclaration} (declared : a.classes[c]? = some d) :
    b.classes[c]? = some d := by
  obtain ⟨rest, same⟩ := h.classes
  rw [← same, List.getElem?_append_left (List.getElem?_eq_some_iff.mp declared).1]
  exact declared

theorem Grows.ownClass? (h : Grows a b) {c : Nat} (known : a.ownClass? id = some c) : b.ownClass? id = some c := by
  unfold ElementIndex.ownClass? at known ⊢
  split at known
  · next c' found =>
      rw [h.get? found]
      exact known
  · cases known

theorem Grows.classIndex? (h : Grows a b) {c : Nat} (known : a.classIndex? id = some c) :
    b.classIndex? id = some c := by
  unfold ElementIndex.classIndex? at known ⊢
  split at known
  · next c' found =>
      rw [h.get? found]
      exact known
  · next owner _ found =>
      rw [h.get? found]
      exact h.ownClass? known
  · cases known

theorem Grows.declaredField? (h : Grows a b) {d : ClassDeclaration × FieldDeclaration}
    (found : a.fieldDeclaration? id = some d) : b.fieldDeclaration? id = some d := by
  unfold ElementIndex.fieldDeclaration? at found ⊢
  split at found
  · next declaring position _ _ stored =>
      obtain ⟨c, declared, inside⟩ := Option.bind_eq_some_iff.mp found
      rw [h.get? stored]
      exact Option.bind_eq_some_iff.mpr ⟨c, h.class? declared, inside⟩
  · cases found

theorem Grows.declaredMethod? (h : Grows a b) {d : ClassDeclaration × MethodDeclaration}
    (found : a.methodDeclaration? id = some d) : b.methodDeclaration? id = some d := by
  unfold ElementIndex.methodDeclaration? at found ⊢
  split at found
  · next declaring position _ _ stored =>
      obtain ⟨c, declared, inside⟩ := Option.bind_eq_some_iff.mp found
      rw [h.get? stored]
      exact Option.bind_eq_some_iff.mpr ⟨c, h.class? declared, inside⟩
  · cases found

private theorem getElem?_getD_map {α β : Type} {o o' : Option α} {f : α → List β} {i : Nat} {x : β}
    (same : ∀ {d}, o = some d → o' = some d) (found : ((o.map f).getD [])[i]? = some x) :
    ((o'.map f).getD [])[i]? = some x := by
  cases known : o with
  | none => simp [known] at found
  | some d =>
    rw [known] at found
    rw [same known]
    exact found

theorem Grows.annotation? (h : Grows a b) {i : Nat} (found : (a.annotationEntries id)[i]? = some entry) :
    (b.annotationEntries id)[i]? = some entry := by
  unfold ElementIndex.annotationEntries at found ⊢
  split at found
  · next c stored =>
      rw [h.get? stored]
      exact getElem?_getD_map h.class? found
  · next stored =>
      rw [h.get? stored]
      exact getElem?_getD_map h.declaredField? found
  · next stored =>
      rw [h.get? stored]
      exact getElem?_getD_map h.declaredMethod? found
  · next method position stored =>
      rw [h.get? stored]
      exact getElem?_getD_map h.declaredMethod? found
  · cases found

theorem Grows.annotationAt? (h : Grows a b) (found : a.annotationAt? id = some entry) :
    b.annotationAt? id = some entry := by
  unfold ElementIndex.annotationAt? at found ⊢
  split at found
  · next owner position stored =>
      rw [h.get? stored]
      exact h.annotation? found
  · cases found

def Owned (ix : ElementIndex) : Prop :=
  ∀ {id kind declaring position owner origin}, ix.get? id = some (.member kind declaring position owner origin) →
    ∃ c, ix.classIndex? owner = some c

end ElementIndex

namespace SignatureResolver

/-- The declared type of an element is known for good. -/
def Settled (ix : ElementIndex) (r : SignatureResolver) (id : ElementId) (s : TypeSignature) : Prop :=
  ∀ ix' r', ix.Grows ix' → r.Extends r' → (declaredType ix' id r').1 = some s

theorem Settled.later {ix ix' : ElementIndex} {r r' : SignatureResolver} {id : ElementId} {s : TypeSignature}
    (settled : Settled ix r id s) (grows : ix.Grows ix') (extends' : r.Extends r') : Settled ix' r' id s :=
  fun ix'' r'' grows' extends'' => settled ix'' r'' (grows.trans grows') (extends'.trans extends'')

theorem declaredType_settled {ix : ElementIndex} (owned : ix.Owned) {id : ElementId} {r : SignatureResolver}
    {s : TypeSignature} (given : (declaredType ix id r).1 = some s) :
    Settled ix (declaredType ix id r).2 id s := by
  intro ix' r' grows later
  unfold declaredType at given later ⊢
  cases found : ix.get? id with
  | none =>
    rw [found] at given
    cases given
  | some element =>
    simp only [found] at given later
    simp only [grows.get? found]
    cases element with
    | classDef c =>
      simp only [ownType] at given later ⊢
      cases declared : ix.classes[c]? with
      | none =>
        rw [declared] at given
        cases given
      | some d =>
        simp only [declared] at given later
        simp only [grows.class? declared, classSignature_lasts later]
        exact given
    | member kind declaring position owner origin =>
      -- The signature and the bindings it is carried along were both remembered when it was asked for.
      obtain ⟨seen, known⟩ := owned found
      have known' := grows.classIndex? known
      cases kind with
      | field =>
        have first := (seenFromOption_extends ix owner declaring _ _).trans later
        simp only [fieldSignature_lasts first]
        exact (seenFromOption_lasts known known' later).trans given
      | method =>
        have first := (seenFromOption_extends ix owner declaring _ _).trans later
        simp only [methodSignature_lasts first]
        exact (seenFromOption_lasts known known' later).trans given
    | parameter method i =>
      simp only at given later ⊢
      cases stored : ix.get? method with
      | none =>
        rw [stored] at given
        cases given
      | some element =>
        simp only [stored] at given later
        simp only [grows.get? stored]
        cases element with
        | member kind declaring position owner origin =>
          obtain ⟨seen, known⟩ := owned stored
          have known' := grows.classIndex? known
          cases kind with
          | field => cases given
          | method =>
            have first := (seenFromOption_extends ix owner declaring _ _).trans later
            simp only [methodSignature_lasts first]
            exact (seenFromOption_lasts known known' later).trans given
        | classDef | parameter | signature | annotationUse | value => cases given
    | signature owner s' => exact given
    | annotationUse owner position =>
      obtain ⟨type, annotated, rfl⟩ := Option.map_eq_some_iff.mp given
      obtain ⟨entry, present, named⟩ := Option.bind_eq_some_iff.mp annotated
      simp only [grows.annotationAt? present, Option.bind_some, named, Option.map_some]
    | value owner literal =>
      cases literal <;> exact given

end SignatureResolver

end ClassAtlas
