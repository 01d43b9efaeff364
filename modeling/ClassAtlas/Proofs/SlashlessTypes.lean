import ClassAtlas.Proofs.Erasure
import ClassAtlas.Proofs.MadeUpClasses
import ClassAtlas.Proofs.Signature.Acceptance

/-! # Declared types name classes that can be found

A class that is made up for a name is found by it again unless there is a slash in the name. The types that
are read from signatures and descriptors have no slashes, and neither has what a resolver makes of them. Only
the value of an annotation can name a type with one. What a type erases to stays the same when classes are made
up, since these have no type parameters.
-/

namespace ClassAtlas

variable {s : TypeSignature}

/-! ## Types without slashes -/

/-- No name in the type has a slash, at any depth. -/
inductive TypeSignature.Slashless : TypeSignature → Prop where
  | intro {s : TypeSignature} (head : ∀ t, s.head = .named t → '/' ∉ t.text.toList)
      (args : ∀ a ∈ s.args, a.Slashless) : Slashless s

namespace TypeSignature.Slashless

variable {s s' : TypeSignature} {t : TypeName}

theorem head (h : s.Slashless) : ∀ t, s.head = .named t → '/' ∉ t.text.toList := by
  cases h with
  | intro head _ => exact head

theorem args (h : s.Slashless) : ∀ a ∈ s.args, a.Slashless := by
  cases h with
  | intro _ args => exact args

theorem congr (h : s.Slashless) (sameHead : s'.head = s.head) (sameArgs : s'.args = s.args) : s'.Slashless := by
  constructor
  · rw [sameHead]
    exact h.head
  · rw [sameArgs]
    exact h.args

theorem ofType (slashless : '/' ∉ t.text.toList) {args : List TypeSignature} (each : ∀ a ∈ args, a.Slashless) :
    (TypeSignature.ofType t args).Slashless := by
  refine ⟨?_, each⟩
  intro t' same
  cases same
  exact slashless

theorem ofInternal (name : String) : (TypeSignature.ofType (.ofInternal name)).Slashless :=
  ofType (TypeName.slash_not_mem_ofInternal name) (by simp)

theorem ofVariable (v : TypeVariable) : (TypeSignature.ofVariable v).Slashless := by
  constructor
  · intro t same
    cases same
  · intro a member
    cases member

theorem typeName? (h : s.Slashless) (named : s.typeName? = some t) : '/' ∉ t.text.toList := by
  apply h.head
  unfold TypeSignature.typeName? at named
  split at named
  · next same =>
      cases named
      exact same
  · cases named

end TypeSignature.Slashless

def FormalParameter.Slashless (p : FormalParameter) : Prop :=
  ∀ s ∈ p.bound.toList ++ p.interfaceBounds, s.Slashless

theorem FormalParameter.Slashless.upperBound? {p : FormalParameter} (h : p.Slashless)
    (leftmost : p.upperBound? = some s) : s.Slashless := by
  apply h
  rw [FormalParameter.upperBound?, Option.or_eq_some_iff] at leftmost
  rcases leftmost with bound | ⟨_, first⟩
  · exact List.mem_append_left _ (Option.mem_toList.mpr bound)
  · exact List.mem_append_right _ (List.mem_of_head? first)

structure ClassSignature.Slashless (s : ClassSignature) : Prop where
  parameters : ∀ p ∈ s.parameters, p.Slashless
  supertypes : ∀ t ∈ s.supertypes, t.Slashless

/-- About the types that its parameters and its result have. -/
structure MethodSignature.Slashless (s : MethodSignature) : Prop where
  parameters : ∀ t ∈ s.parameters, t.Slashless
  returnType : s.returnType.Slashless

def TypeBindings.Slashless (b : TypeBindings) : Prop := ∀ e ∈ b.entries, e.2.Slashless

/-! ### What is read -/

namespace Signature

variable (owner : String → TypeVariableOwner) {scope : TypeScope} {text : String}

mutual
theorem TypeSyntax.slashless (d : TypeSyntax) : (d.tree owner).Slashless := by
  match d with
  | .base b => exact .ofType (by cases b <;> simp [BaseType.type]) (by simp)
  | .ref r => exact RefSyntax.slashless r
termination_by structural d

theorem RefSyntax.slashless (d : RefSyntax) : (d.tree owner).Slashless := by
  match d with
  | .cls name rest => exact ClassSyntax.slashless rest name.string
  | .var name => exact .ofVariable _
  | .array element => exact (TypeSyntax.slashless element).congr rfl rfl
termination_by structural d

theorem ClassSyntax.slashless (d : ClassSyntax) (name : String) : (d.tree owner name).Slashless := by
  match d with
  | .done args => exact .ofType (TypeName.slash_not_mem_ofInternal name) (ArgsSyntax.slashless args)
  | .inner _ inner rest => exact ClassSyntax.slashless rest _
termination_by structural d

theorem ArgsSyntax.slashless (d : ArgsSyntax) : ∀ a ∈ d.trees owner, a.Slashless := by
  match d with
  | .absent => exact nofun
  | .given list => exact ArgList.slashless list
termination_by structural d

theorem ArgList.slashless (d : ArgList) : ∀ a ∈ d.trees owner, a.Slashless := by
  intro a member
  match d with
  | .close => cases member
  | .any rest =>
    rcases List.mem_cons.mp member with rfl | later
    · have root : (TypeSignature.ofType .object).Slashless := .ofType (by simp [TypeName.object]) (by simp)
      exact root.congr rfl rfl
    · exact ArgList.slashless rest a later
  | .type mark r rest =>
    rcases List.mem_cons.mp member with rfl | later
    · exact (RefSyntax.slashless r).congr rfl rfl
    · exact ArgList.slashless rest a later
termination_by structural d
end

theorem FormalSyntax.slashless (f : FormalSyntax) : (f.tree owner).Slashless := by
  intro s member
  rcases List.mem_append.mp member with bound | interface
  · obtain ⟨r, -, rfl⟩ := Option.map_eq_some_iff.mp (Option.mem_toList.mp bound)
    exact r.slashless owner
  · obtain ⟨r, -, rfl⟩ := List.mem_map.mp interface
    exact r.slashless owner

theorem parseClass_slashless {type : TypeName} {s : ClassSignature} (parsed : parseClass scope type text = .ok s) :
    s.Slashless := by
  obtain ⟨d, -, -, rfl⟩ := (parseClass_iff scope type text s).mp parsed
  constructor
  · intro p member
    cases formals : d.formals with
    | none => simp [ClassSigSyntax.tree, formals] at member
    | some fs =>
      simp only [ClassSigSyntax.tree, formals] at member
      obtain ⟨f, -, rfl⟩ := List.mem_map.mp member
      exact f.slashless _
  · intro t member
    rcases List.mem_cons.mp member with rfl | interface
    · exact RefSyntax.slashless _ _
    · obtain ⟨c, -, rfl⟩ := List.mem_map.mp interface
      exact RefSyntax.slashless _ _

theorem parseMethod_slashless {o : TypeVariableOwner} {s : MethodSignature}
    (parsed : parseMethod scope o text = .ok s) : s.Slashless := by
  obtain ⟨d, -, -, rfl⟩ := (parseMethod_iff scope o text s).mp parsed
  constructor
  · intro t member
    obtain ⟨p, -, rfl⟩ := List.mem_map.mp member
    exact p.slashless _
  · cases result : d.result with
    | none =>
      simp only [MethodSigSyntax.tree, result]
      exact .ofType (by simp [TypeName.void]) (by simp)
    | some type =>
      simp only [MethodSigSyntax.tree, result]
      exact type.slashless _

theorem parseField_slashless {s : TypeSignature} (parsed : parseField scope text = .ok s) : s.Slashless := by
  obtain ⟨d, -, -, rfl⟩ := (parseField_iff scope text s).mp parsed
  exact d.slashless _

end Signature

theorem TypeName.slash_not_mem_ofDescriptor? {text : String} {t : TypeName} (named : ofDescriptor? text = some t) :
    '/' ∉ t.text.toList := by
  obtain ⟨element, read, rfl⟩ := Option.map_eq_some_iff.mp named
  have plain : '/' ∉ element.text.toList := by
    unfold ofElementDescriptor? at read
    split at read
    · cases read
    · split at read
      · cases read
        exact slash_not_mem_ofInternal _
      · cases read
    · next c _ =>
        obtain ⟨p, found, rfl⟩ := Option.map_eq_some_iff.mp read
        have primitive : ∀ p ∈ primitives, '/' ∉ p.2.toList := by simp [primitives]
        exact primitive p (List.mem_of_find?_eq_some found)
    · cases read
  have pairs (n : Nat) : '/' ∉ brackets n := by
    simp [brackets, List.mem_flatten, List.mem_replicate]
  simp [plain, pairs]

/-! ### What is put in place of variables -/

theorem TypeSignature.mem_specializeAll {b : TypeBindings} {ss : List TypeSignature}
    (member : s ∈ specializeAll b ss) : ∃ s' ∈ ss, s = s'.specialize b := by
  induction ss with
  | nil => cases member
  | cons first rest ih =>
    rcases List.mem_cons.mp member with rfl | later
    · exact ⟨first, List.mem_cons_self, rfl⟩
    · obtain ⟨s', inside, same⟩ := ih later
      exact ⟨s', List.mem_cons_of_mem _ inside, same⟩

theorem TypeSignature.Slashless.specialize {b : TypeBindings} (bound : b.Slashless) (h : s.Slashless) :
    (s.specialize b).Slashless := by
  induction h with
  | @intro s head args ih =>
    obtain ⟨h, variance, depth, own⟩ := s
    cases h with
    | named t =>
      refine ⟨head, fun a member => ?_⟩
      obtain ⟨a', inside, rfl⟩ := mem_specializeAll member
      exact ih a' inside
    | var v =>
      rw [TypeSignature.specialize]
      cases found : b.find? v with
      | none => exact ⟨head, args⟩
      | some s =>
        obtain ⟨e, entry, rfl⟩ := Option.map_eq_some_iff.mp found
        exact (bound e (List.mem_of_find?_eq_some entry)).congr rfl rfl

theorem TypeBindings.Slashless.empty : TypeBindings.empty.Slashless := by
  intro e member
  cases member

theorem TypeBindings.Slashless.ofArguments (type : TypeName) (formals : List FormalParameter)
    {args : List TypeSignature} (each : ∀ a ∈ args, a.Slashless) :
    (TypeBindings.ofArguments type formals args).Slashless := by
  have step (pairs : List (String × TypeSignature)) (given : ∀ p ∈ pairs, p.2.Slashless) (b : TypeBindings)
      (h : b.Slashless) : (pairs.foldl (fun b p => b.bind ⟨p.1, .ofClass type⟩ p.2) b).Slashless := by
    induction pairs generalizing b with
    | nil => exact h
    | cons p rest ih =>
      refine ih (fun p member => given p (List.mem_cons_of_mem _ member)) _ fun e member => ?_
      rcases List.mem_append.mp member with old | new
      · exact h e (List.mem_of_mem_filter old)
      · rw [List.mem_singleton.mp new]
        exact given p List.mem_cons_self
  exact step _ (fun p member => each p.2 (List.of_mem_zip member).2) .empty .empty

/-! ## What a resolver remembers -/

/-- A signature of a class without slashes. A class that is given none has no type parameters. -/
structure ClassPool.Allows (pool : ClassPool) (c : Nat) (s : ClassSignature) : Prop where
  slashless : s.Slashless
  bare : (∀ d, pool[c]? = some d → d.signature = none) → s.parameters = []

namespace SignatureResolver

variable {pool pool' : ClassPool} {r r' : SignatureResolver} {c : Nat} {s : TypeSignature} {t : TypeName}

/-- All types that are remembered are without slashes, and classes have type parameters only by their own
    signatures. -/
structure Tidy (pool : ClassPool) (r : SignatureResolver) : Prop where
  classes : ∀ c s, r.known c = some s → pool.Allows c s
  methods : ∀ key s, Ordered.get? key r.methods = some (some s) → s.Slashless
  fields : ∀ key s, Ordered.get? key r.fields = some (some s) → s.Slashless
  bindings : ∀ key b, Ordered.get? key r.bindings = some b → b.Slashless

namespace Tidy

theorem initial (pool : ClassPool) : Tidy pool {} := ⟨nofun, nofun, nofun, nofun⟩

theorem setClass (h : Tidy pool r) {signature : ClassSignature} (allowed : pool.Allows c signature) :
    Tidy pool (r.setClass c signature) := by
  refine { h with classes := fun x s there => ?_ }
  by_cases same : x = c
  · subst same
    rw [known_setClass_self] at there
    cases there
    exact allowed
  · rw [known_setClass_ne same] at there
    exact h.classes x s there

theorem countIf (h : Tidy pool r) (refused : Bool) : Tidy pool (r.countIf refused) := by
  cases refused with
  | false => exact h
  | true => exact ⟨h.classes, h.methods, h.fields, h.bindings⟩

theorem of_put {κ ν : Type} [BEq κ] [LawfulBEq κ] {P : ν → Prop} {entries : List (κ × ν)}
    (old : ∀ key value, Ordered.get? key entries = some value → P value) (key : κ) {value : ν} (new : P value) :
    ∀ key' value', Ordered.get? key' (Ordered.put key value entries) = some value' → P value' := by
  intro key' value' found
  by_cases same : key' = key
  · rw [same, Ordered.get?_put_self] at found
    cases found
    exact new
  · rw [Ordered.get?_put_ne same] at found
    exact old key' value' found

theorem putMethod (h : Tidy pool r) (key : Nat × Nat) {s : Option MethodSignature}
    (slashless : ∀ t, s = some t → t.Slashless) :
    Tidy pool { r with methods := Ordered.put key s r.methods } := by
  have all := of_put (P := fun s => ∀ t, s = some t → MethodSignature.Slashless t)
    (fun key' _ found t same => h.methods key' t (found.trans (congrArg some same))) key slashless
  exact { h with methods := fun key' t found => all key' _ found t rfl }

theorem putField (h : Tidy pool r) (key : Nat × Nat) {s : Option TypeSignature}
    (slashless : ∀ t, s = some t → t.Slashless) :
    Tidy pool { r with fields := Ordered.put key s r.fields } := by
  have all := of_put (P := fun s => ∀ t, s = some t → TypeSignature.Slashless t)
    (fun key' _ found t same => h.fields key' t (found.trans (congrArg some same))) key slashless
  exact { h with fields := fun key' t found => all key' _ found t rfl }

theorem later (h : Tidy pool r) (later : pool.MadeUpAfter pool') : Tidy pool' r := by
  refine { h with classes := fun c s there => ⟨(h.classes c s there).slashless, fun unsigned => ?_⟩ }
  refine (h.classes c s there).bare fun d declared => unsigned d ?_
  rw [later.getElem? (List.getElem?_eq_some_iff.mp declared).1]
  exact declared

end Tidy

/-- A query of a tidy resolver gives an answer with a property and leaves the resolver tidy. -/
def Tells (pool : ClassPool) {α : Type} (query : SignatureResolver → α × SignatureResolver) (Q : α → Prop) : Prop :=
  ∀ r, Tidy pool r → Q (query r).1 ∧ Tidy pool (query r).2

theorem erasedClass_allowed (pool : ClassPool) (c : Nat) : pool.Allows c (erasedClass pool c) := by
  unfold erasedClass
  cases pool[c]? with
  | none => exact ⟨⟨nofun, nofun⟩, fun _ => rfl⟩
  | some d =>
    refine ⟨⟨nofun, fun t member => ?_⟩, fun _ => rfl⟩
    rcases List.mem_append.mp member with super | interface
    · obtain ⟨u, named, rfl⟩ := Option.map_eq_some_iff.mp (Option.mem_toList.mp super)
      obtain ⟨name, -, rfl⟩ := Option.map_eq_some_iff.mp named
      exact .ofInternal name
    · obtain ⟨u, named, rfl⟩ := List.mem_map.mp interface
      obtain ⟨name, -, rfl⟩ := List.mem_map.mp named
      exact .ofInternal name

theorem parseClass_tells (pool : ClassPool) (c : Nat) (scope : TypeScope) :
    Tells pool (parseClass pool c scope) (pool.Allows c) := by
  intro r tidy
  have erased := erasedClass_allowed pool c
  unfold parseClass
  cases declared : pool[c]? with
  | none => exact ⟨erased, tidy⟩
  | some d =>
    cases given : d.signature with
    | none =>
      simp only [given]
      exact ⟨erased, tidy⟩
    | some text =>
      simp only [given]
      cases parsed : Signature.parseClass scope d.typeName text with
      | error e => exact ⟨erased, tidy.countIf true⟩
      | ok s =>
        refine ⟨⟨Signature.parseClass_slashless parsed, fun unsigned => ?_⟩, tidy⟩
        have none := unsigned d declared
        rw [given] at none
        cases none

theorem pushClasses_tidy {resolve : Nat → SignatureResolver → ClassSignature × SignatureResolver}
    (each : ∀ c, Tells pool (resolve c) (pool.Allows c)) (cs : List Nat) (scope : TypeScope) (tidy : Tidy pool r) :
    Tidy pool (pushClasses pool resolve cs scope r).2 := by
  induction cs generalizing scope r with
  | nil => exact tidy
  | cons c rest ih => exact ih _ (each c r tidy).2

theorem resolveClass_tells (pool : ClassPool) (fuel c : Nat) :
    Tells pool (resolveClass pool fuel c) (pool.Allows c) := by
  induction fuel generalizing c with
  | zero => exact fun r tidy => ⟨erasedClass_allowed pool c, tidy⟩
  | succ fuel ih =>
    intro r tidy
    unfold resolveClass
    cases found : Ordered.get? c r.classes with
    | some s => exact ⟨tidy.classes c s found, tidy⟩
    | none =>
      have begun := tidy.setClass (erasedClass_allowed pool c)
      have around := pushClasses_tidy ih (pool.outerChain c) .empty begun
      obtain ⟨allowed, parsed⟩ := parseClass_tells pool c _ _ around
      exact ⟨allowed, parsed.setClass allowed⟩

theorem classSignature_tells (pool : ClassPool) (c : Nat) : Tells pool (classSignature pool c) (pool.Allows c) :=
  resolveClass_tells pool _ c

theorem classScope_tidy (tidy : Tidy pool r) (c : Nat) : Tidy pool (classScope pool c r).2 :=
  pushClasses_tidy (classSignature_tells pool) _ _ tidy

/-! ### Members -/

theorem parseDeclared_forall {α : Type} {P : α → Prop} {parse : String → Except SignatureError α}
    (each : ∀ text a, parse text = .ok a → P a) (signature : Option String) (desc : String) :
    ∀ a, (parseDeclared parse signature desc).1 = some a → P a := by
  have fallback : ∀ a, (parse desc).toOption = some a → P a := by
    intro a read
    cases parsed : parse desc with
    | error e =>
      rw [parsed] at read
      cases read
    | ok a' =>
      rw [parsed] at read
      cases read
      exact each desc a parsed
  unfold parseDeclared
  cases signature with
  | none => exact fallback
  | some text =>
    simp only
    cases parsed : parse text with
    | error e => exact fallback
    | ok a =>
      rintro a' same
      cases same
      exact each text a parsed

theorem methodSignature_tells (pool : ClassPool) (c m : Nat) :
    Tells pool (methodSignature pool c m) fun s => ∀ t, s = some t → t.Slashless := by
  intro r tidy
  unfold methodSignature
  cases found : Ordered.get? (c, m) r.methods with
  | some s =>
    refine ⟨fun t same => ?_, tidy⟩
    exact tidy.methods (c, m) t (found.trans (congrArg some same))
  | none =>
    have around := classScope_tidy tidy c
    simp only
    cases pool[c]?.bind fun d => d.methods[m]?.map (d, ·) with
    | none => exact ⟨nofun, (around.countIf false).putMethod (c, m) nofun⟩
    | some entry =>
      have each : ∀ text t, Signature.parseMethod (classScope pool c r).1
          (.ofMethod entry.1.typeName entry.2.name entry.2.desc) text = .ok t → t.Slashless :=
        fun _ _ => Signature.parseMethod_slashless
      have read := parseDeclared_forall each entry.2.signature entry.2.desc
      exact ⟨read, (around.countIf _).putMethod (c, m) read⟩

theorem fieldSignature_tells (pool : ClassPool) (c f : Nat) :
    Tells pool (fieldSignature pool c f) fun s => ∀ t, s = some t → t.Slashless := by
  intro r tidy
  unfold fieldSignature
  cases found : Ordered.get? (c, f) r.fields with
  | some s =>
    refine ⟨fun t same => ?_, tidy⟩
    exact tidy.fields (c, f) t (found.trans (congrArg some same))
  | none =>
    have around := classScope_tidy tidy c
    simp only
    cases pool[c]?.bind fun d => d.fields[f]? with
    | none => exact ⟨nofun, (around.countIf false).putField (c, f) nofun⟩
    | some field =>
      have each : ∀ text t, Signature.parseField (classScope pool c r).1 text = .ok t → t.Slashless :=
        fun _ _ => Signature.parseField_slashless
      have read := parseDeclared_forall each field.signature field.desc
      exact ⟨read, (around.countIf _).putField (c, f) read⟩

/-! ### Members as seen from subclasses -/

theorem stepBindings_tells (pool : ClassPool) (low high : Nat) {current : TypeBindings} (bound : current.Slashless) :
    Tells pool (stepBindings pool low high current) TypeBindings.Slashless := by
  intro r tidy
  unfold stepBindings
  cases pool[high]? with
  | none => exact ⟨bound, tidy⟩
  | some d =>
    obtain ⟨lower, tidy₁⟩ := classSignature_tells pool low r tidy
    obtain ⟨-, tidy₂⟩ := classSignature_tells pool high _ tidy₁
    refine ⟨.ofArguments _ _ ?_, tidy₂⟩
    intro a member
    cases reference : (classSignature pool low r).1.supertypes.find? fun s => s.typeName? == some d.typeName with
    | none => simp [reference] at member
    | some s =>
      simp only [reference, Option.map_some, Option.getD_some] at member
      obtain ⟨a', inside, rfl⟩ := TypeSignature.mem_specializeAll member
      have whole := lower.slashless.supertypes s (List.mem_of_find?_eq_some reference)
      exact (whole.args a' inside).specialize bound

theorem pathBindings_tells (pool : ClassPool) (path : List Nat) {current : TypeBindings} (bound : current.Slashless) :
    Tells pool (pathBindings pool path current) TypeBindings.Slashless := by
  match path with
  | [] | [_] => exact fun r tidy => ⟨bound, tidy⟩
  | low :: high :: rest =>
    intro r tidy
    obtain ⟨carried, tidy'⟩ := stepBindings_tells pool low high bound r tidy
    exact pathBindings_tells pool (high :: rest) carried _ tidy'

theorem bindingsFor_tells (pool : ClassPool) (low high : Nat) :
    Tells pool (bindingsFor pool low high) TypeBindings.Slashless := by
  intro r tidy
  unfold bindingsFor
  cases found : Ordered.get? (low, high) r.bindings with
  | some b => exact ⟨tidy.bindings (low, high) b found, tidy⟩
  | none =>
    have putting {b : TypeBindings} {r' : SignatureResolver} (bound : b.Slashless) (tidy : Tidy pool r') :
        Tidy pool { r' with bindings := Ordered.put (low, high) b r'.bindings } :=
      { tidy with bindings := Tidy.of_put tidy.bindings _ bound }
    simp only
    cases pool.supertypePath? low high with
    | none => exact ⟨.empty, putting .empty tidy⟩
    | some path =>
      obtain ⟨bound, tidy'⟩ := pathBindings_tells pool path .empty r tidy
      exact ⟨bound, putting bound tidy'⟩

theorem seenFromOption_tells (ix : ElementIndex) (owner : ElementId) (declaring : Nat) {s : Option TypeSignature}
    (slashless : ∀ t, s = some t → t.Slashless) :
    Tells ix.classes (seenFromOption ix owner declaring s) fun s => ∀ t, s = some t → t.Slashless := by
  intro r tidy
  cases s with
  | none => exact ⟨nofun, tidy⟩
  | some s =>
    simp only [seenFromOption, seenFrom]
    cases ix.classIndex? owner with
    | none => exact ⟨slashless, tidy⟩
    | some seen =>
      by_cases same : seen = declaring
      · simp only [if_pos same]
        exact ⟨slashless, tidy⟩
      · simp only [if_neg same]
        obtain ⟨bound, tidy'⟩ := bindingsFor_tells ix.classes seen declaring r tidy
        refine ⟨fun t given => ?_, tidy'⟩
        cases given
        exact (slashless s rfl).specialize bound

/-! ### Elements -/

/-- Whatever the element is, the resolver stays tidy. The type has no slashes if the element is no value, and if
    its own type has none in case it is a type. -/
theorem declaredType_tells (ix : ElementIndex) (id : ElementId) :
    Tells ix.classes (declaredType ix id) fun s => (∀ owner t, ix.get? id = some (.signature owner t) → t.Slashless) →
      ix.kind? id ≠ some .value → ∀ t, s = some t → t.Slashless := by
  intro r tidy
  have untyped {own plain : Prop} : own → plain → ∀ t : TypeSignature, none = some t → t.Slashless := by
    intro _ _ t given
    cases given
  unfold declaredType
  cases found : ix.get? id with
  | none => exact ⟨untyped, tidy⟩
  | some element =>
    cases element with
    | classDef c =>
      simp only [ownType]
      cases ix.classes[c]? with
      | none => exact ⟨untyped, tidy⟩
      | some d =>
        refine ⟨fun _ _ t given => ?_, (classSignature_tells ix.classes c r tidy).2⟩
        cases given
        refine .ofType (TypeName.slash_not_mem_ofInternal d.name) fun a member => ?_
        obtain ⟨p, -, rfl⟩ := List.mem_map.mp member
        exact .ofVariable _
    | member kind declaring position owner origin =>
      cases kind with
      | field =>
        obtain ⟨read, tidy'⟩ := fieldSignature_tells ix.classes declaring position r tidy
        obtain ⟨seen, tidy''⟩ := seenFromOption_tells ix owner declaring read _ tidy'
        exact ⟨fun _ _ => seen, tidy''⟩
      | method =>
        obtain ⟨read, tidy'⟩ := methodSignature_tells ix.classes declaring position r tidy
        have result : ∀ t, (methodSignature ix.classes declaring position r).1.map (·.returnType) = some t →
            t.Slashless := by
          intro t given
          obtain ⟨s, whole, rfl⟩ := Option.map_eq_some_iff.mp given
          exact (read s whole).returnType
        obtain ⟨seen, tidy''⟩ := seenFromOption_tells ix owner declaring result _ tidy'
        exact ⟨fun _ _ => seen, tidy''⟩
    | parameter method i =>
      simp only
      split
      · next declaring position owner _ _ =>
          obtain ⟨read, tidy'⟩ := methodSignature_tells ix.classes declaring position r tidy
          have own : ∀ t, (methodSignature ix.classes declaring position r).1.bind (·.parameters[i]?) = some t →
              t.Slashless := by
            intro t given
            obtain ⟨s, whole, part⟩ := Option.bind_eq_some_iff.mp given
            exact (read s whole).parameters t (List.mem_of_getElem? part)
          obtain ⟨seen, tidy''⟩ := seenFromOption_tells ix owner declaring own _ tidy'
          exact ⟨fun _ _ => seen, tidy''⟩
      · exact ⟨untyped, tidy⟩
    | signature owner s =>
      refine ⟨fun own _ t given => ?_, tidy⟩
      cases given
      exact own owner s rfl
    | annotationUse owner i =>
      refine ⟨fun _ _ t given => ?_, tidy⟩
      obtain ⟨u, annotated, rfl⟩ := Option.map_eq_some_iff.mp given
      obtain ⟨entry, -, named⟩ := Option.bind_eq_some_iff.mp annotated
      exact .ofType (TypeName.slash_not_mem_ofDescriptor? named) (by simp)
    | value owner literal =>
      have refused (plain : ix.kind? id ≠ some .value) : False :=
        plain (by rw [ElementIndex.kind?, found]; rfl)
      cases literal <;> exact ⟨fun _ plain => (refused plain).elim, tidy⟩

/-! ## Erasure -/

theorem erasure_tidy (tidy : Tidy pool r) (s : TypeSignature) : Tidy pool (erasure pool s r).2 := by
  unfold erasure
  cases s.head with
  | named t => exact tidy
  | var v =>
    simp only
    cases pool.indexOf? v.owner.type with
    | none => exact tidy
    | some c => exact classScope_tidy tidy c

theorem erasure_unknown {name : String} (head : s.head = .var ⟨name, .ofClass t⟩) (unknown : pool.indexOf? t = none) :
    (erasure pool s r).1 = .object := by
  simp only [erasure, head, TypeVariableOwner.type, unknown]
  rfl

theorem erasure_slashless (tidy : Tidy pool r) (slashless : s.Slashless) :
    '/' ∉ (erasure pool s r).1.text.toList := by
  have root : '/' ∉ TypeName.object.text.toList := by simp [TypeName.object]
  cases head : s.head with
  | named t =>
    simp only [erasure, head]
    exact slashless.head t head
  | var v =>
    obtain ⟨name, owner⟩ := v
    cases owner with
    | ofMethod t method desc =>
      rw [erasure_of_method head]
      exact root
    | ofClass t =>
      cases known : pool.indexOf? t with
      | none =>
        rw [erasure_unknown head known]
        exact root
      | some c =>
        obtain ⟨allowed, -⟩ := classSignature_tells pool c _ (erasure_tidy tidy s)
        rw [erasure_of_class head known]
        cases named : (((classSignature pool c (erasure pool s r).2).1.parameters.find?
            (·.name == name)).bind FormalParameter.upperBound?).bind TypeSignature.typeName? with
        | none => exact root
        | some u =>
          obtain ⟨bound, given, spelled⟩ := Option.bind_eq_some_iff.mp named
          obtain ⟨p, found, leftmost⟩ := Option.bind_eq_some_iff.mp given
          have parameter := allowed.slashless.parameters p (List.mem_of_find?_eq_some found)
          exact (parameter.upperBound? leftmost).typeName? spelled

/-- The class that a type erases to is known for good, as long as nothing but stubs is added to the pool. -/
def Erased (pool : ClassPool) (r : SignatureResolver) (s : TypeSignature) (t : TypeName) : Prop :=
  ∀ pool' r', pool.MadeUpAfter pool' → r.Extends r' → Tidy pool' r' → (erasure pool' s r').1 = t

theorem classScope_known (pool : ClassPool) (c : Nat) (r : SignatureResolver) :
    ∃ signature, (classScope pool c r).2.known c = some signature := by
  rw [classScope, pushClasses_eq]
  exact Option.isSome_iff_exists.mp (known_settleAll pool (by simp) r)

theorem erasure_lasts (concrete : s.methodVariable? = none) (pool : ClassPool) (r : SignatureResolver) :
    Erased pool (erasure pool s r).2 s (erasure pool s r).1 := by
  intro pool' r' later extension tidy
  cases head : s.head with
  | named t => simp only [erasure, head]
  | var v =>
    obtain ⟨name, owner⟩ := v
    cases owner with
    | ofMethod t method desc => simp [TypeSignature.methodVariable?, head, TypeVariableOwner.isMethod] at concrete
    | ofClass t =>
      have still := extension.trans (erasure_extends pool' s r')
      cases known : pool.indexOf? t with
      | some c =>
        have known' : pool'.indexOf? t = some c := by
          rcases later.indexOf? t with same | ⟨unknown, -⟩
          · rw [same, known]
          · rw [known] at unknown
            cases unknown
        have there : ∃ signature, (erasure pool s r).2.known c = some signature := by
          simp only [erasure, head, TypeVariableOwner.type, known]
          exact classScope_known pool c r
        obtain ⟨signature, there⟩ := there
        have there' : (erasure pool' s r').2.known c = some signature := still.classes c signature there
        rw [erasure_of_class head known, erasure_of_class head known', classSignature_of_known there,
          classSignature_of_known there']
      | none =>
        rw [erasure_unknown head known]
        cases known' : pool'.indexOf? t with
        | none => exact erasure_unknown head known'
        | some c =>
          have new : pool.length ≤ c := by
            rcases later.indexOf? t with same | ⟨-, new⟩
            · rw [same, known] at known'
              cases known'
            · exact new c known'
          obtain ⟨allowed, -⟩ := classSignature_tells pool' c _ (erasure_tidy tidy s)
          have bare := allowed.bare fun d declared => by
            obtain ⟨u, methods, rfl⟩ := later.stub new declared
            rfl
          rw [erasure_of_class head known', bare]
          rfl

theorem Erased.later (h : Erased pool r s t) (later : pool.MadeUpAfter pool') (extension : r.Extends r') :
    Erased pool' r' s t := by
  intro pool'' r'' later' extension'
  exact h pool'' r'' (later.trans later') (extension.trans extension')

end SignatureResolver

/-! ## Elements that are no values -/

/-- An element of the index that is no value and not part of one. -/
inductive ElementIndex.Valueless (ix : ElementIndex) : ElementId → Prop where
  | intro {id : ElementId} {element : Element} (stored : ix.get? id = some element) (plain : element.kind ≠ .value)
      (parent : ∀ p, element.parent? = some p → ix.Valueless p) : Valueless ix id

namespace ElementIndex

variable {ix ix' : ElementIndex} {r : SignatureResolver} {id : ElementId}

theorem Valueless.grows (h : ix.Valueless id) (grows : ix.Grows ix') : ix'.Valueless id := by
  induction h with
  | intro stored plain _ ih => exact .intro (grows.get? stored) plain ih

theorem Valueless.stored (h : ix.Valueless id) : ∃ element, ix.get? id = some element := by
  cases h with
  | intro stored => exact ⟨_, stored⟩

theorem Valueless.parent (h : ix.Valueless id) {p : ElementId} (part : ix.parent? id = some p) : ix.Valueless p := by
  cases h with
  | intro stored _ parent =>
    rw [parent?, stored] at part
    exact parent p part

theorem Coherent.valueless_type (coherent : ix.Coherent r) (tidy : r.Tidy ix.classes) (valueless : ix.Valueless id) :
    ∀ s, (r.declaredType ix id).1 = some s → s.Slashless := by
  induction valueless with
  | @intro id element stored plain _ ih =>
    have own : ∀ owner s, ix.get? id = some (.signature owner s) → s.Slashless := by
      intro owner s same
      cases Option.some.inj (stored.symm.trans same)
      obtain ⟨key, -, justified⟩ := coherent.keyed stored
      cases justified with
      | declaredType settled => exact ih owner rfl s (settled ix r (.refl ix) (.refl r))
      | @typeArgument _ i _ whole _ known part =>
        have declared : (r.declaredType ix owner).1 = some whole := by simp [SignatureResolver.declaredType, known]
        exact (ih owner rfl whole declared).args s (List.mem_of_getElem? part)
    have kind : ix.kind? id ≠ some .value := by
      rw [kind?, stored]
      intro same
      exact plain (Option.some.inj same)
    exact (SignatureResolver.declaredType_tells ix id r tidy).1 own kind

end ElementIndex

end ClassAtlas
