import ClassAtlas.Proofs.Signature.LeftToRight

/-! # Lexical scoping of type variables

A type variable belongs to the declaration whose signature mentions it if that declaration has a type
parameter of its name, and otherwise to the innermost declaration around that has one. Only a name that
none of them declares is reported as unbound.
-/

namespace ClassAtlas

/-! ## Occurrences of type variables -/

/-- A type variable is the signature or occurs in one of its arguments. -/
inductive TypeSignature.Mentions (v : TypeVariable) : TypeSignature → Prop where
  | head {s : TypeSignature} : s.head = .var v → Mentions v s
  | arg {s a : TypeSignature} : a ∈ s.args → Mentions v a → Mentions v s

theorem TypeSignature.Mentions.congr {v : TypeVariable} {s s' : TypeSignature} (mentions : s.Mentions v)
    (head : s'.head = s.head) (args : s'.args = s.args) : s'.Mentions v := by
  cases mentions with
  | head is => exact .head (head.trans is)
  | arg member inside => exact .arg (args ▸ member) inside

/-- A type variable occurs in a bound. -/
def FormalParameter.Mentions (v : TypeVariable) (p : FormalParameter) : Prop :=
  ∃ s ∈ p.bound.toList ++ p.interfaceBounds, s.Mentions v

def ClassSignature.Mentions (v : TypeVariable) (t : ClassSignature) : Prop :=
  (∃ p ∈ t.parameters, p.Mentions v) ∨ ∃ s ∈ t.supertypes, s.Mentions v

def MethodSignature.Mentions (v : TypeVariable) (t : MethodSignature) : Prop :=
  (∃ p ∈ t.typeParameters, p.Mentions v) ∨
    ∃ s ∈ t.parameters ++ t.returnType :: t.exceptions, s.Mentions v

/-! ## Declarations around a signature -/

def ScopeFrame.Declares (f : ScopeFrame) (name : String) : Prop := ∃ p ∈ f.parameters, p.name = name

/-- The declaration has a type parameter of that name, and none inside it has. -/
def TypeScope.Innermost (scope : TypeScope) (name : String) (frame : ScopeFrame) : Prop :=
  ∃ outer inner, scope.frames = outer ++ frame :: inner ∧ frame.Declares name ∧
    ∀ f ∈ inner, ¬ f.Declares name

/-- A type variable belongs to this declaration, of type parameters with these names, or else to the
    innermost one around it. -/
structure TypeScope.Binds (scope : TypeScope) (owner : TypeVariableOwner) (names : List String)
    (v : TypeVariable) : Prop where
  declared : v.name ∈ names → v.owner = owner
  around : v.name ∉ names → ∃ frame, scope.Innermost v.name frame ∧ v.owner = frame.owner

namespace ScopeFrame

variable {f : ScopeFrame} {name : String}

theorem find?_eq_none_iff : f.find? name = none ↔ ¬ f.Declares name := by
  simp [find?, Declares]

theorem declares_of_find? {p : FormalParameter} (found : f.find? name = some p) : f.Declares name := by
  by_contra undeclared
  rw [find?_eq_none_iff.mpr undeclared] at found
  cases found

theorem find?_of_declares (declares : f.Declares name) : ∃ p, f.find? name = some p :=
  Option.ne_none_iff_exists'.mp fun missing => find?_eq_none_iff.mp missing declares

end ScopeFrame

namespace TypeScope

variable {scope : TypeScope} {name : String}

theorem lookup?_eq_some_iff {owner : TypeVariableOwner} {p : FormalParameter} :
    scope.lookup? name = some (owner, p) ↔
      ∃ frame, scope.Innermost name frame ∧ owner = frame.owner ∧ frame.find? name = some p := by
  refine List.findSome?_eq_some_iff.trans ⟨?_, ?_⟩
  · rintro ⟨inner, frame, outer, reversed, here, before⟩
    obtain ⟨p', found, same⟩ := Option.map_eq_some_iff.mp here
    cases same
    have frames : scope.frames = outer.reverse ++ frame :: inner.reverse := by
      rw [← List.reverse_reverse scope.frames, reversed]
      simp
    refine ⟨frame, ⟨_, _, frames, ScopeFrame.declares_of_find? found, fun f member => ?_⟩, rfl, found⟩
    exact ScopeFrame.find?_eq_none_iff.mp
      (Option.map_eq_none_iff.mp (before f (List.mem_reverse.mp member)))
  · rintro ⟨frame, ⟨outer, inner, frames, -, others⟩, rfl, found⟩
    refine ⟨inner.reverse, frame, outer.reverse, by simp [frames], by simp [found], fun f member => ?_⟩
    rw [ScopeFrame.find?_eq_none_iff.mpr (others f (List.mem_reverse.mp member))]
    rfl

theorem lookup?_eq_none_iff : scope.lookup? name = none ↔ ∀ f ∈ scope.frames, ¬ f.Declares name := by
  simp [lookup?, ScopeFrame.find?_eq_none_iff]

/-- With one frame for each owner, the first frame of an owner is the only one. -/
theorem filter_owner (distinct : (scope.frames.map (·.owner)).Nodup) {frame : ScopeFrame}
    (member : frame ∈ scope.frames) : scope.frames.filter (·.owner == frame.owner) = [frame] := by
  obtain ⟨before, after, split⟩ := List.append_of_mem member
  rw [split] at distinct ⊢
  simp only [List.map_append, List.map_cons, List.nodup_append, List.nodup_cons, List.mem_cons,
    List.mem_map] at distinct
  obtain ⟨-, ⟨fresh, -⟩, apart⟩ := distinct
  have others : ∀ f ∈ after, ¬ f.owner = frame.owner := fun f inside same => fresh ⟨f, inside, same⟩
  have others' : ∀ f ∈ before, ¬ f.owner = frame.owner :=
    fun f inside same => apart f.owner ⟨f, inside, rfl⟩ frame.owner (.inl rfl) same
  rw [List.filter_append, List.filter_cons_of_pos (by simp), List.filter_eq_nil_iff.mpr (by simpa using others'),
    List.filter_eq_nil_iff.mpr (by simpa using others), List.nil_append]

theorem Innermost.declaration? {frame : ScopeFrame} (innermost : scope.Innermost name frame)
    (distinct : (scope.frames.map (·.owner)).Nodup) : ∃ p, scope.lookup? name = some (frame.owner, p) ∧
      scope.declaration? ⟨name, frame.owner⟩ = some p := by
  obtain ⟨outer, inner, frames, declares, -⟩ := id innermost
  obtain ⟨p, found⟩ := ScopeFrame.find?_of_declares declares
  have member : frame ∈ scope.frames := by simp [frames]
  refine ⟨p, lookup?_eq_some_iff.mpr ⟨frame, innermost, rfl, found⟩, ?_⟩
  simp only [TypeScope.declaration?, filter_owner distinct member, List.findSome?_cons, found]

end TypeScope

namespace Signature

/-! ## Owners of the variables in a tree -/

section Trees

variable {owner : String → TypeVariableOwner} {v : TypeVariable}

theorem not_mentions_named {t : TypeName} : ¬ (TypeSignature.ofType t).Mentions v := by
  intro mentions
  cases mentions with
  | head is => cases is
  | arg member => cases member

-- Follows the derivation. Brackets and marks change neither the head of a tree nor its arguments.
mutual
theorem TypeSyntax.mentions_tree (d : TypeSyntax) (mentions : (d.tree owner).Mentions v) :
    v.name ∈ d.variableNames ∧ v.owner = owner v.name := by
  match d with
  | .base b => exact (not_mentions_named mentions).elim
  | .ref r => exact RefSyntax.mentions_tree r mentions
termination_by structural d

theorem RefSyntax.mentions_tree (d : RefSyntax) (mentions : (d.tree owner).Mentions v) :
    v.name ∈ d.variableNames ∧ v.owner = owner v.name := by
  match d with
  | .cls name rest => exact ClassSyntax.mentions_tree rest mentions
  | .var name =>
    cases mentions with
    | head is =>
      cases is
      exact ⟨List.mem_singleton_self _, rfl⟩
    | arg member => cases member
  | .array element => exact TypeSyntax.mentions_tree element (mentions.congr rfl rfl)
termination_by structural d

theorem ClassSyntax.mentions_tree (d : ClassSyntax) {name : String}
    (mentions : (d.tree owner name).Mentions v) : v.name ∈ d.variableNames ∧ v.owner = owner v.name := by
  match d with
  | .done args =>
    cases mentions with
    | head is => cases is
    | arg member inside => exact ArgsSyntax.mentions_trees args member inside
  | .inner args inner rest =>
    exact (ClassSyntax.mentions_tree rest mentions).imp_left (List.mem_append_right _)
termination_by structural d

theorem ArgsSyntax.mentions_trees (d : ArgsSyntax) {a : TypeSignature} (member : a ∈ d.trees owner)
    (mentions : a.Mentions v) : v.name ∈ d.variableNames ∧ v.owner = owner v.name := by
  match d with
  | .absent => cases member
  | .given list => exact ArgList.mentions_trees list member mentions
termination_by structural d

theorem ArgList.mentions_trees (d : ArgList) {a : TypeSignature} (member : a ∈ d.trees owner)
    (mentions : a.Mentions v) : v.name ∈ d.variableNames ∧ v.owner = owner v.name := by
  match d with
  | .close => cases member
  | .any rest =>
    rcases List.mem_cons.mp member with rfl | later
    · exact (not_mentions_named (mentions.congr rfl rfl)).elim
    · exact ArgList.mentions_trees rest later mentions
  | .type mark r rest =>
    rcases List.mem_cons.mp member with rfl | later
    · exact (RefSyntax.mentions_tree r (mentions.congr rfl rfl)).imp_left (List.mem_append_left _)
    · exact (ArgList.mentions_trees rest later mentions).imp_left (List.mem_append_right _)
termination_by structural d
end

theorem FormalSyntax.mentions_tree (f : FormalSyntax) (mentions : (f.tree owner).Mentions v) :
    v.name ∈ f.variableNames ∧ v.owner = owner v.name := by
  obtain ⟨s, member, inside⟩ := mentions
  rcases List.mem_append.mp member with bound | interface
  · obtain ⟨r, given, rfl⟩ := Option.map_eq_some_iff.mp (Option.mem_toList.mp bound)
    refine (r.mentions_tree inside).imp_left fun named => List.mem_append_left _ ?_
    rw [given]
    exact named
  · obtain ⟨r, given, rfl⟩ := List.mem_map.mp interface
    exact (r.mentions_tree inside).imp_left fun named =>
      List.mem_append_right _ (List.mem_flatMap.mpr ⟨r, given, named⟩)

theorem formals_mentions {formals : Option FormalsSyntax} {p : FormalParameter}
    (member : p ∈ formals.elim [] (·.trees owner)) (mentions : p.Mentions v) :
    v.name ∈ formals.elim [] FormalsSyntax.variableNames ∧ v.owner = owner v.name := by
  cases formals with
  | none => cases member
  | some fs =>
    obtain ⟨f, given, rfl⟩ := List.mem_map.mp member
    exact (f.mentions_tree mentions).imp_left fun named => List.mem_flatMap.mpr ⟨f, given, named⟩

theorem declaredNames_trees (owner : String → TypeVariableOwner) (formals : Option FormalsSyntax) :
    (formals.elim [] (·.trees owner)).map (·.name) = declaredNames formals := by
  cases formals with
  | none => rfl
  | some fs =>
    simp only [Option.elim_some, FormalsSyntax.trees, List.map_map, declaredNames]
    rfl

theorem ClassSigSyntax.mentions_tree (d : ClassSigSyntax) (mentions : (d.tree owner).Mentions v) :
    v.name ∈ d.variableNames ∧ v.owner = owner v.name := by
  rcases mentions with ⟨p, member, inside⟩ | ⟨s, member, inside⟩
  · exact (formals_mentions member inside).imp_left (List.mem_append_left _)
  · refine And.imp_left (List.mem_append_right _) ?_
    rcases List.mem_cons.mp member with rfl | interface
    · exact (d.superclass.ref.mentions_tree inside).imp_left (List.mem_append_left _)
    · obtain ⟨c, given, rfl⟩ := List.mem_map.mp interface
      exact (c.ref.mentions_tree inside).imp_left fun named =>
        List.mem_append_right _ (List.mem_flatMap.mpr ⟨c, given, named⟩)

theorem MethodSigSyntax.mentions_tree (d : MethodSigSyntax) (mentions : (d.tree owner).Mentions v) :
    v.name ∈ d.variableNames ∧ v.owner = owner v.name := by
  rcases mentions with ⟨p, member, inside⟩ | ⟨s, member, inside⟩
  · exact (formals_mentions member inside).imp_left (List.mem_append_left _)
  · refine And.imp_left (List.mem_append_right _) ?_
    rcases List.mem_append.mp member with parameter | member
    · obtain ⟨t, given, rfl⟩ := List.mem_map.mp parameter
      exact (t.mentions_tree inside).imp_left fun named =>
        List.mem_append_left _ (List.mem_flatMap.mpr ⟨t, given, named⟩)
    · refine And.imp_left (List.mem_append_right _) ?_
      rcases List.mem_cons.mp member with rfl | thrown
      · refine And.imp_left (List.mem_append_left _) ?_
        obtain ⟨formals, parameters, result, exceptions⟩ := d
        cases result with
        | none => exact (not_mentions_named inside).elim
        | some t => exact t.mentions_tree inside
      · obtain ⟨e, given, rfl⟩ := List.mem_map.mp thrown
        exact (e.ref.mentions_tree inside).imp_left fun named =>
          List.mem_append_right _ (List.mem_flatMap.mpr ⟨e, given, named⟩)

end Trees

theorem binds_of_declared {scope : TypeScope} {owner : TypeVariableOwner} {names : List String}
    {v : TypeVariable} (declared : Declared scope names v.name)
    (owned : v.owner = ownerIn scope owner names v.name) : scope.Binds owner names v := by
  refine ⟨fun member => by rw [owned, ownerIn, if_pos member], fun missing => ?_⟩
  obtain ⟨⟨found, p⟩, known⟩ := Option.isSome_iff_exists.mp (declared.resolve_left missing)
  obtain ⟨frame, innermost, same, -⟩ := TypeScope.lookup?_eq_some_iff.mp known
  refine ⟨frame, innermost, ?_⟩
  rw [owned, ownerIn, if_neg missing, known, ← same]
  rfl

/-! ## Names that are reported as unbound -/

theorem bind_eq_error {α β : Type} {x : Except Fault α} {f : α → Except Fault β} {fault : Fault} :
    (x >>= f) = .error fault ↔ x = .error fault ∨ ∃ a, x = .ok a ∧ f a = .error fault := by
  cases x <;> simp [bind, Except.bind]

/-- Reading reports no name as unbound that has an owner. -/
def Blames (resolve : Resolve) {α : Type} (outcome : Except Fault α) : Prop :=
  ∀ name, outcome = .error (.unbound name) → resolve name = none

theorem Steady.blames {α : Type} {resolve resolve' : Resolve} {n k : Nat} {x y : Reader α} {z : Cursor α} {s : List Char}
    (h : Typewise resolve resolve' n k x y z) (short : s.length ≤ n) : Blames resolve (x s) := by
  intro name failed
  have run := h.follows short
  rw [failed] at run
  generalize y s = other at run
  cases run with
  | failed known => exact absurd rfl (known name)
  | unbound blamed => exact blamed

theorem javaType_blames (resolve : Resolve) (more : Nat) (s : List Char) :
    Blames resolve (javaType resolve (s.length + (more + 1)) s) :=
  (javaType_steady (g := s.length + 1) (types_steady (.inl rfl) _ _).1 (by omega) (by omega)).blames le_rfl

/-- The type parameters with which a text opens. -/
def Opens (formals : Option FormalsSyntax) (s : List Char) : Prop :=
  ∃ rest, s = formals.elim [] FormalsSyntax.text ++ rest ∧ (formals = none → rest.head? ≠ some '<')

section Unbound

variable {scope : TypeScope} {owner : TypeVariableOwner} {fuel : Nat} {s : List Char} {name : String}

theorem resolveIn_eq_none {names : List String} (unknown : resolveIn scope owner names name = none) :
    (∀ f ∈ scope.frames, ¬ f.Declares name) ∧ name ∉ names := by
  have undeclared : ¬ Declared scope names name := by
    intro declared
    rw [resolveIn_declared declared] at unknown
    cases unknown
  refine ⟨TypeScope.lookup?_eq_none_iff.mp ?_, fun member => undeclared (.inl member)⟩
  exact Option.not_isSome_iff_eq_none.mp fun found => undeclared (.inr found)

/-- The first reading of the type parameters gives every name an owner, so it reports none. -/
theorem firstReading_opens {rest after : List Char} {collected : List FormalParameter}
    (read : formalParameters (fun _ => some owner) fuel rest = .ok (collected, after)) :
    ∃ fs : FormalsSyntax, Opens (some fs) ('<' :: rest) ∧
      collected.map (·.name) = declaredNames (some fs) := by
  obtain ⟨fs, unmistakable, rfl, -, rfl⟩ :=
    formalParameters_derived (fun _ _ => Option.some.inj) read
  refine ⟨⟨fs, unmistakable⟩, ⟨after, rfl, fun absurdity => nomatch absurdity⟩, ?_⟩
  rw [List.map_map]
  rfl

theorem opens_none (starts : ∀ tail, s = '<' :: tail → False) : Opens none s := by
  refine ⟨s, rfl, fun _ opened => ?_⟩
  obtain ⟨tail, rfl⟩ := List.head?_eq_some_iff.mp opened
  exact starts tail rfl

theorem typeParameters_resolves {found : Parsed (List FormalParameter × Resolve)}
    (read : typeParameters scope owner fuel s = .ok found) :
    ∃ formals, Opens formals s ∧ found.1.2 = resolveIn scope owner (declaredNames formals) := by
  unfold typeParameters at read
  split at read
  · obtain ⟨collected, first, read⟩ := bind_eq_ok.mp read
    obtain ⟨more, -, result⟩ := bind_eq_ok.mp read
    cases result
    obtain ⟨fs, opens, names⟩ := firstReading_opens first
    exact ⟨some fs, opens, by rw [← names]⟩
  · next starts =>
      cases read
      exact ⟨none, opens_none starts, rfl⟩

theorem typeParameters_unbound (failed : typeParameters scope owner (s.length + 2) s = .error (.unbound name)) :
    ∃ formals, Opens formals s ∧ resolveIn scope owner (declaredNames formals) name = none := by
  unfold typeParameters at failed
  split at failed
  · next rest =>
      have blames (resolve : Resolve) : Blames resolve (formalParameters resolve (('<' :: rest).length + 2) rest) :=
        (formalParameters_steady (g := rest.length + 1) (.inl rfl) (by rw [List.length_cons]; omega) (by omega)).blames
          le_rfl
      rcases bind_eq_error.mp failed with first | ⟨collected, first, failed⟩
      · exact absurd (blames _ name first) (Option.some_ne_none owner)
      · rcases bind_eq_error.mp failed with second | ⟨more, -, absurdity⟩
        · obtain ⟨fs, opens, names⟩ := firstReading_opens first
          exact ⟨some fs, opens, names ▸ blames _ name second⟩
        · cases absurdity
  · cases failed

theorem declaration_unbound {α : Type} {body : Parsed (List FormalParameter × Resolve) → Except Fault (Parsed α)}
    {z : List FormalParameter → Resolve → Cursor α}
    (reads : ∀ parameters resolve, Typewise resolve resolve s.length 0 (fun rest => body ((parameters, resolve), rest))
      (fun rest => body ((parameters, resolve), rest)) (z parameters resolve))
    (failed : (typeParameters scope owner (s.length + 2) s >>= body) = .error (.unbound name)) :
    (∀ f ∈ scope.frames, ¬ f.Declares name) ∧ ∃ formals, Opens formals s ∧ name ∉ declaredNames formals := by
  obtain ⟨formals, opens, unknown⟩ :
      ∃ formals, Opens formals s ∧ resolveIn scope owner (declaredNames formals) name = none := by
    rcases bind_eq_error.mp failed with failed | ⟨⟨⟨parameters, resolve⟩, rest⟩, read, failed⟩
    · exact typeParameters_unbound failed
    · obtain ⟨formals, opens, resolves⟩ := typeParameters_resolves read
      have shorter := (typeParameters_steady (g := s.length + 2) (by omega) (by omega)).takes le_rfl read
      exact ⟨formals, opens, resolves ▸ (reads parameters resolve).blames shorter name failed⟩
  exact (resolveIn_eq_none unknown).imp_right fun missing => ⟨formals, opens, missing⟩

theorem classSignature_unbound (failed : classSignature scope owner (s.length + 2) s = .error (.unbound name)) :
    (∀ f ∈ scope.frames, ¬ f.Declares name) ∧ ∃ formals, Opens formals s ∧ name ∉ declaredNames formals :=
  declaration_unbound (fun parameters _ => supertypes_steady parameters (by omega) (by omega)) failed

theorem methodSignature_unbound (failed : methodSignature scope owner (s.length + 2) s = .error (.unbound name)) :
    (∀ f ∈ scope.frames, ¬ f.Declares name) ∧ ∃ formals, Opens formals s ∧ name ∉ declaredNames formals :=
  declaration_unbound (fun formals _ => methodTypes_steady formals (by omega) (by omega)) failed

theorem parseWith_unbound {α : Type} {read : Nat → List Char → Except Fault (Parsed α)} {input : String}
    (failed : parseWith read input = .error (.unboundTypeVariable name)) :
    read (input.toList.length + 2) input.toList = .error (.unbound name) := by
  unfold parseWith at failed
  split at failed
  · cases failed
  · cases failed
  · next fault outcome =>
      rw [outcome]
      cases fault with
      | unbound blamed =>
        cases failed
        rfl
      | ended expected => cases failed
      | unexpected rest expected => cases rest <;> cases failed

end Unbound

/-- Every type variable of a signature belongs to the declaration that the text is about if its type
    parameters include the name, and to the innermost declaration around otherwise. A name is reported as
    unbound only if none of them declares it. With one frame for each owner, the variable that a name
    resolves to leads back to the parameter that the name was resolved with. -/
theorem variables_lexically_bound (scope : TypeScope) :
    (∀ s t, parseField scope s = .ok t → ∀ v, t.Mentions v →
      ∃ frame, scope.Innermost v.name frame ∧ v.owner = frame.owner) ∧
    (∀ type s t, parseClass scope type s = .ok t → ∀ v, t.Mentions v →
      scope.Binds (.ofClass type) (t.parameters.map (·.name)) v) ∧
    (∀ owner s t, parseMethod scope owner s = .ok t → ∀ v, t.Mentions v →
      scope.Binds owner (t.typeParameters.map (·.name)) v) ∧
    (∀ s name, parseField scope s = .error (.unboundTypeVariable name) →
      ∀ f ∈ scope.frames, ¬ f.Declares name) ∧
    (∀ type s name, parseClass scope type s = .error (.unboundTypeVariable name) →
      (∀ f ∈ scope.frames, ¬ f.Declares name) ∧
        ∃ formals, Opens formals s.toList ∧ name ∉ declaredNames formals) ∧
    (∀ owner s name, parseMethod scope owner s = .error (.unboundTypeVariable name) →
      (∀ f ∈ scope.frames, ¬ f.Declares name) ∧
        ∃ formals, Opens formals s.toList ∧ name ∉ declaredNames formals) ∧
    ((scope.frames.map (·.owner)).Nodup → ∀ name frame, scope.Innermost name frame →
      ∃ p, scope.lookup? name = some (frame.owner, p) ∧
        scope.declaration? ⟨name, frame.owner⟩ = some p) := by
  refine ⟨fun s t parsed v mentions => ?_, fun type s t parsed v mentions => ?_,
    fun owner s t parsed v mentions => ?_, fun s name failed => ?_,
    fun type s name failed => classSignature_unbound (parseWith_unbound failed),
    fun owner s name failed => methodSignature_unbound (parseWith_unbound failed),
    fun distinct name frame innermost => innermost.declaration? distinct⟩
  · obtain ⟨d, -, declared, rfl⟩ := (parseField_iff scope s t).mp parsed
    obtain ⟨named, owned⟩ := d.mentions_tree mentions
    exact (binds_of_declared (declared _ named) owned).around (List.not_mem_nil)
  · obtain ⟨d, -, declared, rfl⟩ := (parseClass_iff scope type s t).mp parsed
    obtain ⟨named, owned⟩ := d.mentions_tree mentions
    exact (declaredNames_trees _ d.formals).symm ▸ binds_of_declared (declared _ named) owned
  · obtain ⟨d, -, declared, rfl⟩ := (parseMethod_iff scope owner s t).mp parsed
    obtain ⟨named, owned⟩ := d.mentions_tree mentions
    exact (declaredNames_trees _ d.formals).symm ▸ binds_of_declared (declared _ named) owned
  · have unknown := javaType_blames _ _ _ name (parseWith_unbound failed)
    exact (resolveIn_eq_none unknown).1

/-! A method with a bound that refers to a later parameter, inside two classes that declare one name. -/

namespace Shadowing

def outer : TypeVariableOwner := .ofClass ⟨"app.Outer"⟩

def inner : TypeVariableOwner := .ofClass ⟨"app.Outer$Inner"⟩

def method : TypeVariableOwner := .ofMethod ⟨"app.Outer$Inner"⟩ "put" "(Ljava/lang/Object;)V"

def scope : TypeScope :=
  ⟨[⟨outer, [{ name := "T" }, { name := "S", bound := some (.ofVariable ⟨"T", outer⟩) }]⟩,
    ⟨inner, [{ name := "T", bound := some (.ofVariable ⟨"S", outer⟩) }]⟩]⟩

def signature : MethodSignature where
  typeParameters := [{ name := "U", bound := some (.ofVariable ⟨"V", method⟩) },
    { name := "V", interfaceBounds := [.ofType ⟨"java.util.List"⟩ [.ofVariable ⟨"T", inner⟩]] }]
  parameters := [.ofVariable ⟨"S", outer⟩]
  returnType := .ofType .void
  exceptions := []

theorem parsed : parseMethod scope method "<U:TV;V::Ljava/util/List<TT;>;>(TS;)V" = .ok signature := by
  decide +kernel

end Shadowing

theorem variables_lexically_bound_shadowed :
    Shadowing.scope.Binds Shadowing.method ["U", "V"] ⟨"V", Shadowing.method⟩ ∧
    Shadowing.scope.Binds Shadowing.method ["U", "V"] ⟨"T", Shadowing.inner⟩ ∧
    (∃ frame, Shadowing.scope.Innermost "T" frame ∧ Shadowing.inner = frame.owner) ∧
    Shadowing.scope.Binds (.ofClass ⟨"app.Local"⟩) ["S"] ⟨"S", .ofClass ⟨"app.Local"⟩⟩ ∧
    (∀ f ∈ Shadowing.scope.frames, ¬ f.Declares "U") ∧
    (∃ formals, Opens formals "<R:TQ;>LA;".toList ∧ "Q" ∉ declaredNames formals) ∧
    (∃ formals, Opens formals "<R:TQ;>()V".toList ∧ "Q" ∉ declaredNames formals) ∧
    ∃ p, Shadowing.scope.lookup? "S" = some (Shadowing.outer, p) ∧
      Shadowing.scope.declaration? ⟨"S", Shadowing.outer⟩ = some p := by
  obtain ⟨field, cls, method, fieldFails, classFails, methodFails, leads⟩ :=
    variables_lexically_bound Shadowing.scope
  refine ⟨method _ _ _ Shadowing.parsed _ (.inl ⟨_, .head _, _, .head _, .head rfl⟩),
    method _ _ _ Shadowing.parsed _ (.inl ⟨_, .tail _ (.head _), _, .head _, .arg (.head _) (.head rfl)⟩),
    field "[TT;" ⟨.var ⟨"T", Shadowing.inner⟩, .invariant, 1, []⟩ (by decide +kernel) _ (.head rfl),
    cls ⟨"app.Local"⟩ "<S:Ljava/lang/Object;>Lapp/Base<TS;>;"
      ⟨[{ name := "S", bound := some (.ofType .object) }],
        some (.ofType ⟨"app.Base"⟩ [.ofVariable ⟨"S", .ofClass ⟨"app.Local"⟩⟩]), []⟩ (by decide +kernel) _
      (.inr ⟨_, .head _, .arg (.head _) (.head rfl)⟩),
    fieldFails "TU;" "U" (by decide +kernel),
    (classFails ⟨"app.Local"⟩ "<R:TQ;>LA;" "Q" (by decide +kernel)).2,
    (methodFails Shadowing.method "<R:TQ;>()V" "Q" (by decide +kernel)).2,
    leads (by decide) "S" ⟨Shadowing.outer, _⟩ ⟨[], _, rfl, ⟨_, .tail _ (.head _), rfl⟩, ?_⟩⟩
  rintro f member ⟨p, given, named⟩
  cases List.mem_singleton.mp member
  cases List.mem_singleton.mp given
  exact absurd named (by decide)

end Signature

end ClassAtlas
