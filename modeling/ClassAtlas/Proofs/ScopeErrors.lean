import ClassAtlas.Proofs.Measurements

/-! # Errors about scopes

A step that gets a scope of the wrong kind fails and names the kind that it expected and the one that it
found. The two differ, with one exception. An ascent to the template finds no elements, since no element is of
that kind, but it labels the empty scope that it gives as a template. A step that needs the template refuses
such a scope and then finds what it expected.
-/

namespace ClassAtlas

variable (ix : ElementIndex) (entities : EntityStore) (id : ElementId) {scope : Scope}

/-! ## Which errors an operation can raise -/

theorem Operation.bind_error {ε σ α β : Type} {f : Operation ε σ α} {g : α → Operation ε σ β} {s : σ} {e : ε}
    (failed : ((f >>= g) s).1 = .error e) :
    (f s).1 = .error e ∨ ∃ a s', f s = (.ok a, s') ∧ (g a s').1 = .error e := by
  rw [Operation.bind_apply] at failed
  generalize f s = outcome at failed ⊢
  obtain ⟨result, s'⟩ := outcome
  cases result with
  | error e' =>
    cases failed
    exact .inl rfl
  | ok a => exact .inr ⟨a, s', rfl, failed⟩

/-- An operation that fails does so with such an error. -/
def Raises {ε σ α : Type} (P : ε → Prop) (f : Operation ε σ α) : Prop := ∀ s e, (f s).1 = .error e → P e

namespace Raises

variable {ε σ α β : Type} {P : ε → Prop} {f : Operation ε σ α} {g : α → Operation ε σ β}

theorem pure (a : α) : Raises P (Pure.pure a : Operation ε σ α) := by
  rintro s e ⟨⟩

theorem throw {e : ε} (holds : P e) : Raises P (MonadExcept.throw e : Operation ε σ α) := by
  rintro s e' ⟨⟩
  exact holds

theorem bind (hf : Raises P f) (hg : ∀ a, Raises P (g a)) : Raises P (f >>= g) := by
  intro s e failed
  rcases Operation.bind_error failed with first | ⟨a, s', -, later⟩
  · exact hf s e first
  · exact hg a s' e later

theorem liftBind {x : Except ε α} (hx : ∀ e, x = .error e → P e) (hg : ∀ a, Raises P (g a)) :
    Raises P (liftM x >>= g : Operation ε σ β) := by
  intro s e failed
  rw [Operation.lift_bind_apply] at failed
  cases x with
  | error e' =>
    cases failed
    exact hx e rfl
  | ok a => exact hg a s e failed

theorem never (passes : ∀ s, ∃ a, (f s).1 = .ok a) : Raises P f := by
  intro s e failed
  obtain ⟨a, passed⟩ := passes s
  cases failed.symm.trans passed

theorem weaken {Q : ε → Prop} (h : Raises P f) (weaker : ∀ e, P e → Q e) : Raises Q f :=
  fun s e failed => weaker e (h s e failed)

end Raises

/-- An error that is not about the kind of a scope. -/
def ModelError.Other (e : ModelError) : Prop := ∀ expected found, e ≠ .illegalScope expected found

/-! ### Tests -/

namespace Predicate

theorem remember_raises {α : Type} (f : Caches → α × Caches) : Raises ModelError.Other (remember f) :=
  .never fun _ => ⟨_, rfl⟩

theorem testText_raises (pattern text : String) : Raises ModelError.Other (testText pattern text) := by
  intro c e failed
  unfold testText Caches.pattern at failed
  cases known : Ordered.get? pattern c.patterns with
  | some a =>
    simp only [known] at failed
    cases failed
  | none =>
    simp only [known] at failed
    cases compiled : Text.Automaton.ofText? pattern with
    | some a =>
      simp only [compiled] at failed
      cases failed
    | none =>
      simp only [compiled] at failed
      cases failed
      exact nofun

mutual
theorem test_raises (p : Predicate) :
    Raises ModelError.Other (test ix entities id p) := by
  match p with
  | .name pattern => exact testText_raises pattern _
  | .modifiers _ | .annotatedBy _ | .hasEntity _ | .synthetic => exact .pure _
  | .implements type => exact .bind (remember_raises _) fun _ => .pure _
  | .typeIs type => exact .bind (remember_raises _) fun _ => .pure _
  | .negation p => exact .bind (test_raises p) fun _ => .pure _
  | .all ps => exact testAll_raises ps
  | .any ps => exact testAny_raises ps
termination_by structural p

theorem testAll_raises (ps : List Predicate) :
    Raises ModelError.Other (testAll ix entities id ps) := by
  match ps with
  | [] => exact .pure _
  | p :: ps =>
    refine .bind (test_raises p) fun passed => ?_
    cases passed with
    | false => exact .pure _
    | true => exact testAll_raises ps
termination_by structural ps

theorem testAny_raises (ps : List Predicate) :
    Raises ModelError.Other (testAny ix entities id ps) := by
  match ps with
  | [] => exact .pure _
  | p :: ps =>
    refine .bind (test_raises p) fun passed => ?_
    cases passed with
    | false => exact testAny_raises ps
    | true => exact .pure _
termination_by structural ps
end

theorem split_raises (p : Predicate) (ids : List ElementId) : Raises ModelError.Other (p.split ix entities ids) := by
  induction ids with
  | nil => exact .pure _
  | cons id rest ih => exact .bind (test_raises ix entities id p) fun _ => .bind ih fun _ => .pure _

theorem splitIn_raises (p : Predicate) (ids : List ElementId) : Raises ModelError.Other (p.splitIn ids) :=
  fun m e failed => split_raises m.index m.entities p ids m.caches e failed

end Predicate

/-! ### Steps -/

/-- The scope that a step needs is the template. -/
def Step.NeedsTemplate : Step → Prop
  | .classes | .synthesize _ => True
  | _ => False

/-- An error about a scope names its kind. Another kind was expected, unless the scope is labelled as the template
    that was needed. -/
def Scope.Refused (scope : Scope) (needsTemplate : Prop) (e : ModelError) : Prop :=
  ∀ expected found, e = .illegalScope expected found → found = scope.kind ∧
    (expected = found ↔ needsTemplate ∧ ∃ ids, scope = .elements .template ids)

namespace Scope

variable {e : ModelError} {scope : Scope}

theorem expectTemplate_refused (failed : scope.expectTemplate = .error e) : scope.Refused True e := by
  cases scope with
  | template => cases failed
  | elements kind ids =>
    cases failed
    rintro expected found ⟨⟩
    simp [Scope.kind, eq_comm]

theorem expectElements_refused (failed : scope.expectElements = .error e) : scope.Refused False e := by
  cases scope with
  | elements kind ids => cases failed
  | template =>
    cases failed
    rintro expected found ⟨⟩
    simp [Scope.kind]

theorem expect_refused {first : ElementKind} {others : List ScopeKind}
    (failed : scope.expect (.elements first :: others) = .error e) : scope.Refused False e := by
  cases scope with
  | template =>
    cases failed
    rintro expected found ⟨⟩
    simp [Scope.kind]
  | elements kind ids =>
    unfold expect at failed
    simp only at failed
    split at failed
    · cases failed
    · next refused =>
        cases failed
        rintro expected found ⟨⟩
        simp only [Bool.or_eq_true, not_or, List.contains_iff_mem, List.mem_cons] at refused
        simp only [false_and, iff_false]
        exact ⟨rfl, fun same => refused.2.1 same.symm⟩

end Scope

namespace Step

variable {P : ModelError → Prop}

theorem collect_raises {f : ElementId → ModelM (List ElementId)} (raises : ∀ id, Raises P (f id))
    (ids : List ElementId) : Raises P (collect f ids) := by
  induction ids with
  | nil => exact .pure _
  | cons id rest ih => exact .bind (raises id) fun _ => .bind ih fun _ => .pure _

theorem onEach_raises {f : ElementId → ModelM Unit} (raises : ∀ id, Raises P (f id)) (ids : List ElementId) :
    Raises P (onEach f ids) := by
  induction ids with
  | nil => exact .pure _
  | cons id rest ih => exact .bind (raises id) fun _ => ih

theorem declaredSignature_raises : Raises ModelError.Other (declaredSignature id) := by
  refine .bind (.never fun _ => ⟨_, rfl⟩) fun declared => ?_
  cases declared with
  | none => exact .pure _
  | some s => exact .bind (.never fun _ => ⟨_, rfl⟩) fun _ => .pure _

theorem explode_raises (create : Bool) (id : ElementId) : Raises ModelError.Other (explode create id) := by
  refine .bind (.never fun _ => ⟨_, rfl⟩) fun declared => ?_
  cases declared with
  | none => exact .pure _
  | some s =>
    refine .bind (.never fun _ => ⟨_, rfl⟩) fun erased => ?_
    cases erased with
    | error e => exact .throw nofun
    | ok t =>
      refine .bind (.never fun _ => ⟨_, rfl⟩) fun named => ?_
      cases named with
      | none => exact .pure _
      | some c => exact .bind (.never fun _ => ⟨_, rfl⟩) fun _ => .pure _

theorem registerAs_raises (type : EntityType) (template : Option String) (specs : List PropertySpec) (id : ElementId) :
    Raises ModelError.Other (registerAs type template specs id) := by
  refine .bind (.never fun _ => ⟨_, rfl⟩) fun m => ?_
  cases m.index.kind? id with
  | none => exact .throw nofun
  | some kind =>
    refine .bind (.never fun _ => ⟨_, rfl⟩) fun properties => .bind (.never fun _ => ⟨_, rfl⟩) fun m => ?_
    refine .liftBind (fun e failed => ?_) fun _ => .never fun _ => ⟨_, rfl⟩
    unfold EntityStore.register at failed
    split at failed
    · split at failed <;> cases failed
      exact nofun
    · split at failed
      · split at failed <;> cases failed
        exact nofun
      · cases failed

theorem updateFrom_raises (type : EntityType) (template : Option String) (specs : List PropertySpec) (id : ElementId) :
    Raises ModelError.Other (updateFrom type template specs id) := by
  refine .bind (.never fun _ => ⟨_, rfl⟩) fun m => ?_
  cases m.enclosingEntity? id type with
  | none => exact .throw nofun
  | some target => exact .never fun _ => ⟨_, rfl⟩

theorem associateAt_raises (parent : EntityType) (key : String) (child : EntityType) (id : ElementId) :
    Raises ModelError.Other (associateAt parent key child id) := by
  refine .bind (.never fun _ => ⟨_, rfl⟩) fun m => .liftBind (fun e failed => ?_) fun _ => .never fun _ => ⟨_, rfl⟩
  unfold associationPairs at failed
  simp only at failed
  split at failed
  · cases failed
  · cases failed
  · split at failed
    · cases failed
      exact nofun
    · cases failed
  · cases failed

theorem apply_refused (s : Step) (scope : Scope) : Raises (scope.Refused s.NeedsTemplate) (s.apply scope) := by
  have other {α : Type} {f : ModelM α} {needs : Prop} (h : Raises ModelError.Other f) : Raises (scope.Refused needs) f :=
    h.weaken fun e plain expected found same => absurd same (plain expected found)
  have found {α : Type} {f : ModelM α} {needs : Prop} {g : α → Scope} (h : Raises ModelError.Other f) :
      Raises (scope.Refused needs) (f >>= fun a => pure (g a)) :=
    .bind (other h) fun _ => .pure _
  cases s with
  | identity => exact .pure _
  | elementsOf | relate => exact .never fun _ => ⟨_, rfl⟩
  | classes | synthesize => exact .liftBind (fun _ => Scope.expectTemplate_refused) fun _ => .never fun _ => ⟨_, rfl⟩
  | methods | fields | parameters | annotations | typeArguments =>
    exact .liftBind (fun _ => Scope.expect_refused) fun _ => .never fun _ => ⟨_, rfl⟩
  | signature =>
    exact .liftBind (fun _ => Scope.expect_refused) fun ids => found (collect_raises declaredSignature_raises ids)
  | explodeType create =>
    exact .liftBind (fun _ => Scope.expect_refused) fun ids => found (collect_raises (explode_raises create) ids)
  | ascend => exact .liftBind (fun _ => Scope.expectElements_refused) fun _ => .never fun _ => ⟨_, rfl⟩
  | filter p => exact .liftBind (fun _ => Scope.expectElements_refused) fun ids => found (p.splitIn_raises ids)
  | registerEntity type label specs =>
    exact .liftBind (fun _ => Scope.expectElements_refused) fun ids =>
      found (onEach_raises (registerAs_raises type label specs) ids)
  | updateEntity type label specs =>
    exact .liftBind (fun _ => Scope.expectElements_refused) fun ids =>
      found (onEach_raises (updateFrom_raises type label specs) ids)
  | associate parent key child =>
    exact .liftBind (fun _ => Scope.expectElements_refused) fun ids =>
      found (onEach_raises (associateAt_raises parent key child) ids)

end Step

/-! ## Where the error of a run comes from -/

namespace ActionCall

variable {problem : ModelError} {c : ActionCall} {e : Execution}

/-- A call raises an error itself, and no call that it makes does. -/
inductive Throws : ActionCall → ModelError → Prop where
  | step {s scope e problem} (failed : (Step.apply scope s e.model).1 = .error problem) :
      Throws ⟨.step s, scope, e⟩ problem
  | fork {p a b scope e problem} (failed : scope.expectElements = .error problem) :
      Throws ⟨.fork p a b, scope, e⟩ problem
  | test {p a b scope e ids problem} (failed : (Predicate.splitIn p ids e.model).1 = .error problem) :
      Throws ⟨.fork p a b, scope, e⟩ problem
  | outerScope {kind body scope e problem} (failed : (Step.apply scope (.ascend kind) e.model).1 = .error problem) :
      Throws ⟨.outerScope kind body, scope, e⟩ problem

theorem noted_failed {description : String} {body : ExecutionM Scope}
    (failed : (Execution.noted description scope body e).1 = .error problem) :
    (body (e.enter description scope)).1 = .error problem := by
  rcases Operation.bind_error failed with absurdity | ⟨_, e', entered, failed⟩
  · cases absurdity
  · cases entered
    rcases Operation.bind_error failed with failed | ⟨out, e', -, absurdity⟩
    · exact failed
    · cases absurdity

theorem executeAll_failed {actions : List Action} (failed : (Action.executeAll actions scope e).1 = .error problem) :
    ∃ c, InSequence actions scope e c ∧ c.result = .error problem := by
  induction actions generalizing scope e with
  | nil => cases failed
  | cons a rest ih =>
    rcases Operation.bind_error failed with here | ⟨out, e', ran, later⟩
    · exact ⟨⟨a, scope, e⟩, .head, here⟩
    · obtain ⟨c, inside, failed⟩ := ih later
      exact ⟨c, .tail ran inside, failed⟩

theorem unitedWith_failed {out : Scope} {kind : ScopeKind} {ids : List ElementId} {run : Scope → ExecutionM Scope}
    (failed : (Action.unitedWith out kind ids run e).1 = .error problem) :
    ids ≠ [] ∧ (run (.ofIds kind ids) e).1 = .error problem := by
  unfold Action.unitedWith at failed
  split at failed
  · cases failed
  · next nonempty =>
      refine ⟨by simpa using nonempty, ?_⟩
      rcases Operation.bind_error failed with failed | ⟨more, e', -, absurdity⟩
      · exact failed
      · cases absurdity

/-- A call that fails raises the error itself, or a call that it makes fails with it. -/
theorem fails_cases (failed : c.result = .error problem) :
    c.Throws problem ∨ ∃ c', Makes c c' ∧ c'.result = .error problem := by
  obtain ⟨action, scope, e⟩ := c
  cases action with
  | step s => exact .inl (.step (noted_failed failed))
  | chain actions =>
    obtain ⟨c, inside, failed⟩ := executeAll_failed (noted_failed failed)
    exact .inr ⟨c, .chain inside, failed⟩
  | compose a b =>
    rcases Operation.bind_error (noted_failed failed) with first | ⟨left, e', ran, failed⟩
    · exact .inr ⟨_, .first, first⟩
    · rcases Operation.bind_error failed with second | ⟨right, e'', -, absurdity⟩
      · exact .inr ⟨_, .second ran, second⟩
      · cases absurdity
  | fork p a b =>
    have failed := noted_failed failed
    cases elements : scope.expectElements with
    | error refusal =>
      rw [Operation.lift_bind_apply, elements] at failed
      cases failed
      exact .inl (.fork elements)
    | ok ids =>
      rw [Operation.lift_bind_apply, elements] at failed
      rcases Operation.bind_error failed with untested | ⟨⟨yes, no⟩, e', split, failed⟩
      · exact .inl (.test untested)
      · rcases Operation.bind_error failed with matching | ⟨out, e'', ran, remaining⟩
        · obtain ⟨nonempty, failed⟩ := unitedWith_failed matching
          exact .inr ⟨_, .matching elements split nonempty, failed⟩
        · obtain ⟨nonempty, failed⟩ := unitedWith_failed remaining
          cases b with
          | none => cases failed
          | some b => exact .inr ⟨_, .remaining elements split ran nonempty, failed⟩
  | nested body =>
    rcases Operation.bind_error (noted_failed failed) with inner | ⟨out, e', -, absurdity⟩
    · exact .inr ⟨_, .nested, inner⟩
    · cases absurdity
  | outerScope kind body =>
    rcases Operation.bind_error (noted_failed failed) with ascent | ⟨outer, e', ran, failed⟩
    · exact .inl (.outerScope ascent)
    · rcases Operation.bind_error failed with inner | ⟨out, e'', -, absurdity⟩
      · exact .inr ⟨_, .outerScope ran, inner⟩
      · cases absurdity

theorem exists_throws (failed : c.result = .error problem) : ∃ c', Reaches c c' ∧ c'.Throws problem := by
  induction size : sizeOf c.action using Nat.strong_induction_on generalizing c with
  | _ n ih =>
    rcases fails_cases failed with here | ⟨c', made, failed⟩
    · exact ⟨c, .refl, here⟩
    · obtain ⟨c'', reached, thrown⟩ := ih _ (size ▸ made.smaller) failed rfl
      exact ⟨c'', .head made reached, thrown⟩

/-- The kind that an error about a scope found is that of the scope. It is the one that was expected when a step
    that needs the template got elements labelled as a template, and only then. -/
theorem Throws.refused {expected found : ScopeKind} (thrown : c.Throws (.illegalScope expected found)) :
    found = c.scope.kind ∧
      (expected = found ↔ (∃ s, c.action = .step s ∧ s.NeedsTemplate) ∧ ∃ ids, c.scope = .elements .template ids) := by
  cases thrown with
  | @step s scope e _ failed =>
    obtain ⟨named, same⟩ := s.apply_refused scope e.model _ failed expected found rfl
    refine ⟨named, same.trans (and_congr_left fun _ => ⟨fun needs => ⟨s, rfl, needs⟩, ?_⟩)⟩
    rintro ⟨s', ⟨⟩, needs⟩
    exact needs
  | fork failed =>
    obtain ⟨named, same⟩ := Scope.expectElements_refused failed expected found rfl
    refine ⟨named, same.trans ?_⟩
    simp
  | test failed => exact absurd rfl (Predicate.splitIn_raises _ _ _ _ failed expected found)
  | @outerScope kind _ scope e _ failed =>
    obtain ⟨named, same⟩ := (Step.ascend kind).apply_refused scope e.model _ failed expected found rfl
    refine ⟨named, same.trans ?_⟩
    simp [Step.NeedsTemplate]

end ActionCall

/-! ## Scopes labelled as templates -/

/-- An action ascends to elements of a kind somewhere. -/
inductive Action.Ascends (kind : ScopeKind) : Action → Prop where
  | step : Ascends kind (.step (.ascend kind))
  | outerScope {body} : Ascends kind (.outerScope kind body)
  | chain {a actions} (member : a ∈ actions) (part : Ascends kind a) : Ascends kind (.chain actions)
  | first {a b} (part : Ascends kind a) : Ascends kind (.compose a b)
  | second {a b} (part : Ascends kind b) : Ascends kind (.compose a b)
  | onMatch {p a b} (part : Ascends kind a) : Ascends kind (.fork p a b)
  | otherwise {p a b} (part : Ascends kind b) : Ascends kind (.fork p a (some b))
  | nested {body} (part : Ascends kind body) : Ascends kind (.nested body)
  | outerBody {kind' body} (part : Ascends kind body) : Ascends kind (.outerScope kind' body)

def Returns {ε σ α : Type} (P : α → Prop) (f : Operation ε σ α) : Prop := ∀ s a, (f s).1 = .ok a → P a

namespace Returns

variable {ε σ α β : Type} {P : α → Prop} {Q : β → Prop} {g : α → Operation ε σ β} {f : Operation ε σ α}

theorem pure {a : α} (holds : P a) : Returns P (Pure.pure a : Operation ε σ α) := by
  rintro s a' ⟨⟩
  exact holds

theorem bind (hf : Returns P f) (hg : ∀ a, P a → Returns Q (g a)) : Returns Q (f >>= g) := by
  intro s b given
  obtain ⟨a, s', ran, given⟩ := Operation.bind_ok (Prod.ext given rfl)
  exact hg a (hf s a (congrArg Prod.fst ran)) s' b (congrArg Prod.fst given)

theorem after (hg : ∀ a, Returns Q (g a)) : Returns Q (f >>= g) :=
  .bind (P := fun _ => True) (fun _ _ _ => trivial) fun a _ => hg a

theorem liftBind {x : Except ε α} (hg : ∀ a, x = .ok a → Returns Q (g a)) :
    Returns Q (liftM x >>= g : Operation ε σ β) := by
  intro s b given
  rw [Operation.lift_bind_apply] at given
  cases x with
  | error e => cases given
  | ok a => exact hg a rfl s b given

end Returns

/-- A scope labelled as a template is the template or, if that can be, has no elements. -/
def Scope.Sincere (ascends : Prop) (scope : Scope) : Prop :=
  scope.kind = .template → scope = .template ∨ scope = .elements .template [] ∧ ascends

namespace Scope.Sincere

variable {ascends : Prop} {scope : Scope}

theorem template : Sincere ascends .template := fun _ => .inl rfl

theorem ofKind (kind : ElementKind) (ids : List ElementId) : Sincere ascends (.ofKind kind ids) := by
  rintro ⟨⟩

theorem part (sincere : scope.Sincere ascends) {ids part : List ElementId} (elements : scope.expectElements = .ok ids)
    (within : part ⊆ ids) : Sincere ascends (.ofIds scope.kind part) := by
  intro label
  obtain rfl | ⟨rfl, ascended⟩ := sincere label
  · cases elements
  · cases elements
    obtain rfl := List.subset_nil.mp within
    exact .inr ⟨rfl, ascended⟩

theorem of_elements {kind : ScopeKind} {ids : List ElementId} (sincere : Sincere ascends (.elements kind ids))
    (label : kind = .template) : ids = [] ∧ ascends := by
  obtain absurdity | ⟨empty, ascended⟩ := sincere label
  · cases absurdity
  · cases empty
    exact ⟨rfl, ascended⟩

theorem union {left right : Scope} (hl : left.Sincere ascends) (hr : right.Sincere ascends) :
    (left.union right).Sincere ascends := by
  cases left with
  | template => exact hr
  | elements a left =>
    cases right with
    | template => exact hl
    | elements b right =>
      intro label
      change unionKind a left b right = .template at label
      -- Elements that are labelled make the union's label only if there are none on the other side either.
      cases left with
      | nil =>
        obtain rfl : b = .template := label
        obtain ⟨rfl, ascended⟩ := hr.of_elements rfl
        exact .inr ⟨rfl, ascended⟩
      | cons id left =>
        have named : a ≠ .template := fun same => by cases (hl.of_elements same).1
        cases right with
        | nil => exact absurd label named
        | cons id' right =>
          unfold unionKind at label
          rw [if_neg (by simp), if_neg (by simp)] at label
          split at label
          · exact absurd label named
          · cases label

end Scope.Sincere

namespace Step

theorem ascendFrom_template (m : Model) (ids : List ElementId) : ascendFrom m .template ids = [] := by
  rw [List.eq_nil_iff_forall_not_mem]
  intro id member
  obtain ⟨start, -, found⟩ := List.mem_filterMap.mp member
  have same : (m.index.kind? id).map ScopeKind.elements = some .template := by simpa using List.find?_some found
  obtain ⟨kind, -, absurdity⟩ := Option.map_eq_some_iff.mp same
  cases absurdity

theorem apply_sincere {ascends : Prop} (s : Step) (may : s = .ascend .template → ascends)
    (sincere : scope.Sincere ascends) : Returns (·.Sincere ascends) (s.apply scope) := by
  have found {α : Type} {f : ModelM α} {kind : ElementKind} {ids : α → List ElementId} :
      Returns (·.Sincere ascends) (f >>= fun a => pure (.ofKind kind (ids a)) : ModelM Scope) :=
    .after fun _ => .pure (.ofKind kind _)
  cases s with
  | identity => exact .pure sincere
  | classes | synthesize => exact .liftBind fun _ _ => found
  | elementsOf type =>
    refine .after fun m => .pure fun label => ?_
    change ((m.entities.kindOf? type).map ScopeKind.elements).getD .unresolved = .template at label
    cases known : m.entities.kindOf? type <;> simp [known] at label
  | methods | fields | parameters | annotations | signature | typeArguments | explodeType =>
    exact .liftBind fun _ _ => found
  | ascend kind =>
    refine .liftBind fun ids _ => .after fun m => .pure fun label => ?_
    obtain rfl : kind = .template := label
    exact .inr ⟨by rw [ascendFrom_template]; rfl, may rfl⟩
  | filter p =>
    refine .liftBind fun ids elements => .bind (fun m parts => p.splitIn_subset ids m trivial parts) ?_
    exact fun parts within => .pure (sincere.part elements within.1)
  | registerEntity | updateEntity | associate => exact .liftBind fun _ _ => .after fun _ => .pure sincere
  | relate => exact .after fun _ => .pure sincere

end Step

namespace Action

variable {ascends : Prop}

theorem noted_returns {P : Scope → Prop} {description : String} {body : ExecutionM Scope}
    (returns : Returns P body) : Returns P (Execution.noted description scope body) :=
  .after fun _ => .bind returns fun _ holds => .after fun _ => .pure holds

theorem onModel_returns {α : Type} {P : α → Prop} {f : ModelM α} (returns : Returns P f) :
    Returns P (Execution.onModel f) :=
  fun e a given => returns e.model a given

theorem unitedWith_sincere {scope out : Scope} {ids part : List ElementId} (sincere : scope.Sincere ascends)
    (elements : scope.expectElements = .ok ids) (within : part ⊆ ids) (before : out.Sincere ascends)
    {run : Scope → ExecutionM Scope}
    (runs : ∀ scope, scope.Sincere ascends → Returns (·.Sincere ascends) (run scope)) :
    Returns (·.Sincere ascends) (unitedWith out scope.kind part run) := by
  unfold unitedWith
  split
  · exact .pure before
  · exact .bind (runs _ (sincere.part elements within)) fun more after => .pure (before.union after)

mutual
theorem execute_sincere (a : Action) (scope : Scope) (may : a.Ascends .template → ascends)
    (sincere : scope.Sincere ascends) : Returns (·.Sincere ascends) (a.execute scope) := by
  match a with
  | .step s =>
    refine noted_returns (onModel_returns (s.apply_sincere (fun same => may ?_) sincere))
    rw [same]
    exact .step
  | .chain actions =>
    exact noted_returns (executeAll_sincere actions scope (fun a member part => may (.chain member part)) sincere)
  | .compose a b =>
    exact noted_returns (.bind (execute_sincere a scope (fun part => may (.first part)) sincere) fun left hl =>
      .bind (execute_sincere b scope (fun part => may (.second part)) sincere) fun right hr => .pure (hl.union hr))
  | .fork p a b =>
    refine noted_returns (.liftBind fun ids elements => .bind
      (onModel_returns fun m parts => p.splitIn_subset ids m trivial parts) fun parts within => .bind
      (unitedWith_sincere sincere elements within.1 (sincere.part elements (List.nil_subset ids))
        fun scope => execute_sincere a scope fun part => may (.onMatch part)) fun out before => ?_)
    refine unitedWith_sincere sincere elements within.2 before fun scope => executeOption_sincere b scope ?_
    rintro b ⟨⟩ part
    exact may (.otherwise part)
  | .nested body => exact noted_returns (.after fun _ => .pure sincere)
  | .outerScope kind body => exact noted_returns (.after fun _ => .after fun _ => .pure sincere)
termination_by structural a

theorem executeAll_sincere (actions : List Action) (scope : Scope)
    (may : ∀ a ∈ actions, a.Ascends .template → ascends) (sincere : scope.Sincere ascends) :
    Returns (·.Sincere ascends) (executeAll actions scope) := by
  match actions with
  | [] => exact .pure sincere
  | a :: rest =>
    exact .bind (execute_sincere a scope (may a List.mem_cons_self) sincere) fun out after =>
      executeAll_sincere rest out (fun a member => may a (List.mem_cons_of_mem _ member)) after
termination_by structural actions

theorem executeOption_sincere (a : Option Action) (scope : Scope) (may : ∀ b, a = some b → b.Ascends .template → ascends)
    (sincere : scope.Sincere ascends) : Returns (·.Sincere ascends) (executeOption a scope) := by
  match a with
  | none => exact .pure sincere
  | some a => exact execute_sincere a scope (may a rfl) sincere
termination_by structural a
end

end Action

namespace ActionCall

/-- A call may ascend to the template only if this is known, and its scope is sincere. -/
structure Candid (ascends : Prop) (c : ActionCall) : Prop where
  may : c.action.Ascends .template → ascends
  sincere : c.scope.Sincere ascends

variable {ascends : Prop}

theorem InSequence.candid {actions : List Action} {e : Execution} {c : ActionCall}
    (inside : InSequence actions scope e c) (may : ∀ a ∈ actions, a.Ascends .template → ascends)
    (sincere : scope.Sincere ascends) : c.Candid ascends := by
  induction inside with
  | head => exact ⟨may _ List.mem_cons_self, sincere⟩
  | tail ran _ ih =>
    obtain ⟨first, others⟩ := List.forall_mem_cons.mp may
    exact ih others (Action.execute_sincere _ _ first sincere _ _ (congrArg Prod.fst ran))

theorem Makes.candid {c c' : ActionCall} (made : Makes c c') (candid : c.Candid ascends) : c'.Candid ascends := by
  obtain ⟨may, sincere⟩ := candid
  cases made with
  | chain inside => exact inside.candid (fun a member part => may (.chain member part)) sincere
  | first => exact ⟨fun part => may (.first part), sincere⟩
  | second => exact ⟨fun part => may (.second part), sincere⟩
  | @matching p _ _ _ _ ids _ _ _ elements split _ =>
    have within := p.splitIn_subset ids _ trivial _ (congrArg Prod.fst split)
    exact ⟨fun part => may (.onMatch part), sincere.part elements within.1⟩
  | @remaining p _ _ _ _ ids _ _ _ _ _ elements split =>
    have within := p.splitIn_subset ids _ trivial _ (congrArg Prod.fst split)
    exact ⟨fun part => may (.otherwise part), sincere.part elements within.2⟩
  | nested => exact ⟨fun part => may (.nested part), sincere⟩
  | @outerScope kind body scope e outer e' ran =>
    refine ⟨fun part => may (.outerBody part), ?_⟩
    refine (Step.ascend kind).apply_sincere (fun same => may ?_) sincere _ _ (congrArg Prod.fst ran)
    cases same
    exact .outerScope

theorem Reaches.candid {c c' : ActionCall} (reached : Reaches c c') (candid : c.Candid ascends) :
    c'.Candid ascends := by
  induction reached with
  | refl => exact candid
  | tail _ made ih => exact made.candid ih

end ActionCall

namespace Pipeline

theorem run_error_iff {settings : Settings} {classes : List ClassDeclaration} {p : Pipeline} {problem : ModelError} :
    (∃ f, p.run settings classes = .error f ∧ f.error = problem) ↔
      (p.call settings classes).result = .error problem := by
  unfold run ActionCall.result call
  generalize p.action.execute .template (.ofClasses settings classes) = outcome
  obtain ⟨result, e⟩ := outcome
  cases result <;> simp

/-- When a run fails because of a scope, the kind that was found is that of the scope of the call that raised the
    error. It is the kind that was expected if and only if a step that needs the template got the empty scope of an
    ascent to the template, so it never is in a pipeline without one. -/
theorem scope_error_matches_iff (settings : Settings) (classes : List ClassDeclaration) (p : Pipeline) {f : RunFailure}
    {expected found : ScopeKind} (ran : p.run settings classes = .error f)
    (problem : f.error = .illegalScope expected found) :
    ∃ c, (p.call settings classes).Reaches c ∧ c.Throws f.error ∧ c.scope.kind = found ∧
      (expected = found ↔ (∃ s, c.action = .step s ∧ s.NeedsTemplate) ∧ c.scope = .elements .template []) ∧
      (expected = found → found = .template ∧ p.action.Ascends .template) := by
  obtain ⟨c, reached, thrown⟩ := ActionCall.exists_throws (run_error_iff.mp ⟨f, ran, rfl⟩)
  have start : (p.call settings classes).Candid (p.action.Ascends .template) := ⟨id, .template⟩
  have candid := reached.candid start
  rw [problem] at thrown ⊢
  obtain ⟨named, same⟩ := thrown.refused
  refine ⟨c, reached, thrown, named.symm, same.trans ⟨?_, ?_⟩, fun alike => ?_⟩
  · rintro ⟨needs, ids, scope⟩
    have sincere := candid.sincere
    rw [scope] at sincere ⊢
    obtain ⟨rfl, -⟩ := sincere.of_elements rfl
    exact ⟨needs, rfl⟩
  · rintro ⟨needs, scope⟩
    exact ⟨needs, [], scope⟩
  · obtain ⟨-, ids, scope⟩ := same.mp alike
    have sincere := candid.sincere
    rw [scope] at sincere named
    exact ⟨named, (sincere.of_elements rfl).2⟩

end Pipeline

/-! ## Classes after an ascent to the template -/

namespace AscentToTemplate

def classes : List ClassDeclaration := [{ name := "app/A" }]

def pipeline : Pipeline :=
  { name := "p", action := .chain [.step .classes, .step (.ascend .template), .step .classes] }

/-- The second selection of classes expected a template and found one. -/
theorem found_as_expected : ∃ f, pipeline.run {} classes = .error f ∧ f.error = .illegalScope .template .template ∧
    f.error.message = "expected a template scope, found template" ∧
    ∃ c, (pipeline.call {} classes).Reaches c ∧ c.Throws f.error ∧ c.scope = .elements .template [] := by
  have failed : (pipeline.call {} classes).result = .error (.illegalScope .template .template) := by decide +kernel
  obtain ⟨f, ran, problem⟩ := Pipeline.run_error_iff.mpr failed
  obtain ⟨c, reached, thrown, -, alike, -⟩ := Pipeline.scope_error_matches_iff {} classes pipeline ran problem
  refine ⟨f, ran, problem, ?_, c, reached, thrown, (alike.mp rfl).2⟩
  rw [problem]
  decide +kernel

end AscentToTemplate

end ClassAtlas
