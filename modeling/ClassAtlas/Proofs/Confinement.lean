import ClassAtlas.Proofs.Ancestry
import ClassAtlas.Proofs.Coherence
import ClassAtlas.Proofs.ScopeKinds
import ClassAtlas.Proofs.StepCalls

/-! # What scopes are confined to

Some properties of a model hold only because of what gets into scopes: a step keeps them if all elements that it
gets have a property too. If steps also give only such elements, then all scopes of a run are confined to them
and every model of the run has the property. This is shown once for all pairs of such properties. To see that
steps give only such elements, it is enough to know the few ways in which an element gets into a scope.
-/

namespace ClassAtlas

theorem Scope.mem_union {left right : Scope} {id : ElementId} :
    id ∈ (left.union right).ids ↔ id ∈ left.ids ∨ id ∈ right.ids := by
  cases left with
  | template => simp [union, Scope.ids]
  | elements kind ids =>
    cases right with
    | template => simp [union, Scope.ids]
    | elements kind' ids' => exact mem_ofIds.trans List.mem_append

/-- An operation leaves a model with `I`, in which elements still have `P`, and if it succeeds, so have the
    elements that it gives. -/
structure Stays (I : Model → Prop) (P : Model → ElementId → Prop) {α : Type} (elements : α → List ElementId)
    (m : Model) (result : Except ModelError α) (m' : Model) : Prop where
  model : I m'
  kept : ∀ id, P m id → P m' id
  given : ∀ a, result = .ok a → ∀ id ∈ elements a, P m' id

/-- Steps keep `I` of models, and `P` of elements in scopes. Tests give no elements. -/
structure Confining (I : Model → Prop) (P : Model → ElementId → Prop) : Prop where
  step : ∀ (s : Step) scope m, I m → (∀ id ∈ scope.ids, P m id) →
    Stays I P Scope.ids m (s.apply scope m).1 (s.apply scope m).2
  test : ∀ (p : Predicate) ids m, I m → Stays I P (fun _ => []) m (p.splitIn ids m).1 (p.splitIn ids m).2

/-- Started on a model with `I` and elements with `P`, an operation stays with both, and so do all steps that it
    takes. -/
def Confined (I : Model → Prop) (P : Model → ElementId → Prop) {α : Type} (ids : List ElementId) (f : ExecutionM α)
    (calls : Execution → List StepCall) (elements : α → List ElementId) : Prop :=
  ∀ e, I e.model → (∀ id ∈ ids, P e.model id) →
    Stays I P elements e.model (f e).1 (f e).2.model ∧
      ∀ c ∈ calls e, I c.model ∧ ∀ id ∈ c.scope.ids, P c.model id

namespace Confined

variable {I : Model → Prop} {P : Model → ElementId → Prop} {α β : Type} {ids ids' : List ElementId}
  {calls : Execution → List StepCall} {f : ExecutionM α} {elements : α → List ElementId}
  {elements' : β → List ElementId}

theorem pure {a : α} (known : elements a ⊆ ids) : Confined I P ids (Pure.pure a) (fun _ => []) elements := by
  intro e model all
  refine ⟨⟨model, fun _ has => has, ?_⟩, List.forall_mem_nil _⟩
  intro a' same id member
  cases same
  exact all id (known member)

theorem weaken (h : Confined I P ids f calls elements) (more : ids ⊆ ids') : Confined I P ids' f calls elements :=
  fun e model all => h e model fun id member => all id (more member)

theorem bind {g : α → ExecutionM β} {before : Execution → List StepCall} {after : α → Execution → List StepCall}
    (hf : Confined I P ids f before elements)
    (hg : ∀ a, Confined I P (ids ++ elements a) (g a) (after a) elements') :
    Confined I P ids (f >>= g) (fun e => before e ++ Execution.followedBy f after e) elements' := by
  intro e model all
  obtain ⟨first, called⟩ := hf e model all
  rw [Operation.bind_apply]
  simp only [Execution.followedBy]
  generalize f e = outcome at first ⊢
  obtain ⟨result, e'⟩ := outcome
  cases result with
  | error problem =>
    refine ⟨⟨first.model, first.kept, fun b same => ?_⟩, by simpa using called⟩
    cases same
  | ok a =>
    have both : ∀ id ∈ ids ++ elements a, P e'.model id := by
      intro id member
      rcases List.mem_append.mp member with old | new
      · exact first.kept id (all id old)
      · exact first.given a rfl id new
    obtain ⟨second, called'⟩ := hg a e' first.model both
    refine ⟨⟨second.model, fun id has => second.kept id (first.kept id has), second.given⟩, fun c member => ?_⟩
    exact (List.mem_append.mp member).elim (called c) (called' c)

theorem map (hf : Confined I P ids f calls elements) {g : α → β} (known : ∀ a, elements' (g a) ⊆ ids ++ elements a) :
    Confined I P ids (f >>= fun a => Pure.pure (g a)) calls elements' := by
  intro e model all
  obtain ⟨stays, -⟩ := hf.bind (fun a => .pure (known a)) e model all
  exact ⟨stays, (hf e model all).2⟩

theorem noted (description : String) (scope : Scope) {body : ExecutionM Scope}
    (hbody : Confined I P ids body calls Scope.ids) :
    Confined I P ids (Execution.noted description scope body) (fun e => calls (e.enter description scope))
      Scope.ids := by
  intro e model all
  obtain ⟨inside, called⟩ := hbody (e.enter description scope) model all
  refine ⟨?_, called⟩
  rw [Execution.noted_apply]
  generalize body (e.enter description scope) = outcome at inside ⊢
  obtain ⟨result, e'⟩ := outcome
  cases result <;> exact ⟨inside.model, inside.kept, inside.given⟩

theorem onModel {f : ModelM α} (stays : ∀ m, I m → (∀ id ∈ ids, P m id) → Stays I P elements m (f m).1 (f m).2) :
    Confined I P ids (Execution.onModel f) (fun _ => []) elements :=
  fun e model all => ⟨stays e.model model all, List.forall_mem_nil _⟩

end Confined

namespace Action

section Confining

variable {I : Model → Prop} {P : Model → ElementId → Prop}

theorem unitedWith_confined (out : Scope) (kind : ScopeKind) {ids part : List ElementId} (known : out.ids ⊆ ids)
    (inside : part ⊆ ids) {run : Scope → ExecutionM Scope} {calls : Scope → Execution → List StepCall}
    (hrun : ∀ scope : Scope, Confined I P scope.ids (run scope) (calls scope) Scope.ids) :
    Confined I P ids (unitedWith out kind part run)
      (fun e => if part.isEmpty then [] else calls (.ofIds kind part) e) Scope.ids := by
  unfold unitedWith
  cases part.isEmpty with
  | true => exact .pure known
  | false =>
    have more : (Scope.ofIds kind part).ids ⊆ ids := fun id member => inside (Scope.mem_ofIds.mp member)
    refine .map ((hrun _).weaken more) fun given id member => ?_
    rw [List.mem_append]
    exact (Scope.mem_union.mp member).imp_left fun old => known old

theorem splitIn_confined (confining : Confining I P) (p : Predicate) (ids : List ElementId) :
    Confined I P ids (Execution.onModel (p.splitIn ids)) (fun _ => []) fun parts => parts.1 ++ parts.2 := by
  refine .onModel fun m model all => ?_
  have tested := confining.test p ids m model
  refine ⟨tested.model, tested.kept, fun parts passed id member => ?_⟩
  obtain ⟨matching, remaining⟩ := Predicate.splitIn_subset p ids m trivial parts passed
  apply tested.kept
  exact all id ((List.mem_append.mp member).elim (fun h => matching h) fun h => remaining h)

mutual
theorem execute_confined (confining : Confining I P) (a : Action) (scope : Scope) :
    Confined I P scope.ids (a.execute scope) (a.stepCalls scope) Scope.ids := by
  match a with
  | .step s =>
    have taken : Confined I P scope.ids (Execution.onModel (s.apply scope)) (fun e => [⟨s, scope, e.model⟩])
        Scope.ids := by
      intro e model all
      refine ⟨confining.step s scope e.model model all, fun c member => ?_⟩
      rw [List.mem_singleton.mp member]
      exact ⟨model, all⟩
    exact taken.noted s.describe scope
  | .chain actions => exact (executeAll_confined confining actions scope).noted _ scope
  | .compose first second =>
    refine Confined.noted _ scope (.bind (execute_confined confining first scope) fun left => ?_)
    refine .map ((execute_confined confining second scope).weaken (List.subset_append_left _ _)) fun right => ?_
    intro id member
    rcases Scope.mem_union.mp member with old | new
    · simp [old]
    · simp [new]
  | .fork predicate onMatch otherwise =>
    intro e
    cases scope with
    | template => exact fun model _ => ⟨⟨model, fun _ has => has, nofun⟩, List.forall_mem_nil _⟩
    | elements kind ids =>
      have matching := fun parts : List ElementId × List ElementId =>
        unitedWith_confined (.elements kind []) kind (List.nil_subset (ids ++ (parts.1 ++ parts.2)))
          (fun id (member : id ∈ parts.1) => by simp [member]) (execute_confined confining onMatch)
      have rest := fun (parts : List ElementId × List ElementId) (out : Scope) =>
        unitedWith_confined out kind (List.subset_append_right (ids ++ (parts.1 ++ parts.2)) out.ids)
          (fun id (member : id ∈ parts.2) => by simp [member]) (executeOption_confined confining otherwise)
      have whole := (splitIn_confined confining predicate ids).bind fun parts => (matching parts).bind (rest parts)
      exact whole.noted (Action.fork predicate onMatch otherwise).describe (.elements kind ids) e
  | .nested body =>
    have inside : Confined I P scope.ids (body.execute scope >>= fun _ => Pure.pure scope) (body.stepCalls scope)
        Scope.ids := (execute_confined confining body scope).map fun _ => List.subset_append_left _ _
    exact inside.noted _ scope
  | .outerScope kind body =>
    have outer : Confined I P scope.ids (Execution.onModel ((Step.ascend kind).apply scope)) (fun _ => [])
        Scope.ids := .onModel (confining.step (.ascend kind) scope)
    have back (out : Scope) : Confined I P (scope.ids ++ out.ids) (body.execute out >>= fun _ => Pure.pure scope)
        (body.stepCalls out) Scope.ids :=
      .map ((execute_confined confining body out).weaken (List.subset_append_right _ _)) fun _ _ member => by
        simp [member]
    have whole := outer.bind back
    exact whole.noted (Action.outerScope kind body).describe scope
termination_by structural a

theorem executeAll_confined (confining : Confining I P) (actions : List Action) (scope : Scope) :
    Confined I P scope.ids (executeAll actions scope) (stepCallsOfAll actions scope) Scope.ids := by
  match actions with
  | [] => exact .pure (List.Subset.refl _)
  | a :: rest =>
    exact .bind (execute_confined confining a scope) fun out =>
      (executeAll_confined confining rest out).weaken (List.subset_append_right _ _)
termination_by structural actions

theorem executeOption_confined (confining : Confining I P) (a : Option Action) (scope : Scope) :
    Confined I P scope.ids (executeOption a scope) (stepCallsOfOption a scope) Scope.ids := by
  match a with
  | none => exact .pure (List.Subset.refl _)
  | some a => exact execute_confined confining a scope
termination_by structural a
end

end Confining

end Action

/-! ## How elements get into scopes -/

/-- The element that an element is part of, as far as its key tells. -/
def ElementKey.owner? : ElementKey → Option ElementId
  | .classDef _ | .member _ _ _ _ => none
  | .parameter owner _ | .annotationUse owner _ | .signature owner _ | .value owner _ => some owner

namespace ElementIndex

variable {ix ix' : ElementIndex} {ids : List ElementId} {e owner : ElementId}

/-- An element under a key that is not for values, part of one of some elements if the key names an owner. -/
def Stems (ix : ElementIndex) (ids : List ElementId) (e : ElementId) : Prop :=
  ∃ key, ix.find? key = some e ∧ key.kind ≠ .value ∧ ∀ owner, key.owner? = some owner → owner ∈ ids

theorem Stems.grows (h : ix.Stems ids e) (grows : ix.Grows ix') : ix'.Stems ids e := by
  obtain ⟨key, found, plain, owned⟩ := h
  exact ⟨key, grows.keys found, plain, owned⟩

theorem Stems.of_owner {key : ElementKey} (found : ix.find? key = some e) (plain : key.kind ≠ .value)
    (owned : key.owner? = some owner) (member : owner ∈ ids) : ix.Stems ids e := by
  refine ⟨key, found, plain, fun other same => ?_⟩
  cases owned.symm.trans same
  exact member

theorem Finds.stems_class (found : ix.Finds .classDef e) : ix.Stems ids e := by
  obtain ⟨key, kind, found⟩ := found
  refine ⟨key, found, by simp [kind], fun owner owned => ?_⟩
  cases key with
  | classDef | member => cases owned
  | parameter | annotationUse | signature | value => cases kind

theorem Finds.stems_member {kind : MemberKind} (found : ix.Finds kind.elementKind e) : ix.Stems ids e := by
  obtain ⟨key, same, found⟩ := found
  refine ⟨key, found, by cases kind <;> simp [same, MemberKind.elementKind], fun owner owned => ?_⟩
  cases key with
  | classDef | member => cases owned
  | parameter | annotationUse | signature | value => cases kind <;> cases same

theorem internAll_stems {entries : List (ElementKey × Element)}
    (keys : ∀ entry ∈ entries, entry.1.kind ≠ .value ∧ entry.1.owner? = some owner) (member : owner ∈ ids)
    (ix : ElementIndex) : ∀ e ∈ (ix.internAll entries).1, (ix.internAll entries).2.Stems ids e := by
  intro e given
  obtain ⟨j, place⟩ := List.getElem?_of_mem given
  obtain ⟨entry, offered, found⟩ := internAll_find? place
  obtain ⟨plain, owned⟩ := keys entry (List.mem_of_getElem? offered)
  exact .of_owner found plain owned member

theorem annotations_stems (member : owner ∈ ids) (ix : ElementIndex) :
    ∀ e ∈ (ix.annotations owner).1, (ix.annotations owner).2.Stems ids e := by
  refine internAll_stems (fun entry offered => ?_) member ix
  obtain ⟨i, -, rfl⟩ := List.mem_map.mp offered
  exact ⟨nofun, rfl⟩

theorem parameters_stems (member : owner ∈ ids) (ix : ElementIndex) :
    ∀ e ∈ (ix.parameters owner).1, (ix.parameters owner).2.Stems ids e := by
  refine internAll_stems (fun entry offered => ?_) member ix
  obtain ⟨i, -, rfl⟩ := List.mem_map.mp offered
  exact ⟨nofun, rfl⟩

theorem internSignature_stems (member : owner ∈ ids) (slot : SignatureSlot) (type : TypeSignature) (ix : ElementIndex) :
    (ix.internSignature owner slot type).2.Stems ids (ix.internSignature owner slot type).1 :=
  .of_owner (find?_intern (.signature owner slot) (.signature owner type) ix) nofun rfl member

end ElementIndex

namespace Step

open ElementIndex (Stems)

variable {ids : List ElementId} {id : ElementId}

theorem annotationsOfType_stems (type : Option TypeName) (member : id ∈ ids) (ix : ElementIndex) :
    ∀ e ∈ (annotationsOfType type id ix).1, (annotationsOfType type id ix).2.Stems ids e := by
  intro e given
  cases type with
  | none => exact ElementIndex.annotations_stems member ix e given
  | some t => exact ElementIndex.annotations_stems member ix e (List.mem_of_mem_filter given)

theorem internArguments_stems (member : id ∈ ids) (i : Nat) (args : List TypeSignature) (ix : ElementIndex) :
    ∀ e ∈ (internArguments id i args ix).1, (internArguments id i args ix).2.Stems ids e := by
  induction args generalizing i ix with
  | nil =>
    intro e given
    cases given
  | cons s rest ih =>
    have first := ElementIndex.internSignature_stems member (.argument i) s ix
    have grows := (internArguments_fills id (i + 1) rest (ix.internSignature id (.argument i) s).2).toGrows
    exact List.forall_mem_cons.mpr ⟨first.grows grows, ih (i + 1) _⟩

theorem argumentsOf_stems (member : id ∈ ids) (ix : ElementIndex) :
    ∀ e ∈ (argumentsOf id ix).1, (argumentsOf id ix).2.Stems ids e := by
  unfold argumentsOf
  split
  · exact internArguments_stems member 0 _ ix
  · intro e given
    cases given

theorem declaredSignature_stems (member : id ∈ ids) :
    Yields (fun _ => True) (declaredSignature id) fun found m => ∀ e ∈ found, m.index.Stems ids e := by
  refine .bind .any fun declared => ?_
  cases declared with
  | none =>
    refine .pure fun m _ e given => ?_
    cases given
  | some s =>
    refine .bind (Q := fun found m => m.index.Stems ids found) ?_ fun found => ?_
    · intro m _ found given
      cases given
      exact ElementIndex.internSignature_stems member .declared s m.index
    · exact .pure fun m here e given => List.mem_singleton.mp given ▸ here

end Step

/-- How an element gets into the scope that comes after some elements. -/
inductive Model.Provides (m : Model) (ids : List ElementId) (e : ElementId) : Prop where
  | kept (member : e ∈ ids)
  | keyed (stems : m.index.Stems ids e)
  | origin {start : ElementId} (member : start ∈ ids) (above : e ∈ m.ancestors start)
  | entity {known : Entity} (member : known ∈ m.entities.entities) (element : known.element = e)

namespace Step

open Model (GrowsSoundly)

variable (scope : Scope)

theorem found_provided {kind : ElementKind} {f : ModelM (List ElementId)}
    (stems : Yields (fun _ => True) f fun found m => ∀ e ∈ found, m.index.Stems scope.ids e) :
    Yields (fun _ => True) (f >>= fun found => pure (.ofKind kind found) : ModelM Scope)
      fun out m => ∀ e ∈ out.ids, m.Provides scope.ids e :=
  .bind stems fun _ => .pure fun _ each e member => .keyed (each e (Scope.mem_ofIds.mp member))

theorem gathered_provided {kind : ElementKind} {f : ElementId → ElementIndex → List ElementId × ElementIndex}
    (fills : ∀ id ix, ElementIndex.Fills ix (f id ix).2)
    (stems : ∀ id ∈ scope.ids, ∀ ix, ∀ e ∈ (f id ix).1, (f id ix).2.Stems scope.ids e) :
    Yields (fun _ => True)
      (Model.onIndex (gather f scope.ids) >>= fun found => pure (.ofKind kind found) : ModelM Scope)
      fun out m => ∀ e ∈ out.ids, m.Provides scope.ids e := by
  refine found_provided scope fun m _ found given => ?_
  cases given
  exact gather_forall (Q := fun ix e => ix.Stems scope.ids e) (fun grows h => h.grows grows) fills stems m.index

theorem ids_of_expect {scope : Scope} {kinds : List ScopeKind} {ids : List ElementId}
    (elements : scope.expect kinds = .ok ids) : ids = scope.ids := by
  cases scope with
  | template => cases elements
  | elements kind own =>
    simp only [Scope.expect] at elements
    split at elements
    · cases elements
      rfl
    · cases elements

theorem back_provided {f : ModelM Scope} (back : Yields (fun _ => True) f fun out _ => out = scope) :
    Yields (fun _ => True) f fun out m => ∀ e ∈ out.ids, m.Provides scope.ids e := by
  refine back.weaken (fun _ h => h) fun out m same e member => ?_
  rw [same] at member
  exact .kept member

theorem apply_provides (s : Step) (scope : Scope) :
    Yields (fun _ => True) (s.apply scope) fun out m => ∀ e ∈ out.ids, m.Provides scope.ids e := by
  cases s with
  | identity => exact back_provided scope (.pure fun _ _ => rfl)
  | classes =>
    refine .liftBind fun _ _ => .getBind fun seen => .pure ?_
    rintro m ⟨rfl, -⟩ e member
    exact .keyed (m.index.classIds_finds e (Scope.mem_ofIds.mp member)).stems_class
  | elementsOf type =>
    refine .getBind fun seen => .pure ?_
    rintro m ⟨rfl, -⟩ e member
    obtain ⟨known, ofType, same⟩ := List.mem_map.mp (Scope.mem_ofIds.mp member)
    exact .entity (List.mem_of_mem_filter ofType) same
  | methods inherited =>
    refine .liftBind fun ids elements => ?_
    rw [ids_of_expect elements]
    exact gathered_provided scope (fun id => ElementIndex.membersOf_fills .method id inherited)
      fun id _ ix e given => (ElementIndex.membersOf_gives .method id inherited ix e given).stems_member
  | fields inherited =>
    refine .liftBind fun ids elements => ?_
    rw [ids_of_expect elements]
    exact gathered_provided scope (fun id => ElementIndex.membersOf_fills .field id inherited)
      fun id _ ix e given => (ElementIndex.membersOf_gives .field id inherited ix e given).stems_member
  | parameters =>
    refine .liftBind fun ids elements => ?_
    rw [ids_of_expect elements]
    exact gathered_provided scope ElementIndex.parameters_fills fun _ => ElementIndex.parameters_stems
  | annotations type =>
    refine .liftBind fun ids elements => ?_
    rw [ids_of_expect elements]
    exact gathered_provided scope (annotationsOfType_fills type) fun _ => annotationsOfType_stems type
  | signature =>
    refine .liftBind fun ids elements => ?_
    rw [ids_of_expect elements]
    exact found_provided scope (collect_forall (Q := fun m e => m.index.Stems scope.ids e)
      (fun grown h => h.grows grown.index) GrowsSoundly.selection.looking.declaredSignature
      fun _ => declaredSignature_stems)
  | typeArguments =>
    refine .liftBind fun ids elements => ?_
    rw [ids_of_expect elements]
    exact gathered_provided scope argumentsOf_fills fun _ => argumentsOf_stems
  | explodeType create =>
    refine .liftBind fun ids _ => found_provided scope ?_
    refine (collect_finds (explode_keeps GrowsSoundly.selection create) (explode_finds create) ids).weaken
      (fun _ h => h) fun found m finds e member => ?_
    exact (finds e member).stems_class
  | ascend kind =>
    refine .liftBind fun ids elements => .getBind fun seen => .pure ?_
    rintro m ⟨rfl, -⟩ e member
    obtain ⟨start, inside, found⟩ := List.mem_filterMap.mp (Scope.mem_ofIds.mp member)
    exact .origin (ids_of_expectElements elements ▸ inside) (List.mem_of_find?_eq_some found)
  | filter predicate =>
    refine .liftBind fun ids elements => ?_
    rw [ids_of_expectElements elements]
    refine .bind (predicate.splitIn_subset scope.ids) fun parts => .pure fun m within e member => ?_
    exact .kept (within.1 (Scope.mem_ofIds.mp member))
  | synthesize targets =>
    refine .liftBind fun _ _ => found_provided scope fun m _ found given e member => ?_
    cases given
    exact (synthesizeAll_gives targets m.index e member).stems_class
  | registerEntity | updateEntity | associate =>
    exact back_provided scope (.liftBind fun _ _ => .bind .any fun _ => .pure fun _ _ => rfl)
  | relate => exact back_provided scope (.bind .any fun _ => .pure fun _ _ => rfl)

end Step

end ClassAtlas
