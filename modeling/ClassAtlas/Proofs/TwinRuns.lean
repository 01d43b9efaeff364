import ClassAtlas.Proofs.StepCalls

/-! # Two runs side by side

Of a model, the settings, the scanner's memory and the links between entities are read by two steps only,
by associating and by relating. All other steps do the same on two models that differ in these parts. So
two runs with different settings take the same steps as long as those two steps keep the models close
enough, and they end alike: in the same error at the same place, or with results as close as the models.
-/

namespace ClassAtlas

variable {R : Model → Model → Prop}

/-! ## Parts that most steps do not see -/

/-- The parts of a model that only associating and relating read or change. -/
structure Hidden where
  settings : Settings
  scanner : CallScanner
  edges : List Relation

def EntityStore.withEdges (s : EntityStore) (edges : List Relation) : EntityStore := { s with edges := edges }

namespace Model

variable {m m' : Model}

def hidden (m : Model) : Hidden := ⟨m.settings, m.scanner, m.entities.edges⟩

def withHidden (m : Model) (h : Hidden) : Model :=
  { m with settings := h.settings, scanner := h.scanner, entities := m.entities.withEdges h.edges }

@[simp] theorem withHidden_hidden (m : Model) : m.withHidden m.hidden = m := rfl

@[simp] theorem hidden_withHidden (m : Model) (h : Hidden) : (m.withHidden h).hidden = h := rfl

@[simp] theorem withHidden_withHidden (m : Model) (h h' : Hidden) :
    (m.withHidden h).withHidden h' = m.withHidden h' := rfl

/-- Two models are the same but for their hidden parts. -/
def Twins (m m' : Model) : Prop := m' = m.withHidden m'.hidden

theorem Twins.symm (h : m.Twins m') : m'.Twins m := by
  have same : m' = m.withHidden m'.hidden := h
  unfold Twins
  rw [same, withHidden_withHidden, withHidden_hidden]

theorem Twins.index (h : m.Twins m') : m'.index = m.index := by
  have same : m' = m.withHidden m'.hidden := h
  rw [same]
  rfl

theorem Twins.relinked (h : m.Twins m') : m.entities.Relinked m'.entities := by
  have same : m' = m.withHidden m'.hidden := h
  rw [same]
  exact ⟨rfl, rfl⟩

theorem Twins.relink (h : m.Twins m') {s s' : EntityStore} (links : m.entities.Relinked s)
    (links' : m'.entities.Relinked s') (scanner scanner' : CallScanner) :
    Twins { m with entities := s, scanner := scanner } { m' with entities := s', scanner := scanner' } := by
  obtain ⟨given, sameKinds⟩ := h.relinked
  have entities : s'.entities = s.entities := by rw [links'.entities, given, links.entities]
  have kinds : s'.typeKinds = s.typeKinds := by rw [links'.typeKinds, sameKinds, links.typeKinds]
  have store : s' = s.withEdges s'.edges := by
    cases s'
    cases entities
    cases kinds
    rfl
  have same : m' = m.withHidden m'.hidden := h
  unfold Twins
  rw [same, store]
  rfl

end Model

/-- An operation takes no notice of the hidden parts and leaves them as they are. -/
def Blind {α : Type} (f : ModelM α) : Prop :=
  ∀ m h, f (m.withHidden h) = ((f m).1, (f m).2.withHidden h)

namespace Blind

variable {α β : Type} {f : ModelM α}

theorem pure (a : α) : Blind (Pure.pure a) := fun _ _ => rfl

theorem throw (e : ModelError) : Blind (MonadExcept.throw e : ModelM α) := fun _ _ => rfl

theorem lift (x : Except ModelError α) : Blind (liftM x : ModelM α) := by
  intro m h
  cases x <;> rfl

theorem bind {g : α → ModelM β} (hf : Blind f) (hg : ∀ a, Blind (g a)) : Blind (f >>= g) := by
  intro m h
  rw [Operation.bind_apply, Operation.bind_apply, hf m h]
  generalize f m = outcome
  obtain ⟨result, m'⟩ := outcome
  cases result with
  | ok a => exact hg a m' h
  | error e => rfl

theorem getBind {g : Model → ModelM β}
    (same : ∀ m h, g (m.withHidden h) (m.withHidden h) = ((g m m).1, (g m m).2.withHidden h)) :
    Blind (MonadState.get >>= g : ModelM β) :=
  fun m h => same m h

theorem onIndex (f : ElementIndex → α × ElementIndex) : Blind (Model.onIndex f) := fun _ _ => rfl

theorem onResolver (f : ElementIndex → SignatureResolver → α × SignatureResolver) :
    Blind (Model.onResolver f) := fun _ _ => rfl

theorem evaluate (specs : List PropertySpec) (id : ElementId) : Blind (PropertySpec.evaluate specs id) :=
  fun _ _ => rfl

theorem hidden (blind : Blind f) (m : Model) : (f m).2.hidden = m.hidden := by
  have same := blind m m.hidden
  rw [Model.withHidden_hidden] at same
  have kept := congrArg (fun x => x.2.hidden) same
  simpa using kept

theorem twins (blind : Blind f) {m m' : Model} (twins : m.Twins m') :
    (f m').1 = (f m).1 ∧ (f m).2.Twins (f m').2 := by
  have kept := blind.hidden m'
  have same := blind m m'.hidden
  rw [← (show m' = m.withHidden m'.hidden from twins)] at same
  constructor
  · rw [same]
  · unfold Model.Twins
    rw [kept, same]

end Blind

/-! ## Steps that do not see them -/

namespace Predicate

variable (ix : ElementIndex) (entities : EntityStore) (edges : List Relation) (id : ElementId)

mutual
theorem test_withEdges (p : Predicate) : test ix (entities.withEdges edges) id p = test ix entities id p := by
  match p with
  | .name _ | .modifiers _ | .annotatedBy _ | .implements _ | .typeIs _ | .hasEntity _ | .synthetic => rfl
  | .negation p =>
    unfold test
    rw [test_withEdges p]
  | .all ps =>
    unfold test
    exact testAll_withEdges ps
  | .any ps =>
    unfold test
    exact testAny_withEdges ps
termination_by structural p

theorem testAll_withEdges (ps : List Predicate) :
    testAll ix (entities.withEdges edges) id ps = testAll ix entities id ps := by
  match ps with
  | [] => rfl
  | p :: ps =>
    unfold testAll
    rw [test_withEdges p, testAll_withEdges ps]
termination_by structural ps

theorem testAny_withEdges (ps : List Predicate) :
    testAny ix (entities.withEdges edges) id ps = testAny ix entities id ps := by
  match ps with
  | [] => rfl
  | p :: ps =>
    unfold testAny
    rw [test_withEdges p, testAny_withEdges ps]
termination_by structural ps
end

theorem split_withEdges (p : Predicate) (ids : List ElementId) :
    split ix (entities.withEdges edges) p ids = split ix entities p ids := by
  induction ids with
  | nil => rfl
  | cons id ids ih =>
    unfold split
    rw [test_withEdges, ih]

theorem splitIn_blind (p : Predicate) (ids : List ElementId) : Blind (p.splitIn ids) := by
  intro m h
  have same := split_withEdges m.index m.entities h.edges p ids
  unfold splitIn Model.onCaches
  simp only [Model.withHidden, same]
  rfl

end Predicate

namespace EntityStore

variable (s : EntityStore) (edges : List Relation)

theorem register_withEdges (type : EntityType) (element : ElementId) (kind : ElementKind)
    (label : Option String) (properties : Properties) :
    (s.withEdges edges).register type element kind label properties =
      (s.register type element kind label properties).map fun done => (done.1, done.2.withEdges edges) := by
  have found : (s.withEdges edges).find? element = s.find? element := rfl
  have kinds : (s.withEdges edges).kindOf? type = s.kindOf? type := rfl
  unfold register
  rw [found, kinds]
  cases s.find? element with
  | some e => by_cases same : e.type = type <;> simp only [same, if_true, if_false] <;> rfl
  | none =>
    cases s.kindOf? type with
    | none => rfl
    | some existing => by_cases same : existing = kind <;> simp only [same, if_true, if_false] <;> rfl

theorem update_withEdges (id : EntityId) (label : Option String) (properties : Properties) :
    ((s.withEdges edges).update id label properties).2 = (s.update id label properties).2.withEdges edges := by
  have found : (s.withEdges edges).get? id = s.get? id := rfl
  unfold update
  rw [found]
  cases (s.get? id).isSome <;> rfl

end EntityStore

namespace Step

theorem collect_blind {f : ElementId → ModelM (List ElementId)} (each : ∀ id, Blind (f id))
    (ids : List ElementId) : Blind (collect f ids) := by
  induction ids with
  | nil => exact .pure []
  | cons id rest ih => exact .bind (each id) fun _ => .bind ih fun _ => .pure _

theorem onEach_blind {f : ElementId → ModelM Unit} (each : ∀ id, Blind (f id)) (ids : List ElementId) :
    Blind (onEach f ids) := by
  induction ids with
  | nil => exact .pure ()
  | cons id rest ih => exact .bind (each id) fun _ => ih

theorem declaredSignature_blind (id : ElementId) : Blind (declaredSignature id) := by
  refine .bind (.onResolver _) fun found => ?_
  cases found with
  | none => exact .pure _
  | some s => exact .bind (.onIndex _) fun _ => .pure _

theorem explode_blind (create : Bool) (id : ElementId) : Blind (explode create id) := by
  refine .bind (.onResolver _) fun declared => ?_
  cases declared with
  | none => exact .pure _
  | some s =>
    refine .bind (.onResolver _) fun erased => ?_
    cases erased with
    | error e => exact .throw _
    | ok t =>
      refine .bind (.onIndex _) fun named => ?_
      cases named with
      | none => exact .pure _
      | some c => exact fun _ _ => rfl

theorem registerAs_blind (type : EntityType) (template : Option String) (specs : List PropertySpec)
    (id : ElementId) : Blind (registerAs type template specs id) := by
  intro m h
  cases known : m.index.kind? id with
  | none =>
    have failed : ∀ m' : Model, m'.index = m.index →
        registerAs type template specs id m' = (.error (.unknownElement id), m') := by
      intro m' same
      unfold registerAs
      rw [Operation.bind_apply]
      simp only [Operation.get_apply, same, known]
      rfl
    rw [failed m rfl, failed (m.withHidden h) rfl]
  | some kind =>
    have known' : (m.withHidden h).index.kind? id = some kind := known
    rw [registerAs_eq type template specs known, registerAs_eq type template specs known']
    have registered : (m.withHidden h).entities.register type id kind
        (registerLabel template id (propertiesOf specs id (m.withHidden h))
          (PropertySpec.evaluate specs id (m.withHidden h)).2)
        (propertiesOf specs id (m.withHidden h)) = _ :=
      m.entities.register_withEdges h.edges type id kind
        (registerLabel template id (propertiesOf specs id m) (PropertySpec.evaluate specs id m).2)
        (propertiesOf specs id m)
    rw [registered]
    generalize m.entities.register _ _ _ _ _ = outcome
    cases outcome <;> rfl

theorem updateFrom_blind (type : EntityType) (template : Option String) (specs : List PropertySpec)
    (id : ElementId) : Blind (updateFrom type template specs id) := by
  refine .getBind fun m h => ?_
  have enclosing : (m.withHidden h).enclosingEntity? id type = m.enclosingEntity? id type := rfl
  rw [enclosing]
  cases m.enclosingEntity? id type with
  | none => rfl
  | some target =>
    refine Blind.bind (.evaluate specs id) (fun properties => .getBind fun m h => ?_) m h
    have updated : ((m.withHidden h).entities.update target.id
        (template.map (LabelTemplate.labelOf (m.withHidden h).index id properties)) properties).2 =
        ((m.entities.update target.id
          (template.map (LabelTemplate.labelOf m.index id properties)) properties).2).withEdges h.edges :=
      m.entities.update_withEdges h.edges target.id _ properties
    simp only [Operation.set_apply, updated]
    rfl

theorem associationPairs_twins {m m' : Model} (twins : m.Twins m')
    (strict : m'.settings.strictRelations = m.settings.strictRelations) (parent : EntityType) (key : String)
    (child : EntityType) (id : ElementId) :
    associationPairs m parent key child id = associationPairs m' parent key child id := by
  have same : m' = m.withHidden m'.hidden := twins
  unfold associationPairs
  rw [strict, same]
  rfl

def linksEntities : Step → Bool
  | .associate _ _ _ | .relate _ _ _ _ _ => true
  | _ => false

theorem apply_blind (scope : Scope) {s : Step} (other : s.linksEntities = false) : Blind (s.apply scope) := by
  cases s with
  | identity => exact .pure _
  | classes => exact .bind (.lift _) fun _ => .getBind fun _ _ => rfl
  | elementsOf type => exact .getBind fun _ _ => rfl
  | methods | fields | parameters | annotations | typeArguments =>
    exact .bind (.lift _) fun ids => .bind (.onIndex _) fun _ => .pure _
  | synthesize targets => exact .bind (.lift _) fun _ => .bind (.onIndex _) fun _ => .pure _
  | signature => exact .bind (.lift _) fun ids => .bind (collect_blind declaredSignature_blind ids) fun _ => .pure _
  | explodeType create =>
    exact .bind (.lift _) fun ids => .bind (collect_blind (explode_blind create) ids) fun _ => .pure _
  | ascend kind => exact .bind (.lift _) fun _ => .getBind fun _ _ => rfl
  | filter predicate =>
    exact .bind (.lift _) fun ids => .bind (predicate.splitIn_blind ids) fun _ => .pure _
  | registerEntity type label properties =>
    exact .bind (.lift _) fun ids => .bind (onEach_blind (registerAs_blind type label properties) ids)
      fun _ => .pure _
  | updateEntity type label properties =>
    exact .bind (.lift _) fun ids => .bind (onEach_blind (updateFrom_blind type label properties) ids)
      fun _ => .pure _
  | associate | relate => cases other

end Step

/-! ## Two operations side by side -/

/-- Two outcomes have one result and leave related states. With leave to fail, the first may also have
    failed where the second went on. -/
def Alike {ε σ α : Type} (mayFail : Prop) (R : σ → σ → Prop) (x y : Except ε α × σ) : Prop :=
  x.1 = y.1 ∧ R x.2 y.2 ∨ mayFail ∧ ∃ problem, x.1 = .error problem

theorem Alike.bind {ε σ α β : Type} {mayFail : Prop} {R : σ → σ → Prop} {f : Operation ε σ α}
    {g : α → Operation ε σ β} {s s' : σ} (first : Alike mayFail R (f s) (f s'))
    (second : ∀ a, (f s).1 = .ok a → R (f s).2 (f s').2 → Alike mayFail R (g a (f s).2) (g a (f s').2)) :
    Alike mayFail R ((f >>= g) s) ((f >>= g) s') := by
  rw [Operation.bind_apply, Operation.bind_apply]
  obtain ⟨same, related⟩ | ⟨leave, problem, failed⟩ := first
  · rw [← same]
    cases result : (f s).1 with
    | ok a => exact second a result related
    | error problem => exact .inl ⟨rfl, related⟩
  · rw [failed]
    exact .inr ⟨leave, problem, rfl⟩

/-- From related states an operation gives outcomes that are alike. -/
def Respects {ε σ α : Type} (mayFail : Prop) (R : σ → σ → Prop) (f : Operation ε σ α) : Prop :=
  ∀ s s', R s s' → Alike mayFail R (f s) (f s')

namespace Respects

variable {ε σ α β : Type} {mayFail : Prop} {R : σ → σ → Prop}

theorem pure (a : α) : Respects mayFail R (Pure.pure a : Operation ε σ α) :=
  fun _ _ related => .inl ⟨rfl, related⟩

theorem lift (x : Except ε α) : Respects mayFail R (liftM x : Operation ε σ α) := by
  intro s s' related
  cases x <;> exact .inl ⟨rfl, related⟩

theorem bind {f : Operation ε σ α} {g : α → Operation ε σ β} (hf : Respects mayFail R f)
    (hg : ∀ a, Respects mayFail R (g a)) : Respects mayFail R (f >>= g) :=
  fun s s' related => (hf s s' related).bind fun a _ related => hg a _ _ related

end Respects

/-- A relation between the models of two runs that everything but relating entities keeps up. -/
structure Pairing (mayFail : Prop) (R : Model → Model → Prop) : Prop where
  twins : ∀ {m m'}, R m m' → m.Twins m'
  /-- Both models advance in the same way and keep their hidden parts. -/
  onward : ∀ {m m' n n'}, R m m' → m.Advances n → m'.Advances n' → n.Twins n' → n.hidden = m.hidden →
    n'.hidden = m'.hidden → R n n'
  pairs : ∀ {m m'} parent key child id, R m m' →
    Step.associationPairs m parent key child id = Step.associationPairs m' parent key child id ∨
      mayFail ∧ ∃ problem, Step.associationPairs m parent key child id = .error problem
  linked : ∀ {m m'} key pairs, R m m' → R { m with entities := Step.linkPairs key pairs m.entities }
    { m' with entities := Step.linkPairs key pairs m'.entities }

namespace Pairing

variable {mayFail : Prop} {R : Model → Model → Prop} {α : Type}

theorem blind (pairing : Pairing mayFail R) {f : ModelM α} (blind : Blind f)
    (advances : Keeps Model.Advances f) : Respects mayFail R f := by
  intro m m' related
  obtain ⟨same, twins⟩ := blind.twins (pairing.twins related)
  exact .inl ⟨same.symm,
    pairing.onward related (advances m) (advances m') twins (blind.hidden m) (blind.hidden m')⟩

theorem splitIn (pairing : Pairing mayFail R) (p : Predicate) (ids : List ElementId) :
    Respects mayFail R (p.splitIn ids) :=
  pairing.blind (p.splitIn_blind ids) (Step.splitIn_keeps Model.Advances.selection p ids)

theorem associateAt (pairing : Pairing mayFail R) (parent : EntityType) (key : String) (child : EntityType)
    (id : ElementId) : Respects mayFail R (Step.associateAt parent key child id) := by
  intro m m' related
  have unfolded : ∀ m, Step.associateAt parent key child id m =
      match Step.associationPairs m parent key child id with
      | .ok pairs => (.ok (), { m with entities := Step.linkPairs key pairs m.entities })
      | .error problem => (.error problem, m) := by
    intro m
    change (liftM (Step.associationPairs m parent key child id) >>= _ : ModelM Unit) m = _
    rw [Operation.lift_bind_apply]
    cases Step.associationPairs m parent key child id <;> rfl
  rw [unfolded, unfolded]
  obtain same | ⟨leave, problem, failed⟩ := pairing.pairs parent key child id related
  · rw [← same]
    cases Step.associationPairs m parent key child id with
    | ok pairs => exact .inl ⟨rfl, pairing.linked key pairs related⟩
    | error problem => exact .inl ⟨rfl, related⟩
  · rw [failed]
    exact .inr ⟨leave, problem, rfl⟩

theorem onEach {f : ElementId → ModelM Unit} (each : ∀ id, Respects mayFail R (f id)) (ids : List ElementId) :
    Respects mayFail R (Step.onEach f ids) := by
  induction ids with
  | nil => exact .pure ()
  | cons id rest ih => exact .bind (each id) fun _ => ih

theorem apply (pairing : Pairing mayFail R) (scope : Scope) (s : Step)
    (other : ∀ kind source target key backtrack, s ≠ .relate kind source target key backtrack) :
    Respects mayFail R (s.apply scope) := by
  cases s with
  | associate parent key child =>
    exact .bind (.lift _) fun ids => .bind (onEach (pairing.associateAt parent key child) ids) fun _ => .pure _
  | relate kind source target key backtrack => exact absurd rfl (other kind source target key backtrack)
  | _ => exact pairing.blind (Step.apply_blind scope rfl) (Step.apply_advances scope _ other)

end Pairing

theorem Pairing.swap (pairing : Pairing False R) : Pairing False fun m m' => R m' m where
  twins h := (pairing.twins h).symm
  onward h advances advances' twins kept kept' :=
    pairing.onward h advances' advances twins.symm kept' kept
  pairs parent key child id h := by
    obtain same | ⟨impossible, -⟩ := pairing.pairs parent key child id h
    · exact .inl same.symm
    · exact impossible.elim
  linked key pairs h := pairing.linked key pairs h

/-! ## Two actions side by side -/

/-- Two executions with related models are at the same place, and if measurements are compared, they have
    measured the same. -/
structure Execution.Alongside (R : Model → Model → Prop) (measured : Prop) (e e' : Execution) : Prop where
  models : R e.model e'.model
  path : e.path = e'.path
  recorder : measured → e.recorder = e'.recorder

theorem Alike.swap {α : Type} {measured : Prop} {x y : Except ModelError α × Execution}
    (h : Alike False (Execution.Alongside (fun m m' => R m' m) measured) x y) :
    Alike False (Execution.Alongside R measured) y x := by
  obtain ⟨same, along⟩ | ⟨impossible, -⟩ := h
  · exact .inl ⟨same.symm, along.models, along.path.symm, fun given => (along.recorder given).symm⟩
  · exact impossible.elim

/-- Two executions stay side by side, provided that the first takes only steps that are allowed. -/
def Lockstep {α : Type} (mayFail : Prop) (R : Model → Model → Prop) (measured : Prop)
    (allowed : StepCall → Prop) (f : ExecutionM α) (calls : Execution → List StepCall) : Prop :=
  ∀ e e', e.Alongside R measured e' → (∀ call ∈ calls e, allowed call) →
    Alike mayFail (Execution.Alongside R measured) (f e) (f e')

namespace Lockstep

open Execution (followedBy)

variable {α β : Type} {mayFail measured : Prop} {R : Model → Model → Prop} {allowed : StepCall → Prop}
  {calls : Execution → List StepCall}

theorem pure (a : α) : Lockstep mayFail R measured allowed (Pure.pure a) fun _ => [] :=
  fun _ _ along _ => .inl ⟨rfl, along⟩

theorem throw (problem : ModelError) :
    Lockstep mayFail R measured allowed (MonadExcept.throw problem : ExecutionM α) fun _ => [] :=
  fun _ _ along _ => .inl ⟨rfl, along⟩

theorem bind {f : ExecutionM α} {g : α → ExecutionM β} {before : Execution → List StepCall}
    {after : α → Execution → List StepCall} (hf : Lockstep mayFail R measured allowed f before)
    (hg : ∀ a, Lockstep mayFail R measured allowed (g a) (after a)) :
    Lockstep mayFail R measured allowed (f >>= g) fun e => before e ++ followedBy f after e := by
  intro e e' along every
  have first := hf e e' along fun call member => every call (List.mem_append_left _ member)
  refine first.bind fun a result along => hg a _ _ along fun call member => every call ?_
  have later : followedBy f after e = after a (f e).2 := by
    unfold followedBy
    rw [show f e = (.ok a, (f e).2) from Prod.ext result rfl]
  exact List.mem_append_right _ (later ▸ member)

theorem onModel {f : ModelM α}
    (alike : ∀ e m', (∀ call ∈ calls e, allowed call) → R e.model m' → Alike mayFail R (f e.model) (f m')) :
    Lockstep mayFail R measured allowed (Execution.onModel f) calls := by
  intro e e' along every
  obtain ⟨same, related⟩ | failed := alike e e'.model every along.models
  · exact .inl ⟨same, related, along.path, along.recorder⟩
  · exact .inr failed

theorem silent {f : ModelM α} (respects : Respects mayFail R f) :
    Lockstep mayFail R measured allowed (Execution.onModel f) fun _ => [] :=
  onModel fun e m' _ related => respects e.model m' related

theorem noted (sizes : ∀ {m m'}, R m m' → m.entities.size = m'.entities.size) (description : String)
    (scope : Scope) {body : ExecutionM Scope} (hbody : Lockstep mayFail R measured allowed body calls) :
    Lockstep mayFail R measured allowed (Execution.noted description scope body) fun e =>
      calls (e.enter description scope) := by
  intro e e' along every
  have entered : (e.enter description scope).Alongside R measured (e'.enter description scope) := by
    refine ⟨along.models, congrArg (· ++ [description]) along.path, fun given => ?_⟩
    simp only [Execution.enter, Execution.entityCount, along.recorder given, sizes along.models]
  refine (hbody _ _ entered every).bind fun out _ along => .inl ⟨rfl, along.models, ?_, fun given => ?_⟩
  · exact congrArg List.dropLast along.path
  · change MeasurementRecorder.finishAction _ _ _ _ = MeasurementRecorder.finishAction _ _ _ _
    simp only [Execution.entityCount, along.recorder given, sizes along.models]

end Lockstep

theorem Pairing.sizes {mayFail : Prop} (pairing : Pairing mayFail R) {m m' : Model} (related : R m m') :
    m.entities.size = m'.entities.size := by
  have twins : m' = m.withHidden m'.hidden := pairing.twins related
  rw [twins]
  rfl

namespace Action

section Together

variable {mayFail measured : Prop} {R : Model → Model → Prop} {allowed : StepCall → Prop}

/-- Relating entities keeps the models related wherever it is allowed. -/
def RelatesAlike (R : Model → Model → Prop) (allowed : StepCall → Prop) : Prop :=
  ∀ kind source target key backtrack scope m m',
    allowed ⟨.relate kind source target key backtrack, scope, m⟩ → R m m' →
      R (Step.relateTypes kind source target key backtrack m).2
        (Step.relateTypes kind source target key backtrack m').2

theorem step_lockstep (pairing : Pairing mayFail R) (relating : RelatesAlike R allowed) (s : Step)
    (scope : Scope) :
    Lockstep mayFail R measured allowed (Execution.onModel (s.apply scope)) fun e => [⟨s, scope, e.model⟩] := by
  refine .onModel fun e m' every related => ?_
  have permitted := every _ (List.mem_singleton_self _)
  by_cases other : ∀ kind source target key backtrack, s ≠ .relate kind source target key backtrack
  · exact pairing.apply scope s other e.model m' related
  · push Not at other
    obtain ⟨kind, source, target, key, backtrack, rfl⟩ := other
    exact .inl ⟨rfl, relating kind source target key backtrack scope _ _ permitted related⟩

theorem execute_lockstep (pairing : Pairing mayFail R) (relating : RelatesAlike R allowed)
    (a : Action) (scope : Scope) :
    Lockstep mayFail R measured allowed (a.execute scope) (a.stepCalls scope) := by
  have rules : Compositional fun _ f calls => Lockstep mayFail R measured allowed f calls :=
    { pure := .pure
      throw := .throw
      bind := .bind
      noted := fun description scope hbody => hbody.noted pairing.sizes description scope
      steps := step_lockstep pairing relating
      ascents := fun kind scope => .silent (pairing.apply scope (.ascend kind) (by simp))
      tests := fun p ids => .silent (pairing.splitIn p ids) }
  exact rules.execute a scope

end Together

end Action

/-! ## Two runs -/

/-- Two runs fail with one error in one action, or both succeed with results that agree. -/
inductive EndAlike (agree : RunResult → RunResult → Prop) :
    Except RunFailure RunResult → Except RunFailure RunResult → Prop where
  | failed {f f' : RunFailure} (error : f.error = f'.error) (action : f.action = f'.action) :
      EndAlike agree (.error f) (.error f')
  | succeeded {r r' : RunResult} (results : agree r r') : EndAlike agree (.ok r) (.ok r')

namespace Pipeline

variable {classes : List ClassDeclaration}

def resultOf (p : Pipeline) (e : Execution) : RunResult :=
  { pipeline := p.name
    elements := e.model.index
    entities := e.model.entities
    provenance := e.model.provenance
    measurements := e.recorder.finish
    signatureFallbacks := e.model.caches.resolver.fallbacks }

theorem run_eq_ok {p : Pipeline} {settings : Settings} {r : RunResult} :
    p.run settings classes = .ok r ↔ (∃ out, (p.action.execute .template (.ofClasses settings classes)).1 = .ok out) ∧
      p.resultOf (p.action.execute .template (.ofClasses settings classes)).2 = r := by
  unfold run
  generalize p.action.execute .template (.ofClasses settings classes) = outcome
  obtain ⟨result, e⟩ := outcome
  cases result with
  | ok out => simp [resultOf]
  | error problem => simp

theorem run_endAlike {R : Model → Model → Prop} {measured : Prop} {agree : RunResult → RunResult → Prop}
    {p : Pipeline} {settings settings' : Settings}
    (alike : Alike False (Execution.Alongside R measured)
      (p.action.execute .template (.ofClasses settings classes))
      (p.action.execute .template (.ofClasses settings' classes)))
    (results : ∀ {e e'}, e.Alongside R measured e' → agree (p.resultOf e) (p.resultOf e')) :
    EndAlike agree (p.run settings classes) (p.run settings' classes) := by
  unfold run
  generalize p.action.execute .template (.ofClasses settings classes) = outcome at alike ⊢
  generalize p.action.execute .template (.ofClasses settings' classes) = outcome' at alike ⊢
  obtain ⟨result, e⟩ := outcome
  obtain ⟨result', e'⟩ := outcome'
  obtain ⟨same, along⟩ | ⟨impossible, -⟩ := alike
  · cases same
    cases result with
    | ok out => exact .succeeded (results along)
    | error problem => exact .failed rfl (congrArg (" > ".intercalate ·) along.path)
  · exact impossible.elim

end Pipeline

end ClassAtlas
