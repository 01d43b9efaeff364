import ClassAtlas.Pipeline.Run
import ClassAtlas.Proofs.Composition
import ClassAtlas.Proofs.Entities
import ClassAtlas.Proofs.Growth

/-! # Runs of actions

An action runs others as its parts, each on a scope and from a state of its own. Whatever kind of
change the steps make to a model, all parts of a run and the whole of it make.
-/

namespace ClassAtlas

/-! ## Tests -/

/-- Every remembered automaton is that of its pattern. -/
def Caches.Compiled (c : Caches) : Prop := ∀ entry ∈ c.patterns, Text.Automaton.ofText? entry.1 = some entry.2

theorem Caches.Compiled.pattern {c : Caches} (compiled : c.Compiled) (text : String) :
    (c.pattern text).2.Compiled := by
  unfold Caches.pattern
  split
  · exact compiled
  · split
    · exact compiled
    · next a made =>
        intro entry member
        rcases List.mem_append.mp member with earlier | new
        · exact compiled entry earlier
        · rw [List.mem_singleton.mp new]
          exact made

theorem Caches.pattern_resolver (c : Caches) (text : String) : (c.pattern text).2.resolver = c.resolver := by
  unfold Caches.pattern
  split
  · rfl
  · split <;> rfl

namespace Predicate

variable {R : Caches → Caches → Prop} {ix : ElementIndex}

theorem classOf?_keeps (change : Change R) (types : ∀ id c, R c (c.declaredClass? ix id).2) (id : ElementId)
    (c : Caches) : R c (classOf? ix id c).2 := by
  unfold classOf?
  split
  · exact change.refl c
  · exact types id c

theorem testText_keeps (patterns : ∀ text c, R c (c.pattern text).2) (pattern text : String) :
    Keeps R (testText pattern text) := by
  intro c
  have asked := patterns pattern c
  unfold testText
  generalize c.pattern pattern = answer at asked
  obtain ⟨automaton, c'⟩ := answer
  cases automaton <;> exact asked

section

variable (change : Change R) (types : ∀ id c, R c (c.declaredClass? ix id).2)
  (patterns : ∀ text c, R c (c.pattern text).2) (entities : EntityStore) (id : ElementId)
include change types patterns

set_option linter.unusedSectionVars false in
mutual
theorem test_keeps (p : Predicate) :
    Keeps R (test ix entities id p) := by
  match p with
  | .name pattern => exact testText_keeps patterns pattern _
  | .modifiers _ | .annotatedBy _ | .hasEntity _ | .synthetic => exact .pure change _
  | .implements type => exact .bind change (classOf?_keeps change types id) fun _ => .pure change _
  | .typeIs type => exact .bind change (types id) fun _ => .pure change _
  | .negation p => exact .bind change (test_keeps p) fun _ => .pure change _
  | .all ps => exact testAll_keeps ps
  | .any ps => exact testAny_keeps ps
termination_by structural p

theorem testAll_keeps (ps : List Predicate) :
    Keeps R (testAll ix entities id ps) := by
  match ps with
  | [] => exact .pure change _
  | p :: ps =>
    refine .bind change (test_keeps p) fun passed => ?_
    cases passed with
    | false => exact .pure change _
    | true => exact testAll_keeps ps
termination_by structural ps

theorem testAny_keeps (ps : List Predicate) :
    Keeps R (testAny ix entities id ps) := by
  match ps with
  | [] => exact .pure change _
  | p :: ps =>
    refine .bind change (test_keeps p) fun passed => ?_
    cases passed with
    | false => exact testAny_keeps ps
    | true => exact .pure change _
termination_by structural ps
end

theorem split_keeps (p : Predicate) (ids : List ElementId) :
    Keeps R (p.split ix entities ids) := by
  induction ids with
  | nil => exact .pure change _
  | cons id rest ih =>
    exact .bind change (test_keeps change types patterns entities id p) fun _ => .bind change ih fun _ =>
      .pure change _

end

theorem split_compiled (ix : ElementIndex) (entities : EntityStore) (p : Predicate) (ids : List ElementId) :
    Keeps (fun c c' => c.Compiled → c'.Compiled) (p.split ix entities ids) :=
  split_keeps ⟨fun _ h => h, fun first second h => second (first h)⟩ (fun _ _ h => h)
    (fun text _ h => h.pattern text) entities p ids

end Predicate

/-! ## Steps that choose elements -/

namespace Step

variable {R : Model → Model → Prop} {f : ElementId → ModelM (List ElementId)}

theorem collect_keepsEach (change : Change R) {ids : List ElementId} (keeps : ∀ id ∈ ids, Keeps R (f id)) :
    Keeps R (collect f ids) := by
  induction ids with
  | nil => exact .pure change _
  | cons id rest ih =>
    obtain ⟨first, others⟩ := List.forall_mem_cons.mp keeps
    exact .bind change first fun _ => .bind change (ih others) fun _ => .pure change _

theorem collect_keeps (change : Change R) (keeps : ∀ id, Keeps R (f id)) (ids : List ElementId) :
    Keeps R (collect f ids) :=
  collect_keepsEach change fun id _ => keeps id

theorem onEach_keepsEach (change : Change R) {f : ElementId → ModelM Unit} {ids : List ElementId}
    (keeps : ∀ id ∈ ids, Keeps R (f id)) : Keeps R (onEach f ids) := by
  induction ids with
  | nil => exact .pure change _
  | cons id rest ih =>
    obtain ⟨first, others⟩ := List.forall_mem_cons.mp keeps
    exact .bind change first fun _ => ih others

theorem onEach_keeps (change : Change R) {f : ElementId → ModelM Unit} (keeps : ∀ id, Keeps R (f id))
    (ids : List ElementId) : Keeps R (onEach f ids) :=
  onEach_keepsEach change fun id _ => keeps id

def selects : Step → Bool
  | .registerEntity _ _ _ | .updateEntity _ _ _ | .associate _ _ _ | .relate _ _ _ _ _ => false
  | _ => true

/-- A kind of change that includes what looking at elements does: they get numbers, and work is remembered. -/
structure Looking (R : Model → Model → Prop) : Prop extends Change R where
  fills : ∀ m {ix}, m.index.Fills ix → R m { m with index := ix }
  caches : ∀ m c, (m.caches.Compiled → c.Compiled) → R m { m with caches := c }

namespace Looking

variable {R : Model → Model → Prop}

theorem onIndex {α : Type} (looking : Looking R) {f : ElementIndex → α × ElementIndex}
    (fills : ∀ ix, ElementIndex.Fills ix (f ix).2) : Keeps R (Model.onIndex f) :=
  fun m => looking.fills m (fills m.index)

theorem onResolver {α : Type} (looking : Looking R)
    (f : ElementIndex → SignatureResolver → α × SignatureResolver) : Keeps R (Model.onResolver f) :=
  fun m => looking.caches m _ fun compiled => compiled

theorem evaluate (looking : Looking R) (specs : List PropertySpec) (id : ElementId) :
    Keeps R (PropertySpec.evaluate specs id) := by
  intro m
  have filled := PropertySpec.readAll_fills id specs m.index m.caches.resolver
  exact looking.trans (looking.fills m filled) (looking.caches _ _ fun compiled => compiled)

theorem splitIn (looking : Looking R) (p : Predicate) (ids : List ElementId) : Keeps R (p.splitIn ids) :=
  fun m => looking.caches m _ (p.split_compiled m.index m.entities ids m.caches)

theorem declaredSignature (looking : Looking R) (id : ElementId) : Keeps R (Step.declaredSignature id) := by
  have change := looking.toChange
  refine .bind change (looking.onResolver _) fun found => ?_
  cases found with
  | none => exact .pure change _
  | some s => exact .bind change (looking.onIndex (ElementIndex.intern_fills .signature)) fun _ => .pure change _

theorem apply (looking : Looking R) (scope : Scope) {s : Step} (selecting : s.selects)
    (named : ∀ targets, s ≠ .synthesize targets) (typed : ∀ create, s ≠ .explodeType create) :
    Keeps R (s.apply scope) := by
  have change := looking.toChange
  cases s with
  | identity => exact .pure change _
  | classes => exact .checked change fun _ => .get change
  | elementsOf type => exact .bind change (.get change) fun _ => .pure change _
  | methods inherited =>
    exact .checked change fun ids => looking.onIndex
      (gather_fills (fun id => ElementIndex.membersOf_fills .method id inherited) ids)
  | fields inherited =>
    exact .checked change fun ids => looking.onIndex
      (gather_fills (fun id => ElementIndex.membersOf_fills .field id inherited) ids)
  | parameters => exact .checked change fun ids => looking.onIndex (gather_fills ElementIndex.parameters_fills ids)
  | annotations type => exact .checked change fun ids => looking.onIndex (gather_fills (annotationsOfType_fills type) ids)
  | signature => exact .checked change (collect_keeps change looking.declaredSignature)
  | typeArguments => exact .checked change fun ids => looking.onIndex (gather_fills argumentsOf_fills ids)
  | ascend kind => exact .checked change fun _ => .get change
  | filter predicate => exact .checked change (looking.splitIn predicate)
  | synthesize targets => exact absurd rfl (named targets)
  | explodeType create => exact absurd rfl (typed create)
  | registerEntity | updateEntity | associate | relate => cases selecting

end Looking

/-- A kind of change that includes what choosing elements does: the index develops, work is remembered
    and causes are recorded. -/
structure Selection (R : Model → Model → Prop) : Prop extends Change R where
  index : ∀ m {ix}, m.index.Develops ix → R m { m with index := ix }
  caches : ∀ m c, (m.caches.Compiled → c.Compiled) → R m { m with caches := c }
  provenance : ∀ m p, R m { m with provenance := p }

namespace Selection

variable {R : Model → Model → Prop}

theorem looking (selection : Selection R) : Looking R :=
  ⟨selection.toChange, fun m _ fills => selection.index m fills.develops, selection.caches⟩

theorem onIndex {α : Type} (selection : Selection R) {f : ElementIndex → α × ElementIndex}
    (develops : ∀ ix, ElementIndex.Develops ix (f ix).2) : Keeps R (Model.onIndex f) :=
  fun m => selection.index m (develops m.index)

end Selection

theorem selection_entities : Selection fun m m' => m'.entities = m.entities where
  refl _ := rfl
  trans first second := second.trans first
  index _ _ _ := rfl
  caches _ _ _ := rfl
  provenance _ _ := rfl

section Selecting

variable {R : Model → Model → Prop}

/-- What looking up a type, its class and the class's element may do, and recording a cause, following a type
    may do. -/
theorem explode_keepsParts (change : Change R) {create : Bool} {id : ElementId}
    (declared : Keeps R (Model.onResolver fun ix => SignatureResolver.declaredType ix id))
    (erased : ∀ s, Keeps R (Model.onResolver fun ix => SignatureResolver.concreteClass ix.classes s))
    (named : ∀ t, Keeps R (Model.onIndex (classNamed create t)))
    (caused : ∀ m p, R m { m with provenance := p }) : Keeps R (explode create id) := by
  refine .bind change declared fun type => ?_
  cases type with
  | none => exact .pure change _
  | some s =>
    refine .bind change (erased s) fun outcome => ?_
    cases outcome with
    | error e => exact .throw change _
    | ok t =>
      refine .bind change (named t) fun found => ?_
      cases found with
      | none => exact .pure change _
      | some c => exact .bind change (.update fun m => caused m _) fun _ => .pure change _

theorem explode_keeps (selection : Selection R) (create : Bool) (id : ElementId) :
    Keeps R (explode create id) :=
  explode_keepsParts selection.toChange (selection.looking.onResolver _) (fun _ => selection.looking.onResolver _)
    (fun t => selection.onIndex (classNamed_develops create t)) selection.provenance

theorem splitIn_keeps (selection : Selection R) (p : Predicate) (ids : List ElementId) :
    Keeps R (p.splitIn ids) :=
  selection.looking.splitIn p ids

theorem selecting_keeps (selection : Selection R) (scope : Scope) {s : Step} (selecting : s.selects) :
    Keeps R (s.apply scope) := by
  have change := selection.toChange
  cases s with
  | explodeType create =>
    exact .checked change (collect_keeps change (explode_keeps selection create))
  | synthesize targets =>
    exact .checked change fun _ => selection.onIndex (synthesizeAll_develops targets)
  | _ => exact selection.looking.apply scope selecting (by simp) (by simp)

end Selecting

end Step

/-! ## Steps that change entities -/

/-- A kind of change that includes what linking two entities does. -/
structure EntityStore.Linking (R : EntityStore → EntityStore → Prop) : Prop extends Change R where
  links : ∀ s parent key child, R s (s.addChild parent key child).2

theorem EntityStore.Linking.relinked : Linking Relinked :=
  ⟨⟨.refl, .trans⟩, addChild_relinked⟩

theorem EntityStore.Linking.evolves : Linking Evolves :=
  ⟨⟨fun _ => .refl, .trans⟩, fun _ _ _ _ => .single (.linked _ _ _ _)⟩

namespace Step

variable {R : Model → Model → Prop} (change : Change R) {type : EntityType} {template : Option String}
  {specs : List PropertySpec} {id : ElementId}
include change

theorem registerAs_keeps (reads : Keeps R (PropertySpec.evaluate specs id))
    (registers : ∀ {m : Model} {kind label properties n store},
      m.entities.register type id kind label properties = .ok (n, store) → R m { m with entities := store }) :
    Keeps R (registerAs type template specs id) := by
  refine .bind change (.get change) fun m => ?_
  cases m.index.kind? id with
  | none => exact .throw change _
  | some kind =>
    refine .bind change reads fun properties => .getBind fun m => ?_
    rw [Operation.lift_bind_apply]
    split
    · next registered => exact registers registered
    · exact change.refl m

theorem updateFrom_keeps (reads : Keeps R (PropertySpec.evaluate specs id))
    (updates : ∀ (m : Model) n label properties,
      R m { m with entities := (m.entities.update n label properties).2 }) :
    Keeps R (updateFrom type template specs id) := by
  refine .bind change (.get change) fun m => ?_
  cases m.enclosingEntity? id type with
  | none => exact .throw change _
  | some target => exact .bind change reads fun properties => .getBind fun m => updates m target.id _ properties

theorem associateAt_keeps {parent child : EntityType} {key : String}
    (links : ∀ (m : Model) pairs, R m { m with entities := linkPairs key pairs m.entities }) :
    Keeps R (associateAt parent key child id) := by
  refine .getBind fun m => ?_
  rw [Operation.lift_bind_apply]
  split
  · exact links m _
  · exact change.refl m

end Step

/-- What every step but relating does to a model: the index grows, patterns are remembered as they are and
    entities change by the operations of their store. -/
structure Model.Advances (m m' : Model) : Prop where
  settings : m'.settings = m.settings
  scanner : m'.scanner = m.scanner
  index : m.index.Develops m'.index
  compiled : m.caches.Compiled → m'.caches.Compiled
  entities : m.entities.Evolves m'.entities

namespace Model.Advances

theorem change : Change Model.Advances where
  refl _ := ⟨rfl, rfl, .refl _, id, .refl⟩
  trans h h' := ⟨h'.settings.trans h.settings, h'.scanner.trans h.scanner, h.index.trans h'.index,
    h'.compiled ∘ h.compiled, h.entities.trans h'.entities⟩

theorem selection : Step.Selection Model.Advances where
  toChange := change
  index _ _ develops := ⟨rfl, rfl, develops, id, .refl⟩
  caches _ _ compiled := ⟨rfl, rfl, .refl _, compiled, .refl⟩
  provenance _ _ := ⟨rfl, rfl, .refl _, id, .refl⟩

theorem ofEntities (m : Model) {store : EntityStore} (evolves : m.entities.Evolves store) :
    m.Advances { m with entities := store } :=
  ⟨rfl, rfl, .refl _, id, evolves⟩

end Model.Advances

namespace Step

open Model (Advances)

variable (type : EntityType)

theorem registerAs_advances (template : Option String) (specs : List PropertySpec) (id : ElementId) :
    Keeps Advances (registerAs type template specs id) :=
  registerAs_keeps Advances.change (Advances.selection.looking.evaluate specs id) fun registered =>
    .ofEntities _ (.single (.registered registered))

theorem updateFrom_advances (template : Option String) (specs : List PropertySpec) (id : ElementId) :
    Keeps Advances (updateFrom type template specs id) :=
  updateFrom_keeps Advances.change (Advances.selection.looking.evaluate specs id) fun m _ _ _ =>
    .ofEntities m (.single (.updated _ _ _ _))

theorem linkPairs_keeps {R : EntityStore → EntityStore → Prop} (linking : EntityStore.Linking R) (key : String)
    (pairs : List (EntityId × EntityId)) (store : EntityStore) : R store (linkPairs key pairs store) := by
  unfold linkPairs
  induction pairs generalizing store with
  | nil => exact linking.refl store
  | cons pair rest ih =>
    refine linking.trans ?_ (ih _)
    change R store (if pair.1 = pair.2 then store else _)
    split
    · exact linking.refl store
    · exact linking.links _ _ _ _

theorem associateAt_advances (parent : EntityType) (key : String) (child : EntityType)
    (id : ElementId) : Keeps Advances (associateAt parent key child id) :=
  associateAt_keeps Advances.change fun m _ => .ofEntities m (linkPairs_keeps .evolves key _ _)

def propertiesOf (specs : List PropertySpec) (id : ElementId) (m : Model) : Properties :=
  (PropertySpec.readAll id specs m.index m.caches.resolver).1

def registerLabel (template : Option String) (id : ElementId) (properties : Properties) (m : Model) :
    Option String :=
  match template with
  | some t => some (LabelTemplate.labelOf m.index id properties t)
  | none => if (m.entities.find? id).isNone then some (m.index.label id) else none

theorem registerAs_eq (template : Option String) (specs : List PropertySpec) {id : ElementId} {m : Model}
    {kind : ElementKind} (known : m.index.kind? id = some kind) :
    registerAs type template specs id m =
      match m.entities.register type id kind
        (registerLabel template id (propertiesOf specs id m) (PropertySpec.evaluate specs id m).2)
        (propertiesOf specs id m) with
      | .ok (_, store) => (.ok (), { (PropertySpec.evaluate specs id m).2 with entities := store })
      | .error e => (.error e, (PropertySpec.evaluate specs id m).2) := by
  have unfolded : registerAs type template specs id m =
      (liftM (m.entities.register type id kind
          (registerLabel template id (propertiesOf specs id m) (PropertySpec.evaluate specs id m).2)
          (propertiesOf specs id m)) >>= fun done : EntityId × EntityStore =>
        set { (PropertySpec.evaluate specs id m).2 with entities := done.2 } : ModelM Unit)
      (PropertySpec.evaluate specs id m).2 := by
    unfold registerAs
    rw [Operation.bind_apply]
    simp only [Operation.get_apply, known]
    rfl
  rw [unfolded, Operation.lift_bind_apply]
  generalize m.entities.register _ _ _ _ _ = outcome
  cases outcome <;> rfl

/-- Registering fails and leaves the entities as they are, or it registers the properties that were
    read, for an element of the kind that the index gives it. -/
theorem registerAs_cases (template : Option String) (specs : List PropertySpec) (id : ElementId) (m : Model) :
    (∃ e m', registerAs type template specs id m = (.error e, m') ∧ m'.entities = m.entities) ∨
      ∃ kind label n m', registerAs type template specs id m = (.ok (), m') ∧
        m.index.kind? id = some kind ∧
        m.entities.register type id kind label (propertiesOf specs id m) = .ok (n, m'.entities) := by
  cases known : m.index.kind? id with
  | none =>
    refine .inl ⟨.unknownElement id, m, ?_, rfl⟩
    unfold registerAs
    rw [Operation.bind_apply]
    simp only [Operation.get_apply, known]
    rfl
  | some kind =>
    rw [registerAs_eq type template specs known]
    split
    · next n store done => exact .inr ⟨kind, _, n, _, rfl, rfl, done⟩
    · exact .inl ⟨_, _, rfl, rfl⟩

theorem updateFrom_cases (template : Option String) (specs : List PropertySpec) (id : ElementId) (m : Model) :
    (∃ e, updateFrom type template specs id m = (.error e, m) ∧ m.enclosingEntity? id type = none) ∨
      ∃ target label m', updateFrom type template specs id m = (.ok (), m') ∧
        m.enclosingEntity? id type = some target ∧
        m'.entities = (m.entities.update target.id label (propertiesOf specs id m)).2 := by
  unfold updateFrom
  rw [Operation.bind_apply]
  cases enclosing : m.enclosingEntity? id type with
  | none =>
    simp only [Operation.get_apply, enclosing]
    exact .inl ⟨_, rfl, trivial⟩
  | some target =>
    simp only [Operation.get_apply, enclosing]
    exact .inr ⟨target, _, _, rfl, rfl, rfl⟩

theorem relinked_change : Change fun m m' : Model => m.entities.Relinked m'.entities :=
  ⟨fun _ => .refl _, fun first second => first.trans second⟩

theorem associateAt_relinked (parent : EntityType) (key : String) (child : EntityType) (id : ElementId) :
    Keeps (fun m m' => m.entities.Relinked m'.entities) (associateAt parent key child id) :=
  associateAt_keeps relinked_change fun _ _ => linkPairs_keeps .relinked key _ _

theorem apply_advances (scope : Scope) (s : Step)
    (other : ∀ kind source target key backtrack, s ≠ .relate kind source target key backtrack) :
    Keeps Advances (s.apply scope) := by
  have change := Advances.change
  cases s with
  | registerEntity type label properties =>
    exact .checked change (onEach_keeps change (registerAs_advances type label properties))
  | updateEntity type label properties =>
    exact .checked change (onEach_keeps change (updateFrom_advances type label properties))
  | associate parent key child =>
    exact .checked change (onEach_keeps change (associateAt_advances parent key child))
  | relate kind source target key backtrack => exact absurd rfl (other kind source target key backtrack)
  | _ => exact selecting_keeps Advances.selection scope rfl

end Step

/-- A kind of change that includes whatever steps and tests do to a model. -/
structure Running (R : Model → Model → Prop) : Prop extends Change R where
  steps : ∀ (s : Step) scope, Keeps R (s.apply scope)
  tests : ∀ (p : Predicate) ids, Keeps R (p.splitIn ids)

theorem Running.ofAdvances {R : Model → Model → Prop} (change : Change R)
    (advances : ∀ {m m' : Model}, m.Advances m' → R m m')
    (relates : ∀ kind source target key backtrack m, R m (Step.relateTypes kind source target key backtrack m).2) :
    Running R where
  toChange := change
  steps s scope m := by
    by_cases other : ∀ kind source target key backtrack, s ≠ .relate kind source target key backtrack
    · exact advances (Step.apply_advances scope s other m)
    · push Not at other
      obtain ⟨kind, source, target, key, backtrack, rfl⟩ := other
      exact relates kind source target key backtrack m
  tests p ids m := advances (Step.splitIn_keeps Model.Advances.selection p ids m)

/-! ## Actions -/

namespace Execution

variable {R : Model → Model → Prop}

/-- A change to the model of an execution, whatever happens to the journal. -/
def OnModel (R : Model → Model → Prop) (e e' : Execution) : Prop := R e.model e'.model

theorem OnModel.change (change : Change R) : Change (OnModel R) :=
  ⟨fun e => change.refl e.model, change.trans⟩

theorem noted_keeps (change : Change R) (description : String) (scope : Scope) {body : ExecutionM Scope}
    (keeps : Keeps (OnModel R) body) : Keeps (OnModel R) (noted description scope body) := by
  have change' := OnModel.change change
  exact .bind change' (.update fun e => change.refl e.model) fun _ => .bind change' keeps fun out =>
    .bind change' (.update fun e => change.refl e.model) fun _ => .pure change' _

theorem onModel_keeps {α : Type} {f : ModelM α} (keeps : Keeps R f) : Keeps (OnModel R) (onModel f) :=
  fun e => keeps e.model

end Execution

namespace Action

section Keeping

open Execution (OnModel)

variable {R : Model → Model → Prop}

theorem unitedWith_keeps (change : Change R) (out : Scope) (kind : ScopeKind) (ids : List ElementId)
    {run : Scope → ExecutionM Scope} (keeps : ∀ scope, Keeps (OnModel R) (run scope)) :
    Keeps (OnModel R) (unitedWith out kind ids run) := by
  have change' := OnModel.change change
  unfold unitedWith
  split
  · exact .pure change' _
  · exact .bind change' (keeps _) fun _ => .pure change' _

theorem keeps_compositional (running : Running R) : Compositional fun _ f _ => Keeps (OnModel R) f where
  pure a := .pure (OnModel.change running.toChange) a
  throw problem := .throw (OnModel.change running.toChange) problem
  bind hf hg := .bind (OnModel.change running.toChange) hf hg
  noted description scope hbody := Execution.noted_keeps running.toChange description scope hbody
  steps s scope := Execution.onModel_keeps (running.steps s scope)
  ascents kind scope := Execution.onModel_keeps (running.steps (.ascend kind) scope)
  tests p ids := Execution.onModel_keeps (running.tests p ids)

theorem execute_keeps (running : Running R) (a : Action) (scope : Scope) : Keeps (OnModel R) (a.execute scope) :=
  (keeps_compositional running).execute a scope

theorem executeOption_keeps (running : Running R) (a : Option Action) (scope : Scope) :
    Keeps (OnModel R) (executeOption a scope) :=
  (keeps_compositional running).executeOption a scope

end Keeping

end Action

/-! ## Parts of a run -/

/-- An action that is run, the scope it gets and the state it starts from. -/
structure ActionCall where
  action : Action
  scope : Scope
  start : Execution

namespace ActionCall

/-- The calls that a list of actions makes in turn; one after a failure is not made. -/
inductive InSequence : List Action → Scope → Execution → ActionCall → Prop where
  | head {a rest scope e} : InSequence (a :: rest) scope e ⟨a, scope, e⟩
  | tail {a rest scope e out e' c} (ran : a.execute scope e = (.ok out, e'))
      (later : InSequence rest out e' c) : InSequence (a :: rest) scope e c

theorem InSequence.after {done : List Action} {a : Action} {rest : List Action} {scope out : Scope}
    {e : Execution} (ran : (Action.executeAll done scope e).1 = .ok out) :
    InSequence (done ++ a :: rest) scope e ⟨a, out, (Action.executeAll done scope e).2⟩ := by
  induction done generalizing scope e with
  | nil =>
    cases ran
    exact .head
  | cons first others ih =>
    have split := Operation.bind_apply (first.execute scope) (Action.executeAll others) e
    change Action.executeAll (first :: others) scope e = _ at split
    rw [split] at ran ⊢
    cases result : (first.execute scope e).1 with
    | error problem =>
      rw [result] at ran
      cases ran
    | ok out' =>
      rw [result] at ran
      exact .tail (Prod.ext result rfl) (ih ran)

/-- The calls that a call makes directly. -/
inductive Makes : ActionCall → ActionCall → Prop where
  | chain {actions scope e c}
      (inside : InSequence actions scope (e.enter (Action.chain actions).describe scope) c) :
      Makes ⟨.chain actions, scope, e⟩ c
  | first {a b scope e} :
      Makes ⟨.compose a b, scope, e⟩ ⟨a, scope, e.enter (Action.compose a b).describe scope⟩
  | second {a b scope e left e'}
      (ran : a.execute scope (e.enter (Action.compose a b).describe scope) = (.ok left, e')) :
      Makes ⟨.compose a b, scope, e⟩ ⟨b, scope, e'⟩
  | matching {p a b scope e ids yes no e'} (elements : scope.expectElements = .ok ids)
      (split : Execution.onModel (p.splitIn ids) (e.enter (Action.fork p a b).describe scope) =
        (.ok (yes, no), e')) (nonempty : yes ≠ []) :
      Makes ⟨.fork p a b, scope, e⟩ ⟨a, .ofIds scope.kind yes, e'⟩
  | remaining {p a b scope e ids yes no e' out e''} (elements : scope.expectElements = .ok ids)
      (split : Execution.onModel (p.splitIn ids) (e.enter (Action.fork p a (some b)).describe scope) =
        (.ok (yes, no), e'))
      (ran : Action.unitedWith (.elements scope.kind []) scope.kind yes a.execute e' = (.ok out, e''))
      (nonempty : no ≠ []) :
      Makes ⟨.fork p a (some b), scope, e⟩ ⟨b, .ofIds scope.kind no, e''⟩
  | nested {body scope e} :
      Makes ⟨.nested body, scope, e⟩ ⟨body, scope, e.enter (Action.nested body).describe scope⟩
  | outerScope {kind body scope e outer e'}
      (ran : Execution.onModel ((Step.ascend kind).apply scope)
        (e.enter (Action.outerScope kind body).describe scope) = (.ok outer, e')) :
      Makes ⟨.outerScope kind body, scope, e⟩ ⟨body, outer, e'⟩

/-- A call makes another, directly or through others, or is it. -/
def Reaches : ActionCall → ActionCall → Prop := Relation.ReflTransGen Makes

section Keeping

open Execution (OnModel)

variable {R : Model → Model → Prop}

theorem keeps_ran {α : Type} {f : ExecutionM α} (keeps : Keeps (OnModel R) f) {e e' : Execution}
    {result : Except ModelError α} (ran : f e = (result, e')) : R e.model e'.model := by
  have kept := keeps e
  rw [ran] at kept
  exact kept

theorem InSequence.keeps (running : Running R) {actions : List Action} {scope : Scope} {e : Execution}
    {c : ActionCall} (h : InSequence actions scope e c) : R e.model c.start.model := by
  induction h with
  | head => exact running.refl _
  | tail ran _ ih => exact running.trans (keeps_ran (Action.execute_keeps running _ _) ran) ih

theorem Makes.keeps (running : Running R) {c c' : ActionCall} (h : Makes c c') :
    R c.start.model c'.start.model := by
  cases h with
  | chain inside => exact inside.keeps running
  | first | nested => exact running.refl _
  | second ran =>
    have kept := keeps_ran (Action.execute_keeps running _ _) ran
    exact kept
  | matching _ split _ =>
    have kept := keeps_ran (Execution.onModel_keeps (running.tests _ _)) split
    exact kept
  | remaining _ split ran _ =>
    have kept := keeps_ran (Execution.onModel_keeps (running.tests _ _)) split
    exact running.trans kept
      (keeps_ran (Action.unitedWith_keeps running.toChange _ _ _ (Action.execute_keeps running _)) ran)
  | outerScope ran =>
    have kept := keeps_ran (Execution.onModel_keeps (running.steps _ _)) ran
    exact kept

theorem Reaches.keeps (running : Running R) {c c' : ActionCall} (h : Reaches c c') :
    R c.start.model c'.start.model := by
  induction h with
  | refl => exact running.refl _
  | tail _ made ih => exact running.trans ih (made.keeps running)

end Keeping

end ActionCall

/-! ## Models that runs lead to -/

/-- Steps and tests lead from one model to the other, whichever of them fail. -/
inductive Model.Reachable (start : Model) : Model → Prop where
  | start : Reachable start start
  | step {m} (s : Step) (scope : Scope) : Reachable start m → Reachable start (s.apply scope m).2
  | test {m} (p : Predicate) (ids : List ElementId) : Reachable start m → Reachable start (p.splitIn ids m).2

namespace Model.Reachable

variable {R : Model → Model → Prop}

theorem keeps (running : Running R) {m m' : Model} (reachable : m.Reachable m') : R m m' := by
  induction reachable with
  | start => exact running.refl _
  | step s scope _ ih => exact running.trans ih (running.steps s scope _)
  | test p ids _ ih => exact running.trans ih (running.tests p ids _)

theorem running (start : Model) : Running fun m m' => start.Reachable m → start.Reachable m' where
  refl _ h := h
  trans first second h := second (first h)
  steps s scope _ := .step s scope
  tests p ids _ := .test p ids

theorem ofReaches {c c' : ActionCall} (reached : c.Reaches c') : c.start.model.Reachable c'.start.model :=
  reached.keeps (running _) .start

theorem execute {start : Model} {e : Execution} (reachable : start.Reachable e.model) (a : Action)
    (scope : Scope) : start.Reachable (a.execute scope e).2.model :=
  a.execute_keeps (running start) scope e reachable

theorem settings {start m : Model} (reachable : start.Reachable m) : m.settings = start.settings :=
  reachable.keeps (R := fun m m' => m'.settings = m.settings) <| .ofAdvances
    ⟨fun _ => rfl, fun first second => second.trans first⟩ Model.Advances.settings fun _ _ _ _ _ _ => rfl

theorem compiled {start m : Model} (reachable : start.Reachable m) : start.caches.Compiled → m.caches.Compiled :=
  reachable.keeps (R := fun m m' => m.caches.Compiled → m'.caches.Compiled) <| .ofAdvances
    ⟨fun _ => id, fun first second => second ∘ first⟩ Model.Advances.compiled fun _ _ _ _ _ _ => id

end Model.Reachable

end ClassAtlas
