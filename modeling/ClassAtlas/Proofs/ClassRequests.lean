import ClassAtlas.Proofs.Remembering
import ClassAtlas.Proofs.StubClasses

/-! # The methods of made-up classes

Steps ask for classes by name, some with methods and some without. All requests of a run stand in one order,
and of those for one class the first decides which methods it has. A method that a later request names is
not added, so calls of it find nothing.
-/

namespace ClassAtlas

variable {classes : List ClassDeclaration} {ops : List IndexOperation}

/-! ## What steps ask for -/

namespace Step

variable {m : Model} (create : Bool)

/-- The class that taking an element's declared type asks for. -/
def typeRequest (create : Bool) (id : ElementId) (m : Model) : List SynthesisTarget :=
  let declared := m.caches.resolver.declaredType m.index id
  let type? := declared.1.bind fun s => (declared.2.concreteClass m.index.classes s).1.toOption
  (type?.filter fun t => create && !t.isPrimitive).toList.map fun t => { type := t }

/-- The classes that taking the declared types of elements in turn asks for, up to the first that fails. -/
def typeRequests (create : Bool) : List ElementId → Model → List SynthesisTarget
  | [], _ => []
  | id :: ids, m =>
    typeRequest create id m ++
      if (explode create id m).1.isOk then typeRequests create ids (explode create id m).2 else []

/-- The classes that a step asks for, with the methods that they should have. -/
def classRequests (scope : Scope) (m : Model) : Step → List SynthesisTarget
  | .synthesize targets => if scope = .template then targets else []
  | .explodeType create =>
    let ids := (scope.expect [.elements .field, .elements .parameter, .elements .method,
      .elements .signature, .elements .annotationUse, .elements .value]).toOption.getD []
    typeRequests create ids m
  | _ => []

/-! ## Steps that make up no classes -/

/-- A kind of change that includes what steps do that neither make up classes nor record causes. -/
structure Quiet (R : Model → Model → Prop) : Prop extends Looking R where
  entities : ∀ m store scanner, R m { m with entities := store, scanner := scanner }

namespace Quiet

variable {R : Model → Model → Prop}

theorem step (quiet : Quiet R) (scope : Scope) (s : Step) (named : ∀ targets, s ≠ .synthesize targets)
    (typed : ∀ create, s ≠ .explodeType create) : Keeps R (s.apply scope) := by
  have change := quiet.toChange
  cases s with
  | registerEntity type label properties =>
    exact .checked change (onEach_keeps change fun id =>
      registerAs_keeps change (quiet.evaluate properties id) fun _ => quiet.entities _ _ _)
  | updateEntity type label properties =>
    exact .checked change (onEach_keeps change fun id =>
      updateFrom_keeps change (quiet.evaluate properties id) fun m _ _ _ => quiet.entities m _ m.scanner)
  | associate parent key child =>
    exact .checked change (onEach_keeps change fun _ => associateAt_keeps change fun m _ => quiet.entities m _ m.scanner)
  | relate kind source target key backtrack =>
    exact .bind change (.update fun m => quiet.entities m _ _) fun _ => .pure change _
  | _ => exact quiet.apply scope rfl named typed

end Quiet

theorem quiet_classes : Quiet fun m m' => m'.index.classes = m.index.classes where
  refl _ := rfl
  trans first second := second.trans first
  fills _ _ fills := fills.sameClasses
  caches _ _ _ := rfl
  entities _ _ _ := rfl

/-! ## Steps that may make up classes -/

theorem synthesizeAll_classes (targets : List SynthesisTarget) {ix : ElementIndex} (complete : ix.Complete) :
    (synthesizeAll targets ix).2.classes = targets.foldl ClassPool.withClass ix.classes := by
  induction targets generalizing ix with
  | nil => rfl
  | cons target rest ih =>
    have develops := ElementIndex.synthesizeClass_develops target.type target.methods ix
    rw [List.foldl_cons, ← ElementIndex.synthesizeClass_classes complete]
    exact ih (develops.complete complete)

theorem classNamed_classes (t : TypeName) {ix : ElementIndex} (complete : ix.Complete) :
    (classNamed create t ix).2.classes =
      (((some t).filter fun t => create && !t.isPrimitive).toList.map fun t => { type := t }).foldl
        ClassPool.withClass ix.classes := by
  have asked := ElementIndex.synthesizeClass_classes complete t []
  rw [Option.filter_some]
  cases wanted : create && !t.isPrimitive with
  | false =>
    have same : (classNamed create t ix).2 = ix := by
      simp only [classNamed, wanted]
      split <;> rfl
    rw [same]
    rfl
  | true =>
    have made : (classNamed create t ix).2 = (ix.synthesizeClass t []).2 := by
      simp only [classNamed, wanted, if_true]
      split
      · next found => rw [ElementIndex.synthesizeClass_known found]
      · rfl
    rw [made]
    exact asked

theorem explode_classes (id : ElementId) (complete : m.index.Complete) :
    (explode create id m).2.index.classes =
      (typeRequest create id m).foldl ClassPool.withClass m.index.classes := by
  unfold explode typeRequest
  rw [Operation.bind_apply]
  simp only [Model.onResolver, Caches.resolve]
  generalize m.caches.resolver.declaredType m.index id = answer
  obtain ⟨declared, r⟩ := answer
  cases declared with
  | none => rfl
  | some s =>
    simp only [Option.bind_some]
    rw [Operation.bind_apply]
    simp only [Model.onResolver, Caches.resolve]
    generalize r.concreteClass m.index.classes s = erased
    obtain ⟨outcome, r'⟩ := erased
    cases outcome with
    | error problem => rfl
    | ok t =>
      have classes := classNamed_classes create t complete
      simp only [Except.toOption]
      rw [Operation.bind_apply, ← classes]
      simp only [Model.onIndex]
      generalize classNamed create t m.index = named
      obtain ⟨cls, ix⟩ := named
      cases cls <;> rfl

theorem explode_complete (id : ElementId) (complete : m.index.Complete) : (explode create id m).2.index.Complete :=
  (explode_keeps Model.Advances.selection create id m).index.complete complete

theorem collect_classes (ids : List ElementId) (complete : m.index.Complete) :
    (collect (explode create) ids m).2.index.classes =
      (typeRequests create ids m).foldl ClassPool.withClass m.index.classes := by
  induction ids generalizing m with
  | nil => rfl
  | cons id rest ih =>
    have first := explode_classes create id complete
    have later := ih (explode_complete create id complete)
    rw [collect, Operation.bind_apply, typeRequests, List.foldl_append, ← first]
    generalize explode create id m = outcome at later
    obtain ⟨result, m'⟩ := outcome
    cases result with
    | error problem => rfl
    | ok found =>
      simp only [Except.isOk, Except.toBool, if_true]
      rw [← later, Operation.bind_apply]
      split <;> rfl

theorem apply_classes (s : Step) (scope : Scope) (complete : m.index.Complete) :
    (s.apply scope m).2.index.classes = (s.classRequests scope m).foldl ClassPool.withClass m.index.classes := by
  cases s with
  | synthesize targets =>
    cases scope with
    | elements kind ids => rfl
    | template => exact synthesizeAll_classes targets complete
  | explodeType create =>
    simp only [apply, classRequests]
    rw [Operation.lift_bind_apply]
    generalize scope.expect _ = expected
    cases expected with
    | error problem => rfl
    | ok ids =>
      have collected := collect_classes create ids complete
      simp only [Except.toOption, Option.getD_some]
      rw [Operation.bind_apply, ← collected]
      split <;> rfl
  | _ => exact quiet_classes.step scope _ (by simp) (by simp) m

end Step

/-! ## The requests of a run -/

def StepCall.requests (c : StepCall) : List SynthesisTarget := c.step.classRequests c.scope c.model

theorem Model.complete_of_after {m : Model} (here : m.indexState = .after classes ops) : m.index.Complete := by
  have listed := IndexState.after_listed classes ops
  rw [← here] at listed
  exact listed.complete

theorem Step.apply_after {m : Model} (here : m.indexState = .after classes ops) (s : Step) (scope : Scope) :
    ∃ ops, (s.apply scope m).2.indexState = .after classes ops := by
  obtain ⟨more, there⟩ := s.apply_operates scope m
  refine ⟨ops ++ more, ?_⟩
  rw [there, here, IndexState.after_append]

theorem Pipeline.classes_before {settings : Settings} {p : Pipeline} {before later : List StepCall} {c : StepCall}
    (taken : p.action.stepCalls .template (.ofClasses settings classes) = before ++ c :: later) :
    (∃ ops, c.model.indexState = .after classes ops) ∧
      c.model.index.classes = (before.flatMap StepCall.requests).foldl ClassPool.withClass classes := by
  have history : History fun m calls m' => (∃ ops, m.indexState = .after classes ops) →
      (∃ ops, m'.indexState = .after classes ops) ∧
        m'.index.classes = (calls.flatMap StepCall.requests).foldl ClassPool.withClass m.index.classes := by
    refine ⟨fun m start => ⟨start, rfl⟩, fun first second start => ?_⟩
    obtain ⟨middle, classes'⟩ := first start
    obtain ⟨last, classes''⟩ := second middle
    refine ⟨last, ?_⟩
    rw [classes'', classes', List.flatMap_append, List.foldl_append]
  have whole := Action.stepCalls_follow history
    (fun s scope m start => ?_) (fun predicate ids m start => ?_) taken ⟨[], rfl⟩
  · have given : (Execution.ofClasses settings classes).model.index.classes = classes :=
      (ElementIndex.discoverAll_fills _ _).sameClasses
    rw [given] at whole
    exact whole
  · obtain ⟨ops, here⟩ := start
    refine ⟨Step.apply_after here s scope, ?_⟩
    rw [s.apply_classes scope (Model.complete_of_after here)]
    simp [StepCall.requests]
  · obtain ⟨ops, here⟩ := start
    obtain ⟨more, there⟩ := predicate.splitIn_operates ids m
    refine ⟨⟨ops ++ more, ?_⟩, rfl⟩
    rw [there, here, IndexState.after_append]

/-! ## Calls of methods of a made-up class -/

namespace ClassPool

theorem mem_superclassChain_self (pool : ClassPool) (c : Nat) : c ∈ pool.superclassChain c := by
  rw [(pool.superclassChain_distinct c).2]
  exact List.mem_cons_self

theorem nearer_self (pool : ClassPool) (c : Nat) : pool.nearer c c = [] := by
  rw [nearer, (pool.superclassChain_distinct c).2]
  simp

end ClassPool

namespace ElementIndex

variable {ix : ElementIndex} {t : TypeName}

/-- A call that names a class means a method of this very class. -/
def FindsOwn (ix : ElementIndex) (t : TypeName) (name desc : String) : Prop :=
  ∃ id cls declaring position origin, ix.resolveMethod? t name desc = some id ∧
    ix.get? id = some (.member .method declaring position cls origin) ∧ ix.classByName? t = some cls

theorem findsOwn_iff {r : SignatureResolver} (coherent : ix.Coherent r) (complete : ix.Complete) {c : Nat}
    (position : ix.classes.indexOf? t = some c) (madeUp : ix.given ≤ c) {d : ClassDeclaration}
    (declared : ix.classes[c]? = some d) (name desc : String) :
    ix.FindsOwn t name desc ↔ name ∈ d.methods.map (·.name) := by
  obtain ⟨cls, home, named⟩ := complete.classByName? position
  have own : ix.methodPosition? name desc c = d.methods.findIdx? (·.name == name) := by
    rw [methodPosition?, declared, Option.bind_some, if_pos madeUp]
  have element {k i : Nat} {id : ElementId} (found : ix.find? (.member .method k i k) = some id) :
      ∃ owner, ix.get? id = some (.member .method k i owner none) ∧ ix.find? (.classDef k) = some owner := by
    obtain ⟨e, stored, justified⟩ := coherent.stored found
    cases justified with
    | declaredMember home => exact ⟨_, stored, home⟩
    | inheritedMember elsewhere => exact absurd rfl elsewhere
  constructor
  · rintro ⟨id, cls', declaring, i, origin, resolved, stored, named'⟩
    cases Option.some.inj (named.symm.trans named')
    simp only [resolveMethod?, position, Option.bind_eq_bind, Option.bind_some, Option.bind_eq_some_iff] at resolved
    obtain ⟨⟨k, j⟩, first, found⟩ := resolved
    obtain ⟨owner, stored', home'⟩ := element found
    -- The method belongs to the class that owns it, which is the one that was named.
    cases Option.some.inj (stored.symm.trans stored')
    cases find?_inj home home'
    obtain ⟨-, matched⟩ := mem_of_firstMatch first
    rw [own] at matched
    obtain ⟨inside, same, -⟩ := List.findIdx?_eq_some_iff_getElem.mp matched
    exact List.mem_map.mpr ⟨_, List.getElem_mem inside, by simpa using same⟩
  · intro member
    obtain ⟨method, listed, same⟩ := List.mem_map.mp member
    cases matched : d.methods.findIdx? (·.name == name) with
    | none =>
      rw [List.findIdx?_eq_none_iff] at matched
      have other := matched method listed
      simp [same] at other
    | some i =>
      rw [← own] at matched
      obtain ⟨id, found⟩ := Option.isSome_iff_exists.mp (methodPosition?_present complete matched)
      obtain ⟨owner, stored, home'⟩ := element found
      cases Option.some.inj (home.symm.trans home')
      -- Nothing stands before the class itself in its chain, so its own method is the first match.
      have resolved := resolveMethod?_eq position (ix.classes.mem_superclassChain_self c) found name desc
      refine ⟨id, cls, c, i, none, resolved.mpr ⟨?_, matched⟩, stored, named⟩
      rw [ClassPool.nearer_self]
      simp

theorem stub_methodNames (t : TypeName) (methods : List String) : (stub t methods).methods.map (·.name) = methods := by
  rw [stub, List.map_map]
  exact List.map_id' methods

theorem findsOwn_requested {r : SignatureResolver} (coherent : ix.Coherent r) (complete : ix.Complete)
    {given : ClassPool} (size : ix.given = given.length) {requests : List SynthesisTarget}
    (pool : ix.classes = requests.foldl ClassPool.withClass given) (foreign : ∀ d ∈ given, d.typeName ≠ t)
    (name desc : String) :
    ix.FindsOwn t name desc ↔
      ∃ first, requests.find? (·.type.dotted == t) = some first ∧ name ∈ first.methods := by
  have declared := ClassPool.find?_withClasses requests (ClassPool.indexOf?_eq_none_iff.mpr foreign)
  rw [← pool] at declared
  cases decided : requests.find? (·.type.dotted == t) with
  | none =>
    rw [decided, Option.map_none, List.find?_eq_none] at declared
    have unknown : ix.classes.indexOf? t = none :=
      ClassPool.indexOf?_eq_none_iff.mpr fun d member same => declared d member (by simp [same])
    constructor
    · rintro ⟨id, cls, declaring, i, origin, resolved, -⟩
      simp [resolveMethod?, unknown] at resolved
    · simp
  | some first =>
    rw [decided, Option.map_some] at declared
    obtain ⟨c, position, stands⟩ := ClassPool.indexOf?_of_find? declared
    -- The class stands behind the given ones, since none of them has its name.
    have madeUp : ix.given ≤ c := by
      by_contra less
      obtain ⟨more, grown⟩ := ClassPool.begins_withClasses requests given
      rw [pool, ← grown, List.getElem?_append_left (by omega)] at stands
      have named := List.find?_some declared
      exact foreign _ (List.mem_of_getElem? stands) (by simpa using named)
    rw [findsOwn_iff coherent complete position madeUp stands, stub_methodNames]
    simp

end ElementIndex

/-- After a step has made up classes, a call of a class that was not given means a method of this class if and
    only if the first request for the class names the method, of all requests that the run has made so far. There
    is such a request unless the name has a slash, and then no call finds a method. -/
theorem requested_methods_found_iff (settings : Settings) (classes : List ClassDeclaration) (p : Pipeline)
    {before later : List StepCall} {targets : List SynthesisTarget} {scope out : Scope} {m m' : Model}
    (taken : p.action.stepCalls .template (.ofClasses settings classes) =
      before ++ ⟨.synthesize targets, scope, m⟩ :: later)
    (ran : (Step.synthesize targets).apply scope m = (.ok out, m')) {target : SynthesisTarget}
    (asked : target ∈ targets) (foreign : ∀ d ∈ classes, d.typeName ≠ target.type) :
    let first? := (before.flatMap StepCall.requests ++ targets).find? (·.type.dotted == target.type)
    (∀ name desc, m'.index.FindsOwn target.type name desc ↔ ∃ first, first? = some first ∧ name ∈ first.methods) ∧
      (first?.isSome ↔ '/' ∉ target.type.text.toList) := by
  intro first?
  obtain ⟨⟨ops, here⟩, pool⟩ := Pipeline.classes_before taken
  obtain ⟨ops', there⟩ := Step.apply_after here (.synthesize targets) scope
  rw [ran] at there
  obtain ⟨-, coherent, grows⟩ := IndexState.after_accepted classes ops'
  rw [← there] at coherent grows
  have size : m'.index.given = classes.length :=
    grows.given.trans (ElementIndex.discoverAll_fills _ _).given
  have whole : m'.index.classes =
      (before.flatMap StepCall.requests ++ targets).foldl ClassPool.withClass classes := by
    have made := (Step.synthesize targets).apply_classes scope (Model.complete_of_after here)
    rw [ran] at made
    rw [List.foldl_append, ← pool]
    cases scope with
    | elements kind ids => cases congrArg Prod.fst ran
    | template => exact made
  refine ⟨ElementIndex.findsOwn_requested coherent (Model.complete_of_after there) size whole foreign, ?_, ?_⟩
  · intro found
    obtain ⟨first, decided⟩ := Option.isSome_iff_exists.mp found
    have named := List.find?_some decided
    rw [← eq_of_beq named]
    exact TypeName.slash_not_mem_ofInternal _
  · intro slashless
    refine List.find?_isSome.mpr ⟨target, List.mem_append_right _ asked, ?_⟩
    rw [TypeName.dotted_eq_self_iff.mpr slashless]
    exact beq_self_eq_true _

namespace EmptyStub

def bare : SynthesisTarget := { type := ⟨"ext.T"⟩ }

def withMethod : SynthesisTarget := { type := ⟨"ext.T"⟩, methods := ["m"] }

def pipeline : Pipeline :=
  { name := "stubs"
    action := .chain [.nested (.step (.synthesize [bare])), .step (.synthesize [withMethod])] }

def model : Model := ((Step.synthesize [bare]).apply .template (.ofClasses {} [])).2

/-- The method that the second request names is not there, since the first did not name it. -/
theorem method_dropped :
    (∃ before, pipeline.action.stepCalls .template (.ofClasses {} []) =
      before ++ [⟨.synthesize [withMethod], .template, model⟩]) ∧
      "m" ∈ withMethod.methods ∧
      ¬((Step.synthesize [withMethod]).apply .template model).2.index.FindsOwn ⟨"ext.T"⟩ "m" "()V" := by
  have taken : pipeline.action.stepCalls .template (.ofClasses {} []) =
      [⟨.synthesize [bare], .template, .ofClasses {} []⟩] ++ ⟨.synthesize [withMethod], .template, model⟩ :: [] := rfl
  refine ⟨⟨_, taken⟩, by decide, fun found => ?_⟩
  obtain ⟨finds, -⟩ := requested_methods_found_iff {} [] pipeline taken rfl List.mem_cons_self (by simp)
  obtain ⟨first, decided, named⟩ := (finds "m" "()V").mp found
  cases decided
  cases named

end EmptyStub

end ClassAtlas
