import ClassAtlas.Proofs.Remembering
import ClassAtlas.Proofs.TwinRuns

/-! # What settings change

Runs with different settings go side by side. Recording measurements changes the measurements alone.
Strictness turns some runs into failures and leaves the others as they are. Following lambdas adds links
and nothing else, as long as all classes are there when entities are related.
-/

namespace ClassAtlas

/-! ## Measuring and strictness -/

/-- Two models differ in their settings alone. With leave to fail, the first may be the stricter one. -/
def Model.OtherSettings (mayFail : Prop) (m m' : Model) : Prop :=
  ∃ settings : Settings, m' = { m with settings := settings } ∧
    (settings.strictRelations = m.settings.strictRelations ∨ mayFail ∧ settings.strictRelations = false)

namespace Model.OtherSettings

theorem associationPairs_unstrict {m : Model} {settings : Settings} (off : settings.strictRelations = false)
    {parent : EntityType} {key : String} {child : EntityType} {id : ElementId}
    {pairs : List (EntityId × EntityId)} (given : Step.associationPairs m parent key child id = .ok pairs) :
    Step.associationPairs { m with settings := settings } parent key child id = .ok pairs := by
  have enclosing : ∀ type, Model.enclosingEntity? { m with settings := settings } id type =
    m.enclosingEntity? id type := fun _ => rfl
  have below : ∀ type e, Model.descendants { m with settings := settings } type e = m.descendants type e :=
    fun _ _ => rfl
  unfold Step.associationPairs at given ⊢
  simp only [enclosing, below, off, Bool.and_false]
  split at given
  · exact given
  · exact given
  · dsimp only at given
    split at given
    · cases given
    · exact given
  · exact given

theorem twins {mayFail : Prop} {m m' : Model} (h : OtherSettings mayFail m m') : m.Twins m' := by
  obtain ⟨settings, rfl, -⟩ := h
  rfl

theorem pairing (mayFail : Prop) : Pairing mayFail (OtherSettings mayFail) where
  twins := twins
  onward := by
    rintro m _ n n' ⟨settings, rfl, strict⟩ - - twins kept kept'
    have same : n' = n.withHidden n'.hidden := twins
    refine ⟨settings, ?_, ?_⟩
    · rw [same, kept', Model.withHidden]
      simp only [Model.hidden, Hidden.mk.injEq] at kept
      simp only [Model.hidden, ← kept.2.1, ← kept.2.2]
      rfl
    · rw [show n.settings = m.settings from congrArg Hidden.settings kept]
      exact strict
  pairs := by
    intro m m' parent key child id h
    have twins := h.twins
    obtain ⟨settings, rfl, same | ⟨leave, off⟩⟩ := h
    · exact .inl (Step.associationPairs_twins twins same parent key child id)
    · cases result : Step.associationPairs m parent key child id with
      | error problem => exact .inr ⟨leave, problem, rfl⟩
      | ok pairs => exact .inl (associationPairs_unstrict off result).symm
  linked := by
    rintro m _ key pairs ⟨settings, rfl, strict⟩
    exact ⟨settings, rfl, strict⟩

theorem relating (mayFail : Prop) : Action.RelatesAlike (OtherSettings mayFail) fun _ => True := by
  rintro kind source target key backtrack scope m _ - ⟨settings, rfl, strict⟩
  exact ⟨settings, rfl, strict⟩

theorem execute (mayFail measured : Prop) (settings settings' : Settings) (classes : List ClassDeclaration)
    (a : Action) (lambdas : settings'.followLambdas = settings.followLambdas)
    (strict : settings'.strictRelations = settings.strictRelations ∨
      mayFail ∧ settings'.strictRelations = false)
    (recording : measured → settings'.recordMeasurements = settings.recordMeasurements) :
    Alike mayFail (Execution.Alongside (OtherSettings mayFail) measured)
      (a.execute .template (.ofClasses settings classes)) (a.execute .template (.ofClasses settings' classes)) := by
  refine Action.execute_lockstep (pairing mayFail) (relating mayFail) a .template _ _ ⟨⟨settings', ?_, strict⟩, rfl, ?_⟩
    fun _ _ => trivial
  · simp only [Execution.ofClasses, Model.ofClasses, lambdas]
  · intro given
    simp only [Execution.ofClasses, recording given]

end Model.OtherSettings

/-- Whether measurements are recorded changes nothing but the measurements: the runs fail with one error
    in one action or give the same elements, entities with their links, causes and number of fallbacks.
    A run that succeeds under strict settings gives the same without them, measurements included. -/
theorem measuring_and_strictness_keep_results (settings : Settings) (classes : List ClassDeclaration)
    (p : Pipeline) :
    EndAlike (fun r r' => r' = { r with measurements := r'.measurements })
        (p.run { settings with recordMeasurements := true } classes)
        (p.run { settings with recordMeasurements := false } classes) ∧
      ∀ r, p.run { settings with strictRelations := true } classes = .ok r →
        p.run { settings with strictRelations := false } classes = .ok r := by
  constructor
  · have alike := Model.OtherSettings.execute False False { settings with recordMeasurements := true }
      { settings with recordMeasurements := false } classes p.action rfl (.inl rfl) False.elim
    refine Pipeline.run_endAlike alike ?_
    rintro e e' ⟨⟨settings', same, -⟩, -, -⟩
    simp only [Pipeline.resultOf, same]
  · intro r ran
    have alike := Model.OtherSettings.execute True True { settings with strictRelations := true }
      { settings with strictRelations := false } classes p.action rfl (.inr ⟨trivial, rfl⟩) fun _ => rfl
    obtain ⟨⟨out, succeeded⟩, rfl⟩ := Pipeline.run_eq_ok.mp ran
    obtain ⟨result, ⟨settings', same, -⟩, -, recorder⟩ | ⟨-, problem, failed⟩ := alike
    · refine Pipeline.run_eq_ok.mpr ⟨⟨out, result ▸ succeeded⟩, ?_⟩
      simp only [Pipeline.resultOf, same, recorder trivial]
    · rw [succeeded] at failed
      cases failed

/-! ### An association that strictness allows -/

namespace OwnedMethods

def classes : List ClassDeclaration := [{ name := "a/A", methods := [{ name := "m", desc := "()V" }] }]

def pipeline : Pipeline :=
  { name := "owned"
    action := .chain
      [.nested (.chain [.step .classes, .step (.registerEntity "type" none [])]), .step .classes,
        .step (.methods false), .step (.registerEntity "operation" none []),
        .step (.associate "type" "has" "operation")] }

/-- The strict run links the class to its method, so the other one gives the same. -/
theorem strict_run_kept : ∃ r, pipeline.run { strictRelations := true } classes = .ok r ∧
    r.entities.edges = [⟨⟨0⟩, "has", ⟨1⟩⟩] ∧ pipeline.run { strictRelations := false } classes = .ok r := by
  have linked : (match pipeline.run { strictRelations := true } classes with
      | .ok r => r.entities.edges
      | .error _ => []) = [⟨⟨0⟩, "has", ⟨1⟩⟩] := by decide +kernel
  cases ran : pipeline.run { strictRelations := true } classes with
  | error failure =>
      rw [ran] at linked
      cases linked
  | ok r =>
      rw [ran] at linked
      exact ⟨r, rfl, linked, (measuring_and_strictness_keep_results {} classes pipeline).2 r ran⟩

end OwnedMethods

/-! ## Following lambdas -/

namespace EntityStore

theorem addChild_subset {s s' : EntityStore} (same : s.Relinked s') (fewer : s.edges ⊆ s'.edges)
    (parent : EntityId) (key : String) (child : EntityId) :
    (s.addChild parent key child).2.edges ⊆ (s'.addChild parent key child).2.edges := by
  have found : ∀ id, s'.get? id = s.get? id := fun id => by rw [get?, get?, same.entities]
  have more : s'.edges ⊆ (s'.addChild parent key child).2.edges := by
    obtain unchanged | ⟨-, -, -, added⟩ := addChild_cases s' parent key child
    · rw [unchanged]
      exact List.Subset.refl _
    · rw [added]
      exact List.subset_append_left _ _
  obtain unchanged | ⟨hasParent, hasChild, -, -⟩ := addChild_cases s parent key child
  · rw [unchanged]
    exact fun r old => more (fewer old)
  · intro r member
    refine (mem_addChild (by rwa [found]) (by rwa [found]) key).mpr ?_
    exact ((mem_addChild hasParent hasChild key).mp member).imp_left fun old => fewer old

end EntityStore

theorem Step.linkPairs_subset {s s' : EntityStore} (same : s.Relinked s') (fewer : s.edges ⊆ s'.edges)
    (key : String) (pairs : List (EntityId × EntityId)) :
    (linkPairs key pairs s).edges ⊆ (linkPairs key pairs s').edges := by
  unfold linkPairs
  induction pairs generalizing s s' with
  | nil => exact fewer
  | cons pair rest ih =>
    by_cases equal : pair.1 = pair.2
    · simp only [List.foldl_cons, equal, if_true]
      exact ih same fewer
    · simp only [List.foldl_cons, equal, if_false]
      have entities := (EntityStore.addChild_entities s' pair.1 key pair.2).trans
        (same.entities.trans (EntityStore.addChild_entities s pair.1 key pair.2).symm)
      have kinds := (EntityStore.addChild_relinked s' pair.1 key pair.2).typeKinds.trans
        (same.typeKinds.trans (EntityStore.addChild_relinked s pair.1 key pair.2).typeKinds.symm)
      exact ih ⟨entities, kinds⟩ (EntityStore.addChild_subset same fewer pair.1 key pair.2)

/-- One method's uses are all among another's. -/
structure DirectUses.Within (a b : DirectUses) : Prop where
  instantiated : a.instantiated ⊆ b.instantiated
  receivers : a.receivers ⊆ b.receivers
  callees : a.callees ⊆ b.callees

theorem DirectUses.ofMethod_within (ix : ElementIndex) (method : ElementId) :
    (ofMethod ix false method).Within (ofMethod ix true method) where
  instantiated _ used := mem_instantiated.mpr (mem_instantiated.mp used)
  receivers _ used := mem_receivers.mpr (mem_receivers.mp used)
  callees c used := by
    refine mem_callees.mpr ?_
    cases mem_callees.mp used with
    | invoked body resolved => exact .invoked body resolved
    | captured followed => cases followed

namespace CallScanner

theorem Matches.mono {ix : ElementIndex} {uses uses' : ElementId → DirectUses}
    (more : ∀ method, (uses method).Within (uses' method)) {targets : List Entity} {source : ElementId}
    {target : Entity} {kind : RelationKind} (given : Matches ix uses targets source target kind) :
    Matches ix uses' targets source target kind := by
  have calls : ∀ a b, Calls uses a b → Calls uses' a b := fun a _ call => (more a).callees call
  cases kind with
  | instantiates =>
    obtain ⟨root, start, m, path, use⟩ := given
    exact ⟨root, start, m, Relation.ReflTransGen.mono calls _ _ path, (more m).instantiated use⟩
  | invokes =>
    obtain ⟨root, start, m, path, called⟩ | ⟨root, start, m, path, use⟩ := given
    · exact .inl ⟨root, start, m, Relation.TransGen.mono calls _ _ path, called⟩
    · exact .inr ⟨root, start, m, Relation.ReflTransGen.mono calls _ _ path, (more m).receivers use⟩

/-- What was noted of a method was true of an earlier index, which had this many classes. -/
def RecallsWith (known : Nat) (ix : ElementIndex) (s : CallScanner) : Prop :=
  ∀ method, s.Scanned method → ∃ past : ElementIndex, past.Grows ix ∧ past.Complete ∧ method ∈ past.ids ∧
    past.classes.length = known ∧ s.usesNow ix method = DirectUses.ofMethod past s.followLambdas method

namespace RecallsWith

variable {known : Nat} {ix ix' : ElementIndex} {s s' : CallScanner}

theorem grows (recalls : RecallsWith known ix s) (h : ix.Grows ix') : RecallsWith known ix' s := by
  intro method scanned
  obtain ⟨past, earlier, complete, there, classes, noted⟩ := recalls method scanned
  rw [usesNow_scanned ix ix' scanned] at noted
  exact ⟨past, earlier.trans h, complete, there, classes, noted⟩

theorem asked (recalls : RecallsWith known ix s) (complete : ix.Complete) (classes : ix.classes.length = known)
    (asked : Asked ix none s s') : RecallsWith known ix s' := by
  intro method scanned
  rw [asked.uses, asked.followLambdas]
  by_cases before : s.Scanned method
  · exact recalls method before
  · rcases asked.scanned method scanned with already | absurdity | there
    · exact absurd already before
    · cases absurdity
    · exact ⟨ix, .refl ix, complete, there, classes, usesNow_unscanned ix before⟩

theorem current (recalls : RecallsWith known ix s) (classes : ix.classes.length = known) (method : ElementId) :
    s.usesNow ix method = DirectUses.ofMethod ix s.followLambdas method := by
  by_cases scanned : s.Scanned method
  · obtain ⟨past, earlier, complete, there, before, noted⟩ := recalls method scanned
    have same := earlier.classes.eq_of_length (before.trans classes.symm)
    rw [noted]
    exact (DirectUses.ofMethod_grows earlier same.symm complete there s.followLambdas).symm
  · exact usesNow_unscanned ix scanned

end RecallsWith

end CallScanner

/-- Two models differ at most in that the second follows lambdas and has more links. Both remember calls
    from the time when the index had this many classes. -/
structure Model.Widens (known : Nat) (m m' : Model) : Prop where
  twins : m.Twins m'
  strict : m'.settings.strictRelations = m.settings.strictRelations
  narrow : m.Consistent false
  wide : m'.Consistent true
  recalls : m.scanner.RecallsWith known m.index
  recalls' : m'.scanner.RecallsWith known m'.index
  edges : m.entities.edges ⊆ m'.entities.edges

namespace Model.Widens

variable {known : Nat}

theorem pairing : Pairing False (Widens known) where
  twins h := h.twins
  onward := by
    intro m m' n n' h advances advances' twins kept kept'
    refine ⟨twins, ?_, h.narrow.advances advances, h.wide.advances advances', ?_, ?_, ?_⟩
    · rw [advances.settings, advances'.settings, h.strict]
    · rw [advances.scanner]
      exact h.recalls.grows advances.index.toGrows
    · rw [advances'.scanner]
      exact h.recalls'.grows advances'.index.toGrows
    · rw [show n.entities.edges = m.entities.edges from congrArg Hidden.edges kept,
        show n'.entities.edges = m'.entities.edges from congrArg Hidden.edges kept']
      exact h.edges
  pairs parent key child id h := .inl (Step.associationPairs_twins h.twins h.strict parent key child id)
  linked := by
    intro m m' key pairs h
    have evolves : m.Advances _ := .ofEntities m (Step.linkPairs_keeps .evolves key pairs m.entities)
    have evolves' : m'.Advances _ := .ofEntities m' (Step.linkPairs_keeps .evolves key pairs m'.entities)
    exact ⟨h.twins.relink (Step.linkPairs_keeps .relinked key pairs _) (Step.linkPairs_keeps .relinked key pairs _) _ _,
      h.strict, h.narrow.advances evolves, h.wide.advances evolves', h.recalls, h.recalls',
      Step.linkPairs_subset h.twins.relinked h.edges key pairs⟩

theorem relateTypes {m m' : Model} (h : Widens known m m') (classes : m.index.classes.length = known)
    (kind : RelationKind) (source target : EntityType) (key : Option String) (backtrack : Bool) :
    Widens known (Step.relateTypes kind source target key backtrack m).2
      (Step.relateTypes kind source target key backtrack m').2 := by
  have classes' : m'.index.classes.length = known := by rw [h.twins.index, classes]
  obtain ⟨links, asked⟩ := CallScanner.relate_links h.narrow.numbered h.narrow.coherent kind source target
    (key.getD kind.name) backtrack
  obtain ⟨links', asked'⟩ := CallScanner.relate_links h.wide.numbered h.wide.coherent kind source target
    (key.getD kind.name) backtrack
  have more : ∀ method, (m.scanner.usesNow m.index method).Within (m'.scanner.usesNow m'.index method) := by
    intro method
    rw [h.recalls.current classes, h.recalls'.current classes', h.narrow.followLambdas, h.wide.followLambdas,
      h.twins.index]
    exact DirectUses.ofMethod_within m.index method
  rw [h.twins.index] at more
  have sameType : ∀ type, m'.entities.ofType type = m.entities.ofType type := fun type => by
    rw [EntityStore.ofType, EntityStore.ofType, h.twins.relinked.entities]
  refine ⟨h.twins.relink (CallScanner.relate_relinked ..) (CallScanner.relate_relinked ..) _ _, h.strict,
    h.narrow.relateTypes kind source target key backtrack, h.wide.relateTypes kind source target key backtrack,
    h.recalls.asked h.narrow.complete classes asked, h.recalls'.asked h.wide.complete classes' asked',
    fun r linked => (links'.edges r).mpr ?_⟩
  obtain old | ⟨s, isSource, t, isTarget, found, isLink⟩ := (links.edges r).mp linked
  · exact .inl (h.edges old)
  · rw [sameType, sameType, h.twins.index]
    exact .inr ⟨s, isSource, t, isTarget, found.mono more, isLink⟩

theorem ofClasses (settings : Settings) (classes : List ClassDeclaration) :
    Widens known (.ofClasses { settings with followLambdas := false } classes)
      (.ofClasses { settings with followLambdas := true } classes) where
  twins := rfl
  strict := rfl
  narrow := .ofClasses { settings with followLambdas := false } classes
  wide := .ofClasses { settings with followLambdas := true } classes
  recalls method scanned := by simp [Model.ofClasses, CallScanner.Scanned, Ordered.get?] at scanned
  recalls' method scanned := by simp [Model.ofClasses, CallScanner.Scanned, Ordered.get?] at scanned
  edges := List.Subset.refl _

end Model.Widens

def Step.relatesEntities : Step → Bool
  | .relate _ _ _ _ _ => true
  | _ => false

/-- If this step relates entities, the index has this many classes. -/
def StepCall.RelatesWith (known : Nat) (call : StepCall) : Prop :=
  call.step.relatesEntities = true → call.model.index.classes.length = known

theorem Model.Widens.relating (known : Nat) :
    Action.RelatesAlike (Widens known) (StepCall.RelatesWith known) := by
  intro kind source target key backtrack scope m m' permitted h
  exact h.relateTypes (permitted rfl) kind source target key backtrack

theorem Model.Widens.relating_swap (known : Nat) :
    Action.RelatesAlike (fun m m' => Widens known m' m) (StepCall.RelatesWith known) := by
  intro kind source target key backtrack scope m m' permitted h
  have classes : m.index.classes.length = known := permitted rfl
  exact h.relateTypes (by rwa [← h.twins.index]) kind source target key backtrack

/-- All steps that relate entities find as many classes as the run ends with: none is made up later. -/
def Pipeline.RelatesAllClasses (settings : Settings) (classes : List ClassDeclaration) (p : Pipeline) : Prop :=
  ∀ call ∈ p.action.stepCalls .template (.ofClasses settings classes),
    call.RelatesWith (p.action.execute .template (.ofClasses settings classes)).2.model.index.classes.length

theorem Model.Widens.execute {settings : Settings} {classes : List ClassDeclaration} {known : Nat} {a : Action}
    (settled : ∀ call ∈ a.stepCalls .template (.ofClasses settings classes), call.RelatesWith known) :
    Alike False (Execution.Alongside (Widens known) True)
      (a.execute .template (.ofClasses { settings with followLambdas := false } classes))
      (a.execute .template (.ofClasses { settings with followLambdas := true } classes)) := by
  have start : Widens known _ _ := ofClasses settings classes
  -- The steps that are known are those of one of the two runs.
  cases followed : settings.followLambdas with
  | false =>
    have same : { settings with followLambdas := false } = settings := by rw [← followed]
    rw [← same] at settled
    exact Action.execute_lockstep pairing (relating known) a .template _ _ ⟨start, rfl, fun _ => rfl⟩ settled
  | true =>
    have same : { settings with followLambdas := true } = settings := by rw [← followed]
    rw [← same] at settled
    exact Alike.swap (Action.execute_lockstep pairing.swap (relating_swap known) a .template _ _
      ⟨start, rfl, fun _ => rfl⟩ settled)

/-- Nothing but links is added. -/
structure RunResult.AddsLinks (r r' : RunResult) : Prop where
  pipeline : r'.pipeline = r.pipeline
  elements : r'.elements = r.elements
  provenance : r'.provenance = r.provenance
  measurements : r'.measurements = r.measurements
  signatureFallbacks : r'.signatureFallbacks = r.signatureFallbacks
  entities : r'.entities.entities = r.entities.entities
  typeKinds : r'.entities.typeKinds = r.entities.typeKinds
  edges : r.entities.edges ⊆ r'.entities.edges

theorem Pipeline.resultOf_addsLinks {known : Nat} (p : Pipeline) {e e' : Execution}
    (models : e.model.Widens known e'.model) (recorders : e.recorder = e'.recorder) :
    (p.resultOf e).AddsLinks (p.resultOf e') := by
  have same : e'.model = e.model.withHidden e'.model.hidden := models.twins
  refine ⟨rfl, ?_, ?_, ?_, ?_, models.twins.relinked.entities, models.twins.relinked.typeKinds, models.edges⟩
  · exact models.twins.index
  · rw [resultOf, same]
    rfl
  · rw [resultOf, resultOf, recorders]
  · rw [resultOf, same]
    rfl

/-- Following lambdas only adds links. If no class is made up after entities have been related, the runs
    with and without it fail with one error in one action, or they give the same elements, causes and
    entities, and all links of the run without it are links of the run with it. -/
theorem lambdas_only_add_links (settings : Settings) (classes : List ClassDeclaration) (p : Pipeline)
    (settled : p.RelatesAllClasses settings classes) :
    EndAlike RunResult.AddsLinks (p.run { settings with followLambdas := false } classes)
      (p.run { settings with followLambdas := true } classes) := by
  have alike := Model.Widens.execute settled
  exact Pipeline.run_endAlike alike fun along => p.resultOf_addsLinks along.models (along.recorder trivial)

/-! ### A method captured by a dynamic call -/

namespace CapturedMethod

/-- A class that captures a method of another. -/
def classes : List ClassDeclaration :=
  let body : List Instruction := [.invokeDynamic "get" "()Lj/Supplier;" [⟨"a/Dao", "load", "()V"⟩]]
  [{ name := "a/Service", methods := [{ name := "build", desc := "()V", instructions := body }] },
   { name := "a/Dao", methods := [{ name := "load", desc := "()V" }] }]

def pipeline : Pipeline :=
  { name := "captured"
    action := .chain [.step .classes, .step (.registerEntity "node" none []),
      .step (.relate .invokes "node" "node" none false)] }

theorem relatesAllClasses : pipeline.RelatesAllClasses {} classes := by
  unfold Pipeline.RelatesAllClasses StepCall.RelatesWith
  decide +kernel

/-- The classes are linked only when lambdas are followed. -/
theorem link_added : pipeline.RelatesAllClasses {} classes ∧
    ∃ r r', pipeline.run { followLambdas := false } classes = .ok r ∧
      pipeline.run { followLambdas := true } classes = .ok r' ∧ r.AddsLinks r' ∧
      r.entities.edges = [] ∧ r'.entities.edges = [⟨⟨0⟩, "invokes", ⟨1⟩⟩] := by
  have linked : ∀ followed, (match pipeline.run { followLambdas := followed } classes with
      | .ok r => some r.entities.edges
      | .error _ => none) = some (if followed then [⟨⟨0⟩, "invokes", ⟨1⟩⟩] else []) := by decide +kernel
  have off := linked false
  have on := linked true
  have both := lambdas_only_add_links {} classes pipeline relatesAllClasses
  change EndAlike _ (pipeline.run { followLambdas := false } classes)
    (pipeline.run { followLambdas := true } classes) at both
  generalize pipeline.run { followLambdas := false } classes = without at *
  generalize pipeline.run { followLambdas := true } classes = along at *
  cases both with
  | failed => cases off
  | succeeded results =>
      exact ⟨relatesAllClasses, _, _, rfl, rfl, results, Option.some.inj off, Option.some.inj on⟩

end CapturedMethod

end ClassAtlas
