import ClassAtlas.Proofs.Relations

/-! # What a scanner remembers in a run

A scanner goes on using what it noted of a method, while the index grows. What it noted was true of an
earlier index and stays true as long as no class is made up. So relating finds what the index says,
unless classes were made up after methods on the way had been scanned.
-/

namespace ClassAtlas

/-! ## What added elements do not change -/

namespace ElementIndex

variable {a b : ElementIndex}

theorem Grows.find? (h : Grows a b) {key : ElementKey} (present : (a.find? key).isSome) :
    b.find? key = a.find? key := by
  obtain ⟨id, found⟩ := Option.isSome_iff_exists.mp present
  rw [found, h.keys found]

theorem Grows.classByName? (h : Grows a b) (same : b.classes = a.classes) (complete : a.Complete)
    (t : TypeName) : b.classByName? t = a.classByName? t := by
  unfold ElementIndex.classByName? ClassPool.indexOf?
  rw [same]
  cases position : List.findIdx? (·.typeName == t) a.classes with
  | none => rfl
  | some c => exact h.find? (complete c (ClassPool.indexOf?_lt position)).cls

theorem methodPosition?_present (complete : a.Complete) {name desc : String} {c i : Nat}
    (position : a.methodPosition? name desc c = some i) : (a.find? (.member .method c i c)).isSome := by
  obtain ⟨d, declared, found⟩ := Option.bind_eq_some_iff.mp position
  have inside : c < a.classes.length := (List.getElem?_eq_some_iff.mp declared).1
  refine (complete c inside).methods declared i ?_
  split at found <;> exact (List.findIdx?_eq_some_iff_findIdx_eq.mp found).1

theorem Grows.resolveMethod? (h : Grows a b) (same : b.classes = a.classes) (complete : a.Complete)
    (owner : TypeName) (name desc : String) :
    b.resolveMethod? owner name desc = a.resolveMethod? owner name desc := by
  have positions : b.methodPosition? name desc = a.methodPosition? name desc := by
    unfold methodPosition?
    rw [same, h.given]
  unfold ElementIndex.resolveMethod?
  rw [same, positions]
  simp only [Option.bind_eq_bind]
  refine Option.bind_congr fun c _ => Option.bind_congr fun ⟨d, i⟩ found => h.find? ?_
  obtain ⟨d', -, place⟩ := List.exists_of_findSome?_eq_some found
  obtain ⟨i', position, place⟩ := Option.map_eq_some_iff.mp place
  cases place
  exact methodPosition?_present complete position

theorem Grows.methodDeclaration? (h : Grows a b) (same : b.classes = a.classes) {method : ElementId}
    (known : method ∈ a.ids) : b.methodDeclaration? method = a.methodDeclaration? method := by
  obtain ⟨element, found⟩ := Option.isSome_iff_exists.mp (mem_ids.mp known)
  unfold ElementIndex.methodDeclaration?
  rw [found, h.get? found, same]

end ElementIndex

theorem DirectUses.ofMethod_grows {a b : ElementIndex} (h : a.Grows b) (same : b.classes = a.classes)
    (complete : a.Complete) {method : ElementId} (known : method ∈ a.ids) (followLambdas : Bool) :
    ofMethod b followLambdas method = ofMethod a followLambdas method := by
  have names : b.classByName? = a.classByName? := funext fun t => h.classByName? same complete t
  have calls : b.resolveMethod? = a.resolveMethod? :=
    funext fun t => funext fun name => funext fun desc => h.resolveMethod? same complete t name desc
  have instructions : ofInstruction b followLambdas = ofInstruction a followLambdas := by
    funext i
    cases i <;> simp only [ofInstruction, names, calls]
  unfold ofMethod
  rw [h.methodDeclaration? same known, instructions]

/-! ## What is noted in a run -/

namespace CallScanner

/-- What was noted of a method was true of an earlier index, where it had an element. -/
def Recalls (ix : ElementIndex) (s : CallScanner) : Prop :=
  ∀ method, s.Scanned method → ∃ past : ElementIndex, past.Grows ix ∧ past.Complete ∧
    method ∈ past.ids ∧ s.usesNow ix method = DirectUses.ofMethod past s.followLambdas method

variable {a b ix : ElementIndex} {s s' : CallScanner}

theorem usesNow_scanned (a b : ElementIndex) {method : ElementId} (scanned : s.Scanned method) :
    s.usesNow a method = s.usesNow b method := by
  obtain ⟨uses, noted⟩ := Option.isSome_iff_exists.mp scanned
  simp only [usesNow, noted, Option.getD_some]

theorem usesNow_unscanned (ix : ElementIndex) {method : ElementId} (unscanned : ¬ s.Scanned method) :
    s.usesNow ix method = DirectUses.ofMethod ix s.followLambdas method := by
  have absent : Ordered.get? method s.direct = none := by simpa [Scanned] using unscanned
  simp only [usesNow, absent, Option.getD_none]

theorem Coherent.grows (coherent : Coherent a s) (h : a.Grows b) : Coherent b s := by
  refine ⟨fun method r entry => ?_, fun method c call => ?_⟩
  · obtain ⟨closure, scanned⟩ := coherent.noted method r entry
    exact ⟨closure.congr fun n inside => usesNow_scanned b a (scanned n inside), scanned⟩
  · by_cases scanned : s.Scanned method
    · rw [Calls, usesNow_scanned b a scanned] at call
      exact h.ids (coherent.known method c call)
    · rw [Calls, usesNow_unscanned b scanned] at call
      exact (DirectUses.mem_callees.mp call).mem_ids

theorem Recalls.grows (recalls : Recalls a s) (h : a.Grows b) : Recalls b s := by
  intro method scanned
  obtain ⟨past, earlier, complete, known, noted⟩ := recalls method scanned
  rw [usesNow_scanned a b scanned] at noted
  exact ⟨past, earlier.trans h, complete, known, noted⟩

theorem Recalls.asked (recalls : Recalls ix s) (complete : ix.Complete) (asked : Asked ix none s s') :
    Recalls ix s' := by
  intro method scanned
  rw [asked.uses, asked.followLambdas]
  by_cases before : s.Scanned method
  · exact recalls method before
  · rcases asked.scanned method scanned with already | absurdity | known
    · exact absurd already before
    · cases absurdity
    · exact ⟨ix, .refl ix, complete, known, usesNow_unscanned ix before⟩

theorem Recalls.current (recalls : Recalls ix s) (method : ElementId) :
    s.usesNow ix method = DirectUses.ofMethod ix s.followLambdas method ∨
      ∃ past : ElementIndex, past.Grows ix ∧ past.classes ≠ ix.classes ∧
        s.usesNow ix method = DirectUses.ofMethod past s.followLambdas method := by
  by_cases scanned : s.Scanned method
  · obtain ⟨past, earlier, complete, known, noted⟩ := recalls method scanned
    by_cases same : ix.classes = past.classes
    · rw [noted]
      exact .inl (DirectUses.ofMethod_grows earlier same complete known s.followLambdas).symm
    · exact .inr ⟨past, earlier, Ne.symm same, noted⟩
  · exact .inl (usesNow_unscanned ix scanned)

end CallScanner

/-- What holds of a model throughout a run. -/
structure Model.Consistent (followLambdas : Bool) (m : Model) : Prop where
  followLambdas : m.scanner.followLambdas = followLambdas
  complete : m.index.Complete
  coherent : m.scanner.Coherent m.index
  recalls : m.scanner.Recalls m.index
  numbered : m.entities.Numbered

namespace Model.Consistent

variable {followLambdas : Bool} {m m' : Model} {classes : List ClassDeclaration}

theorem ofClasses (settings : Settings) (classes : List ClassDeclaration) :
    Consistent settings.followLambdas (.ofClasses settings classes) where
  followLambdas := rfl
  complete := ElementIndex.ofClasses_complete classes
  coherent := .fresh _ _
  recalls method scanned := by simp [Model.ofClasses, CallScanner.Scanned, Ordered.get?] at scanned
  numbered := .empty

theorem advances (h : Consistent followLambdas m) (advance : m.Advances m') :
    Consistent followLambdas m' where
  followLambdas := by rw [advance.scanner, h.followLambdas]
  complete := advance.index.complete h.complete
  coherent := by
    rw [advance.scanner]
    exact h.coherent.grows advance.index.toGrows
  recalls := by
    rw [advance.scanner]
    exact h.recalls.grows advance.index.toGrows
  numbered := h.numbered.evolves advance.entities

theorem relateTypes (h : Consistent followLambdas m) (kind : RelationKind) (source target : EntityType)
    (key : Option String) (backtrack : Bool) :
    Consistent followLambdas (Step.relateTypes kind source target key backtrack m).2 := by
  obtain ⟨links, asked⟩ := CallScanner.relate_links h.numbered h.coherent kind source target
    (key.getD kind.name) backtrack
  exact ⟨asked.followLambdas.trans h.followLambdas, h.complete, asked.coherent,
    h.recalls.asked h.complete asked, h.numbered.evolves links.evolves⟩

theorem running : Running fun m m' => Consistent followLambdas m → Consistent followLambdas m' :=
  .ofAdvances ⟨fun _ h => h, fun first second h => second (first h)⟩ (fun advance h => h.advances advance)
    fun kind source target key backtrack _ h => h.relateTypes kind source target key backtrack

theorem reachable {settings : Settings} (reachable : (Model.ofClasses settings classes).Reachable m) :
    Consistent settings.followLambdas m :=
  reachable.keeps running (ofClasses settings classes)

theorem reached {settings : Settings} {action : Action} {scope : Scope} {c : ActionCall}
    (reached : ActionCall.Reaches ⟨action, scope, .ofClasses settings classes⟩ c) :
    Consistent settings.followLambdas c.start.model :=
  reachable (.ofReaches reached)

end Model.Consistent

/-! ## What relating finds -/

/-- From a method of the source, calls lead to a method that instantiates the target's class or names
    it as the owner of a call, all by the instructions and the index. -/
def ElementIndex.LeadsTo (ix : ElementIndex) (followLambdas : Bool) (kind : RelationKind)
    (source target : ElementId) : Prop :=
  ∃ root ∈ CallScanner.roots ix source, ∃ method,
    Relation.ReflTransGen (ix.CallsMethod followLambdas) root method ∧
    match kind with
    | .instantiates => ix.Instantiates method target
    | .invokes => ix.NamesReceiver method target

theorem ElementIndex.LeadsTo.matches {ix : ElementIndex} {followLambdas : Bool} {kind : RelationKind}
    {source : ElementId} {uses : ElementId → DirectUses} {target : Entity} (targets : List Entity)
    (leads : ix.LeadsTo followLambdas kind source target.element)
    (current : ∀ root ∈ CallScanner.roots ix source, ∀ method,
      Relation.ReflTransGen (ix.CallsMethod followLambdas) root method →
        uses method = DirectUses.ofMethod ix followLambdas method) :
    CallScanner.Matches ix uses targets source target kind := by
  obtain ⟨root, start, method, path, use⟩ := leads
  have same : Relation.ReflTransGen (Calls uses) root method := by
    clear use
    induction path with
    | refl => exact .refl
    | tail path call ih =>
      refine ih.tail ?_
      rw [Calls, current root start _ path]
      exact DirectUses.mem_callees.mpr call
  have seen := current root start method path
  cases kind with
  | instantiates =>
    refine ⟨root, start, method, same, ?_⟩
    rw [seen]
    exact DirectUses.mem_instantiated.mpr use
  | invokes =>
    refine .inr ⟨root, start, method, same, ?_⟩
    rw [seen]
    exact DirectUses.mem_receivers.mpr use

theorem Action.execute_relate_entities (kind : RelationKind) (source target : EntityType)
    (key : Option String) (backtrack : Bool) (scope : Scope) (e : Execution) :
    ((Action.step (.relate kind source target key backtrack)).execute scope e).2.model.entities =
      (e.model.scanner.relate e.model.index kind source target (key.getD kind.name) backtrack
        e.model.entities).2.1 := rfl

/-- Wherever a run relates entities, it links every pair that the index leads to if and only if each of
    these pairs is linked already or matches by the calls that the scanner remembers. What is
    remembered of a method is what the index says, unless classes were made up after the method had
    been scanned, and a source all of whose methods are remembered as the index has them misses
    nothing. -/
theorem relate_links_all_iff (settings : Settings) (classes : List ClassDeclaration) (p : Pipeline)
    {kind : RelationKind} {source target : EntityType} {key : Option String} {backtrack : Bool}
    {scope : Scope} {e : Execution}
    (reached : ActionCall.Reaches ⟨p.action, .template, .ofClasses settings classes⟩
      ⟨.step (.relate kind source target key backtrack), scope, e⟩) :
    let m := e.model
    let after := ((Action.step (.relate kind source target key backtrack)).execute scope e).2.model
    let sources := m.entities.ofType source
    let targets := m.entities.ofType target
    let remembered := m.scanner.usesNow m.index
    let Demanded := fun s t : Entity => s ∈ sources ∧ t ∈ targets ∧ s.id ≠ t.id ∧
      m.index.LeadsTo settings.followLambdas kind s.element t.element
    let edge := fun s t : Entity => (⟨s.id, key.getD kind.name, t.id⟩ : Relation)
    ((∀ s t, Demanded s t → edge s t ∈ after.entities.edges) ↔
      ∀ s t, Demanded s t → edge s t ∈ m.entities.edges ∨
        ∃ s' ∈ sources, ∃ t' ∈ targets, CallScanner.Matches m.index remembered targets s'.element t' kind ∧
          CallScanner.IsLink s'.id t'.id (key.getD kind.name) backtrack (edge s t)) ∧
    (∀ method, remembered method = DirectUses.ofMethod m.index settings.followLambdas method ∨
      ∃ past : ElementIndex, past.Grows m.index ∧ past.classes ≠ m.index.classes ∧
        remembered method = DirectUses.ofMethod past settings.followLambdas method) ∧
    ∀ s, (∀ root ∈ CallScanner.roots m.index s.element, ∀ method,
        Relation.ReflTransGen (m.index.CallsMethod settings.followLambdas) root method →
          remembered method = DirectUses.ofMethod m.index settings.followLambdas method) →
      ∀ t, Demanded s t → edge s t ∈ after.entities.edges := by
  intro m after sources targets remembered Demanded edge
  have consistent : m.Consistent settings.followLambdas := Model.Consistent.reached reached
  have links := (CallScanner.relate_links consistent.numbered consistent.coherent kind source target
    (key.getD kind.name) backtrack).1
  rw [← Action.execute_relate_entities kind source target key backtrack scope e] at links
  refine ⟨forall₂_congr fun s t => imp_congr_right fun _ => links.edges (edge s t), fun method => ?_,
    fun s current t demanded => ?_⟩
  · rw [← consistent.followLambdas]
    exact consistent.recalls.current method
  · obtain ⟨inSources, inTargets, different, leads⟩ := demanded
    exact (links.edges _).mpr (.inr ⟨s, inSources, t, inTargets, leads.matches targets current, different,
      .inl rfl⟩)

/-! ## A class made up too late -/

namespace LateClass

/-- A class whose only method instantiates a class that is not given. -/
def caller : ClassDeclaration :=
  { name := "a/A", methods := [{ name := "m", desc := "()V", instructions := [.instantiate "ext/T"] }] }

/-- Relates the given class, makes the other one up and relates again. -/
def actions : List Action :=
  [.nested (.chain [.step .classes, .step (.registerEntity "node" none [])]),
    .step (.relate .instantiates "node" "node" none false),
    .nested (.chain [.step (.synthesize [{ type := .ofInternal "ext/T" }]),
      .step (.registerEntity "stub" none [])]),
    .step (.relate .instantiates "node" "stub" none false)]

def pipeline : Pipeline := { name := "late", action := .chain actions }

def begin : Execution := (Execution.ofClasses {} [caller]).enter (Action.chain actions).describe .template

/-- The state in which entities are related the second time. -/
def last : Execution := (Action.executeAll (actions.take 3) .template begin).2

theorem last_reached :
    ActionCall.Reaches ⟨pipeline.action, .template, .ofClasses {} [caller]⟩
      ⟨.step (.relate .instantiates "node" "stub" none false), .template, last⟩ := by
  have done : (Action.executeAll (actions.take 3) .template begin).1 = .ok .template := by decide +kernel
  exact .single (.chain (.after done))

theorem last_leads : last.model.index.LeadsTo true .instantiates ⟨1⟩ ⟨0⟩ := by
  have body : (last.model.index.methodDeclaration? ⟨2⟩).map (·.2.instructions) =
      some [.instantiate "ext/T"] := by decide +kernel
  obtain ⟨⟨c, m⟩, declared, instructions⟩ := Option.map_eq_some_iff.mp body
  refine ⟨⟨2⟩, by decide +kernel, ⟨2⟩, .refl, "ext/T", ⟨c, m, declared, ?_⟩, by decide +kernel⟩
  rw [instructions]
  exact List.mem_singleton_self _

/-- Relating again leaves the pair without a link, so a method on the way is remembered as it was
    before the class was made up. -/
theorem remembered_otherwise :
    ActionCall.Reaches ⟨pipeline.action, .template, .ofClasses {} [caller]⟩
        ⟨.step (.relate .instantiates "node" "stub" none false), .template, last⟩ ∧
      ¬ ∀ root ∈ CallScanner.roots last.model.index ⟨1⟩, ∀ method,
        Relation.ReflTransGen (last.model.index.CallsMethod true) root method →
          last.model.scanner.usesNow last.model.index method =
            DirectUses.ofMethod last.model.index true method := by
  refine ⟨last_reached, fun current => ?_⟩
  have nodes : (last.model.entities.ofType "node").map (fun e => (e.id, e.element)) = [(⟨0⟩, ⟨1⟩)] := by
    decide +kernel
  have stubs : (last.model.entities.ofType "stub").map (fun e => (e.id, e.element)) = [(⟨1⟩, ⟨0⟩)] := by
    decide +kernel
  have unlinked : ((Action.step (.relate .instantiates "node" "stub" none false)).execute .template
      last).2.model.entities.edges = [] := by decide +kernel
  obtain ⟨s, source, atS⟩ := List.mem_map.mp (nodes ▸ List.mem_singleton_self _)
  obtain ⟨t, target, atT⟩ := List.mem_map.mp (stubs ▸ List.mem_singleton_self _)
  obtain ⟨numberS, elementS⟩ := Prod.mk.inj atS
  obtain ⟨numberT, elementT⟩ := Prod.mk.inj atT
  have linked := (relate_links_all_iff {} [caller] pipeline last_reached).2.2 s (by rwa [elementS]) t
    ⟨source, target, by rw [numberS, numberT]; decide, by rw [elementS, elementT]; exact last_leads⟩
  rw [unlinked] at linked
  cases linked

end LateClass

end ClassAtlas
