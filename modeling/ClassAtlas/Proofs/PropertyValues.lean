import ClassAtlas.Proofs.EntityIntegrity
import ClassAtlas.Proofs.Relations
import ClassAtlas.Proofs.StepCalls
import ClassAtlas.Snapshot.Build

/-! # Property values from elements to snapshots

Steps read properties from elements and write them to entities; a snapshot shows them by key. The first
write to an entity is kept as it is and later ones are merged into it, into the first list of a key. A
snapshot shows the last list of a key. So nothing is lost unless the first write repeats a key, and then
something is.
-/

namespace ClassAtlas

/-! ## Merging -/

namespace Properties

def listsUnder (key : String) (ps : Properties) : List (List PropertyValue) :=
  (ps.filter (·.1 == key)).map (·.2)

def valuesUnder (key : String) (ps : Properties) : List PropertyValue := (listsUnder key ps).flatten

/-- Put values at the end of the first list, or make them the only list. -/
def extendFirst (lists : List (List PropertyValue)) (values : List PropertyValue) :
    List (List PropertyValue) :=
  match lists with
  | [] => [values]
  | first :: rest => (first ++ values) :: rest

theorem listsUnder_cons (key : String) (p : String × List PropertyValue) (ps : Properties) :
    listsUnder key (p :: ps) = if p.1 = key then p.2 :: listsUnder key ps else listsUnder key ps := by
  by_cases same : p.1 = key <;> simp [listsUnder, same]

theorem listsUnder_merge_self (key : String) (values : List PropertyValue) (ps : Properties) :
    listsUnder key (merge key values ps) = extendFirst (listsUnder key ps) values := by
  induction ps with
  | nil => simp [merge, listsUnder, extendFirst]
  | cons p rest ih =>
    obtain ⟨k, old⟩ := p
    by_cases same : k = key
    · simp [merge, same, listsUnder_cons, extendFirst]
    · simp [merge, same, listsUnder_cons, ih]

theorem listsUnder_merge_ne {key other : String} (different : other ≠ key) (values : List PropertyValue)
    (ps : Properties) : listsUnder key (merge other values ps) = listsUnder key ps := by
  induction ps with
  | nil => simp [merge, listsUnder, different]
  | cons p rest ih =>
    obtain ⟨k, old⟩ := p
    by_cases same : k = other
    · simp [merge, same, listsUnder_cons, different]
    · simp [merge, same, listsUnder_cons, ih]

theorem listsUnder_mergeAll (key : String) (ps more : Properties) :
    listsUnder key (mergeAll ps more) = (listsUnder key more).foldl extendFirst (listsUnder key ps) := by
  unfold mergeAll
  induction more generalizing ps with
  | nil => rfl
  | cons m rest ih =>
    rw [List.foldl_cons, ih, listsUnder_cons]
    by_cases same : m.1 = key
    · rw [if_pos same, same, listsUnder_merge_self, List.foldl_cons]
    · rw [if_neg same, listsUnder_merge_ne same]

theorem flatten_extendFirst {lists : List (List PropertyValue)} (single : lists.length ≤ 1)
    (values : List PropertyValue) :
    (extendFirst lists values).length ≤ 1 ∧
      (extendFirst lists values).flatten = lists.flatten ++ values := by
  match lists with
  | [] => simp [extendFirst]
  | [list] => simp [extendFirst]

theorem getLast?_extendFirst {lists : List (List PropertyValue)} (several : 1 < lists.length)
    (values : List PropertyValue) :
    1 < (extendFirst lists values).length ∧ (extendFirst lists values).getLast? = lists.getLast? := by
  match lists with
  | first :: second :: rest => simp [extendFirst, List.getLast?_cons]

theorem valuesUnder_mergeAll {key : String} {ps : Properties} (single : (listsUnder key ps).length ≤ 1)
    (more : Properties) :
    (listsUnder key (mergeAll ps more)).length ≤ 1 ∧
      valuesUnder key (mergeAll ps more) = valuesUnder key ps ++ valuesUnder key more := by
  unfold valuesUnder
  rw [listsUnder_mergeAll]
  generalize listsUnder key ps = lists at single ⊢
  induction listsUnder key more generalizing lists with
  | nil => simpa using single
  | cons values rest ih =>
    obtain ⟨single', joined⟩ := flatten_extendFirst single values
    obtain ⟨shape, all⟩ := ih (extendFirst lists values) single'
    refine ⟨shape, ?_⟩
    rw [List.foldl_cons, all, joined, List.flatten_cons, List.append_assoc]

theorem getLast?_mergeAll {key : String} {ps : Properties} (several : 1 < (listsUnder key ps).length)
    (more : Properties) :
    1 < (listsUnder key (mergeAll ps more)).length ∧
      (listsUnder key (mergeAll ps more)).getLast? = (listsUnder key ps).getLast? := by
  rw [listsUnder_mergeAll]
  generalize listsUnder key ps = lists at several ⊢
  induction listsUnder key more generalizing lists with
  | nil => exact ⟨several, rfl⟩
  | cons values rest ih =>
    obtain ⟨several', last⟩ := getLast?_extendFirst several values
    obtain ⟨shape, same⟩ := ih (extendFirst lists values) several'
    exact ⟨shape, same.trans last⟩

/-- What an entity has after these writes: the first as it is, the others merged into it. -/
def gathered? : List Properties → Option Properties
  | [] => none
  | first :: rest => some (rest.foldl mergeAll first)

theorem gathered?_concat (writes : List Properties) (last : Properties) :
    gathered? (writes ++ [last]) = some (((gathered? writes).map (mergeAll · last)).getD last) := by
  cases writes with
  | nil => rfl
  | cons first rest => simp [gathered?]

theorem valuesUnder_gathered {key : String} {first : Properties}
    (single : (listsUnder key first).length ≤ 1) (rest : List Properties) :
    (listsUnder key (rest.foldl mergeAll first)).length ≤ 1 ∧
      valuesUnder key (rest.foldl mergeAll first) = (first :: rest).flatMap (valuesUnder key) := by
  induction rest generalizing first with
  | nil => simpa using single
  | cons next rest ih =>
    obtain ⟨single', joined⟩ := valuesUnder_mergeAll single next
    obtain ⟨shape, all⟩ := ih single'
    refine ⟨shape, ?_⟩
    rw [List.foldl_cons, all, List.flatMap_cons, joined]
    simp

theorem getLast?_gathered {key : String} {first : Properties}
    (several : 1 < (listsUnder key first).length) (rest : List Properties) :
    (listsUnder key (rest.foldl mergeAll first)).getLast? = (listsUnder key first).getLast? := by
  induction rest generalizing first with
  | nil => rfl
  | cons next rest ih =>
    obtain ⟨several', last⟩ := getLast?_mergeAll several next
    exact (ih several').trans last

theorem getLast?_ne_flatten {lists : List (List PropertyValue)} (several : 1 < lists.length)
    (nonempty : ∀ list ∈ lists, list ≠ []) : (lists.getLast?.getD []).length < lists.flatten.length := by
  induction lists with
  | nil => simp at several
  | cons first rest ih =>
    have taken : 0 < first.length := List.length_pos_iff.mpr (nonempty first List.mem_cons_self)
    have others : ∀ list ∈ rest, list ≠ [] := fun list member =>
      nonempty list (List.mem_cons_of_mem _ member)
    match rest with
    | [] => simp at several
    | [second] =>
      simp
      omega
    | second :: third :: rest =>
      have later := ih (by simp) others
      rw [List.getLast?_cons_cons, List.flatten_cons, List.length_append]
      omega

end Properties

/-! ## What steps write -/

/-- Properties that a step writes to an entity. -/
structure PropertyWrite where
  target : EntityId
  properties : Properties

namespace PropertyWrite

def writtenTo (id : EntityId) (writes : List PropertyWrite) : List Properties :=
  (writes.filter (·.target == id)).map (·.properties)

theorem writtenTo_append (id : EntityId) (writes more : List PropertyWrite) :
    PropertyWrite.writtenTo id (writes ++ more) = PropertyWrite.writtenTo id writes ++ PropertyWrite.writtenTo id more := by
  simp [writtenTo]

end PropertyWrite

namespace Step

/-- Registering an element writes to the entity that the element has afterwards. -/
def registerWrites (type : EntityType) (template : Option String) (specs : List PropertySpec)
    (id : ElementId) (m : Model) : List PropertyWrite :=
  match registerAs type template specs id m with
  | (.ok _, m') => (m'.entities.find? id).toList.map fun e => ⟨e.id, propertiesOf specs id m⟩
  | (.error _, _) => []

/-- Updating from an element writes to the entity that encloses the element. -/
def updateWrites (type : EntityType) (specs : List PropertySpec) (id : ElementId) (m : Model) :
    List PropertyWrite :=
  (m.enclosingEntity? id type).toList.map fun e => ⟨e.id, propertiesOf specs id m⟩

def writesOfEach (f : ElementId → ModelM Unit) (write : ElementId → Model → List PropertyWrite) :
    List ElementId → Model → List PropertyWrite
  | [], _ => []
  | id :: ids, m =>
    write id m ++ match f id m with
      | (.ok _, m') => writesOfEach f write ids m'
      | (.error _, _) => []

def writes (scope : Scope) (m : Model) : Step → List PropertyWrite
  | .registerEntity type template specs =>
    writesOfEach (registerAs type template specs) (registerWrites type template specs) scope.ids m
  | .updateEntity type template specs =>
    writesOfEach (updateFrom type template specs) (updateWrites type specs) scope.ids m
  | _ => []

end Step

/-! ## The account of an entity -/

/-- The entities have the properties that these writes give them. -/
structure EntityStore.Accounts (s : EntityStore) (writes : List PropertyWrite) : Prop where
  numbered : s.Numbered
  properties : ∀ id, (s.get? id).map (·.properties) =
    Properties.gathered? (PropertyWrite.writtenTo id writes)

namespace EntityStore.Accounts

variable {s s' : EntityStore} {writes : List PropertyWrite}

theorem empty : Accounts {} [] := ⟨.empty, fun id => by simp [get?, PropertyWrite.writtenTo, Properties.gathered?]⟩

theorem relinked (h : s.Accounts writes) (same : s.Relinked s') : s'.Accounts writes := by
  obtain ⟨entities, -⟩ := same
  refine ⟨⟨?_, ?_⟩, fun id => ?_⟩
  · rw [entities]
    exact h.numbered.position
  · rw [entities]
    exact h.numbered.distinct
  · rw [get?, entities]
    exact h.properties id

theorem extend (h : s.Accounts writes) {id : EntityId} (present : (s.get? id).isSome)
    (label : Option String) (properties : Properties) :
    (s.extend id label properties).Accounts (writes ++ [⟨id, properties⟩]) := by
  refine ⟨h.numbered.extend id label properties, fun i => ?_⟩
  rw [get?_extend, PropertyWrite.writtenTo_append]
  by_cases same : i = id
  · obtain ⟨e, found⟩ := Option.isSome_iff_exists.mp present
    have before := h.properties id
    rw [found] at before
    have written : PropertyWrite.writtenTo id [⟨id, properties⟩] = [properties] := by
      simp [PropertyWrite.writtenTo]
    rw [if_pos same, same, found, written, Properties.gathered?_concat, ← before]
    rfl
  · have written : PropertyWrite.writtenTo i [⟨id, properties⟩] = [] := by
      simp [PropertyWrite.writtenTo, Ne.symm same]
    rw [if_neg same, written, List.append_nil]
    exact h.properties i

theorem create (h : s.Accounts writes) {type : EntityType} {element : ElementId} {kind : ElementKind}
    {label : Option String} {properties : Properties} (new : s.find? element = none) :
    (s.create type element kind label properties).2.Accounts (writes ++ [⟨⟨s.size⟩, properties⟩]) := by
  refine ⟨h.numbered.create type kind label properties new, fun i => ?_⟩
  obtain ⟨i⟩ := i
  rw [get?_create, PropertyWrite.writtenTo_append]
  by_cases same : i = s.size
  · have absent : s.get? ⟨i⟩ = none := by
      rw [get?, List.getElem?_eq_none_iff]
      exact Nat.le_of_eq same.symm
    have before := h.properties ⟨i⟩
    rw [absent] at before
    have written : PropertyWrite.writtenTo ⟨i⟩ [⟨⟨s.size⟩, properties⟩] = [properties] := by
      simp [PropertyWrite.writtenTo, same]
    rw [if_pos same, written, Properties.gathered?_concat, ← before]
    rfl
  · have written : PropertyWrite.writtenTo ⟨i⟩ [⟨⟨s.size⟩, properties⟩] = [] := by
      simp [PropertyWrite.writtenTo, Ne.symm same]
    rw [if_neg same, written, List.append_nil]
    exact h.properties ⟨i⟩

theorem register (h : s.Accounts writes) {type : EntityType} {element : ElementId} {kind : ElementKind}
    {label : Option String} {properties : Properties} {id : EntityId}
    (done : s.register type element kind label properties = .ok (id, s')) :
    s'.Accounts (writes ++ (s'.find? element).toList.map fun e => ⟨e.id, properties⟩) := by
  have numbered := h.numbered.register done
  have bound : ∀ {e}, s'.get? id = some e → e.element = element →
      (s'.find? element).toList.map (fun e => (⟨e.id, properties⟩ : PropertyWrite)) = [⟨id, properties⟩] := by
    intro e present same
    have number : e.id = id := congrArg EntityId.mk (numbered.position present)
    rw [numbered.find?_eq_some_iff.mpr ⟨List.mem_of_getElem? present, same⟩]
    simp [number]
  obtain ⟨e, found, -, rfl, rfl⟩ | ⟨new, -, rfl, rfl⟩ := register_cases done
  · obtain ⟨member, same⟩ := find?_eq_some_of_mem found
    have present := h.numbered.get? member
    rw [bound (e := extended e label properties) (by rw [get?_extend, if_pos rfl, present]; rfl) same]
    exact h.extend (by rw [present]; rfl) label properties
  · rw [bound (by rw [get?_create, if_pos rfl]) rfl]
    exact h.create new

theorem update (h : s.Accounts writes) {e : Entity} (member : e ∈ s.entities) (label : Option String)
    (properties : Properties) :
    (s.update e.id label properties).2.Accounts (writes ++ [⟨e.id, properties⟩]) := by
  have present := h.numbered.get? member
  obtain ⟨-, absent⟩ | extended := update_cases s e.id label properties
  · rw [present] at absent
    cases absent
  · rw [extended]
    exact h.extend (by rw [present]; rfl) label properties

end EntityStore.Accounts

theorem Model.enclosingEntity?_mem {m : Model} {id : ElementId} {type : EntityType} {e : Entity}
    (found : m.enclosingEntity? id type = some e) : e ∈ m.entities.entities := by
  obtain ⟨_, _, found⟩ := List.exists_of_findSome?_eq_some found
  exact (EntityStore.find?_eq_some_of_mem (Option.filter_eq_some_iff.mp found).1).1

namespace Step

theorem registerAs_accounts (type : EntityType) (template : Option String) (specs : List PropertySpec)
    (id : ElementId) {m : Model} {writes : List PropertyWrite} (h : m.entities.Accounts writes) :
    (registerAs type template specs id m).2.entities.Accounts
      (writes ++ registerWrites type template specs id m) := by
  unfold registerWrites
  obtain ⟨e, m', failed, same⟩ | ⟨kind, label, n, m', ran, -, done⟩ :=
    registerAs_cases type template specs id m
  · rw [failed]
    simpa [same] using h
  · rw [ran]
    exact h.register done

theorem updateFrom_accounts (type : EntityType) (template : Option String) (specs : List PropertySpec)
    (id : ElementId) {m : Model} {writes : List PropertyWrite} (h : m.entities.Accounts writes) :
    (updateFrom type template specs id m).2.entities.Accounts
      (writes ++ updateWrites type specs id m) := by
  unfold updateWrites
  obtain ⟨e, failed, absent⟩ | ⟨target, label, m', ran, found, done⟩ :=
    updateFrom_cases type template specs id m
  · rw [failed, absent]
    simpa using h
  · rw [ran, found]
    change m'.entities.Accounts (writes ++ [⟨target.id, propertiesOf specs id m⟩])
    rw [done]
    exact h.update (Model.enclosingEntity?_mem found) label _

theorem onEach_accounts {f : ElementId → ModelM Unit} {write : ElementId → Model → List PropertyWrite}
    (each : ∀ id {m writes}, m.entities.Accounts writes →
      (f id m).2.entities.Accounts (writes ++ write id m))
    (ids : List ElementId) {m : Model} {writes : List PropertyWrite} (h : m.entities.Accounts writes) :
    (onEach f ids m).2.entities.Accounts (writes ++ writesOfEach f write ids m) := by
  induction ids generalizing m writes with
  | nil => simpa [onEach, writesOfEach] using h
  | cons id rest ih =>
    have first := each id h
    simp only [onEach, writesOfEach, Operation.bind_apply]
    generalize f id m = outcome at first ⊢
    obtain ⟨result, m'⟩ := outcome
    cases result with
    | ok _ =>
      rw [← List.append_assoc]
      exact ih first
    | error e => simpa using first

theorem overElements_model (f : ElementId → ModelM Unit) (scope : Scope) (m : Model) :
    ((do let ids ← scope.expectElements; onEach f ids; return scope : ModelM Scope) m).2 =
      (onEach f scope.ids m).2 := by
  cases scope with
  | template => rfl
  | elements kind ids =>
    change ((onEach f ids >>= fun _ => pure _ : ModelM Scope) m).2 = _
    rw [Operation.bind_apply]
    split <;> rfl

theorem apply_accounts (s : Step) (scope : Scope) {m : Model} {writes : List PropertyWrite}
    (h : m.entities.Accounts writes) :
    (s.apply scope m).2.entities.Accounts (writes ++ s.writes scope m) := by
  cases s with
  | registerEntity type template specs =>
    rw [apply, overElements_model]
    exact onEach_accounts (registerAs_accounts type template specs) scope.ids h
  | updateEntity type template specs =>
    rw [apply, overElements_model]
    exact onEach_accounts (updateFrom_accounts type template specs) scope.ids h
  | associate parent key child =>
    have linked := onEach_keeps relinked_change (associateAt_relinked parent key child) scope.ids
    rw [apply, overElements_model]
    simpa only [Step.writes, List.append_nil] using h.relinked (linked m)
  | relate kind source target key backtrack =>
    have linked := CallScanner.relate_relinked m.index kind source target (key.getD kind.name) backtrack
      m.entities m.scanner
    simp only [Step.writes, List.append_nil]
    exact h.relinked linked
  | _ =>
    rw [selecting_keeps selection_entities scope rfl m]
    simpa only [Step.writes, List.append_nil] using h

/-! ## No value is empty -/

theorem propertiesOf_nonempty (specs : List PropertySpec) (id : ElementId) (m : Model) :
    ∀ p ∈ propertiesOf specs id m, p.2 ≠ [] := by
  unfold propertiesOf
  generalize m.index = ix
  generalize m.caches.resolver = r
  induction specs generalizing ix r with
  | nil => simp [PropertySpec.readAll]
  | cons spec rest ih =>
    intro p member
    simp only [PropertySpec.readAll] at member
    split at member
    · exact ih _ _ p member
    · next some =>
        rcases List.mem_cons.mp member with rfl | later
        · simpa using some
        · exact ih _ _ p later

theorem writesOfEach_forall {P : PropertyWrite → Prop} (f : ElementId → ModelM Unit)
    {write : ElementId → Model → List PropertyWrite} (each : ∀ id m, ∀ w ∈ write id m, P w)
    (ids : List ElementId) (m : Model) : ∀ w ∈ writesOfEach f write ids m, P w := by
  induction ids generalizing m with
  | nil => simp [writesOfEach]
  | cons id rest ih =>
    intro w member
    simp only [writesOfEach, List.mem_append] at member
    rcases member with first | later
    · exact each id m w first
    · split at later
      · exact ih _ w later
      · cases later

theorem writes_nonempty (s : Step) (scope : Scope) (m : Model) :
    ∀ w ∈ s.writes scope m, ∀ p ∈ w.properties, p.2 ≠ [] := by
  cases s with
  | registerEntity type template specs =>
    refine writesOfEach_forall _ (fun id m w member => ?_) scope.ids m
    unfold registerWrites at member
    split at member
    · obtain ⟨e, -, rfl⟩ := List.mem_map.mp member
      exact propertiesOf_nonempty specs id m
    · cases member
  | updateEntity type template specs =>
    refine writesOfEach_forall _ (fun id m w member => ?_) scope.ids m
    obtain ⟨e, -, rfl⟩ := List.mem_map.mp member
    exact propertiesOf_nonempty specs id m
  | _ => simp [Step.writes]

end Step

/-! ## Runs -/

namespace Pipeline

def propertyWrites (settings : Settings) (classes : List ClassDeclaration) (p : Pipeline) :
    List PropertyWrite :=
  (p.action.stepCalls .template (.ofClasses settings classes)).flatMap fun c =>
    c.step.writes c.scope c.model

theorem run_accounts {settings : Settings} {classes : List ClassDeclaration} {p : Pipeline} {r : RunResult}
    (ran : p.run settings classes = .ok r) :
    r.entities.Accounts (p.propertyWrites settings classes) := by
  have history : History fun m calls m' => ∀ writes, m.entities.Accounts writes →
      m'.entities.Accounts (writes ++ calls.flatMap fun c => c.step.writes c.scope c.model) :=
    ⟨fun m writes h => by simpa using h, fun first second writes h => by
      rw [List.flatMap_append, ← List.append_assoc]
      exact second _ (first writes h)⟩
  have whole := Action.execute_follows history
    (fun s scope m writes h => by simpa using s.apply_accounts scope h)
    (fun p ids m writes h => by
      rw [Step.splitIn_keeps Step.selection_entities p ids m]
      simpa using h)
    p.action .template (.ofClasses settings classes) [] .empty
  unfold run at ran
  split at ran
  · next out e done =>
      cases ran
      rw [done] at whole
      exact whole
  · cases ran

theorem propertyWrites_nonempty (settings : Settings) (classes : List ClassDeclaration) (p : Pipeline) :
    ∀ w ∈ p.propertyWrites settings classes, ∀ q ∈ w.properties, q.2 ≠ [] := by
  intro w member
  obtain ⟨c, -, written⟩ := List.mem_flatMap.mp member
  exact c.step.writes_nonempty c.scope c.model w written

end Pipeline

/-- Under a key, the snapshot of a run shows all values that were written to an entity, in the order of
    writing, if and only if the first write to the entity does not repeat the key. If it does, the last
    list of the first write is shown and the other values are lost. -/
theorem snapshot_shows_all_values_iff (settings : Settings) (classes : List ClassDeclaration)
    (p : Pipeline) {r : RunResult} (ran : p.run settings classes = .ok r) {record : EntityRecord}
    (member : record ∈ r.snapshot.entities) (key : String) :
    ∃ first later,
      PropertyWrite.writtenTo record.id (p.propertyWrites settings classes) = first :: later ∧
      ((Ordered.get? key record.properties).getD [] =
          (first :: later).flatMap (Properties.valuesUnder key) ↔
        (Properties.listsUnder key first).length ≤ 1) ∧
      (1 < (Properties.listsUnder key first).length →
        Ordered.get? key record.properties = (Properties.listsUnder key first).getLast?) := by
  have accounts := Pipeline.run_accounts ran
  obtain ⟨e, inside, rfl⟩ := List.mem_map.mp member
  have account := accounts.properties e.id
  rw [accounts.numbered.get? inside] at account
  have shown : Ordered.get? key (EntityRecord.ofEntity r.entities e).properties =
      (Properties.listsUnder key e.properties).getLast? := Ordered.get?_byName key e.properties
  change ∃ first later, PropertyWrite.writtenTo e.id _ = _ ∧ _
  cases written : PropertyWrite.writtenTo e.id (p.propertyWrites settings classes) with
  | nil =>
      rw [written] at account
      cases account
  | cons first later =>
      rw [written] at account
      have gathered : e.properties = later.foldl Properties.mergeAll first := Option.some.inj account
      have nonempty : ∀ list ∈ Properties.listsUnder key first, list ≠ [] := by
        intro list listed
        obtain ⟨q, under, rfl⟩ := List.mem_map.mp listed
        have among : first ∈ PropertyWrite.writtenTo e.id (p.propertyWrites settings classes) := by
          rw [written]
          exact List.mem_cons_self
        obtain ⟨w, write, rfl⟩ := List.mem_map.mp among
        exact p.propertyWrites_nonempty settings classes w (List.mem_of_mem_filter write) q
          (List.mem_of_mem_filter under)
      refine ⟨first, later, rfl, ⟨fun all => ?_, fun single => ?_⟩, fun several => ?_⟩
      · by_contra several
        rw [not_le] at several
        have less := Properties.getLast?_ne_flatten several nonempty
        rw [shown, gathered, Properties.getLast?_gathered several] at all
        rw [all, List.flatMap_cons, List.length_append] at less
        exact absurd less (by simp [Properties.valuesUnder])
      · obtain ⟨shape, all⟩ := Properties.valuesUnder_gathered single later
        rw [shown, ← all, gathered, Properties.valuesUnder]
        generalize Properties.listsUnder key (later.foldl Properties.mergeAll first) = lists at shape ⊢
        match lists with
        | [] => rfl
        | [list] => simp
      · rw [shown, gathered, Properties.getLast?_gathered several]

/-! ## A key given twice at first -/

namespace RepeatedKey

/-- Registers a class with two values under one key. -/
def pipeline : Pipeline :=
  { name := "repeated"
    action := .chain [.step .classes, .step (.registerEntity "node" none
      [⟨"k", .literal (.str "x")⟩, ⟨"k", .literal (.str "y")⟩])] }

def classes : List ClassDeclaration := [{ name := "a/A" }]

/-- The first of the two values is not shown. -/
theorem first_value_lost : ∃ r record, pipeline.run {} classes = .ok r ∧ record ∈ r.snapshot.entities ∧
    (Ordered.get? "k" record.properties).getD [] ≠
      (PropertyWrite.writtenTo record.id (pipeline.propertyWrites {} classes)).flatMap
        (Properties.valuesUnder "k") := by
  have numbers : (match pipeline.run {} classes with
      | .ok r => r.snapshot.entities.map (·.id)
      | .error _ => []) = [⟨0⟩] := by decide +kernel
  have written : PropertyWrite.writtenTo ⟨0⟩ (pipeline.propertyWrites {} classes) =
      [[("k", [.text "x"]), ("k", [.text "y"])]] := by decide +kernel
  cases ran : pipeline.run {} classes with
  | error failure =>
      rw [ran] at numbers
      cases numbers
  | ok r =>
      rw [ran] at numbers
      obtain ⟨record, member, number⟩ := List.mem_map.mp (numbers ▸ List.mem_singleton_self _)
      obtain ⟨first, later, given, shown, -⟩ := snapshot_shows_all_values_iff {} classes pipeline ran member "k"
      refine ⟨r, record, rfl, member, fun all => ?_⟩
      rw [given] at all
      have single := shown.mp all
      rw [number, written] at given
      cases given
      exact absurd single (by decide)

end RepeatedKey

end ClassAtlas
