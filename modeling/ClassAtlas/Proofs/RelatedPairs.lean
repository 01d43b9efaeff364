import ClassAtlas.Proofs.Discovery

/-! # The pairs that relating links

Relating adds a link for every pair of a source and a target that the instructions lead from one to the
other, and no other link. A called method counts for its class as well as for itself; a scanner leaves its
class out when the method is a target of its own, which makes no difference where the entities of one type
stand for elements of one kind.
-/

namespace ClassAtlas

/-! ## What the instructions say -/

/-- Calls lead from the methods of an element to a target: its class is instantiated or named as the owner of
    a call, or the target is a method that is called, or its class has a method that is called. The methods
    to leave out count for themselves only. -/
def ElementIndex.Concerns (ix : ElementIndex) (followLambdas : Bool) (leaveOut : ElementId → Prop)
    (source target : ElementId) : RelationKind → Prop
  | .instantiates => ∃ root m, ix.StandsFor root source ∧
      Relation.ReflTransGen (ix.CallsMethod followLambdas) root m ∧ ix.Instantiates m target
  | .invokes =>
    (∃ root m, ix.StandsFor root source ∧ Relation.TransGen (ix.CallsMethod followLambdas) root m ∧
      (m = target ∨ ¬leaveOut m ∧ ix.MethodOf m target)) ∨
    ∃ root m, ix.StandsFor root source ∧ Relation.ReflTransGen (ix.CallsMethod followLambdas) root m ∧
      ix.NamesReceiver m target

namespace CallScanner

variable {ix : ElementIndex} {r : SignatureResolver} {followLambdas : Bool} {store : EntityStore} {key : String}
  {backtrack : Bool}

theorem matches_iff_concerns (coherent : ix.Coherent r) (listed : ix.Listed) (followLambdas : Bool)
    (targets : List Entity) (source : ElementId) (target : Entity) (kind : RelationKind) :
    Matches ix (DirectUses.ofMethod ix followLambdas) targets source target kind ↔
      ix.Concerns followLambdas (fun m => ∃ t ∈ targets, t.element = m) source target.element kind := by
  cases kind with
  | instantiates =>
    simp only [Matches, ElementIndex.Concerns, calls_ofMethod, DirectUses.mem_instantiated,
      mem_roots coherent listed, exists_and_left]
  | invokes =>
    simp only [Matches, ElementIndex.Concerns, calls_ofMethod, DirectUses.mem_receivers,
      mem_roots coherent listed, not_exists, not_and, exists_and_left]

theorem concerns_leaveOut (coherent : ix.Coherent r) (kinded : store.KindedIn ix) (type : EntityType)
    {source : ElementId} {target : Entity} (member : target ∈ store.ofType type) (kind : RelationKind) :
    ix.Concerns followLambdas (fun m => ∃ t ∈ store.ofType type, t.element = m) source target.element kind ↔
      ix.Concerns followLambdas (fun _ => False) source target.element kind := by
  have alone {m : ElementId} (seen : ix.MethodOf m target.element) :
      ¬∃ t ∈ store.ofType type, t.element = m := by
    rintro ⟨t, also, rfl⟩
    obtain ⟨declaring, position, origin, stored⟩ := seen
    obtain ⟨seenFrom, owner, -⟩ := coherent.identified.members stored
    obtain ⟨entity, ofType⟩ := List.mem_filter.mp member
    obtain ⟨entity', ofType'⟩ := List.mem_filter.mp also
    have same : target.type = t.type := by
      rw [beq_iff_eq] at ofType ofType'
      exact ofType.trans ofType'.symm
    obtain ⟨k, known, given⟩ := kinded target entity
    obtain ⟨k', known', given'⟩ := kinded t entity'
    rw [ElementIndex.kind?, owner] at known
    rw [ElementIndex.kind?, stored] at known'
    rw [same, given'] at given
    cases known
    cases known'
    cases given
  cases kind with
  | instantiates => rfl
  | invokes =>
    simp only [ElementIndex.Concerns, not_false_iff, true_and]
    refine or_congr_left (exists_congr fun root => exists_congr fun m => ?_)
    refine and_congr_right fun _ => and_congr_right fun _ => or_congr_right ?_
    exact ⟨fun h => h.2, fun seen => ⟨alone seen, seen⟩⟩

/-! ## Links that are there already -/

theorem addChild_present {parent child : EntityId} (present : ⟨parent, key, child⟩ ∈ store.edges) :
    store.addChild parent key child = (false, store) := by
  simp [EntityStore.addChild, present]

theorem link_present {source : EntityId} {targets : List EntityId}
    (all : ∀ t ∈ targets, ∀ edge, IsLink source t key backtrack edge → edge ∈ store.edges) (count : Nat) :
    link source key backtrack targets count store = (count, store) := by
  induction targets with
  | nil => rfl
  | cons t rest ih =>
    have later := ih fun t member => all t (List.mem_cons_of_mem _ member)
    rw [link]
    split
    · exact later
    · next different =>
        have forth := all t List.mem_cons_self _ ⟨Ne.symm different, .inl rfl⟩
        rw [addChild_present forth]
        cases backtrack with
        | false => exact later
        | true =>
          have back := all t List.mem_cons_self _ ⟨Ne.symm different, .inr ⟨rfl, rfl⟩⟩
          simp only [if_true, addChild_present back, Bool.false_eq_true, if_false]
          exact later

theorem linkAll_present {targets : List Entity} {kind : RelationKind}
    (distinct : ∀ a ∈ targets, ∀ b ∈ targets, a.element = b.element → a = b) {sources : List Entity}
    {s : CallScanner} (coherent : Coherent ix s)
    (all : ∀ e ∈ sources, ∀ t ∈ targets, Matches ix (s.usesNow ix) targets e.element t kind →
      ∀ edge, IsLink e.id t.id key backtrack edge → edge ∈ store.edges) (count : Nat) :
    (linkAll ix (targetTable targets) kind key backtrack sources count store s).1 = count ∧
      (linkAll ix (targetTable targets) kind key backtrack sources count store s).2.1 = store := by
  induction sources generalizing s with
  | nil => exact ⟨rfl, rfl⟩
  | cons e rest ih =>
    obtain ⟨reached, asked⟩ := reachAll_reached (roots ix e.element) {} coherent fun _ => roots_known
    have there := link_present (fun id picked edge made => by
      obtain ⟨t, member, rfl, matching⟩ := (mem_relatedEntities distinct reached kind).mp picked
      exact all e List.mem_cons_self t member matching edge made) count
    simp only [linkAll, there]
    exact ih asked.coherent fun e member t => by
      rw [asked.uses]
      exact all e (List.mem_cons_of_mem _ member) t

theorem relate_again (numbered : store.Numbered) {s : CallScanner} (coherent : Coherent ix s) (kind : RelationKind)
    (source target : EntityType) (key : String) (backtrack : Bool) :
    let after := s.relate ix kind source target key backtrack store
    (after.2.2.relate ix kind source target key backtrack after.2.1).1 = 0 ∧
      (after.2.2.relate ix kind source target key backtrack after.2.1).2.1 = after.2.1 := by
  intro after
  obtain ⟨links, asked⟩ := relate_links numbered coherent kind source target key backtrack
  have numbered' := numbered.evolves links.evolves
  have sameType (type : EntityType) : after.2.1.ofType type = store.ofType type := by
    rw [EntityStore.ofType, EntityStore.ofType, links.entities]
  have distinct : ∀ a ∈ store.ofType target, ∀ b ∈ store.ofType target, a.element = b.element → a = b :=
    fun a ha b hb => numbered.eq_of_element (List.mem_of_mem_filter ha) (List.mem_of_mem_filter hb)
  conv => enter [1, 1]; unfold relate
  conv => enter [2, 1]; unfold relate
  simp only [sameType]
  split
  · exact ⟨rfl, rfl⟩
  · refine linkAll_present distinct asked.coherent (fun e member t member' matching edge made => ?_) 0
    rw [asked.uses] at matching
    exact (links.edges edge).mpr (.inr ⟨e, member, t, member', matching, made⟩)

/-- A store has the links of another, and those between the pairs that a relation gives. -/
def AddsLinks (sources targets : List Entity) (Related : Entity → Entity → Prop) (key : String)
    (backtrack : Bool) (store store' : EntityStore) : Prop :=
  ∀ edge, edge ∈ store'.edges ↔ edge ∈ store.edges ∨ ∃ s ∈ sources, ∃ t ∈ targets,
    Related s t ∧ IsLink s.id t.id key backtrack edge

theorem AddsLinks.congr {sources targets : List Entity} {R R' : Entity → Entity → Prop}
    {store store' : EntityStore} (h : AddsLinks sources targets R key backtrack store store')
    (same : ∀ s, ∀ t ∈ targets, R s t ↔ R' s t) : AddsLinks sources targets R' key backtrack store store' := by
  intro edge
  rw [h edge]
  refine or_congr_right (exists_congr fun s => and_congr_right fun _ => exists_congr fun t => ?_)
  exact and_congr_right fun member => and_congr_left fun _ => same s t member

theorem relate_addsLinks (coherent : ix.Coherent r) (listed : ix.Listed) (numbered : store.Numbered)
    (asked : List ElementId) (followLambdas : Bool) (kind : RelationKind) (source target : EntityType)
    (key : String) (backtrack : Bool) :
    AddsLinks (store.ofType source) (store.ofType target)
      (fun s t => ix.Concerns followLambdas (fun m => ∃ t ∈ store.ofType target, t.element = m) s.element
        t.element kind) key backtrack store
      ((CallScanner.reachableEach ix asked { followLambdas := followLambdas }).2.relate ix kind source target key
        backtrack store).2.1 := by
  obtain ⟨-, noted, uses⟩ := reachableEach_closure (Coherent.fresh ix followLambdas) asked
  obtain ⟨links, -⟩ := relate_links numbered noted kind source target key backtrack
  refine AddsLinks.congr links.edges fun s t _ => ?_
  rw [uses, usesNow_fresh]
  exact matches_iff_concerns coherent listed followLambdas (store.ofType target) s.element t kind

/-- Relating in any state of an index, with any entities and with a scanner that was used on this index
    only. Entities stay, links are added for the related pairs and for no others, none twice, and relating
    again adds none. Kinds in the store are those of the index throughout every run. -/
theorem relate_links_related_pairs (classes : List ClassDeclaration) (ops : List IndexOperation)
    (requests : List EntityStore.Request) (asked : List ElementId) (followLambdas : Bool) (kind : RelationKind)
    (source target : EntityType) (key : String) (backtrack : Bool) :
    let ix := (IndexState.after classes ops).index
    let store := EntityStore.performAll .empty requests
    let scanner := (CallScanner.reachableEach ix asked { followLambdas := followLambdas }).2
    let after := scanner.relate ix kind source target key backtrack store
    let sources := store.ofType source
    let targets := store.ofType target
    (store.Relinked after.2.1 ∧ after.2.1.edges.Nodup) ∧
      (store.KindedIn ix → AddsLinks sources targets
        (fun s t => ix.Concerns followLambdas (fun _ => False) s.element t.element kind) key backtrack
        store after.2.1) ∧
      AddsLinks sources targets
        (fun s t => ix.Concerns followLambdas (fun m => ∃ t ∈ targets, t.element = m) s.element t.element kind)
        key backtrack store after.2.1 ∧
      ((after.2.2.relate ix kind source target key backtrack after.2.1).1 = 0 ∧
        (after.2.2.relate ix kind source target key backtrack after.2.1).2.1 = after.2.1) ∧
      ∀ settings (p : Pipeline) c, ActionCall.Reaches ⟨p.action, .template, .ofClasses settings classes⟩ c →
        c.start.model.entities.KindedIn c.start.model.index := by
  intro ix store scanner after sources targets
  have coherent : ix.Coherent _ := (IndexState.after_accepted classes ops).2.1
  have listed : ix.Listed := IndexState.after_listed classes ops
  have intact : store.Intact := EntityStore.Intact.empty.evolves (EntityStore.performAll_evolves _ requests)
  obtain ⟨-, noted, -⟩ := reachableEach_closure (Coherent.fresh ix followLambdas) asked
  obtain ⟨links, -⟩ := relate_links intact.toNumbered noted kind source target key backtrack
  have exact := relate_addsLinks coherent listed intact.toNumbered asked followLambdas kind source target key backtrack
  refine ⟨⟨relate_relinked ix kind source target key backtrack store scanner,
      (intact.evolves links.evolves).once⟩,
    fun kinded => exact.congr fun s t member => concerns_leaveOut coherent kinded target member kind, exact,
    relate_again intact.toNumbered noted kind source target key backtrack, fun settings p c reached => ?_⟩
  have ready : Scope.template.Ready (.ofClasses settings classes) :=
    ⟨Model.ofClasses_sound settings classes, .template _⟩
  exact (reached.ready ready).sound.entities

end CallScanner

/-! ## Two classes that call each other -/

namespace CallCycle

/-- The method of each class calls that of the other. -/
def classes : List ClassDeclaration :=
  [{ name := "a/A", methods := [{ name := "m", desc := "()V", instructions := [.invoke .virtual "a/B" "n" "()V"] }] },
   { name := "a/B", methods := [{ name := "n", desc := "()V", instructions := [.invoke .virtual "a/A" "m" "()V"] }] }]

def index : ElementIndex := (IndexState.after classes []).index

def requests : List EntityStore.Request :=
  [.register "node" ⟨1⟩ .classDef none [], .register "node" ⟨3⟩ .classDef none []]

def store : EntityStore := EntityStore.performAll .empty requests

def scanner : CallScanner := (CallScanner.reachableEach index [⟨4⟩] {}).2

def actions : List Action :=
  [.step .classes, .step (.registerEntity "node" none []), .step (.relate .invokes "node" "node" none true)]

def relating : ActionCall where
  action := .step (.relate .invokes "node" "node" none true)
  scope := .elements (.elements .classDef) [⟨1⟩, ⟨3⟩]
  start := (Action.executeAll (actions.take 2) .template
    ((Execution.ofClasses {} classes).enter (Action.chain actions).describe .template)).2

theorem one_link_each_way :
    let after := scanner.relate index .invokes "node" "node" "invokes" true store
    store.KindedIn index ∧
      index.Concerns true (fun _ => False) ⟨1⟩ ⟨3⟩ .invokes ∧
      ⟨⟨0⟩, "invokes", ⟨1⟩⟩ ∈ after.2.1.edges ∧ after.2.1.edges.length = 4 ∧ after.2.1.edges.Nodup ∧
      (after.2.2.relate index .invokes "node" "node" "invokes" true after.2.1).1 = 0 ∧
      ActionCall.Reaches ⟨.chain actions, .template, .ofClasses {} classes⟩ relating ∧
      relating.start.model.entities.KindedIn relating.start.model.index := by
  intro after
  obtain ⟨⟨-, once⟩, pairs, -, ⟨again, -⟩, runs⟩ := CallScanner.relate_links_related_pairs classes [] requests [⟨4⟩] true
    .invokes "node" "node" "invokes" true
  have kinded : store.KindedIn index := by
    intro e member
    refine ⟨.classDef, ?_⟩
    have all : ∀ e ∈ store.entities, index.kind? e.element = some .classDef ∧
        store.kindOf? e.type = some .classDef := by decide +kernel
    exact all e member
  have concerned : index.Concerns true (fun _ => False) ⟨1⟩ ⟨3⟩ .invokes := by
    refine .inl ⟨⟨2⟩, ⟨4⟩, .inr ⟨0, _, 0, by decide +kernel, rfl, by decide +kernel, by decide +kernel⟩,
      .single (.invoked ⟨_, _, rfl, List.mem_singleton_self _⟩ (by decide +kernel)), .inr ⟨not_false, 1, 0, none, ?_⟩⟩
    decide +kernel
  have entities : store.ofType "node" = [⟨⟨0⟩, "node", "", ⟨1⟩, []⟩, ⟨⟨1⟩, "node", "", ⟨3⟩, []⟩] := by
    rfl
  have linked : ⟨⟨0⟩, "invokes", ⟨1⟩⟩ ∈ after.2.1.edges := by
    refine (pairs kinded _).mpr (.inr ⟨⟨⟨0⟩, "node", "", ⟨1⟩, []⟩, ?_, ⟨⟨1⟩, "node", "", ⟨3⟩, []⟩, ?_, concerned,
      by decide, .inl rfl⟩)
    · exact entities ▸ List.mem_cons_self
    · exact entities ▸ List.mem_cons_of_mem _ (List.mem_singleton_self _)
  have done : (Action.executeAll (actions.take 2) .template
      ((Execution.ofClasses {} classes).enter (Action.chain actions).describe .template)).1 =
        .ok relating.scope := by decide +kernel
  have reached : ActionCall.Reaches ⟨.chain actions, .template, .ofClasses {} classes⟩ relating :=
    .single (.chain (.after done))
  exact ⟨kinded, concerned, linked, by decide +kernel, once, again, reached,
    runs {} { name := "cycle", action := .chain actions } relating reached⟩

end CallCycle

end ClassAtlas
