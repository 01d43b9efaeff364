import ClassAtlas.Proofs.Entities
import ClassAtlas.Proofs.Reachability
import ClassAtlas.Proofs.Runs

/-! # Relating entities

Which links relating makes. Sources are linked to what their methods reach by the calls as the scanner
sees them, so a method that was scanned before counts as it was then. Relating misses a pair of the
index as it stands when, and only when, the calls that the scanner remembers do not give it.
-/

namespace ClassAtlas

def ElementIndex.MethodOf (ix : ElementIndex) (method cls : ElementId) : Prop :=
  ∃ declaring position origin, ix.get? method = some (.member .method declaring position cls origin)

namespace CallScanner

/-- What several starts reach together. -/
structure ReachedFrom (uses : ElementId → DirectUses) (starts : List ElementId) (acc r : Reach) :
    Prop where
  methods : ∀ m, m ∈ r.methods ↔
    m ∈ acc.methods ∨ ∃ root ∈ starts, Relation.TransGen (Calls uses) root m
  instantiated : ∀ c, c ∈ r.instantiated ↔ c ∈ acc.instantiated ∨
    ∃ root ∈ starts, ∃ m, Relation.ReflTransGen (Calls uses) root m ∧ c ∈ (uses m).instantiated
  receivers : ∀ c, c ∈ r.receivers ↔ c ∈ acc.receivers ∨
    ∃ root ∈ starts, ∃ m, Relation.ReflTransGen (Calls uses) root m ∧ c ∈ (uses m).receivers

section Collecting

variable {ix : ElementIndex} {s s' s'' : CallScanner}

theorem Asked.refl (coherent : Coherent ix s) : Asked ix none s s :=
  ⟨coherent, rfl, rfl, fun _ => .inl⟩

theorem Asked.trans (h : Asked ix none s s') (h' : Asked ix none s' s'') : Asked ix none s s'' where
  coherent := h'.coherent
  uses := h'.uses.trans h.uses
  followLambdas := h'.followLambdas.trans h.followLambdas
  scanned m new := (h'.scanned m new).elim (h.scanned m) .inr

theorem Asked.known {start : ElementId} (h : Asked ix (some start) s s') (known : start ∈ ix.ids) :
    Asked ix none s s' := by
  refine ⟨h.coherent, h.uses, h.followLambdas, fun m new => ?_⟩
  rcases h.scanned m new with before | same | element
  · exact .inl before
  · cases same
    exact .inr (.inr known)
  · exact .inr (.inr element)

theorem ReachedFrom.step {uses : ElementId → DirectUses} {start : ElementId} {rest : List ElementId}
    {acc r next : Reach} (closure : next.IsClosure uses start)
    (h : ReachedFrom uses rest (acc.merge next) r) : ReachedFrom uses (start :: rest) acc r where
  methods m := by
    rw [h.methods, Reach.merge, Reach.mem_addIds, closure.methods]
    simp only [List.exists_mem_cons_iff]
    rw [or_assoc, or_left_comm]
  instantiated c := by
    rw [h.instantiated, Reach.merge, Reach.mem_addIds, closure.instantiated]
    simp only [List.exists_mem_cons_iff, closure.mem_or_start]
    rw [or_assoc, or_left_comm]
  receivers c := by
    rw [h.receivers, Reach.merge, Reach.mem_addIds, closure.receivers]
    simp only [List.exists_mem_cons_iff, closure.mem_or_start]
    rw [or_assoc, or_left_comm]

theorem reachAll_reached (starts : List ElementId) (acc : Reach) (coherent : Coherent ix s)
    (known : ∀ start ∈ starts, start ∈ ix.ids) :
    ReachedFrom (s.usesNow ix) starts acc (s.reachAll ix starts acc).1 ∧
      Asked ix none s (s.reachAll ix starts acc).2 := by
  induction starts generalizing acc s with
  | nil => exact ⟨⟨by simp [reachAll], by simp [reachAll], by simp [reachAll]⟩, .refl coherent⟩
  | cons start rest ih =>
    obtain ⟨closure, asked⟩ := reachable_closure coherent start
    obtain ⟨reached, asked'⟩ := ih (acc.merge (s.reachable ix start).1) asked.coherent
      fun start h => known start (List.mem_cons_of_mem _ h)
    rw [asked.uses] at reached
    exact ⟨reached.step closure, (asked.known (known start List.mem_cons_self)).trans asked'⟩

theorem roots_known {source root : ElementId} (member : root ∈ roots ix source) : root ∈ ix.ids := by
  have method : ix.kind? root = some .method := by
    unfold roots at member
    split at member
    · next method => rwa [List.mem_singleton.mp member]
    · simpa using (List.mem_filter.mp member).2
    · cases member
  obtain ⟨element, found, -⟩ := Option.map_eq_some_iff.mp method
  exact ElementIndex.mem_ids.mpr (by rw [found]; rfl)

end Collecting

/-! ## Which pairs match -/

/-- Calls lead from an element's methods to a target. The target's class is instantiated, or it is
    named as the owner of a call, or one of its methods is called that is no target itself; or the
    target is a method and is called. -/
def Matches (ix : ElementIndex) (uses : ElementId → DirectUses) (targets : List Entity)
    (source : ElementId) (target : Entity) : RelationKind → Prop
  | .instantiates => ∃ root ∈ roots ix source, ∃ m,
      Relation.ReflTransGen (Calls uses) root m ∧ target.element ∈ (uses m).instantiated
  | .invokes =>
    (∃ root ∈ roots ix source, ∃ m, Relation.TransGen (Calls uses) root m ∧
      (m = target.element ∨
        (∀ t ∈ targets, t.element ≠ m) ∧ ix.MethodOf m target.element)) ∨
    ∃ root ∈ roots ix source, ∃ m,
      Relation.ReflTransGen (Calls uses) root m ∧ target.element ∈ (uses m).receivers

def targetTable (targets : List Entity) : List (ElementId × EntityId) :=
  targets.map fun e => (e.element, e.id)

section Matching

variable {ix : ElementIndex} {uses : ElementId → DirectUses} {targets : List Entity} {id : EntityId}

theorem get?_targetTable (distinct : ∀ a ∈ targets, ∀ b ∈ targets, a.element = b.element → a = b) {c : ElementId} :
    Ordered.get? c (targetTable targets) = some id ↔ ∃ t ∈ targets, t.element = c ∧ t.id = id := by
  unfold Ordered.get? targetTable
  rw [List.find?_map, Option.map_map]
  constructor
  · intro found
    obtain ⟨t, first, rfl⟩ := Option.map_eq_some_iff.mp found
    exact ⟨t, List.mem_of_find?_eq_some first, by simpa using List.find?_some first, rfl⟩
  · rintro ⟨t, member, rfl, rfl⟩
    cases found : targets.find? ((fun x : ElementId × EntityId => x.1 == t.element) ∘
        fun e => (e.element, e.id)) with
    | none => simpa using List.find?_eq_none.mp found t member
    | some t' =>
      have same : t'.element = t.element := by simpa using List.find?_some found
      rw [distinct t' (List.mem_of_find?_eq_some found) t member same]
      rfl

theorem get?_targetTable_none {c : ElementId} :
    Ordered.get? c (targetTable targets) = none ↔ ∀ t ∈ targets, t.element ≠ c := by
  simp [Ordered.get?, targetTable]

def calledTarget (ix : ElementIndex) (table : List (ElementId × EntityId)) (m : ElementId) :
    Option EntityId :=
  match Ordered.get? m table with
  | some t => some t
  | none =>
    match ix.get? m with
    | some (.member .method _ _ owner _) => Ordered.get? owner table
    | _ => none

theorem calledTarget_eq_some (distinct : ∀ a ∈ targets, ∀ b ∈ targets, a.element = b.element → a = b)
    {m : ElementId} :
    calledTarget ix (targetTable targets) m = some id ↔ ∃ t ∈ targets, t.id = id ∧
      (m = t.element ∨ (∀ t ∈ targets, t.element ≠ m) ∧ ix.MethodOf m t.element) := by
  unfold calledTarget
  cases own : Ordered.get? m (targetTable targets) with
  | some id' =>
    obtain ⟨t', member', rfl, rfl⟩ := (get?_targetTable distinct).mp own
    simp only [Option.some.injEq]
    constructor
    · rintro rfl
      exact ⟨t', member', rfl, .inl rfl⟩
    · rintro ⟨t, member, rfl, same | ⟨noTarget, -⟩⟩
      · rw [distinct t' member' t member same]
      · exact absurd rfl (noTarget t' member')
  | none =>
    have noTarget := get?_targetTable_none.mp own
    simp only
    split
    · next owner _ element =>
        rw [get?_targetTable distinct]
        constructor
        · rintro ⟨t, member, rfl, rfl⟩
          exact ⟨t, member, rfl, .inr ⟨noTarget, _, _, _, element⟩⟩
        · rintro ⟨t, member, rfl, same | ⟨-, declaring, position, origin, seen⟩⟩
          · exact absurd same.symm (noTarget t member)
          · rw [element] at seen
            cases seen
            exact ⟨t, member, rfl, rfl⟩
    · next noMethod =>
        constructor
        · intro absurdity
          cases absurdity
        · rintro ⟨t, member, rfl, same | ⟨-, declaring, position, origin, seen⟩⟩
          · exact absurd same.symm (noTarget t member)
          · exact absurd seen (noMethod _ _ _ _)

theorem mem_targetsAmong (distinct : ∀ a ∈ targets, ∀ b ∈ targets, a.element = b.element → a = b)
    {cs : List ElementId} :
    id ∈ cs.filterMap (Ordered.get? · (targetTable targets)) ↔ ∃ t ∈ targets, t.id = id ∧ t.element ∈ cs := by
  simp only [List.mem_filterMap, get?_targetTable distinct]
  constructor
  · rintro ⟨_, member, t, inside, rfl, rfl⟩
    exact ⟨t, inside, rfl, member⟩
  · rintro ⟨t, inside, rfl, member⟩
    exact ⟨_, member, t, inside, rfl, rfl⟩

theorem mem_relatedEntities (distinct : ∀ a ∈ targets, ∀ b ∈ targets, a.element = b.element → a = b)
    {source : ElementId} {r : Reach} (reached : ReachedFrom uses (roots ix source) {} r) (kind : RelationKind) :
    id ∈ relatedEntities ix (targetTable targets) kind r ↔
      ∃ t ∈ targets, t.id = id ∧ Matches ix uses targets source t kind := by
  unfold relatedEntities
  rw [Ordered.mem_addAll EntityId.before_strict]
  cases kind with
  | instantiates =>
    simp only [List.not_mem_nil, or_false]
    rw [mem_targetsAmong distinct]
    simp only [reached.instantiated, List.not_mem_nil, false_or, Matches]
  | invokes =>
    have called : ∀ {m}, calledTarget ix (targetTable targets) m = some id ↔ _ :=
      calledTarget_eq_some distinct
    simp only [List.not_mem_nil, or_false, List.mem_append]
    rw [mem_targetsAmong distinct]
    change (id ∈ r.methods.filterMap (calledTarget ix (targetTable targets)) ∨ _) ↔ _
    simp only [List.mem_filterMap, called, reached.methods, reached.receivers, List.not_mem_nil,
      false_or, Matches]
    constructor
    · rintro (⟨m, ⟨root, start, path⟩, t, member, number, how⟩ | ⟨t, member, number, names⟩)
      · exact ⟨t, member, number, .inl ⟨root, start, m, path, how⟩⟩
      · exact ⟨t, member, number, .inr names⟩
    · rintro ⟨t, member, number, ⟨root, start, m, path, how⟩ | names⟩
      · exact .inl ⟨m, ⟨root, start, path⟩, t, member, number, how⟩
      · exact .inr ⟨t, member, number, names⟩

end Matching

/-! ## Which links are made -/

/-- A link that relating makes between a source and a matching target, or back. -/
def IsLink (source target : EntityId) (key : String) (backtrack : Bool) (r : Relation) : Prop :=
  source ≠ target ∧
    (r = ⟨source, key, target⟩ ∨ backtrack = true ∧ r = ⟨target, backtrackKey, source⟩)

section Linking

variable {source : EntityId} {key : String} {backtrack : Bool}

section

variable {R : EntityStore → EntityStore → Prop} (linking : EntityStore.Linking R)
include linking

theorem link_keeps (source : EntityId) (key : String) (backtrack : Bool) (targets : List EntityId)
    (count : Nat) (store : EntityStore) : R store (link source key backtrack targets count store).2 := by
  induction targets generalizing count store with
  | nil => exact linking.refl store
  | cons target rest ih =>
    simp only [link]
    split
    · exact ih _ _
    · refine linking.trans (linking.links store source key target) (linking.trans ?_ (ih _ _))
      split
      · exact linking.links _ target backtrackKey source
      · exact linking.refl _

theorem linkAll_keeps (ix : ElementIndex) (targets : List (ElementId × EntityId)) (kind : RelationKind)
    (key : String) (backtrack : Bool) (sources : List Entity) (count : Nat) (store : EntityStore)
    (s : CallScanner) : R store (linkAll ix targets kind key backtrack sources count store s).2.1 := by
  induction sources generalizing count store s with
  | nil => exact linking.refl store
  | cons source rest ih => exact linking.trans (link_keeps linking _ _ _ _ _ store) (ih _ _ _)

theorem relate_keeps (ix : ElementIndex) (kind : RelationKind) (source target : EntityType)
    (key : String) (backtrack : Bool) (store : EntityStore) (s : CallScanner) :
    R store (relate ix kind source target key backtrack store s).2.1 := by
  unfold relate
  simp only
  split
  · exact linking.refl store
  · exact linkAll_keeps linking ix _ kind key backtrack _ 0 store s

end

theorem relate_relinked (ix : ElementIndex) (kind : RelationKind) (source target : EntityType)
    (key : String) (backtrack : Bool) (store : EntityStore) (s : CallScanner) :
    store.Relinked (relate ix kind source target key backtrack store s).2.1 :=
  relate_keeps .relinked ix kind source target key backtrack store s

theorem mem_link {targets : List EntityId} {count : Nat} {store : EntityStore}
    (hs : (store.get? source).isSome) (ht : ∀ t ∈ targets, (store.get? t).isSome) {r : Relation} :
    r ∈ (link source key backtrack targets count store).2.edges ↔
      r ∈ store.edges ∨ ∃ t ∈ targets, IsLink source t key backtrack r := by
  induction targets generalizing count store with
  | nil => simp [link]
  | cons target rest ih =>
    simp only [link]
    split
    · next same =>
        rw [ih hs fun t h => ht t (List.mem_cons_of_mem _ h)]
        simp [IsLink, same]
    · next different =>
        have present := ht target List.mem_cons_self
        cases backtrack with
        | false =>
          rw [if_neg Bool.false_ne_true, ih (by rwa [EntityStore.addChild_get?])
            fun t h => by rw [EntityStore.addChild_get?]; exact ht t (List.mem_cons_of_mem _ h)]
          rw [EntityStore.mem_addChild hs present]
          simp [IsLink, Ne.symm different, or_assoc]
        | true =>
          rw [if_pos rfl, ih (by rwa [EntityStore.addChild_get?, EntityStore.addChild_get?])
            fun t h => by
              rw [EntityStore.addChild_get?, EntityStore.addChild_get?]
              exact ht t (List.mem_cons_of_mem _ h)]
          rw [EntityStore.mem_addChild (by rwa [EntityStore.addChild_get?])
            (by rwa [EntityStore.addChild_get?]), EntityStore.mem_addChild hs present]
          simp [IsLink, Ne.symm different, or_assoc]

end Linking

/-- What relating does to the entities, by the calls that the scanner sees. -/
structure Links (ix : ElementIndex) (uses : ElementId → DirectUses) (kind : RelationKind)
    (sources targets : List Entity) (key : String) (backtrack : Bool) (store store' : EntityStore) :
    Prop where
  entities : store'.entities = store.entities
  evolves : store.Evolves store'
  edges : ∀ r, r ∈ store'.edges ↔ r ∈ store.edges ∨ ∃ s ∈ sources, ∃ t ∈ targets,
    Matches ix uses targets s.element t kind ∧ IsLink s.id t.id key backtrack r

section All

variable {ix : ElementIndex} {uses : ElementId → DirectUses} {kind : RelationKind} {targets : List Entity}
  {key : String} {backtrack : Bool} {store store' store'' : EntityStore}

theorem Links.nothing (ix : ElementIndex) (uses : ElementId → DirectUses) (kind : RelationKind)
    {sources targets : List Entity} (key : String) (backtrack : Bool) (store : EntityStore)
    (empty : targets = [] ∨ sources = []) : Links ix uses kind sources targets key backtrack store store :=
  ⟨rfl, .refl, fun r => by rcases empty with rfl | rfl <;> simp⟩

theorem Links.get? {sources : List Entity}
    (h : Links ix uses kind sources targets key backtrack store store') (id : EntityId) :
    store'.get? id = store.get? id := by
  rw [EntityStore.get?, EntityStore.get?, h.entities]

theorem Links.cons {source : Entity} {rest : List Entity}
    (h : Links ix uses kind [source] targets key backtrack store store')
    (h' : Links ix uses kind rest targets key backtrack store' store'') :
    Links ix uses kind (source :: rest) targets key backtrack store store'' where
  entities := h'.entities.trans h.entities
  evolves := h.evolves.trans h'.evolves
  edges r := by
    rw [h'.edges, h.edges]
    simp only [List.exists_mem_cons_iff, List.not_mem_nil, false_and, exists_false, or_false, or_assoc]

theorem link_links (distinct : ∀ a ∈ targets, ∀ b ∈ targets, a.element = b.element → a = b)
    {source : Entity} {r : Reach} (reached : ReachedFrom uses (roots ix source.element) {} r)
    (hs : (store.get? source.id).isSome) (ht : ∀ e ∈ targets, (store.get? e.id).isSome)
    (kind : RelationKind) (key : String) (backtrack : Bool) (count : Nat) :
    Links ix uses kind [source] targets key backtrack store
      (link source.id key backtrack (relatedEntities ix (targetTable targets) kind r) count store).2 where
  entities := (link_keeps .relinked _ _ _ _ _ _).entities
  evolves := link_keeps .evolves _ _ _ _ _ _
  edges edge := by
    rw [mem_link hs fun id picked => by
      obtain ⟨t, member, rfl, -⟩ := (mem_relatedEntities distinct reached kind).mp picked
      exact ht t member]
    refine or_congr_right ⟨?_, ?_⟩
    · rintro ⟨id, picked, made⟩
      obtain ⟨t, member, rfl, matching⟩ := (mem_relatedEntities distinct reached kind).mp picked
      exact ⟨source, List.mem_singleton_self _, t, member, matching, made⟩
    · rintro ⟨e, only, t, member, matching, made⟩
      obtain rfl := List.mem_singleton.mp only
      exact ⟨t.id, (mem_relatedEntities distinct reached kind).mpr ⟨t, member, rfl, matching⟩, made⟩

theorem linkAll_links (distinct : ∀ a ∈ targets, ∀ b ∈ targets, a.element = b.element → a = b)
    {sources : List Entity} {s : CallScanner} (coherent : Coherent ix s)
    (hs : ∀ e ∈ sources, (store.get? e.id).isSome) (ht : ∀ e ∈ targets, (store.get? e.id).isSome)
    (count : Nat) :
    Links ix (s.usesNow ix) kind sources targets key backtrack store
        (linkAll ix (targetTable targets) kind key backtrack sources count store s).2.1 ∧
      Asked ix none s (linkAll ix (targetTable targets) kind key backtrack sources count store s).2.2 := by
  induction sources generalizing count store s with
  | nil => exact ⟨.nothing ix _ kind key backtrack store (.inr rfl), .refl coherent⟩
  | cons e rest ih =>
    obtain ⟨reached, asked⟩ := reachAll_reached (roots ix e.element) {} coherent
      fun _ => roots_known
    have first := link_links distinct reached (hs e List.mem_cons_self) ht kind key backtrack count
    obtain ⟨links, asked'⟩ := ih asked.coherent
      (fun e h => by rw [first.get?]; exact hs e (List.mem_cons_of_mem _ h))
      (fun e h => by rw [first.get?]; exact ht e h) _
    rw [asked.uses] at links
    exact ⟨first.cons links, asked.trans asked'⟩

theorem relate_links (numbered : store.Numbered) {s : CallScanner} (coherent : Coherent ix s)
    (kind : RelationKind) (source target : EntityType) (key : String) (backtrack : Bool) :
    Links ix (s.usesNow ix) kind (store.ofType source) (store.ofType target) key backtrack store
        (relate ix kind source target key backtrack store s).2.1 ∧
      Asked ix none s (relate ix kind source target key backtrack store s).2.2 := by
  have there : ∀ type, ∀ e ∈ store.ofType type, (store.get? e.id).isSome := fun type e h => by
    rw [numbered.get? (List.mem_of_mem_filter h)]
    rfl
  have distinct : ∀ a ∈ store.ofType target, ∀ b ∈ store.ofType target, a.element = b.element → a = b :=
    fun a ha b hb => numbered.eq_of_element (List.mem_of_mem_filter ha) (List.mem_of_mem_filter hb)
  unfold relate
  simp only
  split
  · next empty =>
      refine ⟨.nothing ix _ kind key backtrack store ?_, .refl coherent⟩
      simpa [targetTable] using empty
  · exact linkAll_links distinct coherent (there source) (there target) 0

end All

end CallScanner

end ClassAtlas
