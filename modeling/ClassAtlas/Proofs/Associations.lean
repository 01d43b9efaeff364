import ClassAtlas.Proofs.EntityIntegrity
import ClassAtlas.Proofs.Remembering

/-! # What associating links

Associating goes through the elements of a scope one by one and links entities as it goes. What it links
for an element is read off the elements, their causes and the entities, and links are none of these. So
the links do not depend on the order of the scope, and neither does whether the step fails.
-/

namespace ClassAtlas

namespace Model

/-! ## The pairs of an element -/

/-- The entity of a type that an element has, or else the nearest element it comes from. -/
def Encloses (m : Model) (type : EntityType) (id : ElementId) (e : Entity) : Prop :=
  ∃ nearer farther, id :: m.ancestors id = nearer ++ e.element :: farther ∧
    e ∈ m.entities.entities ∧ e.type = type ∧
    ∀ other ∈ m.entities.entities, other.type = type → other.element ∉ nearer

/-- Parent and child that an element gives: both enclose it, or one does and the other is any entity
    whose element comes from that one's. -/
inductive Pairs (m : Model) (parent child : EntityType) (id : ElementId) : Entity → Entity → Prop where
  | both {p c} : m.Encloses parent id p → m.Encloses child id c → Pairs m parent child id p c
  | children {p c} : m.Encloses parent id p → (∀ e, ¬ m.Encloses child id e) →
      c ∈ m.entities.entities → c.type = child → p.element ∈ m.ancestors c.element →
      Pairs m parent child id p c
  | parents {p c} : m.Encloses child id c → (∀ e, ¬ m.Encloses parent id e) →
      p ∈ m.entities.entities → p.type = parent → c.element ∈ m.ancestors p.element →
      Pairs m parent child id p c

/-- An element in a child for which there is no parent. -/
def Orphaned (m : Model) (parent child : EntityType) (id : ElementId) : Prop :=
  ∃ c, m.Encloses child id c ∧ (∀ e, ¬ m.Encloses parent id e) ∧
    ∀ p ∈ m.entities.entities, p.type = parent → c.element ∉ m.ancestors p.element

def withLinks (m : Model) (edges : List Relation) : Model :=
  { m with entities := { m.entities with edges := edges } }

section Lookups

variable {m : Model} {type : EntityType} {id : ElementId} {e : Entity}

theorem enclosingEntity?_eq_some_iff (numbered : m.entities.Numbered) :
    m.enclosingEntity? id type = some e ↔ m.Encloses type id e := by
  have own : ∀ x e, (m.entities.find? x).filter (·.type == type) = some e ↔
      e ∈ m.entities.entities ∧ e.element = x ∧ e.type = type := by
    intro x e
    rw [Option.filter_eq_some_iff, numbered.find?_eq_some_iff, beq_iff_eq, and_assoc]
  refine List.findSome?_eq_some_iff.trans ⟨?_, ?_⟩
  · rintro ⟨nearer, x, farther, place, found, none⟩
    obtain ⟨member, rfl, typed⟩ := (own x e).mp found
    refine ⟨nearer, farther, place, member, typed, fun other inside same near => ?_⟩
    have missing := none _ near
    rw [(own _ other).mpr ⟨inside, rfl, same⟩] at missing
    cases missing
  · rintro ⟨nearer, farther, place, member, typed, first⟩
    refine ⟨nearer, e.element, farther, place, (own _ e).mpr ⟨member, rfl, typed⟩, fun x near => ?_⟩
    by_contra present
    obtain ⟨other, found⟩ := Option.ne_none_iff_exists'.mp present
    obtain ⟨inside, rfl, same⟩ := (own x other).mp found
    exact first other inside same near

theorem enclosingEntity?_eq_none_iff (numbered : m.entities.Numbered) :
    m.enclosingEntity? id type = none ↔ ∀ e, ¬ m.Encloses type id e := by
  rw [Option.eq_none_iff_forall_ne_some]
  exact forall_congr' fun e => not_congr (enclosingEntity?_eq_some_iff numbered)

theorem mem_descendants {anchor : ElementId} {n : EntityId} :
    n ∈ m.descendants type anchor ↔
      ∃ e ∈ m.entities.entities, e.type = type ∧ anchor ∈ m.ancestors e.element ∧ e.id = n := by
  simp only [descendants, EntityStore.ofType, List.mem_map, List.mem_filter, List.contains_eq_mem,
    decide_eq_true_eq, beq_iff_eq, and_assoc]

end Lookups

end Model

namespace Model

section Pairing

variable {m : Model} {parent child : EntityType} {id : ElementId} {p c a b : Entity}

theorem Encloses.unique {type : EntityType} {e e' : Entity} (numbered : m.entities.Numbered)
    (here : m.Encloses type id e) (here' : m.Encloses type id e') : e = e' := by
  rw [← enclosingEntity?_eq_some_iff numbered] at here here'
  exact Option.some.inj (here.symm.trans here')

theorem Encloses.mem {type : EntityType} {e : Entity} (here : m.Encloses type id e) :
    e ∈ m.entities.entities := by
  obtain ⟨_, _, _, member, _⟩ := here
  exact member

theorem Pairs.mem (pairs : m.Pairs parent child id p c) :
    p ∈ m.entities.entities ∧ c ∈ m.entities.entities := by
  cases pairs with
  | both above below => exact ⟨above.mem, below.mem⟩
  | children above _ member => exact ⟨above.mem, member⟩
  | parents below _ member => exact ⟨member, below.mem⟩

theorem pairs_iff_of_both (numbered : m.entities.Numbered) (above : m.Encloses parent id p)
    (below : m.Encloses child id c) : m.Pairs parent child id a b ↔ a = p ∧ b = c := by
  constructor
  · intro pairs
    cases pairs with
    | both above' below' => exact ⟨above'.unique numbered above, below'.unique numbered below⟩
    | children _ missing => exact absurd below (missing c)
    | parents _ missing => exact absurd above (missing p)
  · rintro ⟨rfl, rfl⟩
    exact .both above below

theorem pairs_iff_of_parent (numbered : m.entities.Numbered) (above : m.Encloses parent id p)
    (missing : ∀ e, ¬ m.Encloses child id e) : m.Pairs parent child id a b ↔
      a = p ∧ b ∈ m.entities.entities ∧ b.type = child ∧ p.element ∈ m.ancestors b.element := by
  constructor
  · intro pairs
    cases pairs with
    | both _ below => exact absurd below (missing b)
    | children above' _ member typed comes =>
      cases above'.unique numbered above
      exact ⟨rfl, member, typed, comes⟩
    | parents below => exact absurd below (missing b)
  · rintro ⟨rfl, member, typed, comes⟩
    exact .children above missing member typed comes

theorem pairs_iff_of_child (numbered : m.entities.Numbered) (below : m.Encloses child id c)
    (missing : ∀ e, ¬ m.Encloses parent id e) : m.Pairs parent child id a b ↔
      b = c ∧ a ∈ m.entities.entities ∧ a.type = parent ∧ c.element ∈ m.ancestors a.element := by
  constructor
  · intro pairs
    cases pairs with
    | both above => exact absurd above (missing a)
    | children above => exact absurd above (missing a)
    | parents below' _ member typed comes =>
      cases below'.unique numbered below
      exact ⟨rfl, member, typed, comes⟩
  · rintro ⟨rfl, member, typed, comes⟩
    exact .parents below missing member typed comes

theorem not_pairs (above : ∀ e, ¬ m.Encloses parent id e) (below : ∀ e, ¬ m.Encloses child id e) :
    ¬ m.Pairs parent child id p c := by
  intro pairs
  cases pairs with
  | both here | children here => exact above p here
  | parents here => exact below c here

theorem orphaned_iff (numbered : m.entities.Numbered) (below : m.Encloses child id c)
    (missing : ∀ e, ¬ m.Encloses parent id e) :
    m.Orphaned parent child id ↔ m.descendants parent c.element = [] := by
  rw [List.eq_nil_iff_forall_not_mem]
  constructor
  · rintro ⟨c', below', -, none⟩ n member
    cases below'.unique numbered below
    obtain ⟨p, inside, typed, comes, -⟩ := mem_descendants.mp member
    exact none p inside typed comes
  · intro empty
    refine ⟨c, below, missing, fun p inside typed comes => ?_⟩
    exact empty p.id (mem_descendants.mpr ⟨p, inside, typed, comes, rfl⟩)

end Pairing

end Model

namespace Step

variable {m : Model} {parent child : EntityType} {key : String} {id : ElementId}

/-! ## One element -/

/-- An element fails as an orphan where relations are strict, or it gives its pairs. -/
theorem associationPairs_cases (numbered : m.entities.Numbered) (parent : EntityType) (key : String)
    (child : EntityType) (id : ElementId) :
    (associationPairs m parent key child id = .error (.failedToResolveParentRelation parent key child) ∧
      m.settings.strictRelations ∧ m.Orphaned parent child id) ∨
    ∃ pairs, associationPairs m parent key child id = .ok pairs ∧
      ¬ (m.settings.strictRelations ∧ m.Orphaned parent child id) ∧
      ∀ pair, pair ∈ pairs ↔ ∃ p c, m.Pairs parent child id p c ∧ pair = (p.id, c.id) := by
  unfold associationPairs
  cases above : m.enclosingEntity? id parent with
  | some p =>
    have above := (Model.enclosingEntity?_eq_some_iff numbered).mp above
    have parented : ¬ m.Orphaned parent child id := fun ⟨_, _, missing, _⟩ => missing p above
    cases below : m.enclosingEntity? id child with
    | some c =>
      have below := (Model.enclosingEntity?_eq_some_iff numbered).mp below
      refine .inr ⟨_, rfl, fun h => parented h.2, fun pair => ?_⟩
      simp [Model.pairs_iff_of_both numbered above below]
    | none =>
      have below := (Model.enclosingEntity?_eq_none_iff numbered).mp below
      refine .inr ⟨_, rfl, fun h => parented h.2, fun pair => ?_⟩
      simp only [Model.pairs_iff_of_parent numbered above below, List.mem_map, Model.mem_descendants]
      constructor
      · rintro ⟨n, ⟨c, member, typed, comes, rfl⟩, rfl⟩
        exact ⟨p, c, ⟨rfl, member, typed, comes⟩, rfl⟩
      · rintro ⟨_, c, ⟨rfl, member, typed, comes⟩, rfl⟩
        exact ⟨c.id, ⟨c, member, typed, comes, rfl⟩, rfl⟩
  | none =>
    have above := (Model.enclosingEntity?_eq_none_iff numbered).mp above
    cases below : m.enclosingEntity? id child with
    | some c =>
      have below := (Model.enclosingEntity?_eq_some_iff numbered).mp below
      have orphaned := Model.orphaned_iff numbered below above
      dsimp only
      split
      · next strict =>
          simp only [Bool.and_eq_true, List.isEmpty_iff] at strict
          exact .inl ⟨rfl, strict.2, orphaned.mpr strict.1⟩
      · next lenient =>
          simp only [Bool.and_eq_true, List.isEmpty_iff] at lenient
          refine .inr ⟨_, rfl, fun h => lenient ⟨orphaned.mp h.2, h.1⟩, fun pair => ?_⟩
          simp only [Model.pairs_iff_of_child numbered below above, List.mem_map, Model.mem_descendants]
          constructor
          · rintro ⟨n, ⟨p, member, typed, comes, rfl⟩, rfl⟩
            exact ⟨p, c, ⟨rfl, member, typed, comes⟩, rfl⟩
          · rintro ⟨p, _, ⟨rfl, member, typed, comes⟩, rfl⟩
            exact ⟨p.id, ⟨p, member, typed, comes, rfl⟩, rfl⟩
    | none =>
      have below := (Model.enclosingEntity?_eq_none_iff numbered).mp below
      refine .inr ⟨[], rfl, fun ⟨_, c, here, _⟩ => below c here, fun pair => ?_⟩
      simp [Model.not_pairs above below]

theorem mem_linkPairs {pairs : List (EntityId × EntityId)} {s : EntityStore}
    (present : ∀ pair ∈ pairs, (s.get? pair.1).isSome ∧ (s.get? pair.2).isSome) {r : Relation} :
    r ∈ (linkPairs key pairs s).edges ↔
      r ∈ s.edges ∨ ∃ pair ∈ pairs, pair.1 ≠ pair.2 ∧ r = ⟨pair.1, key, pair.2⟩ := by
  induction pairs generalizing s with
  | nil => simp [linkPairs]
  | cons pair rest ih =>
    obtain ⟨p, c⟩ := pair
    obtain ⟨hasParent, hasChild⟩ := present (p, c) (.head _)
    have others : ∀ pair ∈ rest, (s.get? pair.1).isSome ∧ (s.get? pair.2).isSome :=
      fun pair member => present pair (.tail _ member)
    change r ∈ (linkPairs key rest (if p = c then s else (s.addChild p key c).2)).edges ↔ _
    by_cases same : p = c
    · rw [if_pos same, ih others]
      simp [same]
    · have kept : ∀ pair ∈ rest, ((s.addChild p key c).2.get? pair.1).isSome ∧
          ((s.addChild p key c).2.get? pair.2).isSome := by
        simpa only [EntityStore.addChild_get?] using others
      rw [if_neg same, ih kept, EntityStore.mem_addChild hasParent hasChild]
      simp [same, or_assoc]

end Step

theorem EntityStore.Relinked.withLinks {m : Model} {edges : List Relation} {s : EntityStore}
    (relinked : (m.withLinks edges).entities.Relinked s) : { m with entities := s } = m.withLinks s.edges := by
  obtain ⟨entities, kinds⟩ := relinked
  cases s
  cases entities
  cases kinds
  rfl

/-- The links that an element gives. -/
def Model.Links (m : Model) (parent : EntityType) (key : String) (child : EntityType) (id : ElementId)
    (r : Relation) : Prop :=
  ∃ p c, m.Pairs parent child id p c ∧ p.id ≠ c.id ∧ r = ⟨p.id, key, c.id⟩

namespace Step

variable {m : Model}

theorem associateAt_links (numbered : m.entities.Numbered) (parent : EntityType) (key : String)
    (child : EntityType) (id : ElementId) (edges : List Relation) :
    (associateAt parent key child id (m.withLinks edges) =
        (.error (.failedToResolveParentRelation parent key child), m.withLinks edges) ∧
      m.settings.strictRelations ∧ m.Orphaned parent child id) ∨
    ∃ edges', associateAt parent key child id (m.withLinks edges) = (.ok (), m.withLinks edges') ∧
      ¬ (m.settings.strictRelations ∧ m.Orphaned parent child id) ∧
      ∀ r, r ∈ edges' ↔ r ∈ edges ∨ m.Links parent key child id r := by
  -- Links are no part of what the pairs are read off.
  have unfolded : associateAt parent key child id (m.withLinks edges) =
      (liftM (associationPairs m parent key child id) >>= fun pairs =>
        set { m with entities := linkPairs key pairs (m.withLinks edges).entities } : ModelM Unit)
      (m.withLinks edges) := rfl
  rw [unfolded]
  obtain ⟨failed, orphaned⟩ | ⟨pairs, given, fine, exact⟩ := associationPairs_cases numbered parent key child id
  · rw [failed]
    exact .inl ⟨rfl, orphaned⟩
  · rw [given]
    have relinked := linkPairs_keeps .relinked key pairs (m.withLinks edges).entities
    have known : ∀ e ∈ m.entities.entities, ((m.withLinks edges).entities.get? e.id).isSome :=
      fun e member => Option.isSome_iff_exists.mpr ⟨e, numbered.get? member⟩
    have present : ∀ pair ∈ pairs, ((m.withLinks edges).entities.get? pair.1).isSome ∧
        ((m.withLinks edges).entities.get? pair.2).isSome := by
      intro pair member
      obtain ⟨p, c, linked, rfl⟩ := (exact pair).mp member
      exact ⟨known p linked.mem.1, known c linked.mem.2⟩
    refine .inr ⟨(linkPairs key pairs (m.withLinks edges).entities).edges, ?_, fine, fun r => ?_⟩
    · exact congrArg (Prod.mk (Except.ok ())) relinked.withLinks
    · refine (mem_linkPairs present).trans (or_congr_right ?_)
      constructor
      · rintro ⟨pair, member, different, rfl⟩
        obtain ⟨p, c, linked, rfl⟩ := (exact pair).mp member
        exact ⟨p, c, linked, different, rfl⟩
      · rintro ⟨p, c, linked, different, rfl⟩
        exact ⟨_, (exact _).mpr ⟨p, c, linked, rfl⟩, different, rfl⟩

/-! ## A whole scope -/

theorem onEach_links (numbered : m.entities.Numbered) (parent : EntityType) (key : String)
    (child : EntityType) (ids : List ElementId) (edges : List Relation) :
    (∃ edges', onEach (associateAt parent key child) ids (m.withLinks edges) =
        (.error (.failedToResolveParentRelation parent key child), m.withLinks edges') ∧
      m.settings.strictRelations ∧ ∃ id ∈ ids, m.Orphaned parent child id) ∨
    ∃ edges', onEach (associateAt parent key child) ids (m.withLinks edges) = (.ok (), m.withLinks edges') ∧
      ¬ (m.settings.strictRelations ∧ ∃ id ∈ ids, m.Orphaned parent child id) ∧
      ∀ r, r ∈ edges' ↔ r ∈ edges ∨ ∃ id ∈ ids, m.Links parent key child id r := by
  induction ids generalizing edges with
  | nil => exact .inr ⟨edges, rfl, by simp, by simp⟩
  | cons id rest ih =>
    have unfolded : onEach (associateAt parent key child) (id :: rest) (m.withLinks edges) = _ :=
      Operation.bind_apply (associateAt parent key child id) _ (m.withLinks edges)
    rw [unfolded]
    obtain ⟨failed, strict, orphaned⟩ | ⟨edges₁, ran, fine, first⟩ :=
      associateAt_links numbered parent key child id edges
    · rw [failed]
      exact .inl ⟨edges, rfl, strict, id, .head _, orphaned⟩
    · rw [ran]
      obtain ⟨edges₂, failed, strict, other, member, orphaned⟩ | ⟨edges₂, ran, fine', others⟩ := ih edges₁
      · exact .inl ⟨edges₂, failed, strict, other, .tail _ member, orphaned⟩
      · refine .inr ⟨edges₂, ran, ?_, fun r => ?_⟩
        · rintro ⟨strict, other, member, orphaned⟩
          rcases List.mem_cons.mp member with rfl | member
          · exact fine ⟨strict, orphaned⟩
          · exact fine' ⟨strict, other, member, orphaned⟩
        · rw [others, first, or_assoc]
          simp

theorem associate_cases (numbered : m.entities.Numbered) (kind : ScopeKind) (ids : List ElementId)
    (parent : EntityType) (key : String) (child : EntityType) :
    (∃ edges, (Step.associate parent key child).apply (.elements kind ids) m =
        (.error (.failedToResolveParentRelation parent key child), m.withLinks edges) ∧
      m.settings.strictRelations ∧ ∃ id ∈ ids, m.Orphaned parent child id) ∨
    ∃ edges, (Step.associate parent key child).apply (.elements kind ids) m =
        (.ok (.elements kind ids), m.withLinks edges) ∧
      ¬ (m.settings.strictRelations ∧ ∃ id ∈ ids, m.Orphaned parent child id) ∧
      ∀ r, r ∈ edges ↔ r ∈ m.entities.edges ∨ ∃ id ∈ ids, m.Links parent key child id r := by
  have unfolded : (Step.associate parent key child).apply (.elements kind ids) m = _ :=
    Operation.bind_apply (onEach (associateAt parent key child) ids)
      (fun _ => pure (Scope.elements kind ids)) (m.withLinks m.entities.edges)
  rw [unfolded]
  obtain ⟨edges, failed, orphaned⟩ | ⟨edges, ran, rest⟩ :=
    onEach_links numbered parent key child ids m.entities.edges
  · rw [failed]
    exact .inl ⟨edges, rfl, orphaned⟩
  · rw [ran]
    exact .inr ⟨edges, rfl, rest⟩

end Step

/-- Associating treats its scope as a set. It fails if and only if relations are strict and an element is
    an orphan, whatever the order of the elements. Otherwise it gives the scope back, adds exactly the links
    of the pairs that the elements give in the model as it was, and changes nothing else. -/
theorem associate_links_exactly {settings : Settings} {classes : List ClassDeclaration} {m : Model}
    (reachable : (Model.ofClasses settings classes).Reachable m) (kind : ScopeKind) (ids : List ElementId)
    (parent : EntityType) (key : String) (child : EntityType) :
    let outcome := (Step.associate parent key child).apply (.elements kind ids) m
    (∀ problem, outcome.1 = .error problem ↔
      (settings.strictRelations ∧ ∃ id ∈ ids, m.Orphaned parent child id) ∧
        problem = .failedToResolveParentRelation parent key child) ∧
    (∀ out, outcome.1 = .ok out → out = .elements kind ids ∧
      outcome.2 = m.withLinks outcome.2.entities.edges ∧
      ∀ r, r ∈ outcome.2.entities.edges ↔
        r ∈ m.entities.edges ∨ ∃ id ∈ ids, m.Links parent key child id r) ∧
    ∀ ids', (∀ id, id ∈ ids' ↔ id ∈ ids) → ∀ problem,
      (((Step.associate parent key child).apply (.elements kind ids') m).1 = .error problem ↔
        outcome.1 = .error problem) := by
  intro outcome
  have numbered := (Model.Consistent.reachable reachable).numbered
  have strict : m.settings = settings := reachable.settings
  have fails : ∀ ids problem, ((Step.associate parent key child).apply (.elements kind ids) m).1 = .error problem ↔
      (settings.strictRelations ∧ ∃ id ∈ ids, m.Orphaned parent child id) ∧
        problem = .failedToResolveParentRelation parent key child := by
    intro ids problem
    rw [← strict]
    obtain ⟨_, failed, orphaned⟩ | ⟨_, ran, fine, _⟩ := Step.associate_cases numbered kind ids parent key child
    · simp only [failed, orphaned, Except.error.injEq, and_self, true_and, eq_comm]
    · simp only [ran, fine, reduceCtorEq, false_and]
  refine ⟨fails ids, fun out succeeded => ?_, fun ids' same problem => ?_⟩
  · obtain ⟨_, failed, _⟩ | ⟨edges, ran, -, exactly⟩ := Step.associate_cases numbered kind ids parent key child
    · simp only [outcome, failed, reduceCtorEq] at succeeded
    · simp only [outcome, ran, Except.ok.injEq] at succeeded ⊢
      exact ⟨succeeded.symm, rfl, exactly⟩
  · simp only [outcome, fails, same]

/-! A class with an entity and two methods that have entities of another type. -/

namespace OperationsOfClass

def given : ClassDeclaration :=
  { name := "app/Service", methods := [{ name := "load", desc := "()V" }, { name := "save", desc := "()V" }] }

def action : Action :=
  .chain [.step .classes, .step (.registerEntity "service" none []), .step (.methods false),
    .step (.registerEntity "operation" none [])]

def settings : Settings := { strictRelations := true }

/-- The model in which class and methods have their entities. -/
def built : Model := (action.execute .template (.ofClasses settings [given])).2.model

theorem reachable : (Model.ofClasses settings [given]).Reachable built := by
  have begun : (Model.ofClasses settings [given]).Reachable (Execution.ofClasses settings [given]).model := .start
  exact begun.execute action .template

end OperationsOfClass

/-- From the class, the methods' entities are found below it as parents. Of a type without entities there
    is no parent to be found. -/
theorem associate_links_exactly_below :
    (∃ id ∈ [⟨1⟩], OperationsOfClass.built.Links "operation" "of" "service" id ⟨⟨2⟩, "of", ⟨0⟩⟩) ∧
    ∃ id ∈ [⟨1⟩], OperationsOfClass.built.Orphaned "module" "service" id := by
  have ran : ((Step.associate "operation" "of" "service").apply (.elements (.elements .classDef) [⟨1⟩])
      OperationsOfClass.built).1 = .ok (.elements (.elements .classDef) [⟨1⟩]) := by decide +kernel
  have linked : (⟨⟨2⟩, "of", ⟨0⟩⟩ : Relation) ∈ ((Step.associate "operation" "of" "service").apply
      (.elements (.elements .classDef) [⟨1⟩]) OperationsOfClass.built).2.entities.edges := by decide +kernel
  have new : (⟨⟨2⟩, "of", ⟨0⟩⟩ : Relation) ∉ OperationsOfClass.built.entities.edges := by decide +kernel
  have failed : ((Step.associate "module" "of" "service").apply (.elements (.elements .classDef) [⟨1⟩])
      OperationsOfClass.built).1 = .error (.failedToResolveParentRelation "module" "of" "service") := by
    decide +kernel
  obtain ⟨-, links, -⟩ := associate_links_exactly OperationsOfClass.reachable (.elements .classDef) [⟨1⟩]
    "operation" "of" "service"
  obtain ⟨fails, -, -⟩ := associate_links_exactly OperationsOfClass.reachable (.elements .classDef) [⟨1⟩]
    "module" "of" "service"
  obtain ⟨-, -, exactly⟩ := links _ ran
  exact ⟨((exactly _).mp linked).resolve_left new, ((fails _).mp failed).1.2⟩

end ClassAtlas
