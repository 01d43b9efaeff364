import ClassAtlas.Proofs.Associations

/-! # Associating from the children or from the parents

Two types can be associated on the elements of either. From the parents, every child that comes from one is
linked to it. From the children, each is linked to the nearest parent it comes from. An element can have
several causes, so a child can come from several parents, and only then do the sides give different links.
-/

namespace ClassAtlas

def associateFrom (side parent : EntityType) (key : String) (child : EntityType) : ModelM Scope := do
  (Step.associate parent key child).apply (← (Step.elementsOf side).apply .template)

namespace Model

/-- A parent and a child whose element comes from the parent's. -/
structure Descends (m : Model) (parent child : EntityType) (p c : Entity) : Prop where
  parent_mem : p ∈ m.entities.entities
  parent_type : p.type = parent
  child_mem : c ∈ m.entities.entities
  child_type : c.type = child
  comes : p.element ∈ m.ancestors c.element

theorem forall_not_descends_iff {m : Model} {parent child : EntityType} :
    (∀ p c, ¬ m.Descends parent child p c) ↔
      ∀ p ∈ m.entities.entities, p.type = parent → ∀ c ∈ m.entities.entities, c.type = child →
        p.element ∉ m.ancestors c.element :=
  ⟨fun none p inside parental c member filial comes => none p c ⟨inside, parental, member, filial, comes⟩,
    fun none p c down => none p down.parent_mem down.parent_type c down.child_mem down.child_type down.comes⟩

section Sides

variable {m : Model} {parent child : EntityType} {key : String} {p c e : Entity} {r : Relation}

theorem Encloses.own (member : e ∈ m.entities.entities) : m.Encloses e.type e.element e :=
  ⟨[], m.ancestors e.element, rfl, member, rfl, fun _ _ _ => List.not_mem_nil⟩

variable (numbered : m.entities.Numbered)
include numbered

theorem exists_encloses (down : m.Descends parent child p c) :
    ∃ e, m.Encloses parent c.element e := by
  by_contra missing
  have none := (enclosingEntity?_eq_none_iff numbered).mpr (not_exists.mp missing)
  have skipped := List.findSome?_eq_none_iff.mp none p.element (.tail _ down.comes)
  rw [(numbered.find?_eq_some_iff).mpr ⟨down.parent_mem, rfl⟩] at skipped
  simp [down.parent_type] at skipped

variable (different : parent ≠ child)
include different

theorem Encloses.descends (here : m.Encloses parent c.element p) (member : c ∈ m.entities.entities)
    (typed : c.type = child) :
    m.Descends parent child p c := by
  obtain ⟨nearer, farther, place, inside, parental, -⟩ := here
  have among : p.element ∈ c.element :: m.ancestors c.element := by simp [place]
  refine ⟨inside, parental, member, typed, (List.mem_cons.mp among).resolve_left fun same => ?_⟩
  cases numbered.eq_of_element inside member same
  exact different (parental.symm.trans typed)

theorem Descends.id_ne (down : m.Descends parent child p c) : p.id ≠ c.id := by
  intro same
  cases numbered.eq_of_id down.parent_mem down.child_mem same
  exact different (down.parent_type.symm.trans down.child_type)

theorem links_of_child (apart : ∀ c p, ¬ m.Descends child parent c p) (member : c ∈ m.entities.entities)
    (typed : c.type = child) :
    m.Links parent key child c.element r ↔ ∃ p, m.Encloses parent c.element p ∧ r = ⟨p.id, key, c.id⟩ := by
  subst typed
  have below := Encloses.own member
  constructor
  · rintro ⟨p, b, pairs, -, rfl⟩
    cases pairs with
    | both above below' =>
      cases below'.unique numbered below
      exact ⟨p, above, rfl⟩
    | children _ missing => exact absurd below (missing c)
    | parents below' _ inside parental comes =>
      cases below'.unique numbered below
      exact absurd ⟨member, rfl, inside, parental, comes⟩ (apart c p)
  · rintro ⟨p, above, rfl⟩
    have down := above.descends numbered different member rfl
    exact ⟨p, c, .both above below, down.id_ne numbered different, rfl⟩

theorem links_of_parent (apart : ∀ c p, ¬ m.Descends child parent c p) (member : p ∈ m.entities.entities)
    (typed : p.type = parent) :
    m.Links parent key child p.element r ↔ ∃ c, m.Descends parent child p c ∧ r = ⟨p.id, key, c.id⟩ := by
  subst typed
  have above := Encloses.own member
  have missing : ∀ e, ¬ m.Encloses child p.element e := fun e here =>
    apart e p (here.descends numbered different.symm member rfl)
  simp only [Links, pairs_iff_of_parent numbered above missing]
  constructor
  · rintro ⟨a, c, ⟨rfl, inside, filial, comes⟩, -, rfl⟩
    exact ⟨c, ⟨member, rfl, inside, filial, comes⟩, rfl⟩
  · rintro ⟨c, down, rfl⟩
    exact ⟨p, c, ⟨rfl, down.child_mem, down.child_type, down.comes⟩, down.id_ne numbered different, rfl⟩

end Sides

end Model

/-- Where relations are not strict, associating from a side succeeds and adds the links that the elements of
    that side give. -/
theorem associateFrom_links {m : Model} (numbered : m.entities.Numbered)
    (lenient : m.settings.strictRelations = false) (side parent : EntityType) (key : String)
    (child : EntityType) :
    ∃ scope edges, associateFrom side parent key child m = (.ok scope, m.withLinks edges) ∧
      ∀ r, r ∈ edges ↔ r ∈ m.entities.edges ∨
        ∃ e ∈ m.entities.entities, e.type = side ∧ m.Links parent key child e.element r := by
  have unfolded : associateFrom side parent key child m = (Step.associate parent key child).apply
      (.ofIds (((m.entities.kindOf? side).map .elements).getD .unresolved)
        ((m.entities.ofType side).map (·.element))) m := rfl
  rw [unfolded, Scope.ofIds]
  obtain ⟨_, -, strict, -⟩ | ⟨edges, ran, -, exactly⟩ := Step.associate_cases numbered
    (((m.entities.kindOf? side).map .elements).getD .unresolved)
    (Search.fresh [] ((m.entities.ofType side).map (·.element))) parent key child
  · rw [lenient] at strict
    cases strict
  · refine ⟨_, edges, ran, fun r => ?_⟩
    rw [exactly]
    simp [Search.mem_fresh, EntityStore.ofType, and_assoc]

section Comparison

variable {m : Model} {parent child : EntityType} (numbered : m.entities.Numbered)
include numbered

section

variable (lenient : m.settings.strictRelations = false) (different : parent ≠ child)
  (apart : ∀ c p, ¬ m.Descends child parent c p) (key : String)
include lenient different apart

theorem associateFrom_children :
    ∃ scope edges, associateFrom child parent key child m = (.ok scope, m.withLinks edges) ∧
      ∀ r, r ∈ edges ↔ r ∈ m.entities.edges ∨
        ∃ p c, m.Descends parent child p c ∧ m.Encloses parent c.element p ∧ r = ⟨p.id, key, c.id⟩ := by
  obtain ⟨scope, edges, ran, exactly⟩ := associateFrom_links numbered lenient child parent key child
  refine ⟨scope, edges, ran, fun r => (exactly r).trans (or_congr_right ?_)⟩
  constructor
  · rintro ⟨c, member, typed, links⟩
    obtain ⟨p, above, rfl⟩ := (Model.links_of_child numbered different apart member typed).mp links
    exact ⟨p, c, above.descends numbered different member typed, above, rfl⟩
  · rintro ⟨p, c, down, above, rfl⟩
    refine ⟨c, down.child_mem, down.child_type, ?_⟩
    exact (Model.links_of_child numbered different apart down.child_mem down.child_type).mpr ⟨p, above, rfl⟩

theorem associateFrom_parents :
    ∃ scope edges, associateFrom parent parent key child m = (.ok scope, m.withLinks edges) ∧
      ∀ r, r ∈ edges ↔ r ∈ m.entities.edges ∨ ∃ p c, m.Descends parent child p c ∧ r = ⟨p.id, key, c.id⟩ := by
  obtain ⟨scope, edges, ran, exactly⟩ := associateFrom_links numbered lenient parent parent key child
  refine ⟨scope, edges, ran, fun r => (exactly r).trans (or_congr_right ?_)⟩
  constructor
  · rintro ⟨p, member, typed, links⟩
    obtain ⟨c, down, rfl⟩ := (Model.links_of_parent numbered different apart member typed).mp links
    exact ⟨p, c, down, rfl⟩
  · rintro ⟨p, c, down, rfl⟩
    refine ⟨p, down.parent_mem, down.parent_type, ?_⟩
    exact (Model.links_of_parent numbered different apart down.parent_mem down.parent_type).mpr ⟨c, down, rfl⟩

end

theorem same_links_iff {key : String} {below above : List Relation}
    (nearest : ∀ r, r ∈ below ↔ r ∈ m.entities.edges ∨
      ∃ p c, m.Descends parent child p c ∧ m.Encloses parent c.element p ∧ r = ⟨p.id, key, c.id⟩)
    (all : ∀ r, r ∈ above ↔ r ∈ m.entities.edges ∨
      ∃ p c, m.Descends parent child p c ∧ r = ⟨p.id, key, c.id⟩) :
    (∀ r, r ∈ below ↔ r ∈ above) ↔ ∀ p c, m.Descends parent child p c →
      m.Encloses parent c.element p ∨ ⟨p.id, key, c.id⟩ ∈ m.entities.edges := by
  constructor
  · intro same p c down
    have linked := (same _).mpr ((all _).mpr (.inr ⟨p, c, down, rfl⟩))
    rcases (nearest _).mp linked with old | ⟨p', c', down', here, ends⟩
    · exact .inr old
    · -- A link's ends say which entities it is between.
      obtain ⟨sameParent, -, sameChild⟩ := Relation.mk.inj ends
      cases numbered.eq_of_id down.parent_mem down'.parent_mem sameParent
      cases numbered.eq_of_id down.child_mem down'.child_mem sameChild
      exact .inl here
  · intro covered r
    rw [nearest, all]
    constructor
    · rintro (old | ⟨p, c, down, -, rfl⟩)
      · exact .inl old
      · exact .inr ⟨p, c, down, rfl⟩
    · rintro (old | ⟨p, c, down, rfl⟩)
      · exact .inl old
      · exact (covered p c down).elim (fun here => .inr ⟨p, c, down, here, rfl⟩) .inl

end Comparison

/-- Associating two types from either side succeeds and adds links only. From the parents, every child is
    linked to all parents it comes from; from the children, to the nearest of them. So the links are the same
    if and only if each farther parent is linked already, and always where no child has several parents. -/
theorem sides_associate_alike_iff {settings : Settings} {classes : List ClassDeclaration} {m : Model}
    (reachable : (Model.ofClasses settings classes).Reachable m) (lenient : settings.strictRelations = false)
    {parent child : EntityType} (different : parent ≠ child) (apart : ∀ c p, ¬ m.Descends child parent c p)
    (key : String) :
    ∃ scope scope' below above,
      associateFrom child parent key child m = (.ok scope, m.withLinks below) ∧
      associateFrom parent parent key child m = (.ok scope', m.withLinks above) ∧
      (∀ r, r ∈ below ↔ r ∈ m.entities.edges ∨
        ∃ p c, m.Descends parent child p c ∧ m.Encloses parent c.element p ∧ r = ⟨p.id, key, c.id⟩) ∧
      (∀ r, r ∈ above ↔ r ∈ m.entities.edges ∨
        ∃ p c, m.Descends parent child p c ∧ r = ⟨p.id, key, c.id⟩) ∧
      ((∀ r, r ∈ below ↔ r ∈ above) ↔ ∀ p c, m.Descends parent child p c →
        m.Encloses parent c.element p ∨ ⟨p.id, key, c.id⟩ ∈ m.entities.edges) ∧
      ((∀ p p' c, m.Descends parent child p c → m.Descends parent child p' c → p = p') →
        ∀ r, r ∈ below ↔ r ∈ above) := by
  have numbered := (Model.Consistent.reachable reachable).numbered
  have relaxed : m.settings.strictRelations = false := by rw [reachable.settings]; exact lenient
  obtain ⟨scope, below, ran, nearest⟩ := associateFrom_children numbered relaxed different apart key
  obtain ⟨scope', above, ran', all⟩ := associateFrom_parents numbered relaxed different apart key
  have agree := same_links_iff numbered nearest all
  refine ⟨scope, scope', below, above, ran, ran', nearest, all, agree, fun single => agree.mpr ?_⟩
  intro p c down
  obtain ⟨p', here⟩ := Model.exists_encloses numbered down
  cases single p p' c down (here.descends numbered different down.child_mem down.child_type)
  exact .inl here

/-! Two methods with a parameter each. The classes of the parameters' types come from the parameters. -/

namespace TypesOfParameters

def given (second : String) : List ClassDeclaration :=
  [{ name := "app/Api",
     methods := [{ name := "create", desc := "(Lapp/Order;)V" }, { name := "update", desc := second }] },
   { name := "app/Order" }, { name := "app/Item" }]

def action : Action :=
  .chain [.step .classes, .step (.methods false), .step .parameters, .step (.registerEntity "input" none []),
    .step (.explodeType false), .step (.registerEntity "type" none [])]

def settings : Settings := { strictRelations := false }

/-- The model in which the parameters and the classes of their types have their entities. -/
def built (second : String) : Model := (action.execute .template (.ofClasses settings (given second))).2.model

theorem reachable (second : String) : (Model.ofClasses settings (given second)).Reachable (built second) := by
  have begun : (Model.ofClasses settings (given second)).Reachable
      (Execution.ofClasses settings (given second)).model := .start
  exact begun.execute action .template

/-- Each parameter has a class of its own. -/
def separate : Model := built "(Lapp/Item;)V"

/-- The parameters have one class. -/
def shared : Model := built "(Lapp/Order;)V"

end TypesOfParameters

section Parameters

open TypesOfParameters

theorem sides_associate_alike_iff_separate :
    ⟨⟨1⟩, "has", ⟨3⟩⟩ ∈ (associateFrom "type" "input" "has" "type" separate).2.entities.edges ∧
    ∀ r, r ∈ (associateFrom "type" "input" "has" "type" separate).2.entities.edges ↔
      r ∈ (associateFrom "input" "input" "has" "type" separate).2.entities.edges := by
  have reached : (Model.ofClasses settings (given "(Lapp/Item;)V")).Reachable separate := reachable _
  have numbered := (Model.Consistent.reachable reached).numbered
  have apart : ∀ c p, ¬ separate.Descends "type" "input" c p :=
    Model.forall_not_descends_iff.mpr (by decide +kernel)
  have one : ∀ c ∈ separate.entities.entities, c.type = "type" →
      ∀ p ∈ separate.entities.entities, p.type = "input" → ∀ p' ∈ separate.entities.entities, p'.type = "input" →
        p.element ∈ separate.ancestors c.element → p'.element ∈ separate.ancestors c.element →
        p.element = p'.element := by
    decide +kernel
  have single : ∀ p p' c, separate.Descends "input" "type" p c → separate.Descends "input" "type" p' c → p = p' := by
    intro p p' c down down'
    refine numbered.eq_of_element down.parent_mem down'.parent_mem ?_
    exact one c down.child_mem down.child_type p down.parent_mem down.parent_type p' down'.parent_mem
      down'.parent_type down.comes down'.comes
  obtain ⟨_, _, below, above, ran, ran', -, -, -, alike⟩ :=
    sides_associate_alike_iff reached rfl (by decide) apart "has"
  refine ⟨by decide +kernel, fun r => ?_⟩
  rw [ran, ran']
  exact alike single r

/-- The parameters of one class are both linked to it from the parameters. From the class, one of them is
    left out, though no parameter comes from another or from the class. -/
theorem sides_differ_on_shared_class :
    (Model.ofClasses settings (given "(Lapp/Order;)V")).Reachable shared ∧ settings.strictRelations = false ∧
    (∀ p p', ¬ shared.Descends "input" "input" p p') ∧ (∀ c p, ¬ shared.Descends "type" "input" c p) ∧
    (associateFrom "input" "input" "has" "type" shared).2.entities.edges =
      [⟨⟨0⟩, "has", ⟨2⟩⟩, ⟨⟨1⟩, "has", ⟨2⟩⟩] ∧
    (associateFrom "type" "input" "has" "type" shared).2.entities.edges = [⟨⟨0⟩, "has", ⟨2⟩⟩] := by
  refine ⟨reachable _, rfl, Model.forall_not_descends_iff.mpr ?_, Model.forall_not_descends_iff.mpr ?_, ?_, ?_⟩
  all_goals decide +kernel

end Parameters

end ClassAtlas
