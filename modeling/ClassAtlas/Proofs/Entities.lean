import Mathlib.Logic.Relation
import ClassAtlas.Entity.Store

/-! # How the entity store changes

Entities come into being one at a time and are extended and linked later. Each keeps its number, its
type and its element, and no element gets a second entity.
-/

namespace ClassAtlas

namespace EntityStore

variable (s : EntityStore)

/-- One operation on the entities. -/
inductive Changes : EntityStore → EntityStore → Prop where
  | registered {s s' : EntityStore} {type element kind label properties id}
      (done : s.register type element kind label properties = .ok (id, s')) : Changes s s'
  | updated (s : EntityStore) (id : EntityId) (label : Option String) (properties : Properties) :
      Changes s (s.update id label properties).2
  | linked (s : EntityStore) (parent : EntityId) (key : String) (child : EntityId) :
      Changes s (s.addChild parent key child).2

/-- Any number of operations on the entities. -/
def Evolves : EntityStore → EntityStore → Prop := Relation.ReflTransGen Changes

/-! ## What the operations do -/

theorem find?_eq_some_of_mem {s : EntityStore} {element : ElementId} {e : Entity}
    (found : s.find? element = some e) : e ∈ s.entities ∧ e.element = element :=
  ⟨List.mem_of_find?_eq_some found, by simpa using List.find?_some found⟩

theorem get?_extend (id : EntityId) (label : Option String) (properties : Properties) (i : EntityId) :
    (s.extend id label properties).get? i =
      if i = id then (s.get? i).map (extended · label properties) else s.get? i := by
  obtain ⟨i⟩ := i
  obtain ⟨id⟩ := id
  simp only [get?, extend, List.getElem?_modify, EntityId.mk.injEq]
  by_cases same : i = id
  · simp [same]
  · simp [same, Ne.symm same]

theorem get?_create (type : EntityType) (element : ElementId) (kind : ElementKind) (label : Option String)
    (properties : Properties) (i : EntityId) :
    (s.create type element kind label properties).2.get? i =
      if i.val = s.size then some ⟨⟨s.size⟩, type, label.getD "", element, properties⟩ else s.get? i := by
  unfold get? create size
  simp only
  rcases Nat.lt_trichotomy i.val s.entities.length with less | same | greater
  · rw [List.getElem?_append_left less, if_neg (by omega)]
  · simp [same]
  · rw [if_neg (by omega), List.getElem?_eq_none (by simpa using Nat.succ_le_of_lt greater),
      List.getElem?_eq_none (by omega)]

theorem register_cases {s s' : EntityStore} {type : EntityType} {element : ElementId} {kind : ElementKind}
    {label : Option String} {properties : Properties} {id : EntityId}
    (done : s.register type element kind label properties = .ok (id, s')) :
    (∃ e, s.find? element = some e ∧ e.type = type ∧ id = e.id ∧ s' = s.extend e.id label properties) ∨
      (s.find? element = none ∧ (∀ existing, s.kindOf? type = some existing → existing = kind) ∧
        id = ⟨s.size⟩ ∧ s' = (s.create type element kind label properties).2) := by
  unfold register at done
  cases found : s.find? element with
  | some e =>
    simp only [found] at done
    split at done
    · next same =>
        cases done
        exact .inl ⟨e, rfl, same, rfl, rfl⟩
    · cases done
  | none =>
    simp only [found] at done
    cases known : s.kindOf? type with
    | none =>
      simp only [known] at done
      cases done
      exact .inr ⟨rfl, by simp, rfl, rfl⟩
    | some existing =>
      simp only [known] at done
      split at done
      · next same =>
          cases done
          refine .inr ⟨rfl, fun existing' h => ?_, rfl, rfl⟩
          cases h
          exact same
      · cases done

theorem update_cases (id : EntityId) (label : Option String) (properties : Properties) :
    (s.update id label properties).2 = s ∧ s.get? id = none ∨
      (s.update id label properties).2 = s.extend id label properties := by
  unfold update
  split
  · exact .inr rfl
  · next absent => exact .inl ⟨rfl, by simpa using absent⟩

theorem addChild_cases (parent : EntityId) (key : String) (child : EntityId) :
    (s.addChild parent key child).2 = s ∨
      ((s.get? parent).isSome ∧ (s.get? child).isSome ∧ ⟨parent, key, child⟩ ∉ s.edges ∧
        (s.addChild parent key child).2 = { s with edges := s.edges ++ [⟨parent, key, child⟩] }) := by
  unfold addChild
  simp only
  split
  · exact .inl rfl
  · next possible =>
      simp only [Bool.or_eq_true, not_or, Option.isNone_iff_eq_none, List.contains_eq_mem,
        decide_eq_true_eq, ← ne_eq, Option.ne_none_iff_isSome] at possible
      obtain ⟨⟨hasParent, hasChild⟩, new⟩ := possible
      exact .inr ⟨hasParent, hasChild, new, rfl⟩

/-- Entities stand at the positions of their numbers, and no two have one element. -/
structure Numbered (s : EntityStore) : Prop where
  position : ∀ {i : Nat} {e : Entity}, s.entities[i]? = some e → e.id.val = i
  distinct : ∀ {i j : Nat} {a b : Entity}, s.entities[i]? = some a → s.entities[j]? = some b →
    a.element = b.element → i = j

namespace Numbered

variable {s s' : EntityStore}

theorem empty : Numbered {} := ⟨by simp, by simp⟩

variable (h : s.Numbered)
include h

theorem get? {e : Entity} (member : e ∈ s.entities) : s.get? e.id = some e := by
  obtain ⟨i, found⟩ := List.mem_iff_getElem?.mp member
  rw [EntityStore.get?, h.position found]
  exact found

theorem eq_of_id {a b : Entity} (ha : a ∈ s.entities) (hb : b ∈ s.entities)
    (same : a.id = b.id) : a = b := by
  have found := h.get? ha
  rw [same, h.get? hb] at found
  exact (Option.some.inj found).symm

theorem eq_of_element {a b : Entity} (ha : a ∈ s.entities) (hb : b ∈ s.entities)
    (same : a.element = b.element) : a = b := by
  obtain ⟨i, atI⟩ := List.mem_iff_getElem?.mp ha
  obtain ⟨j, atJ⟩ := List.mem_iff_getElem?.mp hb
  obtain rfl := h.distinct atI atJ same
  exact Option.some.inj (atI.symm.trans atJ)

theorem extend (id : EntityId) (label : Option String) (properties : Properties) :
    (s.extend id label properties).Numbered := by
  have origin : ∀ {i : Nat} {e : Entity}, (s.extend id label properties).entities[i]? = some e →
      ∃ e', s.entities[i]? = some e' ∧ e.id = e'.id ∧ e.element = e'.element := by
    intro i e found
    simp only [EntityStore.extend, List.getElem?_modify] at found
    obtain ⟨e', earlier, rfl⟩ := Option.map_eq_some_iff.mp found
    refine ⟨e', earlier, ?_⟩
    split <;> exact ⟨rfl, rfl⟩
  refine ⟨fun found => ?_, fun atI atJ same => ?_⟩
  · obtain ⟨e', found, number, -⟩ := origin found
    rw [number]
    exact h.position found
  · obtain ⟨a', atI, -, ea⟩ := origin atI
    obtain ⟨b', atJ, -, eb⟩ := origin atJ
    exact h.distinct atI atJ (by rw [← ea, ← eb, same])

theorem create (type : EntityType) {element : ElementId} (kind : ElementKind)
    (label : Option String) (properties : Properties) (new : s.find? element = none) :
    (s.create type element kind label properties).2.Numbered := by
  have fresh : ∀ {i : Nat} {e : Entity}, s.entities[i]? = some e → e.element ≠ element := by
    intro i e found same
    have none := List.find?_eq_none.mp new e (List.mem_of_getElem? found)
    simp [same] at none
  have origin : ∀ {i : Nat} {e : Entity},
      (s.create type element kind label properties).2.entities[i]? = some e →
      s.entities[i]? = some e ∨ (i = s.entities.length ∧ e.id.val = i ∧ e.element = element) := by
    intro i e found
    simp only [EntityStore.create] at found
    rcases Nat.lt_trichotomy i s.entities.length with less | rfl | greater
    · rw [List.getElem?_append_left less] at found
      exact .inl found
    · rw [List.getElem?_append_right (Nat.le_refl _)] at found
      simp only [Nat.sub_self, List.getElem?_cons_zero, Option.some.injEq] at found
      subst found
      exact .inr ⟨rfl, rfl, rfl⟩
    · have outside := (List.getElem?_eq_some_iff.mp found).1
      simp only [List.length_append, List.length_cons, List.length_nil] at outside
      omega
  refine ⟨fun found => ?_, fun atI atJ same => ?_⟩
  · rcases origin found with old | ⟨-, number, -⟩
    · exact h.position old
    · exact number
  · rcases origin atI with oldI | ⟨rfl, -, ea⟩ <;> rcases origin atJ with oldJ | ⟨rfl, -, eb⟩
    · exact h.distinct oldI oldJ same
    · exact absurd (same.trans eb) (fresh oldI)
    · exact absurd (same.symm.trans ea) (fresh oldJ)
    · rfl

theorem register {type : EntityType} {element : ElementId} {kind : ElementKind}
    {label : Option String} {properties : Properties} {id : EntityId}
    (done : s.register type element kind label properties = .ok (id, s')) : s'.Numbered := by
  obtain ⟨e, -, -, -, rfl⟩ | ⟨new, -, -, rfl⟩ := register_cases done
  · exact h.extend e.id label properties
  · exact h.create type kind label properties new

theorem changes (change : Changes s s') : s'.Numbered := by
  cases change with
  | registered done => exact h.register done
  | updated id label properties =>
    obtain ⟨same, -⟩ | extended := update_cases s id label properties
    · rw [same]
      exact h
    · rw [extended]
      exact h.extend id label properties
  | linked parent key child =>
    obtain same | ⟨-, -, -, added⟩ := addChild_cases s parent key child
    · rw [same]
      exact h
    · rw [added]
      exact ⟨h.position, h.distinct⟩

theorem evolves (evolution : s.Evolves s') : s'.Numbered := by
  induction evolution with
  | refl => exact h
  | tail _ change ih => exact ih.changes change

end Numbered

/-! ## Links -/

/-- Two stores differ in links at most. -/
structure Relinked (s s' : EntityStore) : Prop where
  entities : s'.entities = s.entities
  typeKinds : s'.typeKinds = s.typeKinds

theorem Relinked.refl : s.Relinked s := ⟨rfl, rfl⟩

theorem Relinked.trans {s s' s'' : EntityStore} (h : s.Relinked s') (h' : s'.Relinked s'') :
    s.Relinked s'' :=
  ⟨h'.entities.trans h.entities, h'.typeKinds.trans h.typeKinds⟩

theorem addChild_relinked (parent : EntityId) (key : String) (child : EntityId) :
    s.Relinked (s.addChild parent key child).2 := by
  obtain same | ⟨-, -, -, added⟩ := addChild_cases s parent key child
  · rw [same]
    exact .refl s
  · rw [added]
    exact ⟨rfl, rfl⟩

theorem addChild_entities (parent : EntityId) (key : String) (child : EntityId) :
    (s.addChild parent key child).2.entities = s.entities :=
  (addChild_relinked s parent key child).entities

theorem addChild_get? (parent : EntityId) (key : String) (child id : EntityId) :
    (s.addChild parent key child).2.get? id = s.get? id := by
  rw [get?, get?, addChild_entities]

theorem mem_addChild {s : EntityStore} {parent child : EntityId} (hp : (s.get? parent).isSome)
    (hc : (s.get? child).isSome) (key : String) {r : Relation} :
    r ∈ (s.addChild parent key child).2.edges ↔ r ∈ s.edges ∨ r = ⟨parent, key, child⟩ := by
  have absent : ∀ {id}, (s.get? id).isSome → (s.get? id).isNone = false := by simp
  simp only [addChild, absent hp, absent hc, Bool.false_or]
  split
  · next present =>
      have old : (⟨parent, key, child⟩ : Relation) ∈ s.edges := by simpa using present
      exact ⟨.inl, fun h => h.elim id (fun same => same ▸ old)⟩
  · simp

end EntityStore

end ClassAtlas
