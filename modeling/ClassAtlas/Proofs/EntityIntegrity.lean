import Mathlib.Data.List.Nodup
import ClassAtlas.Proofs.Entities
import ClassAtlas.Proofs.Ordered

/-! # Integrity of the entity store

Entities are asked for by number, by element and by type, kinds by type, and links by their ends.
Whatever a store was asked to do since it was empty, all these answers agree, and an entity stays the
one it was when it came into being.
-/

namespace ClassAtlas

def Entity.identity (e : Entity) : EntityId × EntityType × ElementId := (e.id, e.type, e.element)

namespace EntityStore

variable (s : EntityStore)

/-- Something a store can be asked to do. -/
inductive Request where
  | register (type : EntityType) (element : ElementId) (kind : ElementKind) (label : Option String)
      (properties : Properties)
  | update (id : EntityId) (label : Option String) (properties : Properties)
  | addChild (parent : EntityId) (key : String) (child : EntityId)

def perform (s : EntityStore) : Request → EntityStore
  | .register type element kind label properties =>
    match s.register type element kind label properties with
    | .ok (_, s') => s'
    | .error _ => s
  | .update id label properties => (s.update id label properties).2
  | .addChild parent key child => (s.addChild parent key child).2

def performAll (s : EntityStore) (requests : List Request) : EntityStore := requests.foldl perform s

theorem perform_evolves (request : Request) : s.Evolves (s.perform request) := by
  cases request with
  | register type element kind label properties =>
    simp only [perform]
    split
    · next done => exact .single (.registered done)
    · exact .refl
  | update id label properties => exact .single (.updated s id label properties)
  | addChild parent key child => exact .single (.linked s parent key child)

theorem performAll_evolves (requests : List Request) : s.Evolves (s.performAll requests) := by
  induction requests generalizing s with
  | nil => exact .refl
  | cons request rest ih => exact (perform_evolves s request).trans (ih (s.perform request))

/-! ## Identities are kept -/

theorem extend_identities (id : EntityId) (label : Option String) (properties : Properties) :
    (s.extend id label properties).entities.map Entity.identity = s.entities.map Entity.identity := by
  apply List.ext_getElem?
  intro i
  simp only [extend, List.getElem?_map, List.getElem?_modify]
  cases s.entities[i]? with
  | none => rfl
  | some e =>
    simp only [Option.map_eq_map, Option.map_some]
    split <;> rfl

theorem update_identities (id : EntityId) (label : Option String) (properties : Properties) :
    (s.update id label properties).2.entities.map Entity.identity = s.entities.map Entity.identity := by
  obtain ⟨same, -⟩ | extended := update_cases s id label properties
  · rw [same]
  · rw [extended, extend_identities]

theorem Changes.identities {s s' : EntityStore} (change : Changes s s') :
    s.entities.map Entity.identity <+: s'.entities.map Entity.identity := by
  cases change with
  | registered done =>
    obtain ⟨e, -, -, -, rfl⟩ | ⟨-, -, -, rfl⟩ := register_cases done
    · exact (extend_identities s e.id _ _) ▸ List.prefix_rfl
    · simp only [create, List.map_append]
      exact List.prefix_append _ _
  | updated id label properties => exact (update_identities s id label properties) ▸ List.prefix_rfl
  | linked parent key child => exact (addChild_entities s parent key child) ▸ List.prefix_rfl

theorem Evolves.identities {s s' : EntityStore} (evolution : s.Evolves s') :
    s.entities.map Entity.identity <+: s'.entities.map Entity.identity := by
  induction evolution with
  | refl => exact List.prefix_rfl
  | tail _ change ih => exact ih.trans change.identities

theorem Evolves.get? {s s' : EntityStore} (evolution : s.Evolves s') {id : EntityId} {e : Entity}
    (present : s.get? id = some e) : ∃ e', s'.get? id = some e' ∧ e'.identity = e.identity := by
  obtain ⟨later, grown⟩ := evolution.identities
  have inside : id.val < s.entities.length := (List.getElem?_eq_some_iff.mp present).1
  have before : (s.entities.map Entity.identity)[id.val]? = some e.identity := by
    rw [List.getElem?_map]
    exact congrArg (Option.map Entity.identity) present
  have after : (s'.entities.map Entity.identity)[id.val]? = some e.identity := by
    rw [← grown, List.getElem?_append_left (by simpa using inside), before]
  rw [List.getElem?_map] at after
  exact Option.map_eq_some_iff.mp after

/-! ## The parts of a store agree -/

/-- Kinds are known of the types in use, and links are between entities and made once. -/
structure Intact (s : EntityStore) : Prop extends Numbered s where
  kinds : ∀ type, (s.kindOf? type).isSome ↔ ∃ e ∈ s.entities, e.type = type
  endpoints : ∀ r ∈ s.edges, (s.get? r.parent).isSome ∧ (s.get? r.child).isSome
  once : s.edges.Nodup

theorem exists_type_iff {s : EntityStore} {type : EntityType} :
    (∃ e ∈ s.entities, e.type = type) ↔ type ∈ (s.entities.map Entity.identity).map (·.2.1) := by
  simp [Entity.identity]

theorem kindOf?_create (type : EntityType) (element : ElementId) (kind : ElementKind) (label : Option String)
    (properties : Properties) (other : EntityType) :
    (s.create type element kind label properties).2.kindOf? other =
      if other = type then some kind else s.kindOf? other := by
  unfold kindOf? create
  split
  · next same => rw [same, Ordered.get?_put_self]
  · next different => rw [Ordered.get?_put_ne different]

namespace Intact

variable {s s' : EntityStore}

theorem empty : Intact {} := ⟨.empty, by simp [kindOf?, Ordered.get?], by simp, by simp⟩

theorem isSome_get? (change : Changes s s') {id : EntityId} (present : (s.get? id).isSome) :
    (s'.get? id).isSome := by
  obtain ⟨e, found⟩ := Option.isSome_iff_exists.mp present
  obtain ⟨e', found', -⟩ := Evolves.get? (.single change) found
  rw [found']
  rfl

theorem endpoints_changes (h : s.Intact) (change : Changes s s') (same : s'.edges = s.edges) :
    ∀ r ∈ s'.edges, (s'.get? r.parent).isSome ∧ (s'.get? r.child).isSome := by
  intro r member
  rw [same] at member
  obtain ⟨parent, child⟩ := h.endpoints r member
  exact ⟨isSome_get? change parent, isSome_get? change child⟩

theorem extend (h : s.Intact) (id : EntityId) (label : Option String) (properties : Properties)
    (change : Changes s (s.extend id label properties)) : (s.extend id label properties).Intact where
  toNumbered := h.toNumbered.extend id label properties
  kinds type := by
    rw [exists_type_iff, extend_identities, ← exists_type_iff]
    exact h.kinds type
  endpoints := h.endpoints_changes change rfl
  once := h.once

theorem create (h : s.Intact) {type : EntityType} {element : ElementId} {kind : ElementKind}
    {label : Option String} {properties : Properties} (new : s.find? element = none)
    (change : Changes s (s.create type element kind label properties).2) :
    (s.create type element kind label properties).2.Intact where
  toNumbered := h.toNumbered.create type kind label properties new
  kinds other := by
    have entities : (∃ e ∈ (s.create type element kind label properties).2.entities, e.type = other) ↔
        (∃ e ∈ s.entities, e.type = other) ∨ type = other := by
      simp [EntityStore.create, or_and_right, exists_or]
    rw [entities, kindOf?_create]
    split
    · next same => simp [same]
    · next different =>
        rw [h.kinds other]
        exact (or_iff_left (Ne.symm different)).symm
  endpoints := h.endpoints_changes change rfl
  once := h.once

theorem addChild (h : s.Intact) (parent : EntityId) (key : String) (child : EntityId) :
    (s.addChild parent key child).2.Intact := by
  have numbered := h.toNumbered.changes (.linked s parent key child)
  obtain same | ⟨hasParent, hasChild, new, added⟩ := addChild_cases s parent key child
  · rw [same]
    exact h
  · rw [added] at numbered ⊢
    refine ⟨numbered, h.kinds, fun r member => ?_, ?_⟩
    · rcases List.mem_append.mp member with old | last
      · exact h.endpoints r old
      · obtain rfl := List.mem_singleton.mp last
        exact ⟨hasParent, hasChild⟩
    · exact List.nodup_append_comm.mp (List.nodup_cons.mpr ⟨new, h.once⟩)

theorem changes (h : s.Intact) (change : Changes s s') : s'.Intact := by
  have change' := change
  cases change with
  | registered done =>
    obtain ⟨e, -, -, -, rfl⟩ | ⟨new, -, -, rfl⟩ := register_cases done
    · exact h.extend e.id _ _ change'
    · exact h.create new change'
  | updated id label properties =>
    obtain ⟨same, -⟩ | extended := update_cases s id label properties
    · rw [same]
      exact h
    · rw [extended] at change' ⊢
      exact h.extend id label properties change'
  | linked parent key child => exact h.addChild parent key child

theorem evolves (h : s.Intact) (evolution : s.Evolves s') : s'.Intact := by
  induction evolution with
  | refl => exact h
  | tail _ change ih => exact ih.changes change

end Intact

/-! ## What can be asked -/

namespace Numbered

variable {s : EntityStore}

theorem find?_eq_some_iff (h : s.Numbered) {element : ElementId} {e : Entity} :
    s.find? element = some e ↔ e ∈ s.entities ∧ e.element = element := by
  refine ⟨find?_eq_some_of_mem, fun ⟨member, same⟩ => ?_⟩
  cases found : s.find? element with
  | none => simpa [same] using List.find?_eq_none.mp found e member
  | some e' =>
    obtain ⟨member', same'⟩ := find?_eq_some_of_mem found
    rw [h.eq_of_element member member' (same.trans same'.symm)]

end Numbered

end EntityStore

end ClassAtlas
