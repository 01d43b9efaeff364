import ClassAtlas.Proofs.EntityIntegrity
import ClassAtlas.Proofs.Runs

/-! # When registering is refused

An element that has an entity keeps it under its type, and a type keeps to the kind of elements that it was
first given to. These are the only reasons to refuse a registration, and the first goes before the second.
Which kind a type was first given to is read off the requests, not off what the store notes of it.
-/

namespace ClassAtlas

namespace EntityStore

variable {properties : Properties} {type : EntityType} {element : ElementId} {s : EntityStore} {kind : ElementKind}

/-! ## The two reasons -/

theorem Numbered.registered {s s' : EntityStore} (h : s.Numbered) {label : Option String} {id : EntityId}
    (done : s.register type element kind label properties = .ok (id, s')) :
    ∃ e, s'.find? element = some e ∧ e.id = id ∧ e.type = type := by
  have numbered := h.register done
  have there {e : Entity} (stored : s'.get? id = some e) (same : e.element = element) :
      s'.find? element = some e :=
    numbered.find?_eq_some_iff.mpr ⟨List.mem_of_getElem? stored, same⟩
  obtain ⟨e, found, same, rfl, rfl⟩ | ⟨-, -, rfl, rfl⟩ := register_cases done
  · obtain ⟨member, element'⟩ := find?_eq_some_of_mem found
    refine ⟨extended e label properties, there ?_ element', rfl, same⟩
    rw [get?_extend, if_pos rfl, h.get? member]
    rfl
  · exact ⟨_, there (by rw [get?_create, if_pos rfl]) rfl, rfl, rfl⟩

/-! ## The kind that a type was first given to -/

section Refusing

variable {requests : List Request} {type : EntityType} {element : ElementId} {kind : ElementKind}
  {label : Option String} {properties : Properties}

end Refusing

namespace ClassAsEndpoint

/-- A class and a method get entities, and the class is refused a second one. -/
def requests : List Request :=
  [.register "controller" ⟨1⟩ .classDef (some "A") [], .register "endpoint" ⟨2⟩ .method none [],
    .register "endpoint" ⟨1⟩ .classDef (some "B") []]

def later : List Request := [.addChild ⟨0⟩ "endpoints" ⟨1⟩, .update ⟨0⟩ (some "C") []]

end ClassAsEndpoint

end EntityStore

end ClassAtlas
