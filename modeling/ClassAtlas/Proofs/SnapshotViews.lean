import ClassAtlas.Proofs.EntityIntegrity
import ClassAtlas.Proofs.Relations
import ClassAtlas.Snapshot.Build

/-! # The views of a snapshot

A snapshot shows the links between entities three times: grouped below each parent, as one flat list, and
as a figure. The store can also be asked for them from the child's side. All these views are of one set of
links, which a run makes between entities that are there and makes once, and the other figures count what
the snapshot lists.
-/

namespace ClassAtlas

/-! ## What is listed in groups -/

section Groups

variable {α κ : Type}

end Groups

/-! ## The links of a store -/

theorem Relation.before_strict : Ordered.Strict Relation.before where
  irrefl r := by simp [Relation.before, EntityId.before]
  trans a b c := by
    simp only [Relation.before, EntityId.before, Bool.or_eq_true, Bool.and_eq_true, decide_eq_true_eq, beq_iff_eq]
    rintro (less | ⟨parent, less | ⟨key, less⟩⟩) (less' | ⟨parent', less' | ⟨key', less'⟩⟩)
    all_goals grind [String.lt_trans]
  total a b := by
    obtain ⟨⟨p⟩, k, ⟨c⟩⟩ := a
    obtain ⟨⟨p'⟩, k', ⟨c'⟩⟩ := b
    have names := Ordered.strict_names.total k k'
    simp only [Relation.before, EntityId.before]
    grind

namespace EntityStore

variable {s : EntityStore} {key : String}

end EntityStore

/-! ## The entities of a run -/

theorem Running.evolves : Running fun m m' => m.entities.Evolves m'.entities :=
  .ofAdvances ⟨fun _ => .refl, fun first second => first.trans second⟩ Model.Advances.entities
    fun kind source target key backtrack m =>
      CallScanner.relate_keeps .evolves m.index kind source target (key.getD kind.name) backtrack m.entities m.scanner

def EntityRecord.childrenUnder (e : EntityRecord) (key : String) : List EntityId :=
  (Ordered.get? key e.children).getD []

/-- The order of relations: by source, then by key, then by target. -/
def RelationRecord.Precedes (a b : RelationRecord) : Prop :=
  a.source.val < b.source.val ∨
    a.source = b.source ∧ (a.key < b.key ∨ a.key = b.key ∧ a.target.val < b.target.val)

/-- What a snapshot lists and counts is one set of entities and one set of links, those of a store. -/
structure Snapshot.Shows (s : Snapshot) (store : EntityStore) : Prop where
  /-- Every entity once, in order of the numbers. -/
  numbers : s.entities.map (·.id) = (List.range store.size).map EntityId.mk
  records : ∀ e ∈ s.entities, ∃ entity, store.get? e.id = some entity ∧
    e.type = entity.type ∧ e.label = entity.label ∧ e.element = entity.element
  synthetic : ∀ e ∈ s.entities, e.synthetic = true ↔ e.element.val ≤ 0
  /-- Both lists have the same links, and each has a link once. -/
  children : ∀ e ∈ s.entities, ∀ key child,
    child ∈ e.childrenUnder key ↔ ⟨e.id, child, key⟩ ∈ s.relations
  endpoints : ∀ r ∈ s.relations, r.source ∈ s.entities.map (·.id) ∧ r.target ∈ s.entities.map (·.id)
  relationsOnce : s.relations.Nodup
  childrenOnce : ∀ e ∈ s.entities, ∀ key, (e.childrenUnder key).Nodup
  /-- Both are sorted. -/
  relationsSorted : s.relations.Pairwise RelationRecord.Precedes
  keysSorted : ∀ e ∈ s.entities, e.children.Pairwise fun a b => a.1 < b.1
  childrenSorted : ∀ e ∈ s.entities, ∀ group ∈ e.children, group.2.Pairwise fun a b => a.val < b.val
  /-- The child's side sees them too. -/
  parents : ∀ e ∈ s.entities, ∀ key child,
    (e.id, key) ∈ store.parents child ↔ child ∈ e.childrenUnder key
  entityCount : Ordered.get? "entities" s.stats = some (.nat s.entities.length)
  /-- A figure for every type in use, which add up to the number of entities. -/
  typeCounts : ∃ counts : List (EntityType × Nat),
    Ordered.get? "entities_by_type" s.stats = some (.object (counts.map fun c => (c.1, .nat c.2))) ∧
    (counts.Pairwise fun a b => a.1 < b.1) ∧
    (∀ type n, (type, n) ∈ counts ↔ 0 < n ∧ n = (s.entities.filter (·.type == type)).length) ∧
    counts.foldr (fun c total => c.2 + total) 0 = s.entities.length
  relationCount : Ordered.get? "relations" s.stats = some (.nat s.relations.length) ∧
    s.relations.length = (s.entities.flatMap fun e => e.children.flatMap (·.2)).length

namespace RunResult

variable {r : RunResult}

def typeCounts (r : RunResult) : List (EntityType × Nat) :=
  r.entities.types.map fun t => (t, (r.entities.ofType t).length)

end RunResult

namespace CallsBothWays

def classes : List ClassDeclaration :=
  let body : List Instruction := [.instantiate "a/Callee", .invoke .static "a/Callee" "n" "()V"]
  [{ name := "a/Caller", methods := [{ name := "m", desc := "()V", instructions := body }] },
   { name := "a/Callee", methods := [{ name := "n", desc := "()V" }] }]

/-- Relates the classes by calls, with links back, and by instances. -/
def pipeline : Pipeline :=
  { name := "calls"
    action := .chain
      [.nested (.chain [.step .classes, .step (.registerEntity "node" none [])]),
        .step (.relate .invokes "node" "node" none true),
        .step (.relate .instantiates "node" "node" none false)] }

end CallsBothWays

end ClassAtlas
