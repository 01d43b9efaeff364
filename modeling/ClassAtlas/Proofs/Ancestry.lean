import Mathlib.Data.Nat.Find
import ClassAtlas.Proofs.LevelOrder
import ClassAtlas.Proofs.MethodUses

/-! # Where elements come from

An element comes from the element that it is part of and from its causes, and these from others in turn.
Causes can lead back to where they started: a class may be there because of one of its own fields. The
ancestors of an element are what it comes from in this way, nearest first, and whoever looks for the first
of them with some property finds a nearest one.
-/

namespace ClassAtlas

namespace Model

/-- So many steps lead back from an element to another, each to the element that it is part of or to one
    of its causes. -/
inductive ComesFrom (m : Model) (id : ElementId) : Nat → ElementId → Prop where
  | self : ComesFrom m id 0 id
  | part {n : Nat} {x y : ElementId} :
      ComesFrom m id n x → m.index.parent? x = some y → ComesFrom m id (n + 1) y
  | cause {n : Nat} {x y : ElementId} :
      ComesFrom m id n x → y ∈ m.provenance.causes x → ComesFrom m id (n + 1) y

/-- What is nearest to an element among those with a property: an element from which it comes by as few
    steps as possible, or nothing if it comes from none. -/
inductive Nearest (m : Model) (id : ElementId) (P : ElementId → Prop) : Option ElementId → Prop where
  | found {n : Nat} {a : ElementId} (comes : m.ComesFrom id n a) (has : P a)
      (least : ∀ k b, m.ComesFrom id k b → P b → n ≤ k) : Nearest m id P (some a)
  | missing (lacks : ∀ k b, m.ComesFrom id k b → ¬ P b) : Nearest m id P none

variable {m : Model} {id a : ElementId} {n : Nat}

theorem mem_sources {x y : ElementId} :
    y ∈ m.provenance.sources m.index x ↔ m.index.parent? x = some y ∨ y ∈ m.provenance.causes x := by
  simp [Provenance.sources, Option.mem_toList]

theorem comesFrom_iff : m.ComesFrom id n a ↔ Search.Reaches (m.provenance.sources m.index) [id] n a := by
  constructor
  · intro comes
    induction comes with
    | self => exact .start (List.mem_singleton_self id)
    | part _ parent ih => exact ih.link (mem_sources.mpr (.inl parent))
    | cause _ cause ih => exact ih.link (mem_sources.mpr (.inr cause))
  · intro path
    induction path with
    | start member =>
      rw [List.mem_singleton.mp member]
      exact .self
    | link _ link ih =>
      rcases mem_sources.mp link with parent | cause
      · exact .part ih parent
      · exact .cause ih cause

/-! ## Ancestors -/

def origins (m : Model) : List ElementId :=
  m.index.ids.filterMap m.index.parent? ++ m.provenance.causeLists.flatMap (·.2)

theorem mem_origins {x y : ElementId} (link : y ∈ m.provenance.sources m.index x) : y ∈ m.origins := by
  rcases mem_sources.mp link with parent | cause
  · obtain ⟨element, found, -⟩ := Option.bind_eq_some_iff.mp parent
    have known : x ∈ m.index.ids := ElementIndex.mem_ids.mpr (by rw [found]; rfl)
    exact List.mem_append_left _ (List.mem_filterMap.mpr ⟨x, known, parent⟩)
  · refine List.mem_append_right _ (List.mem_flatMap.mpr ?_)
    unfold Provenance.causes Ordered.get? at cause
    cases entry : m.provenance.causeLists.find? (·.1 == x) with
    | none => simp [entry] at cause
    | some listed => exact ⟨listed, List.mem_of_find?_eq_some entry, by simpa [entry] using cause⟩

theorem length_origins (m : Model) : m.origins.length ≤
    m.index.size + m.provenance.causeLists.foldl (fun n c => n + c.2.length) 0 := by
  have parents := List.length_filterMap_le m.index.parent? m.index.ids
  have causes : (m.provenance.causeLists.flatMap (·.2)).length ≤
      m.provenance.causeLists.foldl (fun n c => n + c.2.length) 0 :=
    Search.length_flatMap_le (fun c => Nat.le_refl c.2.length) _
  rw [m.index.length_ids] at parents
  rw [origins, List.length_append]
  omega

theorem ancestors_frontier (m : Model) (id : ElementId) :
    Search.Frontier (m.provenance.sources m.index) [id] (id :: m.ancestors id) [] := by
  have room := Search.unseen_le m.origins [id]
  have links := m.length_origins
  have enough : [id].length + Search.unseen m.origins ([] ++ [id]) ≤
      m.index.size + m.provenance.causeLists.foldl (fun n c => n + c.2.length) 0 + 1 := by
    rw [List.length_singleton, List.nil_append]
    omega
  have begun : Search.Frontier (m.provenance.sources m.index) [id] [] [id] := .initial (by simp)
  have swept := Search.sweep_frontier (fun _ _ => mem_origins) begun enough
  obtain ⟨found, begins⟩ := Search.sweep_begins (m.provenance.sources m.index)
    (m.index.size + m.provenance.causeLists.foldl (fun n c => n + c.2.length) 0 + 1) [id] [id]
  have same : m.ancestors id = found := (congrArg List.tail begins).symm
  rw [same]
  rwa [List.nil_append, ← begins] at swept

theorem ancestors_nodup (m : Model) (id : ElementId) : (m.ancestors id).Nodup ∧ id ∉ m.ancestors id := by
  have distinct := (m.ancestors_frontier id).distinct
  rw [List.append_nil, List.nodup_cons] at distinct
  exact distinct.symm

theorem mem_self_or_ancestors : a ∈ id :: m.ancestors id ↔ ∃ n, m.ComesFrom id n a := by
  simp only [(m.ancestors_frontier id).exhausted, comesFrom_iff]

theorem mem_ancestors : a ∈ m.ancestors id ↔ a ≠ id ∧ ∃ n, m.ComesFrom id (n + 1) a := by
  have proper := (m.ancestors_nodup id).2
  constructor
  · intro member
    have other : a ≠ id := fun same => proper (same ▸ member)
    obtain ⟨n, comes⟩ := mem_self_or_ancestors.mp (List.mem_cons_of_mem id member)
    cases n with
    | zero =>
      cases comes
      exact absurd rfl other
    | succ n => exact ⟨other, n, comes⟩
  · rintro ⟨other, n, comes⟩
    exact (List.mem_cons.mp (mem_self_or_ancestors.mpr ⟨n + 1, comes⟩)).resolve_left other

theorem ancestors_ordered (m : Model) (id : ElementId) : (id :: m.ancestors id).Pairwise fun a b =>
    ∀ n, m.ComesFrom id n b → ∃ k ≤ n, m.ComesFrom id k a := by
  have ordered := (m.ancestors_frontier id).ordered
  rw [List.append_nil] at ordered
  refine ordered.imp fun {a b} nearer n comes => ?_
  obtain ⟨k, atMost, path⟩ := nearer n (comesFrom_iff.mp comes)
  exact ⟨k, atMost, comesFrom_iff.mpr path⟩

/-! ## The nearest of them -/

open Classical in
theorem nearest_of_find? {P : ElementId → Prop} {test : ElementId → Bool} {line : List ElementId}
    (ordered : line.Pairwise fun a b => ∀ n, m.ComesFrom id n b → ∃ k ≤ n, m.ComesFrom id k a)
    (comes : ∀ a ∈ line, ∃ n, m.ComesFrom id n a) (tested : ∀ a ∈ line, test a = true ↔ P a)
    (all : ∀ n a, m.ComesFrom id n a → P a → a ∈ line) : m.Nearest id P (line.find? test) := by
  cases found : line.find? test with
  | none =>
    refine .missing fun k b there has => ?_
    have member := all k b there has
    exact List.find?_eq_none.mp found b member ((tested b member).mpr has)
  | some a =>
    obtain ⟨passes, before, after, place, failed⟩ := List.find?_eq_some_iff_append.mp found
    have member : a ∈ line := by simp [place]
    have away := comes a member
    refine .found (Nat.find_spec away) ((tested a member).mp passes) fun k b there has => ?_
    -- What fails the test stands before, and the rest is no nearer.
    have listed := all k b there has
    have passes' := (tested b listed).mpr has
    rw [place] at listed ordered
    have later : b ∈ a :: after := (List.mem_append.mp listed).resolve_left fun early => by
      simpa [passes'] using failed b early
    have nearer : ∃ j ≤ k, m.ComesFrom id j a := by
      rcases List.mem_cons.mp later with rfl | later
      · exact ⟨k, Nat.le_refl k, there⟩
      · exact List.rel_of_pairwise_cons (List.pairwise_append.mp ordered).2.1 later k there
    obtain ⟨j, atMost, here⟩ := nearer
    exact Nat.le_trans (Nat.find_min' away here) atMost

def OfKind (m : Model) (kind : ScopeKind) (a : ElementId) : Prop :=
  (m.index.kind? a).map ScopeKind.elements = some kind

def Bound (m : Model) (type : EntityType) (a : ElementId) : Prop :=
  ∃ e, m.entities.find? a = some e ∧ e.type = type

theorem nearest_ofKind (m : Model) (kind : ScopeKind) (id : ElementId) :
    m.Nearest id (fun a => a ≠ id ∧ m.OfKind kind a)
      ((m.ancestors id).find? fun a => (m.index.kind? a).map .elements == some kind) := by
  have ordered := List.Pairwise.of_cons (m.ancestors_ordered id)
  refine nearest_of_find? ordered (fun a member => ?_) (fun a member => ?_) fun n a comes has => ?_
  · exact mem_self_or_ancestors.mp (List.mem_cons_of_mem id member)
  · have other : a ≠ id := (mem_ancestors.mp member).1
    simp [other, OfKind]
  · exact (List.mem_cons.mp (mem_self_or_ancestors.mpr ⟨n, comes⟩)).resolve_left has.1

theorem nearest_bound (m : Model) (type : EntityType) (id : ElementId) :
    ∃ place, m.Nearest id (m.Bound type) place ∧ m.enclosingEntity? id type = place.bind m.entities.find? := by
  have own : ∀ a e, (m.entities.find? a).filter (·.type == type) = some e ↔
      m.entities.find? a = some e ∧ e.type = type := by
    intro a e
    rw [Option.filter_eq_some_iff, beq_iff_eq]
  have bound : ∀ a, ((m.entities.find? a).filter (·.type == type)).isSome ↔ m.Bound type a := by
    intro a
    rw [Option.isSome_iff_exists]
    exact exists_congr (own a)
  refine ⟨(id :: m.ancestors id).find? fun a => ((m.entities.find? a).filter (·.type == type)).isSome, ?_, ?_⟩
  · exact nearest_of_find? (m.ancestors_ordered id) (fun a => mem_self_or_ancestors.mp) (fun a _ => bound a)
      fun n a comes _ => mem_self_or_ancestors.mpr ⟨n, comes⟩
  · unfold enclosingEntity?
    generalize id :: m.ancestors id = line
    cases found : line.find? fun a => ((m.entities.find? a).filter (·.type == type)).isSome with
    | none =>
      rw [Option.bind_none, List.findSome?_eq_none_iff]
      intro a member
      exact Option.not_isSome_iff_eq_none.mp (List.find?_eq_none.mp found a member)
    | some a =>
      obtain ⟨passes, before, after, place, failed⟩ := List.find?_eq_some_iff_append.mp found
      obtain ⟨e, has⟩ := Option.isSome_iff_exists.mp passes
      rw [Option.bind_some, ((own a e).mp has).1]
      refine List.findSome?_eq_some_iff.mpr ⟨before, a, after, place, has, fun b early => ?_⟩
      have fails := failed b early
      rw [Option.not_isSome, Option.isNone_iff_eq_none] at fails
      exact fails

end Model

/-- An element's ancestors are exactly the other elements that it comes from by one step or more, each
    once and none after a farther one, also when causes lead in a circle. So ascending goes from each element
    to one of a kind at the least distance, and the entity that encloses an element is that of the nearest
    one bound to its type, wherever there is one. -/
theorem ancestors_nearest_first (m : Model) :
    (∀ id, ((m.ancestors id).Nodup ∧ id ∉ m.ancestors id) ∧
      (∀ a, a ∈ m.ancestors id ↔ a ≠ id ∧ ∃ n, m.ComesFrom id (n + 1) a) ∧
      (m.ancestors id).Pairwise fun a b => ∀ n, m.ComesFrom id n b → ∃ k ≤ n, m.ComesFrom id k a) ∧
    (∀ kind, ∃ nearest : ElementId → Option ElementId,
      (∀ id, m.Nearest id (fun a => a ≠ id ∧ m.OfKind kind a) (nearest id)) ∧
      ∀ given ids, (Step.ascend kind).apply (.elements given ids) m =
        (.ok (.ofIds kind (ids.filterMap nearest)), m)) ∧
    ∀ type id, ∃ place, m.Nearest id (m.Bound type) place ∧
      m.enclosingEntity? id type = place.bind m.entities.find? := by
  refine ⟨fun id => ⟨m.ancestors_nodup id, fun a => Model.mem_ancestors, ?_⟩, fun kind => ?_, m.nearest_bound⟩
  · exact List.Pairwise.of_cons (m.ancestors_ordered id)
  · exact ⟨_, m.nearest_ofKind kind, fun given ids => rfl⟩

-- A class that is there because of the field that is part of it. Neither is its own ancestor.
example :
    let node : ClassDeclaration := { name := "a/Node", fields := [{ name := "next", desc := "La/Node;" }] }
    let m := ((Step.explodeType false).apply (.ofKind .field [⟨2⟩]) (.ofClasses {} [node])).2
    m.ancestors ⟨1⟩ = [⟨2⟩] ∧ m.ancestors ⟨2⟩ = [⟨1⟩] := by
  decide +kernel

end ClassAtlas
