import ClassAtlas.Proofs.InheritedMembers
import ClassAtlas.Proofs.StubClasses

/-! # The order in which a call is looked up

A call names a class. Its method is looked for in that class, then in the superclasses, nearest first, and
then in the interfaces of all these, of those interfaces, and so on. The search for interfaces takes classes
from a queue; here it is compared with whole rounds, each of which adds what the classes so far lead to.
Hierarchies may have cycles: no class is searched twice.
-/

namespace ClassAtlas

/-! ## Rounds of a search -/

namespace Search

variable {α : Type} [BEq α]

/-- What is there after so many rounds. Each adds what the nodes so far lead to, in their order and each
    node once, after them. -/
def rounds (next : α → List α) (starts : List α) : Nat → List α
  | 0 => starts
  | n + 1 => rounds next starts n ++ fresh (rounds next starts n) ((rounds next starts n).flatMap next)

theorem rounds_succ (next : α → List α) (starts : List α) (n : Nat) :
    rounds next starts (n + 1) = rounds next (starts ++ fresh starts (starts.flatMap next)) n := by
  induction n with
  | zero => rfl
  | succ n ih =>
    rw [rounds, ih]
    rfl

theorem rounds_of_closed {next : α → List α} {starts : List α} (closed : fresh starts (starts.flatMap next) = [])
    (n : Nat) : rounds next starts n = starts := by
  induction n with
  | zero => rfl
  | succ n ih => rw [rounds, ih, closed, List.append_nil]

variable [LawfulBEq α]

theorem fresh_eq_nil {seen xs : List α} : fresh seen xs = [] ↔ xs ⊆ seen := by
  rw [List.eq_nil_iff_forall_not_mem]
  refine forall_congr' fun x => ?_
  rw [mem_fresh, not_and, not_not]

theorem sweep_queue (next : α → List α) (fuel : Nat) (queue waiting seen : List α) :
    sweep next (fuel + queue.length) (queue ++ waiting) seen =
      sweep next fuel (waiting ++ fresh seen (queue.flatMap next)) (seen ++ fresh seen (queue.flatMap next)) := by
  induction queue generalizing waiting seen with
  | nil => simp [fresh]
  | cons x queue ih =>
    have seenNow : fresh (seen ++ fresh seen (next x)) (queue.flatMap next) =
        fresh (next x ++ seen) (queue.flatMap next) :=
      fresh_congr (by simp [mem_fresh, or_and_left, em, or_comm]) _
    rw [List.length_cons, ← Nat.add_assoc, List.cons_append, sweep, List.append_assoc, ih, List.flatMap_cons,
      fresh_append, seenNow, List.append_assoc, List.append_assoc]

theorem sweep_eq_rounds {next : α → List α} {nodes : List α} (inside : ∀ x, ∀ y ∈ next x, y ∈ nodes)
    {fuel n : Nat} {done queue : List α} (closed : ∀ x ∈ done, ∀ y ∈ next x, y ∈ done ++ queue)
    (enough : queue.length + unseen nodes (done ++ queue) ≤ fuel) (many : unseen nodes (done ++ queue) ≤ n) :
    sweep next fuel queue (done ++ queue) = rounds next (done ++ queue) n := by
  -- The queue is taken as a whole; what is done adds nothing to the round.
  have swept := sweep_queue next (fuel - queue.length) queue [] (done ++ queue)
  rw [Nat.sub_add_cancel (by omega), List.append_nil, List.nil_append] at swept
  have round : fresh (done ++ queue) ((done ++ queue).flatMap next) = fresh (done ++ queue) (queue.flatMap next) := by
    have old : done.flatMap next ⊆ done ++ queue := by
      intro y member
      obtain ⟨x, before, link⟩ := List.mem_flatMap.mp member
      exact closed x before y link
    rw [List.flatMap_append, fresh_append, fresh_eq_nil.mpr old, List.nil_append]
    exact fresh_congr (fun y => List.mem_append.trans (or_iff_right_of_imp fun member => old member)) _
  have new : ∀ y ∈ fresh (done ++ queue) (queue.flatMap next), y ∈ nodes ∧ y ∉ done ++ queue := by
    intro y member
    obtain ⟨link, unknown⟩ := mem_fresh.mp member
    obtain ⟨x, _, leads⟩ := List.mem_flatMap.mp link
    exact ⟨inside x y leads, unknown⟩
  have room := unseen_append (fresh_nodup (done ++ queue) (queue.flatMap next)) new
  have closed' : ∀ x ∈ done ++ queue, ∀ y ∈ next x,
      y ∈ done ++ queue ++ fresh (done ++ queue) (queue.flatMap next) := by
    intro x member y link
    rw [← round, List.mem_append, mem_fresh, List.mem_flatMap]
    exact (em (y ∈ done ++ queue)).imp_right fun unknown => ⟨⟨x, member, link⟩, unknown⟩
  rw [swept]
  by_cases ended : fresh (done ++ queue) (queue.flatMap next) = []
  · rw [rounds_of_closed (round.trans ended), ended, List.append_nil]
    cases fuel - queue.length <;> rfl
  · have found := List.length_pos_of_ne_nil ended
    cases n with
    | zero => omega
    | succ n =>
      rw [rounds_succ, round]
      exact sweep_eq_rounds inside closed' (by omega) (by omega)

end Search

/-! ## Classes and their interfaces -/

namespace ClassPool

variable {pool : ClassPool} {c : Nat}

theorem interfaces_lt {d : Nat} (named : d ∈ pool.interfaces c) : d < pool.length := by
  unfold interfaces at named
  split at named
  · cases named
  · obtain ⟨t, -, known⟩ := List.mem_filterMap.mp named
    exact indexOf?_lt known

/-- A class and its superclasses, nearest first, then the interfaces that these lead to in the order of
    rounds, hence by distance. Each class stands there once. -/
structure SearchOrder (pool : ClassPool) (c : Nat) (supers order : List Nat) : Prop where
  nearest : ∀ i d, supers[i]? = some d → pool.superclassAt? c i = some d
  all : ∀ i d, pool.superclassAt? c i = some d → d ∈ supers
  first : supers <+: order
  distinct : order.Nodup
  reached : ∀ d, d ∈ order ↔ ∃ n, Search.Reaches pool.interfaces supers n d
  byDistance : order.Pairwise (Search.NoFarther pool.interfaces supers)
  byRounds : ∀ n ≥ pool.length, order = Search.rounds pool.interfaces supers n

theorem superclassChain_lt (known : c < pool.length) {d : Nat} (above : d ∈ pool.superclassChain c) :
    d < pool.length := by
  rcases Search.mem_walk above with start | ⟨sub, link⟩
  · exact List.mem_singleton.mp start ▸ known
  · exact (superclass?_lt link).2

theorem lookupOrder_searchOrder (known : c < pool.length) :
    pool.SearchOrder c (pool.superclassChain c) (pool.lookupOrder c) := by
  have distinct := (pool.superclassChain_distinct c).1
  have inside : ∀ d, ∀ i ∈ pool.interfaces d, i ∈ List.range pool.length :=
    fun d i named => List.mem_range.mpr (interfaces_lt named)
  -- The chain takes as much fuel as it has classes, and these are no longer unseen.
  have enough : (pool.superclassChain c).length +
      Search.unseen (List.range pool.length) (pool.superclassChain c) ≤ pool.length + 1 := by
    have new : ∀ d ∈ pool.superclassChain c, d ∈ List.range pool.length ∧ d ∉ ([] : List Nat) :=
      fun d above => ⟨List.mem_range.mpr (superclassChain_lt known above), List.not_mem_nil⟩
    have room := Search.unseen_append distinct new
    have all := Search.unseen_le (List.range pool.length) []
    rw [List.length_range] at all
    rw [List.nil_append] at room
    omega
  have few := Search.unseen_le (List.range pool.length) (pool.superclassChain c)
  rw [List.length_range] at few
  have frontier : Search.Frontier pool.interfaces (pool.superclassChain c) (pool.lookupOrder c) [] :=
    Search.sweep_frontier inside (.initial distinct) enough
  constructor
  case nearest => exact fun i d => superclassAt?_of_chain
  case all => exact fun i d => mem_superclassChain
  case first => exact Search.sweep_begins _ _ _ _
  case distinct => simpa using frontier.distinct
  case reached => exact fun d => frontier.exhausted
  case byDistance => simpa using frontier.ordered
  case byRounds =>
    intro n many
    have closed : ∀ x ∈ ([] : List Nat), ∀ y ∈ pool.interfaces x, y ∈ [] ++ pool.superclassChain c :=
      fun x member => nomatch member
    exact Search.sweep_eq_rounds inside closed enough (few.trans many)

end ClassPool

/-! ## The first class that has a match -/

namespace ElementIndex

variable {ix : ElementIndex} {owner : TypeName} {name desc : String}

/-- The first method of a class that a call means stands at this place. -/
def MeantAt (ix : ElementIndex) (name desc : String) (c position : Nat) : Prop :=
  ∃ d m, ix.classes[c]? = some d ∧ d.methods[position]? = some m ∧ ix.Means name desc c m ∧
    ∀ i < position, ∀ m', d.methods[i]? = some m' → ¬ix.Means name desc c m'

theorem methodPosition?_eq_some_iff {c position : Nat} :
    ix.methodPosition? name desc c = some position ↔ ix.MeantAt name desc c position := by
  constructor
  · intro found
    cases there : ix.classes[c]? with
    | none => simp [methodPosition?, there] at found
    | some d =>
      have match' := found
      rw [methodPosition?_eq there, List.findIdx?_eq_some_iff_getElem] at match'
      obtain ⟨inside, means, -⟩ := match'
      have body := List.getElem?_eq_getElem inside
      exact ⟨d, _, there, body, of_decide_eq_true means,
        (methodPosition?_eq_some there body (of_decide_eq_true means)).mp found⟩
  · rintro ⟨d, m, there, body, means, first⟩
    exact (methodPosition?_eq_some there body means).mpr first

theorem methodPosition?_eq_none_iff {c : Nat} :
    ix.methodPosition? name desc c = none ↔ ∀ position, ¬ix.MeantAt name desc c position := by
  simp only [Option.eq_none_iff_forall_ne_some, ne_eq, methodPosition?_eq_some_iff]

theorem Coherent.declared_iff {r : SignatureResolver} (h : ix.Coherent r) {c position : Nat} {id : ElementId} :
    ix.find? (.member .method c position c) = some id ↔
      ∃ cls, ix.find? (.classDef c) = some cls ∧ ix.get? id = some (.member .method c position cls none) := by
  constructor
  · intro found
    obtain ⟨element, stored, justified⟩ := h.stored found
    cases justified with
    | declaredMember home => exact ⟨_, home, stored⟩
    | inheritedMember elsewhere => exact absurd rfl elsewhere
  · rintro ⟨cls, home, stored⟩
    obtain ⟨key, found, justified⟩ := h.keyed stored
    cases justified
    exact found

theorem resolveMethod?_eq_some_iff {c : Nat} (named : ix.classes.indexOf? owner = some c)
    (distinct : (ix.classes.lookupOrder c).Nodup) {id : ElementId} :
    ix.resolveMethod? owner name desc = some id ↔
      ∃ before d after position, ix.classes.lookupOrder c = before ++ d :: after ∧
        (∀ e ∈ before, ∀ i, ¬ix.MeantAt name desc e i) ∧ ix.MeantAt name desc d position ∧
        ix.find? (.member .method d position d) = some id := by
  have matched {before after : List Nat} {d position : Nat} (split : ix.classes.lookupOrder c = before ++ d :: after) :
      (ix.classes.lookupOrder c).findSome? (fun d => (ix.methodPosition? name desc d).map (d, ·)) =
          some (d, position) ↔
        (∀ e ∈ before, ∀ i, ¬ix.MeantAt name desc e i) ∧ ix.MeantAt name desc d position := by
    have absent : d ∉ before := by
      rw [split] at distinct
      exact fun member => (List.nodup_append.mp distinct).2.2 d member d List.mem_cons_self rfl
    simp only [split, firstMatch_append absent, methodPosition?_eq_none_iff, methodPosition?_eq_some_iff]
  simp only [resolveMethod?, named, Option.bind_eq_bind, Option.bind_some, Option.bind_eq_some_iff]
  constructor
  · rintro ⟨⟨d, position⟩, first, found⟩
    obtain ⟨before, after, split⟩ := List.append_of_mem (mem_of_firstMatch first).1
    obtain ⟨none', meant⟩ := (matched split).mp first
    exact ⟨before, d, after, position, split, none', meant, found⟩
  · rintro ⟨before, d, after, position, split, none', meant, found⟩
    exact ⟨(d, position), (matched split).mpr ⟨none', meant⟩, found⟩

theorem resolveMethod?_eq_none_iff (complete : ix.Complete) {c : Nat} (named : ix.classes.indexOf? owner = some c) :
    ix.resolveMethod? owner name desc = none ↔
      ∀ d ∈ ix.classes.lookupOrder c, ∀ position, ¬ix.MeantAt name desc d position := by
  have unmatched : (ix.classes.lookupOrder c).findSome? (fun d => (ix.methodPosition? name desc d).map (d, ·)) = none ↔
      ∀ d ∈ ix.classes.lookupOrder c, ∀ position, ¬ix.MeantAt name desc d position := by
    simp only [List.findSome?_eq_none_iff, Option.map_eq_none_iff, methodPosition?_eq_none_iff]
  rw [← unmatched]
  simp only [resolveMethod?, named, Option.bind_eq_bind, Option.bind_some]
  cases first : (ix.classes.lookupOrder c).findSome? fun d => (ix.methodPosition? name desc d).map (d, ·) with
  | none => simp
  | some place =>
    obtain ⟨d, m, there, body, -⟩ := methodPosition?_eq_some_iff.mp (mem_of_firstMatch first).2
    have inside : place.1 < ix.classes.length := (List.getElem?_eq_some_iff.mp there).1
    have element := (complete place.1 inside).methods there place.2 (List.getElem?_eq_some_iff.mp body).1
    obtain ⟨id, found⟩ := Option.isSome_iff_exists.mp element
    simp [found]

end ElementIndex

/-- How calls are resolved in any state of an index. The order of the search is that of `SearchOrder`. The
    result is the declared method at the first match, so a superclass's method comes before an interface's. -/
theorem resolveMethod?_follows_order (classes : List ClassDeclaration) (ops : List IndexOperation)
    (owner : TypeName) (name desc : String) :
    let ix := (IndexState.after classes ops).index
    (ix.classes.indexOf? owner = none → ix.resolveMethod? owner name desc = none) ∧
    ∀ c, ix.classes.indexOf? owner = some c →
      let supers := ix.classes.superclassChain c
      let order := ix.classes.lookupOrder c
      ix.classes.SearchOrder c supers order ∧
      (ix.resolveMethod? owner name desc = none ↔ ∀ d ∈ order, ∀ position, ¬ix.MeantAt name desc d position) ∧
      (∀ id, ix.resolveMethod? owner name desc = some id ↔
        ∃ before d after position cls, order = before ++ d :: after ∧
          (∀ e ∈ before, ∀ i, ¬ix.MeantAt name desc e i) ∧ ix.MeantAt name desc d position ∧
          ix.find? (.classDef d) = some cls ∧ ix.get? id = some (.member .method d position cls none)) ∧
      ((∃ d ∈ supers, ∃ position, ix.MeantAt name desc d position) →
        ∃ id d position cls, ix.resolveMethod? owner name desc = some id ∧ d ∈ supers ∧
          ix.get? id = some (.member .method d position cls none)) := by
  intro ix
  have coherent : ix.Coherent _ := (IndexState.after_accepted classes ops).2.1
  have complete : ix.Complete := (IndexState.after_listed classes ops).complete
  refine ⟨fun unknown => by simp [ElementIndex.resolveMethod?, unknown], ?_⟩
  intro c named supers order
  have search : ix.classes.SearchOrder c supers order :=
    ClassPool.lookupOrder_searchOrder (ClassPool.indexOf?_lt named)
  have none' : ix.resolveMethod? owner name desc = none ↔ ∀ d ∈ order, ∀ position, ¬ix.MeantAt name desc d position :=
    ElementIndex.resolveMethod?_eq_none_iff complete named
  have some' : ∀ id, ix.resolveMethod? owner name desc = some id ↔
      ∃ before d after position cls, order = before ++ d :: after ∧
        (∀ e ∈ before, ∀ i, ¬ix.MeantAt name desc e i) ∧ ix.MeantAt name desc d position ∧
        ix.find? (.classDef d) = some cls ∧ ix.get? id = some (.member .method d position cls none) := by
    intro id
    simp only [ElementIndex.resolveMethod?_eq_some_iff named search.distinct, coherent.declared_iff,
      exists_and_left]
    rfl
  refine ⟨search, none', some', ?_⟩
  rintro ⟨d, above, position, meant⟩
  have present : ix.resolveMethod? owner name desc ≠ none := fun absent =>
    none'.mp absent d (search.first.subset above) position meant
  obtain ⟨id, resolved⟩ := Option.ne_none_iff_exists'.mp present
  obtain ⟨before, d', after, position', cls, split, clear, meant', home, stored⟩ := (some' id).mp resolved
  refine ⟨id, d', position', cls, resolved, ?_, stored⟩
  -- The chain and what stands up to the first match both begin the order, and the match in the chain is not
  -- before the first one.
  have upTo : before ++ [d'] <+: order := ⟨after, by rw [split, List.append_assoc, List.singleton_append]⟩
  rcases List.prefix_or_prefix_of_prefix upTo search.first with within | around
  · exact within.subset (List.mem_append_right _ (List.mem_singleton_self d'))
  · rcases List.mem_append.mp (around.subset above) with earlier | same
    · exact absurd meant (clear d earlier position)
    · exact List.mem_singleton.mp same ▸ above

namespace CircularPets

/-- Dogs and pets are each other's superclass, and two interfaces lead to each other. -/
def classes : List ClassDeclaration :=
  [{ name := "app/Dog", superName := some "app/Pet", interfaces := ["app/Named"] },
   { name := "app/Pet", superName := some "app/Dog", interfaces := ["app/Tagged"],
     methods := [{ name := "name", desc := "()V" }] },
   { name := "app/Named", interfaces := ["app/Keyed", "app/Tagged"],
     methods := [{ name := "name", desc := "()V" }, { name := "tag", desc := "()V" }] },
   { name := "app/Tagged", interfaces := ["app/Named"], methods := [{ name := "tag", desc := "()V" }] }]

/-- An interface that is named and not given is made up. -/
def made : List IndexOperation := [.synthesize ⟨"app.Keyed"⟩ ["key"]]

def index : ElementIndex := (IndexState.after classes made).index

def dog : TypeName := ⟨"app.Dog"⟩

/-- A superclass comes before the interfaces, of two interfaces the one named first does, and the made-up one
    has a method for any descriptor. -/
theorem calls_of_dog :
    index.classes.SearchOrder 0 [0, 1] [0, 1, 2, 3, 4] ∧
      (∃ id d position cls, index.resolveMethod? dog "name" "()V" = some id ∧ d ∈ [0, 1] ∧
        index.get? id = some (.member .method d position cls none)) ∧
      index.resolveMethod? dog "tag" "()V" = some ⟨6⟩ ∧ index.resolveMethod? dog "key" "(I)J" = some ⟨-1⟩ ∧
      index.resolveMethod? dog "tag" "(I)J" = none := by
  have facts : index.classes.indexOf? dog = some 0 ∧ index.classes.superclassChain 0 = [0, 1] ∧
      index.classes.lookupOrder 0 = [0, 1, 2, 3, 4] ∧ index.methodPosition? "name" "()V" 1 = some 0 ∧
      (∀ e ∈ [0, 1], index.methodPosition? "tag" "()V" e = none) ∧ index.methodPosition? "tag" "()V" 2 = some 1 ∧
      (∀ e ∈ [0, 1, 2, 3], index.methodPosition? "key" "(I)J" e = none) ∧
      index.methodPosition? "key" "(I)J" 4 = some 0 ∧
      (∀ e ∈ [0, 1, 2, 3, 4], index.methodPosition? "tag" "(I)J" e = none) ∧
      index.find? (.classDef 2) = some ⟨4⟩ ∧ index.get? ⟨6⟩ = some (.member .method 2 1 ⟨4⟩ none) ∧
      index.find? (.classDef 4) = some ⟨0⟩ ∧ index.get? ⟨-1⟩ = some (.member .method 4 0 ⟨0⟩ none) := by
    decide +kernel
  simp only [ElementIndex.methodPosition?_eq_some_iff, ElementIndex.methodPosition?_eq_none_iff] at facts
  obtain ⟨known, chain, order, inPet, noTag, inNamed, noKey, inKeyed, nowhere, named, tag, keyed, key⟩ := facts
  obtain ⟨search, -, -, fromChain⟩ := (resolveMethod?_follows_order classes made dog "name" "()V").2 0 known
  obtain ⟨-, -, tagged, -⟩ := (resolveMethod?_follows_order classes made dog "tag" "()V").2 0 known
  obtain ⟨-, -, byName, -⟩ := (resolveMethod?_follows_order classes made dog "key" "(I)J").2 0 known
  obtain ⟨-, unmatched, -⟩ := (resolveMethod?_follows_order classes made dog "tag" "(I)J").2 0 known
  refine ⟨chain ▸ order ▸ search, chain ▸ fromChain ⟨1, chain ▸ by simp, 0, inPet⟩, ?_, ?_, ?_⟩
  · exact (tagged ⟨6⟩).mpr ⟨[0, 1], 2, [3, 4], 1, ⟨4⟩, order, noTag, inNamed, named, tag⟩
  · exact (byName ⟨-1⟩).mpr ⟨[0, 1, 2, 3], 4, [], 0, ⟨0⟩, order, noKey, inKeyed, keyed, key⟩
  · exact unmatched.mpr (order ▸ nowhere)

end CircularPets

end ClassAtlas
