import Mathlib.Logic.Relation
import ClassAtlas.Proofs.MethodUses
import ClassAtlas.Proofs.Ordered

/-! # What a scanner reaches

A scanner answers from two tables: what each method uses, noted when the method was scanned, and what
each start reaches, noted when it was asked for. Both are read here as one call relation: a scanned
method calls what was noted then, any other what the index says now. Answers are the closure of this
relation, whatever was asked before and in whatever order.
-/

namespace ClassAtlas

def Calls (uses : ElementId → DirectUses) (caller callee : ElementId) : Prop :=
  callee ∈ (uses caller).callees

/-- What a start reaches, read off the call relation. The start itself is among the methods only
    when calls lead back to it; what it instantiates and names always counts. -/
structure Reach.IsClosure (uses : ElementId → DirectUses) (start : ElementId) (r : Reach) : Prop where
  methods : ∀ m, m ∈ r.methods ↔ Relation.TransGen (Calls uses) start m
  instantiated : ∀ c, c ∈ r.instantiated ↔
    ∃ m, (m = start ∨ m ∈ r.methods) ∧ c ∈ (uses m).instantiated
  receivers : ∀ c, c ∈ r.receivers ↔ ∃ m, (m = start ∨ m ∈ r.methods) ∧ c ∈ (uses m).receivers
  methodsAscending : Ordered.Ascending ElementId.before r.methods
  instantiatedAscending : Ordered.Ascending ElementId.before r.instantiated
  receiversAscending : Ordered.Ascending ElementId.before r.receivers

namespace Reach

theorem mem_addIds {x : ElementId} {ids set : List ElementId} :
    x ∈ addIds ids set ↔ x ∈ ids ∨ x ∈ set :=
  Ordered.mem_addAll ElementId.before_strict

/-- All three lists ascend. -/
structure Ascending (r : Reach) : Prop where
  methods : Ordered.Ascending ElementId.before r.methods
  instantiated : Ordered.Ascending ElementId.before r.instantiated
  receivers : Ordered.Ascending ElementId.before r.receivers

theorem addIds_ascending (ids : List ElementId) {set : List ElementId}
    (h : Ordered.Ascending ElementId.before set) : Ordered.Ascending ElementId.before (addIds ids set) :=
  Ordered.addAll_ascending ElementId.before_strict ids h

theorem Ascending.empty : Ascending {} := ⟨.nil, .nil, .nil⟩

theorem Ascending.merge {a : Reach} (h : a.Ascending) (b : Reach) : (a.merge b).Ascending :=
  ⟨addIds_ascending _ h.methods, addIds_ascending _ h.instantiated, addIds_ascending _ h.receivers⟩

namespace IsClosure

variable {uses : ElementId → DirectUses} {start : ElementId} {r : Reach}

theorem unique {r' : Reach} (h : r.IsClosure uses start) (h' : r'.IsClosure uses start) : r = r' := by
  have methods : r.methods = r'.methods :=
    h.methodsAscending.ext ElementId.before_strict h'.methodsAscending fun m =>
      (h.methods m).trans (h'.methods m).symm
  have instantiated : r.instantiated = r'.instantiated :=
    h.instantiatedAscending.ext ElementId.before_strict h'.instantiatedAscending fun c => by
      rw [h.instantiated, h'.instantiated, methods]
  have receivers : r.receivers = r'.receivers :=
    h.receiversAscending.ext ElementId.before_strict h'.receiversAscending fun c => by
      rw [h.receivers, h'.receivers, methods]
  cases r
  cases r'
  simp_all

theorem mem_or_start {m : ElementId} (h : r.IsClosure uses start) :
    (m = start ∨ m ∈ r.methods) ↔ Relation.ReflTransGen (Calls uses) start m := by
  rw [h.methods, Relation.reflTransGen_iff_eq_or_transGen]

theorem congr {uses' : ElementId → DirectUses} (h : r.IsClosure uses start)
    (same : ∀ m, (m = start ∨ m ∈ r.methods) → uses' m = uses m) : r.IsClosure uses' start := by
  have forth : ∀ m, Relation.TransGen (Calls uses) start m → Relation.TransGen (Calls uses') start m := by
    intro m path
    induction path with
    | single call => exact .single (by rw [Calls, same start (.inl rfl)]; exact call)
    | tail path call ih => exact ih.tail (by rw [Calls, same _ (.inr ((h.methods _).mpr path))]; exact call)
  have back : ∀ m, Relation.TransGen (Calls uses') start m → Relation.TransGen (Calls uses) start m := by
    intro m path
    induction path with
    | single call => exact .single (by rw [Calls, ← same start (.inl rfl)]; exact call)
    | tail _ call ih => exact ih.tail (by rw [Calls, ← same _ (.inr ((h.methods _).mpr ih))]; exact call)
  refine ⟨fun m => (h.methods m).trans ⟨forth m, back m⟩, fun c => ?_, fun c => ?_,
    h.methodsAscending, h.instantiatedAscending, h.receiversAscending⟩
  · rw [h.instantiated]
    exact exists_congr fun m => and_congr_right fun inside => by rw [same m inside]
  · rw [h.receivers]
    exact exists_congr fun m => and_congr_right fun inside => by rw [same m inside]

end IsClosure

end Reach

namespace CallScanner

/-- What a method uses as far as the scanner is concerned: what was noted when it was scanned, and
    what the index says of a method not scanned yet. -/
def usesNow (ix : ElementIndex) (s : CallScanner) (method : ElementId) : DirectUses :=
  (Ordered.get? method s.direct).getD (DirectUses.ofMethod ix s.followLambdas method)

def Scanned (s : CallScanner) (method : ElementId) : Prop := (Ordered.get? method s.direct).isSome

/-- More has been scanned, and nothing else is different. -/
structure Extends (ix : ElementIndex) (s s' : CallScanner) : Prop where
  followLambdas : s'.followLambdas = s.followLambdas
  reached : s'.reached = s.reached
  uses : s'.usesNow ix = s.usesNow ix
  scanned : ∀ m, s.Scanned m → s'.Scanned m

namespace Extends

variable {ix : ElementIndex} {s s' s'' : CallScanner}

theorem refl (ix : ElementIndex) (s : CallScanner) : Extends ix s s :=
  ⟨rfl, rfl, rfl, fun _ h => h⟩

theorem trans (h : Extends ix s s') (h' : Extends ix s' s'') : Extends ix s s'' :=
  ⟨h'.followLambdas.trans h.followLambdas, h'.reached.trans h.reached, h'.uses.trans h.uses,
    fun m scanned => h'.scanned m (h.scanned m scanned)⟩

end Extends

section Scanning

variable (ix : ElementIndex) (s : CallScanner) (method : ElementId)

theorem directUses_value : (s.directUses ix method).1 = s.usesNow ix method := by
  cases noted : Ordered.get? method s.direct <;> simp [directUses, usesNow, noted]

theorem directUses_scanned : (s.directUses ix method).2.Scanned method := by
  cases noted : Ordered.get? method s.direct <;>
    simp [directUses, Scanned, noted, Ordered.get?_put_self]

theorem directUses_extends : Extends ix s (s.directUses ix method).2 := by
  cases noted : Ordered.get? method s.direct with
  | some uses => simpa [directUses, noted] using Extends.refl ix s
  | none =>
    simp only [directUses, noted]
    refine ⟨rfl, rfl, funext fun m => ?_, fun m scanned => ?_⟩
    · by_cases same : m = method
      · subst same
        simp [usesNow, Ordered.get?_put_self, noted]
      · simp [usesNow, Ordered.get?_put_ne same]
    · have different : m ≠ method := by
        rintro rfl
        simp [Scanned, noted] at scanned
      simpa [Scanned, Ordered.get?_put_ne different] using scanned

theorem scanned_of_directUses {m : ElementId} (scanned : (s.directUses ix method).2.Scanned m) :
    s.Scanned m ∨ m = method := by
  by_cases same : m = method
  · exact .inr same
  · refine .inl ?_
    cases noted : Ordered.get? method s.direct <;>
      simpa [directUses, Scanned, noted, Ordered.get?_put_ne same] using scanned

end Scanning

/-! ## One search -/

namespace Search

/-- Everything that a method uses is in, and its callees have been seen. -/
structure Settled (uses : ElementId → DirectUses) (search : Search) (method : ElementId) : Prop where
  callees : ∀ c ∈ (uses method).callees, c ∈ search.reach.methods ∧ c ∈ search.visited
  instantiated : ∀ c ∈ (uses method).instantiated, c ∈ search.reach.instantiated
  receivers : ∀ c ∈ (uses method).receivers, c ∈ search.reach.receivers

/-- A search that has seen and reached at least as much. -/
structure Grows (a b : Search) : Prop where
  visited : a.visited ⊆ b.visited
  methods : a.reach.methods ⊆ b.reach.methods
  instantiated : a.reach.instantiated ⊆ b.reach.instantiated
  receivers : a.reach.receivers ⊆ b.reach.receivers

theorem Grows.refl (a : Search) : Grows a a :=
  ⟨List.Subset.refl _, List.Subset.refl _, List.Subset.refl _, List.Subset.refl _⟩

theorem Grows.trans {a b c : Search} (h : Grows a b) (h' : Grows b c) : Grows a c :=
  ⟨List.Subset.trans h.visited h'.visited, List.Subset.trans h.methods h'.methods,
    List.Subset.trans h.instantiated h'.instantiated, List.Subset.trans h.receivers h'.receivers⟩

theorem Settled.mono {uses : ElementId → DirectUses} {a b : Search} {method : ElementId}
    (h : Settled uses a method) (grows : Grows a b) : Settled uses b method :=
  ⟨fun c call => ⟨grows.methods (h.callees c call).1, grows.visited (h.callees c call).2⟩,
    fun c use => grows.instantiated (h.instantiated c use),
    fun c use => grows.receivers (h.receivers c use)⟩

/-- What holds between any two steps of a search. Seen methods are left to scan, being scanned
    (`busy`) or settled; whatever has been collected is reached from the start. -/
structure Invariant (uses : ElementId → DirectUses) (scanned : ElementId → Prop) (start : ElementId)
    (busy : List ElementId) (search : Search) : Prop where
  startSeen : start ∈ search.visited
  stackSeen : ∀ m ∈ search.stack, m ∈ search.visited
  frontier : ∀ m ∈ search.visited,
    m ∈ search.stack ∨ m ∈ busy ∨ (scanned m ∧ Settled uses search m)
  visited : ∀ m ∈ search.visited, Relation.ReflTransGen (Calls uses) start m
  methods : ∀ m ∈ search.reach.methods, Relation.TransGen (Calls uses) start m
  instantiated : ∀ c ∈ search.reach.instantiated,
    ∃ m, Relation.ReflTransGen (Calls uses) start m ∧ c ∈ (uses m).instantiated
  receivers : ∀ c ∈ search.reach.receivers,
    ∃ m, Relation.ReflTransGen (Calls uses) start m ∧ c ∈ (uses m).receivers
  ascending : search.reach.Ascending

/-- How many scans can still come: one for each waiting method and each method not seen yet. -/
def room (ids : List ElementId) (search : Search) : Nat :=
  ids.countP (fun m => !search.visited.contains m) + search.stack.length

variable {uses : ElementId → DirectUses} {scanned : ElementId → Prop} {start : ElementId} {busy : List ElementId}
  {search : Search}

theorem Invariant.initial (uses : ElementId → DirectUses) (scanned : ElementId → Prop)
    (start : ElementId) : Invariant uses scanned start [] ⟨[start], [start], {}⟩ where
  startSeen := by simp
  stackSeen := fun m h => h
  frontier := fun m h => .inl h
  visited := by simp [Relation.ReflTransGen.refl]
  methods := by simp
  instantiated := by simp
  receivers := by simp
  ascending := .empty

theorem Invariant.finish (inv : Invariant uses scanned start [] search) (done : search.stack = []) :
    search.reach.IsClosure uses start ∧
      ∀ m, (m = start ∨ m ∈ search.reach.methods) → scanned m := by
  have settled : ∀ m ∈ search.visited, scanned m ∧ Settled uses search m := by
    intro m seen
    simpa [done] using inv.frontier m seen
  have complete : ∀ m, Relation.TransGen (Calls uses) start m →
      m ∈ search.reach.methods ∧ m ∈ search.visited := by
    intro m path
    induction path with
    | single call => exact (settled start inv.startSeen).2.callees _ call
    | tail _ call ih => exact (settled _ ih.2).2.callees _ call
  have methods : ∀ m, m ∈ search.reach.methods ↔ Relation.TransGen (Calls uses) start m :=
    fun m => ⟨inv.methods m, fun path => (complete m path).1⟩
  have seen : ∀ m, (m = start ∨ m ∈ search.reach.methods) → m ∈ search.visited := by
    rintro m (rfl | member)
    · exact inv.startSeen
    · exact (complete m (inv.methods m member)).2
  have inside : ∀ m, Relation.ReflTransGen (Calls uses) start m →
      m = start ∨ m ∈ search.reach.methods := by
    intro m path
    rw [methods]
    exact Relation.reflTransGen_iff_eq_or_transGen.mp path
  refine ⟨⟨methods, fun c => ⟨fun member => ?_, ?_⟩, fun c => ⟨fun member => ?_, ?_⟩,
    inv.ascending.methods, inv.ascending.instantiated, inv.ascending.receivers⟩,
    fun m h => (settled m (seen m h)).1⟩
  · obtain ⟨m, path, use⟩ := inv.instantiated c member
    exact ⟨m, inside m path, use⟩
  · rintro ⟨m, h, use⟩
    exact (settled m (seen m h)).2.instantiated c use
  · obtain ⟨m, path, use⟩ := inv.receivers c member
    exact ⟨m, inside m path, use⟩
  · rintro ⟨m, h, use⟩
    exact (settled m (seen m h)).2.receivers c use

theorem Invariant.frontier_mono (inv : Invariant uses scanned start busy search) (next : Search)
    (grows : search.Grows next) (stack : search.stack ⊆ next.stack) {m : ElementId}
    (seen : m ∈ search.visited) :
    m ∈ next.stack ∨ m ∈ busy ∨ (scanned m ∧ Settled uses next m) := by
  rcases inv.frontier m seen with waiting | active | ⟨done, settled⟩
  · exact .inl (stack waiting)
  · exact .inr (.inl active)
  · exact .inr (.inr ⟨done, settled.mono grows⟩)

theorem Invariant.collect (inv : Invariant uses scanned start busy search) {callee : ElementId}
    (path : Relation.TransGen (Calls uses) start callee) :
    Invariant uses scanned start busy { search with
      reach := { search.reach with methods := Reach.addIds [callee] search.reach.methods } } := by
  refine ⟨inv.startSeen, inv.stackSeen, fun m seen => ?_, inv.visited, fun m member => ?_,
    inv.instantiated, inv.receivers, ⟨Reach.addIds_ascending _ inv.ascending.methods,
      inv.ascending.instantiated, inv.ascending.receivers⟩⟩
  · exact inv.frontier_mono
      { search with
        reach := { search.reach with methods := Reach.addIds [callee] search.reach.methods } }
      ⟨List.Subset.refl _, fun c h => Reach.mem_addIds.mpr (.inr h), List.Subset.refl _,
        List.Subset.refl _⟩ (List.Subset.refl _) seen
  · rcases Reach.mem_addIds.mp member with new | old
    · rw [List.mem_singleton.mp new]
      exact path
    · exact inv.methods m old

theorem Invariant.push (inv : Invariant uses scanned start busy search) {callee : ElementId}
    (path : Relation.ReflTransGen (Calls uses) start callee) :
    Invariant uses scanned start busy
      ⟨callee :: search.stack, callee :: search.visited, search.reach⟩ := by
  refine ⟨List.mem_cons_of_mem _ inv.startSeen, fun m waiting => ?_, fun m seen => ?_, fun m seen => ?_,
    inv.methods, inv.instantiated, inv.receivers, inv.ascending⟩
  · rcases List.mem_cons.mp waiting with rfl | waiting
    · exact List.mem_cons_self
    · exact List.mem_cons_of_mem _ (inv.stackSeen m waiting)
  · rcases List.mem_cons.mp seen with rfl | seen
    · exact .inl List.mem_cons_self
    · exact inv.frontier_mono ⟨callee :: search.stack, callee :: search.visited, search.reach⟩
        ⟨List.subset_cons_self _ _, List.Subset.refl _, List.Subset.refl _, List.Subset.refl _⟩
        (List.subset_cons_self _ _) seen
  · rcases List.mem_cons.mp seen with rfl | seen
    · exact path
    · exact inv.visited m seen

theorem settled_of_merged {callee : ElementId} {memo : Reach}
    (closure : memo.IsClosure uses callee) {visited : List ElementId} (seen : memo.methods ⊆ visited)
    (stack : List ElementId) (r : Reach) {m : ElementId} (inside : m = callee ∨ m ∈ memo.methods) :
    Settled uses ⟨stack, visited, r.merge memo⟩ m := by
  refine ⟨fun c call => ?_, fun c use => Reach.mem_addIds.mpr (.inl ?_),
    fun c use => Reach.mem_addIds.mpr (.inl ?_)⟩
  · have called : c ∈ memo.methods := by
      rw [closure.methods]
      exact Relation.TransGen.tail' (closure.mem_or_start.mp inside) call
    exact ⟨Reach.mem_addIds.mpr (.inl called), seen called⟩
  · exact (closure.instantiated c).mpr ⟨m, inside, use⟩
  · exact (closure.receivers c).mpr ⟨m, inside, use⟩

/-- A noted reach is taken over. Its methods may be waiting, being scanned or the start itself. -/
theorem Invariant.absorb (inv : Invariant uses scanned start busy search) {callee : ElementId}
    {memo : Reach} (path : Relation.ReflTransGen (Calls uses) start callee)
    (closure : memo.IsClosure uses callee)
    (done : ∀ n, (n = callee ∨ n ∈ memo.methods) → scanned n) :
    Invariant uses scanned start busy
      ⟨search.stack, memo.methods ++ callee :: search.visited, search.reach.merge memo⟩ := by
  have below : ∀ m, (m = callee ∨ m ∈ memo.methods) → Relation.ReflTransGen (Calls uses) start m :=
    fun m inside => path.trans (closure.mem_or_start.mp inside)
  have origin : ∀ m ∈ memo.methods ++ callee :: search.visited,
      m ∈ search.visited ∨ (m = callee ∨ m ∈ memo.methods) := by
    intro m seen
    simp only [List.mem_append, List.mem_cons] at seen
    tauto
  have old : search.visited ⊆ memo.methods ++ callee :: search.visited :=
    fun m seen => List.mem_append_right _ (List.mem_cons_of_mem _ seen)
  refine ⟨old inv.startSeen, fun m waiting => old (inv.stackSeen m waiting), fun m seen => ?_,
    fun m seen => ?_, fun m member => ?_, fun c member => ?_, fun c member => ?_,
    inv.ascending.merge memo⟩
  · rcases origin m seen with seen | inside
    · refine inv.frontier_mono
        ⟨search.stack, memo.methods ++ callee :: search.visited, search.reach.merge memo⟩
        ⟨old, ?_, ?_, ?_⟩ (List.Subset.refl _) seen
      all_goals exact fun c h => Reach.mem_addIds.mpr (.inr h)
    · refine .inr (.inr ⟨done m inside, settled_of_merged closure ?_ _ _ inside⟩)
      exact List.subset_append_left _ _
  · rcases origin m seen with seen | inside
    · exact inv.visited m seen
    · exact below m inside
  · rcases Reach.mem_addIds.mp member with new | old
    · exact Relation.TransGen.trans_right path ((closure.methods m).mp new)
    · exact inv.methods m old
  · rcases Reach.mem_addIds.mp member with new | old
    · obtain ⟨m, inside, use⟩ := (closure.instantiated c).mp new
      exact ⟨m, below m inside, use⟩
    · exact inv.instantiated c old
  · rcases Reach.mem_addIds.mp member with new | old
    · obtain ⟨m, inside, use⟩ := (closure.receivers c).mp new
      exact ⟨m, below m inside, use⟩
    · exact inv.receivers c old

theorem Invariant.begin {method : ElementId} {stack visited : List ElementId} {r : Reach}
    (inv : Invariant uses scanned start [] ⟨method :: stack, visited, r⟩) :
    Invariant uses scanned start [method] ⟨stack, visited, { r with
      instantiated := Reach.addIds (uses method).instantiated r.instantiated
      receivers := Reach.addIds (uses method).receivers r.receivers }⟩ := by
  have path : Relation.ReflTransGen (Calls uses) start method :=
    inv.visited method (inv.stackSeen method List.mem_cons_self)
  refine ⟨inv.startSeen, fun m waiting => inv.stackSeen m (List.mem_cons_of_mem _ waiting),
    fun m seen => ?_, inv.visited, inv.methods, fun c member => ?_, fun c member => ?_,
    ⟨inv.ascending.methods, Reach.addIds_ascending _ inv.ascending.instantiated,
      Reach.addIds_ascending _ inv.ascending.receivers⟩⟩
  · rcases inv.frontier m seen with waiting | active | ⟨done, settled⟩
    · rcases List.mem_cons.mp waiting with rfl | waiting
      · exact .inr (.inl List.mem_cons_self)
      · exact .inl waiting
    · simp at active
    · exact .inr (.inr ⟨done, settled.mono ⟨List.Subset.refl _, List.Subset.refl _,
        fun c h => Reach.mem_addIds.mpr (.inr h), fun c h => Reach.mem_addIds.mpr (.inr h)⟩⟩)
  · rcases Reach.mem_addIds.mp member with new | old
    · exact ⟨method, path, new⟩
    · exact inv.instantiated c old
  · rcases Reach.mem_addIds.mp member with new | old
    · exact ⟨method, path, new⟩
    · exact inv.receivers c old

theorem Invariant.settle {method : ElementId} (inv : Invariant uses scanned start [method] search)
    {scanned' : ElementId → Prop} (more : ∀ m, scanned m → scanned' m) (done : scanned' method)
    (settled : Settled uses search method) : Invariant uses scanned' start [] search := by
  refine ⟨inv.startSeen, inv.stackSeen, fun m seen => ?_, inv.visited, inv.methods,
    inv.instantiated, inv.receivers, inv.ascending⟩
  rcases inv.frontier m seen with waiting | active | ⟨before, old⟩
  · exact .inl waiting
  · rw [List.mem_singleton.mp active]
    exact .inr (.inr ⟨done, settled⟩)
  · exact .inr (.inr ⟨more m before, old⟩)

end Search

/-- The noted reach of a method is its closure, and everything in it has been scanned. -/
def Noted (uses : ElementId → DirectUses) (scanned : ElementId → Prop)
    (known : List (ElementId × Reach)) : Prop :=
  ∀ m r, Ordered.get? m known = some r →
    r.IsClosure uses m ∧ ∀ n, (n = m ∨ n ∈ r.methods) → scanned n

section Visiting

variable {uses : ElementId → DirectUses} {scanned : ElementId → Prop} {start : ElementId} {busy : List ElementId}
  {known : List (ElementId × Reach)} {search : Search}

theorem visit_grows (known : List (ElementId × Reach)) (search : Search) (callee : ElementId) :
    search.Grows (visit known search callee) := by
  have called : search.reach.methods ⊆ Reach.addIds [callee] search.reach.methods :=
    fun m member => Reach.mem_addIds.mpr (.inr member)
  unfold visit
  split
  · exact ⟨List.Subset.refl _, called, List.Subset.refl _, List.Subset.refl _⟩
  · split
    · exact ⟨fun m h => List.mem_append_right _ (List.mem_cons_of_mem _ h),
        fun m h => Reach.mem_addIds.mpr (.inr (called h)),
        fun c h => Reach.mem_addIds.mpr (.inr h), fun c h => Reach.mem_addIds.mpr (.inr h)⟩
    · exact ⟨List.subset_cons_self _ _, called, List.Subset.refl _, List.Subset.refl _⟩

theorem visit_takes (known : List (ElementId × Reach)) (search : Search) (callee : ElementId) :
    callee ∈ (visit known search callee).reach.methods ∧
      callee ∈ (visit known search callee).visited := by
  unfold visit
  split
  · next seen => exact ⟨Reach.mem_addIds.mpr (.inl (by simp)), by simpa using seen⟩
  · split
    · exact ⟨Reach.mem_addIds.mpr (.inr (Reach.mem_addIds.mpr (.inl (by simp)))), by simp⟩
    · exact ⟨Reach.mem_addIds.mpr (.inl (by simp)), by simp⟩

/-- Taking one call of a reached method into a search keeps the invariant. -/
theorem visit_invariant (noted : Noted uses scanned known)
    (inv : Search.Invariant uses scanned start busy search) {method callee : ElementId}
    (reached : Relation.ReflTransGen (Calls uses) start method) (call : Calls uses method callee) :
    Search.Invariant uses scanned start busy (visit known search callee) := by
  have path : Relation.TransGen (Calls uses) start callee := .tail' reached call
  have collected := inv.collect path
  unfold visit
  split
  · exact collected
  · split
    · next memo entry =>
        obtain ⟨closure, done⟩ := noted callee memo entry
        exact collected.absorb path.to_reflTransGen closure done
    · exact collected.push path.to_reflTransGen

theorem visit_room {ids : List ElementId} {callee : ElementId} (inside : callee ∈ ids) :
    (visit known search callee).room ids ≤ search.room ids := by
  unfold visit Search.room
  split
  · exact Nat.le_refl _
  · next unseen =>
      split
      · next memo _ =>
          refine Nat.add_le_add_right (List.countP_mono_left fun m _ fresh => ?_) _
          simp only [List.contains_eq_mem, Bool.not_eq_true', decide_eq_false_iff_not] at fresh ⊢
          exact fun seen => fresh (by simp [seen])
      · have fewer : ids.countP (fun m => !(callee :: search.visited).contains m) <
            ids.countP (fun m => !search.visited.contains m) := by
          refine Ordered.countP_lt (fun m _ fresh => ?_) inside (by simp) (by simpa using unseen)
          simp only [List.contains_cons, Bool.not_or, Bool.and_eq_true] at fresh
          exact fresh.2
        simp only [List.length_cons]
        omega

theorem visitAll (noted : Noted uses scanned known)
    (inv : Search.Invariant uses scanned start busy search) {method : ElementId} {ids : List ElementId}
    (reached : Relation.ReflTransGen (Calls uses) start method) {callees : List ElementId}
    (calls : ∀ c ∈ callees, Calls uses method c) (inside : ∀ c ∈ callees, c ∈ ids) :
    let next := callees.foldl (visit known) search
    Search.Invariant uses scanned start busy next ∧ search.Grows next ∧
      next.room ids ≤ search.room ids ∧
      ∀ c ∈ callees, c ∈ next.reach.methods ∧ c ∈ next.visited := by
  induction callees generalizing search with
  | nil => exact ⟨inv, .refl _, Nat.le_refl _, by simp⟩
  | cons callee rest ih =>
    have step := visit_invariant noted inv reached (calls callee (by simp))
    obtain ⟨inv', grows, room, taken⟩ := ih step (fun c h => calls c (by simp [h]))
      (fun c h => inside c (by simp [h]))
    refine ⟨inv', (visit_grows known search callee).trans grows,
      room.trans (visit_room (inside callee (by simp))), fun c member => ?_⟩
    rcases List.mem_cons.mp member with rfl | member
    · have first := visit_takes known search c
      exact ⟨grows.methods first.1, grows.visited first.2⟩
    · exact taken c member

end Visiting

/-! ## Answers -/

/-- The tables of a scanner agree: every noted reach is the closure of the calls as the scanner sees
    them, everything in it has been scanned, and calls lead to elements of the index. -/
structure Coherent (ix : ElementIndex) (s : CallScanner) : Prop where
  noted : Noted (s.usesNow ix) s.Scanned s.reached
  known : ∀ m c, Calls (s.usesNow ix) m c → c ∈ ix.ids

section Answers

variable {ix : ElementIndex} {s s' : CallScanner} {start : ElementId}

theorem Coherent.extends (coherent : Coherent ix s) (ext : Extends ix s s') : Coherent ix s' := by
  refine ⟨fun m r entry => ?_, ?_⟩
  · rw [ext.reached] at entry
    obtain ⟨closure, scanned⟩ := coherent.noted m r entry
    rw [ext.uses]
    exact ⟨closure, fun n inside => ext.scanned n (scanned n inside)⟩
  · rw [ext.uses]
    exact coherent.known

theorem scan_invariant (coherent : Coherent ix s) {method : ElementId} {stack visited : List ElementId}
    {r : Reach}
    (inv : Search.Invariant (s.usesNow ix) s.Scanned start [] ⟨method :: stack, visited, r⟩) :
    let uses := s.usesNow ix method
    let next := uses.callees.foldl (visit s.reached)
      ⟨stack, visited, { r with
        instantiated := Reach.addIds uses.instantiated r.instantiated
        receivers := Reach.addIds uses.receivers r.receivers }⟩
    Search.Invariant (s.usesNow ix) (s.directUses ix method).2.Scanned start [] next ∧
      next.room ix.ids < Search.room ix.ids ⟨method :: stack, visited, r⟩ := by
  intro uses next
  have reached : Relation.ReflTransGen (Calls (s.usesNow ix)) start method :=
    inv.visited method (inv.stackSeen method List.mem_cons_self)
  obtain ⟨inv', grows, room, taken⟩ := visitAll coherent.noted inv.begin reached (fun c h => h)
    (fun c h => coherent.known method c h)
  refine ⟨inv'.settle (directUses_extends ix s method).scanned (directUses_scanned ix s method)
    ⟨taken, fun c use => ?_, fun c use => ?_⟩, Nat.lt_of_le_of_lt room ?_⟩
  · exact grows.instantiated (Reach.mem_addIds.mpr (.inl use))
  · exact grows.receivers (Reach.mem_addIds.mpr (.inl use))
  · simp only [Search.room, List.length_cons]
    omega

/-- A search with enough fuel ends with the closure of its start. All of it has been scanned, and only
    its members are scanned on the way. -/
theorem explore_closure (fuel : Nat) (search : Search) (s : CallScanner) (coherent : Coherent ix s)
    (inv : Search.Invariant (s.usesNow ix) s.Scanned start [] search)
    (enough : search.room ix.ids ≤ fuel) :
    (explore ix fuel search s).1.IsClosure (s.usesNow ix) start ∧
      Extends ix s (explore ix fuel search s).2 ∧
      (∀ m, (m = start ∨ m ∈ (explore ix fuel search s).1.methods) →
        (explore ix fuel search s).2.Scanned m) ∧
      ∀ m, (explore ix fuel search s).2.Scanned m →
        s.Scanned m ∨ Relation.ReflTransGen (Calls (s.usesNow ix)) start m := by
  induction fuel generalizing search s with
  | zero =>
    have done : search.stack = [] := by
      rw [← List.length_eq_zero_iff]
      simp only [Search.room] at enough
      omega
    obtain ⟨closure, scanned⟩ := inv.finish done
    exact ⟨closure, .refl ix s, scanned, fun _ => .inl⟩
  | succ fuel ih =>
    obtain ⟨stack, visited, r⟩ := search
    cases stack with
    | nil =>
      obtain ⟨closure, scanned⟩ := inv.finish rfl
      exact ⟨closure, .refl ix s, scanned, fun _ => .inl⟩
    | cons method stack =>
      have scans := directUses_extends ix s method
      obtain ⟨inv', room⟩ := scan_invariant coherent inv
      obtain ⟨closure, ext, scanned, only⟩ := ih _ (s.directUses ix method).2
        (coherent.extends scans) (by rw [scans.uses]; exact inv') (by omega)
      simp only [explore, directUses_value, scans.reached]
      rw [scans.uses] at closure only
      refine ⟨closure, scans.trans ext, scanned, fun m new => ?_⟩
      rcases only m new with before | path
      · rcases scanned_of_directUses ix s method before with before | rfl
        · exact .inl before
        · exact .inr (inv.visited m (inv.stackSeen m List.mem_cons_self))
      · exact .inr path

theorem countP_ids_le (ix : ElementIndex) (p : ElementId → Bool) : ix.ids.countP p ≤ ix.size :=
  List.countP_le_length.trans (Nat.le_of_eq ix.length_ids)

/-- What a question leaves of a scanner. It sees the same calls as before, and nothing new was scanned
    but the start of the question and elements of the index. -/
structure Asked (ix : ElementIndex) (start : Option ElementId) (s s' : CallScanner) : Prop where
  coherent : Coherent ix s'
  uses : s'.usesNow ix = s.usesNow ix
  followLambdas : s'.followLambdas = s.followLambdas
  scanned : ∀ m, s'.Scanned m → s.Scanned m ∨ some m = start ∨ m ∈ ix.ids

/-- What is asked of a coherent scanner is answered by the closure, and the scanner stays coherent
    and sees the same calls. -/
theorem reachable_closure (coherent : Coherent ix s) (start : ElementId) :
    (s.reachable ix start).1.IsClosure (s.usesNow ix) start ∧
      Asked ix (some start) s (s.reachable ix start).2 := by
  cases entry : Ordered.get? start s.reached with
  | some r =>
    simp only [reachable, entry]
    exact ⟨(coherent.noted start r entry).1, coherent, rfl, rfl, fun _ => .inl⟩
  | none =>
    have enough : Search.room ix.ids ⟨[start], [start], {}⟩ ≤ ix.size + 1 :=
      Nat.add_le_add_right (countP_ids_le ix _) 1
    obtain ⟨closure, ext, scanned, only⟩ := explore_closure (ix.size + 1) ⟨[start], [start], {}⟩ s coherent
      (.initial _ _ start) enough
    simp only [reachable, entry]
    refine ⟨closure, ⟨fun m r noted => ?_, ?_⟩, ext.uses, ext.followLambdas, fun m new => ?_⟩
    · by_cases same : m = start
      · subst same
        rw [Ordered.get?_put_self] at noted
        obtain rfl := Option.some.inj noted
        refine ⟨?_, scanned⟩
        change Reach.IsClosure (CallScanner.usesNow ix (explore ix _ _ s).2) m _
        rw [ext.uses]
        exact closure
      · rw [Ordered.get?_put_ne same] at noted
        exact (coherent.extends ext).noted m r noted
    · exact (coherent.extends ext).known
    · rcases only m new with before | path
      · exact .inl before
      · rcases path.cases_tail with rfl | ⟨_, _, call⟩
        · exact .inr (.inl rfl)
        · exact .inr (.inr (coherent.known _ _ call))

end Answers

/-! ## Questions in sequence -/

theorem usesNow_fresh (ix : ElementIndex) (followLambdas : Bool) :
    CallScanner.usesNow ix { followLambdas := followLambdas } = DirectUses.ofMethod ix followLambdas := rfl

theorem Coherent.fresh (ix : ElementIndex) (followLambdas : Bool) :
    Coherent ix { followLambdas := followLambdas } := by
  refine ⟨fun m r entry => by simp [Ordered.get?] at entry, fun m c call => ?_⟩
  exact (DirectUses.mem_callees.mp call).mem_ids

def reachableEach (ix : ElementIndex) : List ElementId → CallScanner → List Reach × CallScanner
  | [], s => ([], s)
  | start :: rest, s =>
    let (r, s) := s.reachable ix start
    let (rs, s) := reachableEach ix rest s
    (r :: rs, s)

theorem reachableEach_closure {ix : ElementIndex} {s : CallScanner} (coherent : Coherent ix s)
    (starts : List ElementId) :
    List.Forall₂ (fun start r => r.IsClosure (s.usesNow ix) start) starts (reachableEach ix starts s).1 ∧
      Coherent ix (reachableEach ix starts s).2 ∧
      (reachableEach ix starts s).2.usesNow ix = s.usesNow ix := by
  induction starts generalizing s with
  | nil => exact ⟨.nil, coherent, rfl⟩
  | cons start rest ih =>
    obtain ⟨closure, asked⟩ := reachable_closure coherent start
    obtain ⟨closures, coherent'', uses'⟩ := ih asked.coherent
    rw [asked.uses] at closures uses'
    exact ⟨.cons closure closures, coherent'', uses'⟩

end CallScanner

/-- What a start reaches by the calls of the index: the methods called directly or through others,
    and what the start and these methods instantiate and name. Each list is a set, kept ascending. -/
structure Reach.ExactIn (ix : ElementIndex) (followLambdas : Bool) (start : ElementId) (r : Reach) :
    Prop where
  methods : ∀ m, m ∈ r.methods ↔ Relation.TransGen (ix.CallsMethod followLambdas) start m
  instantiated : ∀ c, c ∈ r.instantiated ↔ ∃ m, (m = start ∨ m ∈ r.methods) ∧ ix.Instantiates m c
  receivers : ∀ c, c ∈ r.receivers ↔ ∃ m, (m = start ∨ m ∈ r.methods) ∧ ix.NamesReceiver m c
  methodsAscending : Ordered.Ascending ElementId.before r.methods
  instantiatedAscending : Ordered.Ascending ElementId.before r.instantiated
  receiversAscending : Ordered.Ascending ElementId.before r.receivers

theorem calls_ofMethod (ix : ElementIndex) (followLambdas : Bool) :
    Calls (DirectUses.ofMethod ix followLambdas) = ix.CallsMethod followLambdas :=
  funext fun _ => funext fun _ => propext DirectUses.mem_callees

theorem Reach.IsClosure.exactIn {ix : ElementIndex} {followLambdas : Bool} {start : ElementId}
    {r : Reach} (h : r.IsClosure (DirectUses.ofMethod ix followLambdas) start) :
    r.ExactIn ix followLambdas start where
  methods m := by rw [h.methods, calls_ofMethod]
  instantiated c := by simp only [h.instantiated, DirectUses.mem_instantiated]
  receivers c := by simp only [h.receivers, DirectUses.mem_receivers]
  methodsAscending := h.methodsAscending
  instantiatedAscending := h.instantiatedAscending
  receiversAscending := h.receiversAscending

/-- Whatever is asked of a scanner on one index, every answer is exact; so what was asked before
    makes no difference to an answer. -/
theorem CallScanner.reachableEach_exact (ix : ElementIndex) (followLambdas : Bool)
    (starts : List ElementId) :
    let fresh : CallScanner := { followLambdas := followLambdas }
    List.Forall₂ (fun start r => r.ExactIn ix followLambdas start) starts
        (fresh.reachableEach ix starts).1 ∧
      ∀ start, ((fresh.reachableEach ix starts).2.reachable ix start).1 = (fresh.reachable ix start).1 := by
  intro fresh
  have coherent : Coherent ix fresh := .fresh ix followLambdas
  obtain ⟨closures, coherent', uses⟩ := reachableEach_closure coherent starts
  rw [usesNow_fresh] at closures uses
  refine ⟨closures.imp fun _ _ h => h.exactIn, fun start => ?_⟩
  have later := (reachable_closure coherent' start).1
  have first := (reachable_closure coherent start).1
  rw [uses] at later
  exact later.unique first

end ClassAtlas
