import Mathlib.Data.List.Chain
import Mathlib.Data.List.Forall2
import Mathlib.Data.List.Perm.Subperm
import Mathlib.Logic.Relation
import ClassAtlas.Proofs.Growth

/-! # Searches level by level

A search that takes nodes from a queue and puts what they lead to at its end meets the nodes in the order
of their distance from the starts. Both searches of this kind, the one that collects everything and the one
that looks for a goal, go through the same states of seen and waiting nodes. So the invariant is about
these, and each search follows from one step of it.
-/

namespace ClassAtlas.Search

variable {α : Type} {next : α → List α}

/-! ## New items -/

section New

variable [BEq α] [LawfulBEq α]

theorem fresh_congr {seen seen' : List α} (same : ∀ x, x ∈ seen ↔ x ∈ seen') (xs : List α) :
    fresh seen xs = fresh seen' xs := by
  induction xs generalizing seen seen' with
  | nil => rfl
  | cons x rest ih =>
    have known : seen.contains x = seen'.contains x := by
      rw [Bool.eq_iff_iff, List.contains_iff_mem, List.contains_iff_mem, same]
    have more : ∀ y, y ∈ x :: seen ↔ y ∈ x :: seen' := fun y => by simp [same]
    rw [fresh, fresh, known, ih same, ih more]

theorem fresh_append (seen xs ys : List α) : fresh seen (xs ++ ys) = fresh seen xs ++ fresh (xs ++ seen) ys := by
  induction xs generalizing seen with
  | nil => rfl
  | cons x rest ih =>
    rw [List.cons_append, fresh, fresh]
    split
    · next before =>
        rw [ih]
        refine congrArg (_ ++ ·) (fresh_congr (fun y => ?_) ys)
        have there : x ∈ seen := List.contains_iff_mem.mp before
        grind
    · rw [ih, List.cons_append]
      refine congrArg (x :: _ ++ ·) (fresh_congr (fun y => ?_) ys)
      grind

end New

/-! ## Distance -/

/-- So many links lead from one of the starts to a node. -/
inductive Reaches (next : α → List α) (starts : List α) : Nat → α → Prop where
  | start {x : α} : x ∈ starts → Reaches next starts 0 x
  | link {n : Nat} {x y : α} : Reaches next starts n x → y ∈ next x → Reaches next starts (n + 1) y

/-- One node is no farther from the starts than another. -/
def NoFarther (next : α → List α) (starts : List α) (x y : α) : Prop :=
  ∀ n, Reaches next starts n y → ∃ k ≤ n, Reaches next starts k x

theorem Reaches.chain {starts : List α} {n : Nat} {x y : α} {path : List α} (reached : Reaches next starts n x)
    (linked : (x :: path).IsChain fun a b => b ∈ next a) (ends : (x :: path).getLast? = some y) :
    Reaches next starts (n + path.length) y := by
  induction path generalizing n x with
  | nil =>
    cases ends
    exact reached
  | cons z rest ih =>
    rw [List.isChain_cons_cons] at linked
    rw [List.getLast?_cons_cons] at ends
    have further := ih (reached.link linked.1) linked.2 ends
    rwa [List.length_cons, Nat.add_comm rest.length 1, ← Nat.add_assoc]

theorem Reaches.ofPath {starts : List α} {s y : α} {path : List α} (member : s ∈ starts)
    (begins : path.head? = some s) (ends : path.getLast? = some y) (linked : path.IsChain fun a b => b ∈ next a) :
    ∃ n, Reaches next starts n y ∧ path.length = n + 1 := by
  cases path with
  | nil => cases begins
  | cons x rest =>
    cases begins
    exact ⟨_, Reaches.chain (.start member) linked ends, by simp⟩

theorem exists_reaches_iff {x y : α} :
    (∃ n, Reaches next [x] n y) ↔ Relation.ReflTransGen (fun a b => b ∈ next a) x y := by
  constructor
  · rintro ⟨n, path⟩
    induction path with
    | start member => rw [List.mem_singleton.mp member]
    | link _ link ih => exact ih.tail link
  · intro path
    induction path with
    | refl => exact ⟨0, .start (List.mem_singleton_self x)⟩
    | tail _ link ih =>
      obtain ⟨n, path⟩ := ih
      exact ⟨n + 1, path.link link⟩

/-! ## One step -/

/-- What holds between any two steps of a search. Nodes that are done have been replaced in the queue by
    what they lead to. -/
structure Frontier (next : α → List α) (starts done queue : List α) : Prop where
  distinct : (done ++ queue).Nodup
  begun : ∀ x ∈ starts, x ∈ done ++ queue
  reached : ∀ x ∈ done ++ queue, ∃ n, Reaches next starts n x
  closed : ∀ x ∈ done, ∀ y ∈ next x, y ∈ done ++ queue
  ordered : (done ++ queue).Pairwise (NoFarther next starts)
  /-- The queue holds nodes of two levels at most. -/
  span : ∀ x ∈ queue, ∀ y ∈ queue, ∀ n, Reaches next starts n y → ∃ k ≤ n + 1, Reaches next starts k x

namespace Frontier

variable {next : α → List α} {starts done queue : List α} {x y : α}

theorem initial (distinct : starts.Nodup) : Frontier next starts [] starts where
  distinct := distinct
  begun _ member := member
  reached _ member := ⟨0, .start member⟩
  closed _ member := nomatch member
  ordered := List.pairwise_of_forall_mem_list fun _ member _ _ _ _ => ⟨0, Nat.zero_le _, .start member⟩
  span _ member _ _ _ _ := ⟨0, Nat.zero_le _, .start member⟩

theorem ahead (h : Frontier next starts done (x :: queue)) (waiting : y ∈ x :: queue) :
    NoFarther next starts x y := by
  rcases List.mem_cons.mp waiting with rfl | later
  · exact fun n path => ⟨n, Nat.le_refl n, path⟩
  · exact List.rel_of_pairwise_cons (List.pairwise_append.mp h.ordered).2.1 later

theorem head_nearest (h : Frontier next starts done (x :: queue)) {n : Nat} (path : Reaches next starts n y)
    (undone : y ∉ done) : ∃ k ≤ n, Reaches next starts k x := by
  induction path with
  | start member =>
    have waiting := (List.mem_append.mp (h.begun _ member)).resolve_left undone
    exact h.ahead waiting 0 (.start member)
  | @link n z y path link ih =>
    by_cases before : z ∈ done
    · have waiting := (List.mem_append.mp (h.closed z before y link)).resolve_left undone
      exact h.ahead waiting (n + 1) (path.link link)
    · obtain ⟨k, near, here⟩ := ih before
      exact ⟨k, by omega, here⟩

theorem head_nearer (h : Frontier next starts done (x :: queue)) {n : Nat} (path : Reaches next starts n y)
    (unseen : y ∉ done ++ x :: queue) : ∃ k < n, Reaches next starts k x := by
  cases path with
  | start member => exact absurd (h.begun y member) unseen
  | link path link =>
    have undone := fun before => unseen (h.closed _ before y link)
    obtain ⟨k, near, here⟩ := h.head_nearest path undone
    exact ⟨k, by omega, here⟩

theorem seen_advance (done queue found : List α) (x : α) :
    done ++ [x] ++ (queue ++ found) = done ++ x :: queue ++ found := by simp

variable [BEq α] [LawfulBEq α]

theorem advance (h : Frontier next starts done (x :: queue)) :
    Frontier next starts (done ++ [x]) (queue ++ fresh (done ++ x :: queue) (next x)) := by
  have seen := seen_advance done queue (fresh (done ++ x :: queue) (next x)) x
  have new : ∀ y ∈ fresh (done ++ x :: queue) (next x), y ∈ next x ∧ y ∉ done ++ x :: queue :=
    fun y => mem_fresh.mp
  have near : ∀ y ∈ done ++ x :: queue, ∀ n, Reaches next starts n x → ∃ k ≤ n + 1, Reaches next starts k y := by
    intro y member n path
    rcases List.mem_append.mp member with before | waiting
    · obtain ⟨k, nearer, there⟩ := (List.pairwise_append.mp h.ordered).2.2 y before x List.mem_cons_self n path
      exact ⟨k, by omega, there⟩
    · exact h.span y waiting x List.mem_cons_self n path
  have away : ∀ y ∈ queue ++ fresh (done ++ x :: queue) (next x), NoFarther next starts x y := by
    intro y member
    rcases List.mem_append.mp member with waiting | found
    · exact h.ahead (List.mem_cons_of_mem x waiting)
    · intro n path
      obtain ⟨k, nearer, here⟩ := h.head_nearer path (new y found).2
      exact ⟨k, by omega, here⟩
  constructor
  case distinct =>
    rw [seen]
    refine List.nodup_append.mpr ⟨h.distinct, fresh_nodup _ _, ?_⟩
    rintro y before _ found rfl
    exact (new y found).2 before
  case begun =>
    rw [seen]
    exact fun y member => List.mem_append_left _ (h.begun y member)
  case reached =>
    rw [seen]
    intro y member
    rcases List.mem_append.mp member with before | found
    · exact h.reached y before
    · obtain ⟨n, path⟩ := h.reached x (by simp)
      exact ⟨n + 1, path.link (new y found).1⟩
  case closed =>
    rw [seen]
    intro y member z link
    rcases List.mem_append.mp member with before | here
    · exact List.mem_append_left _ (h.closed y before z link)
    · rw [List.mem_singleton.mp here] at link
      by_cases before : z ∈ done ++ x :: queue
      · exact List.mem_append_left _ before
      · exact List.mem_append_right _ (mem_fresh.mpr ⟨link, before⟩)
  case ordered =>
    rw [seen]
    refine List.pairwise_append.mpr ⟨h.ordered, ?_, ?_⟩
    · refine List.pairwise_of_forall_mem_list fun y found z found' n path => ?_
      obtain ⟨k, nearer, here⟩ := h.head_nearer path (new z found').2
      exact ⟨k + 1, nearer, here.link (new y found).1⟩
    · intro y before z found n path
      obtain ⟨k, nearer, here⟩ := h.head_nearer path (new z found).2
      obtain ⟨j, atMost, there⟩ := near y before k here
      exact ⟨j, by omega, there⟩
  case span =>
    intro y member z member' n path
    obtain ⟨k, nearer, here⟩ := away z member' n path
    rcases List.mem_append.mp member with waiting | found
    · obtain ⟨j, atMost, there⟩ := near y (by simp [waiting]) k here
      exact ⟨j, by omega, there⟩
    · exact ⟨k + 1, by omega, here.link (new y found).1⟩

omit [BEq α] [LawfulBEq α] in
theorem exhausted (h : Frontier next starts done []) : y ∈ done ↔ ∃ n, Reaches next starts n y := by
  have done_of : ∀ {y}, y ∈ done ++ [] → y ∈ done := fun member => by simpa using member
  constructor
  · exact fun member => h.reached y (List.mem_append_left _ member)
  · rintro ⟨n, path⟩
    induction path with
    | start member => exact done_of (h.begun _ member)
    | link _ link ih => exact done_of (h.closed _ ih _ link)

end Frontier

/-! ## Fuel -/

section Fuel

variable [BEq α] [LawfulBEq α]

def unseen (nodes seen : List α) : Nat := nodes.countP fun x => !seen.contains x

omit [LawfulBEq α] in
theorem unseen_le (nodes seen : List α) : unseen nodes seen ≤ nodes.length := List.countP_le_length

theorem unseen_append {nodes seen found : List α} (distinct : found.Nodup)
    (new : ∀ x ∈ found, x ∈ nodes ∧ x ∉ seen) :
    found.length + unseen nodes (seen ++ found) ≤ unseen nodes seen := by
  have part : found.Subperm ((nodes.filter fun x => !seen.contains x).filter found.contains) := by
    refine distinct.subperm fun x member => ?_
    simp [new x member, member]
  have rest : unseen nodes (seen ++ found) =
      ((nodes.filter fun x => !seen.contains x).filter fun x => !found.contains x).length := by
    rw [unseen, List.countP_eq_length_filter, List.filter_filter]
    congr 2
    funext x
    simp [Bool.and_comm]
  have whole := List.length_eq_length_filter_add (l := nodes.filter fun x => !seen.contains x) found.contains
  rw [rest, unseen, List.countP_eq_length_filter, whole]
  exact Nat.add_le_add_right part.length_le _

/-- A step takes one node from the queue, and what it adds is no longer unseen. -/
theorem unseen_advance {next : α → List α} {nodes : List α} (inside : ∀ x, ∀ y ∈ next x, y ∈ nodes)
    (done queue : List α) (x : α) :
    (queue ++ fresh (done ++ x :: queue) (next x)).length +
        unseen nodes (done ++ x :: queue ++ fresh (done ++ x :: queue) (next x)) <
      (x :: queue).length + unseen nodes (done ++ x :: queue) := by
  have new : ∀ y ∈ fresh (done ++ x :: queue) (next x), y ∈ nodes ∧ y ∉ done ++ x :: queue := fun y member =>
    ⟨inside x y (mem_fresh.mp member).1, (mem_fresh.mp member).2⟩
  have room := unseen_append (fresh_nodup (done ++ x :: queue) (next x)) new
  simp only [List.length_append, List.length_cons]
  omega

omit [BEq α] [LawfulBEq α] in
theorem length_flatMap_le {β : Type} {f : β → List α} {count : β → Nat} (fits : ∀ b, (f b).length ≤ count b)
    (items : List β) : (items.flatMap f).length ≤ items.foldl (fun n b => n + count b) 0 := by
  have counted : ∀ n, n + (items.flatMap f).length ≤ items.foldl (fun n b => n + count b) n := by
    induction items with
    | nil => exact fun n => Nat.le_refl n
    | cons b rest ih =>
      intro n
      have first := fits b
      have others := ih (n + count b)
      rw [List.flatMap_cons, List.length_append, List.foldl_cons]
      omega
  simpa using counted 0

end Fuel

/-! ## Collecting everything -/

section Searches

variable [BEq α] [LawfulBEq α] {next : α → List α} {starts nodes : List α}

omit [LawfulBEq α] in
theorem sweep_begins (next : α → List α) (fuel : Nat) (queue seen : List α) :
    seen <+: sweep next fuel queue seen := by
  induction fuel generalizing queue seen with
  | zero => exact List.prefix_rfl
  | succ fuel ih =>
    cases queue with
    | nil => exact List.prefix_rfl
    | cons x queue => exact (List.prefix_append _ _).trans (ih _ _)

theorem sweep_frontier (inside : ∀ x, ∀ y ∈ next x, y ∈ nodes) {fuel : Nat} {done queue : List α}
    (h : Frontier next starts done queue) (enough : queue.length + unseen nodes (done ++ queue) ≤ fuel) :
    Frontier next starts (sweep next fuel queue (done ++ queue)) [] := by
  induction fuel generalizing done queue with
  | zero =>
    obtain rfl : queue = [] := List.eq_nil_of_length_eq_zero (by omega)
    simpa [sweep] using h
  | succ fuel ih =>
    cases queue with
    | nil => simpa [sweep] using h
    | cons x queue =>
      have less := unseen_advance inside done queue x
      have rest := ih h.advance
      rw [Frontier.seen_advance] at rest
      exact rest (by omega)

/-! ## Looking for a goal -/

/-- A shortest chain of links from a start to a node, the node first. -/
structure Route (next : α → List α) (starts : List α) (x : α) (route : List α) : Prop where
  ends : route.head? = some x
  linked : route.IsChain fun b a => b ∈ next a
  begins : ∃ s ∈ starts, route.getLast? = some s
  shortest : ∀ n, Reaches next starts n x → route.length ≤ n + 1

omit [BEq α] [LawfulBEq α] in
theorem Route.single {x : α} (member : x ∈ starts) : Route next starts x [x] where
  ends := rfl
  linked := List.isChain_singleton x
  begins := ⟨x, member, rfl⟩
  shortest n _ := by simp

omit [BEq α] [LawfulBEq α] in
theorem Route.extend {x y : α} {route : List α} (h : Route next starts x route) (link : y ∈ next x)
    (farther : ∀ n, Reaches next starts n y → ∃ k < n, Reaches next starts k x) :
    Route next starts y (y :: route) where
  ends := rfl
  linked := by
    refine List.isChain_cons.mpr ⟨fun z first => ?_, h.linked⟩
    rw [h.ends] at first
    cases first
    exact link
  begins := by
    obtain ⟨s, member, last⟩ := h.begins
    exact ⟨s, member, by simp [List.getLast?_cons, last]⟩
  shortest n path := by
    obtain ⟨k, nearer, there⟩ := farther n path
    have fits := h.shortest k there
    rw [List.length_cons]
    omega

omit [BEq α] [LawfulBEq α] in
theorem Route.reached {x : α} {route : List α} (h : Route next starts x route) :
    ∃ n, Reaches next starts n x := by
  obtain ⟨s, member, last⟩ := h.begins
  have linked : route.reverse.IsChain fun a b => b ∈ next a := List.isChain_reverse.mpr h.linked
  obtain ⟨n, path, -⟩ := Reaches.ofPath member (by rw [List.head?_reverse, last])
    (by rw [List.getLast?_reverse, h.ends]) linked
  exact ⟨n, path⟩

/-- A search that has not met the goal among the nodes that are done finds a shortest chain to it, or there
    is none. -/
theorem findPath_cases (inside : ∀ x, ∀ y ∈ next x, y ∈ nodes) {goal : α} {fuel : Nat} {done waiting : List α}
    {queue : List (List α)} (h : Frontier next starts done waiting)
    (routes : List.Forall₂ (Route next starts) waiting queue) (missed : goal ∉ done)
    (enough : waiting.length + unseen nodes (done ++ waiting) ≤ fuel) :
    (∃ route, findPath next goal fuel queue (done ++ waiting) = some route.reverse ∧
      Route next starts goal route) ∨
    findPath next goal fuel queue (done ++ waiting) = none ∧ ∀ n, ¬ Reaches next starts n goal := by
  induction fuel generalizing done waiting queue with
  | zero =>
    obtain rfl : waiting = [] := List.eq_nil_of_length_eq_zero (by omega)
    exact .inr ⟨rfl, fun n path => missed (h.exhausted.mpr ⟨n, path⟩)⟩
  | succ fuel ih =>
    cases routes with
    | nil => exact .inr ⟨rfl, fun n path => missed (h.exhausted.mpr ⟨n, path⟩)⟩
    | @cons x route waiting queue first others =>
      obtain ⟨trail, rfl⟩ : ∃ trail, route = x :: trail := by
        cases route with
        | nil => exact absurd first.ends (by simp)
        | cons y trail => exact ⟨trail, by rw [Option.some.inj first.ends]⟩
      rw [findPath]
      split
      · next arrived =>
          rw [eq_of_beq arrived] at first ⊢
          exact .inl ⟨_, rfl, first⟩
      · next other =>
          have different : goal ≠ x := fun same => other (by simp [same])
          have less := unseen_advance inside done waiting x
          have longer : List.Forall₂ (Route next starts) (fresh (done ++ x :: waiting) (next x))
              ((fresh (done ++ x :: waiting) (next x)).map (· :: x :: trail)) := by
            rw [List.forall₂_map_right_iff, List.forall₂_same]
            intro y found
            obtain ⟨link, new⟩ := mem_fresh.mp found
            exact first.extend link fun n path => h.head_nearer path new
          have rest := ih h.advance (List.rel_append others longer) (by simp [missed, different])
          rw [Frontier.seen_advance] at rest
          exact rest (by omega)

end Searches

end ClassAtlas.Search
