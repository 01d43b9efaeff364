import ClassAtlas.Proofs.EnclosingCycles
import ClassAtlas.Proofs.LevelOrder
import ClassAtlas.Proofs.RelatedPairs

/-! # Calls of inherited methods

A method that a class takes over from a superclass is an element of its own, and its origin is the method
where it is declared. A call that names the class means the origin. So the entity of the origin is found by
such calls and that of the inherited method is not. The two searches of the superclass chain agree unless
the call stops earlier, at a method that no subclass takes over.
-/

namespace ClassAtlas

/-! ## The superclass chain -/

namespace ClassPool

variable {before after : List Nat}

/-- The classes of a superclass chain before one of them. -/
def nearer (pool : ClassPool) (c declaring : Nat) : List Nat :=
  (pool.superclassChain c).takeWhile (· != declaring)

theorem superclassChain_distinct (pool : ClassPool) (c : Nat) :
    (pool.superclassChain c).Nodup ∧ pool.superclassChain c = c :: (pool.superclassChain c).tail := by
  obtain ⟨nodup, ⟨rest, begins⟩, -⟩ :=
    Search.walk_visits pool.superclass? pool.length (List.nodup_singleton c) (List.mem_singleton_self c)
      (fun v member other => absurd (List.mem_singleton.mp member) other)
  refine ⟨nodup, ?_⟩
  rw [superclassChain, ← begins]
  rfl

theorem not_mem_before {pool : ClassPool} {c declaring : Nat}
    (chain : pool.superclassChain c = before ++ declaring :: after) : declaring ∉ before := by
  intro member
  have distinct := (pool.superclassChain_distinct c).1
  rw [chain] at distinct
  exact (List.nodup_append.mp distinct).2.2 declaring member declaring List.mem_cons_self rfl

theorem nearer_eq {pool : ClassPool} {c declaring : Nat}
    (chain : pool.superclassChain c = before ++ declaring :: after) : pool.nearer c declaring = before := by
  have others : ∀ x ∈ before, (x != declaring) = true := by
    intro x member
    exact bne_iff_ne.mpr fun same => not_mem_before chain (same ▸ member)
  rw [nearer, chain, List.takeWhile_append_of_pos others]
  simp

end ClassPool

/-! ## What a class takes over -/

/-- Subclasses do not take the method over. -/
def MethodDeclaration.Hidden (m : MethodDeclaration) : Prop :=
  m.isConstructor = true ∨ m.isStaticInitializer = true ∨
    m.access &&& (Access.privateFlag ||| Access.staticFlag) ≠ 0

namespace ElementIndex

variable {ix : ElementIndex} {name desc : String} {d : ClassDeclaration} {r : SignatureResolver}
  {declaring position : Nat} {seen : List (String × String)} {c : Nat}

theorem visibleMembers_getElem? {i : Nat} :
    (visibleMembers .method d)[i]? = some (some (name, desc)) ↔
      ∃ m, d.methods[i]? = some m ∧ ¬m.Hidden ∧ m.name = name ∧ m.desc = desc := by
  rw [visibleMembers, List.getElem?_map, Option.map_eq_some_iff]
  refine exists_congr fun m => and_congr_right fun _ => ?_
  split
  · next hidden =>
      have hidden' : m.Hidden := by simpa [MethodDeclaration.Hidden, or_assoc] using hidden
      simp [hidden']
  · next visible =>
      have visible' : ¬m.Hidden := by simpa [MethodDeclaration.Hidden, or_assoc] using visible
      simp [visible']

theorem selectNew_names (declaring i : Nat) (entries : List (Option (String × String)))
    (seen : List (String × String)) {name : String × String} :
    name ∈ (selectNew declaring i entries seen).2 ↔ name ∈ seen ∨ some name ∈ entries := by
  induction entries generalizing i seen with
  | nil => simp [selectNew]
  | cons entry rest ih =>
    cases entry with
    | none => simp [selectNew, ih]
    | some other =>
      by_cases old : other ∈ seen
      · have known : seen.contains other = true := List.contains_iff_mem.mpr old
        simp only [selectNew, known, if_true, ih, List.mem_cons, Option.some.injEq]
        constructor
        · exact Or.imp_right .inr
        · rintro (before | rfl | later)
          · exact .inl before
          · exact .inl old
          · exact .inr later
      · have unknown : seen.contains other = false := by simpa using old
        simp only [selectNew, unknown, Bool.false_eq_true, if_false, ih, List.mem_cons, Option.some.injEq]
        exact or_assoc.trans or_left_comm

theorem mem_selectNew {declaring i : Nat} {entries : List (Option (String × String))} {place : Nat × Nat}
    (member : place ∈ (selectNew declaring i entries seen).1) :
    ∃ j name, place = (declaring, i + j) ∧ entries[j]? = some (some name) ∧ name ∉ seen ∧
      ∀ k < j, entries[k]? ≠ some (some name) := by
  induction entries generalizing i seen with
  | nil => simp [selectNew] at member
  | cons entry rest ih =>
    -- One entry further on, for a selection that left this entry out.
    have onward {seen' : List (String × String)} (within : place ∈ (selectNew declaring (i + 1) rest seen').1)
        (more : ∀ name, name ∉ seen' → name ∉ seen ∧ entry ≠ some name) :
        ∃ j name, place = (declaring, i + j) ∧ (entry :: rest)[j]? = some (some name) ∧ name ∉ seen ∧
          ∀ k < j, (entry :: rest)[k]? ≠ some (some name) := by
      obtain ⟨j, name, rfl, there, new, first⟩ := ih within
      obtain ⟨new', other⟩ := more name new
      refine ⟨j + 1, name, by rw [Nat.add_assoc, Nat.add_comm 1 j], there, new', fun k less => ?_⟩
      cases k with
      | zero => simpa using other
      | succ k => exact first k (by omega)
    cases entry with
    | none => exact onward member fun name new => ⟨new, by simp⟩
    | some other =>
      by_cases old : other ∈ seen
      · have known : seen.contains other = true := List.contains_iff_mem.mpr old
        rw [selectNew, if_pos known] at member
        refine onward member fun name new => ⟨new, ?_⟩
        rintro ⟨⟩
        exact new old
      · have unknown : ¬seen.contains other = true := by simpa using old
        rw [selectNew, if_neg unknown] at member
        rcases List.mem_cons.mp member with rfl | later
        · exact ⟨0, other, rfl, rfl, old, fun k less => absurd less (Nat.not_lt_zero k)⟩
        · refine onward later fun name new => ?_
          rw [List.mem_cons, not_or] at new
          exact ⟨new.2, fun same => new.1 (Option.some.inj same).symm⟩

theorem mem_inheritedFrom {kind : MemberKind} {pool : ClassPool} {supers : List Nat}
    (member : (declaring, position) ∈ inheritedFrom kind pool supers seen) :
    ∃ before after d name, supers = before ++ declaring :: after ∧ pool[declaring]? = some d ∧
      (visibleMembers kind d)[position]? = some (some name) ∧ name ∉ seen ∧
      (∀ i < position, (visibleMembers kind d)[i]? ≠ some (some name)) ∧
      ∀ c ∈ before, ∀ d', pool[c]? = some d' → some name ∉ visibleMembers kind d' := by
  induction supers generalizing seen with
  | nil => simp [inheritedFrom] at member
  | cons c rest ih =>
    rw [inheritedFrom] at member
    rcases List.mem_append.mp member with here | above
    · obtain ⟨j, name, same, there, new, first⟩ := mem_selectNew here
      rw [Nat.zero_add, Prod.mk.injEq] at same
      obtain ⟨rfl, rfl⟩ := same
      cases declared : pool[declaring]? with
      | none => simp [declared] at there
      | some d =>
        rw [declared] at there first
        exact ⟨[], rest, d, name, rfl, rfl, there, new, first, by simp⟩
    · obtain ⟨before, after, d, name, split, declared, there, new, first, none'⟩ := ih above
      rw [selectNew_names, not_or] at new
      refine ⟨c :: before, after, d, name, by rw [split]; rfl, declared, there, new.1, first, ?_⟩
      intro c' member d' declared'
      rcases List.mem_cons.mp member with rfl | later
      · simpa [declared'] using new.2
      · exact none' c' later d' declared'

/-! ## The elements of what is taken over -/

theorem member_find? (kind : MemberKind) (declaring position seenFrom : Nat) (ix : ElementIndex) :
    (ix.member kind declaring position seenFrom).2.find? (.member kind declaring position seenFrom) =
      some (ix.member kind declaring position seenFrom).1 := by
  unfold member
  split
  · next same =>
      rw [same]
      exact declaredMember_find? kind declaring position ix
  · exact find?_intern _ _ _

theorem mem_members {kind : MemberKind} {seenFrom : Nat} {places : List (Nat × Nat)} {id : ElementId}
    (member : id ∈ (ix.members kind seenFrom places).1) : ∃ place ∈ places,
      (ix.members kind seenFrom places).2.find? (.member kind place.1 place.2 seenFrom) = some id := by
  induction places generalizing ix with
  | nil => simp [members] at member
  | cons place rest ih =>
    rw [members] at member
    rcases List.mem_cons.mp member with rfl | later
    · exact ⟨place, List.mem_cons_self,
        (members_fills kind seenFrom rest _).keys (member_find? kind place.1 place.2 seenFrom ix)⟩
    · obtain ⟨place', listed, found⟩ := ih later
      exact ⟨place', List.mem_cons_of_mem _ listed, found⟩

theorem Coherent.methodDeclaration?_eq (h : ix.Coherent r) {id : ElementId} {declaring position seenFrom : Nat}
    (found : ix.find? (.member .method declaring position seenFrom) = some id) {m : MethodDeclaration}
    (declared : ix.methodDeclaration? id = some (d, m)) :
    ix.classes[declaring]? = some d ∧ d.methods[position]? = some m := by
  obtain ⟨element, stored, justified⟩ := h.stored found
  have kept : ∃ owner origin, element = .member .method declaring position owner origin := by
    cases justified with
    | declaredMember => exact ⟨_, _, rfl⟩
    | inheritedMember => exact ⟨_, _, rfl⟩
  obtain ⟨owner, origin, rfl⟩ := kept
  simpa [methodDeclaration?, stored, Option.bind_eq_some_iff] using declared

/-- A class takes over a method from another: the first visible one of its name and descriptor. -/
structure TakesOver (ix : ElementIndex) (c : Nat) (name desc : String) (declaring position : Nat) : Prop where
  above : declaring ∈ ix.classes.superclassChain c
  visible : ∃ d, ix.classes[declaring]? = some d ∧
    (visibleMembers .method d)[position]? = some (some (name, desc)) ∧
    ∀ i < position, (visibleMembers .method d)[i]? ≠ some (some (name, desc))
  first : ∀ c' ∈ ix.classes.nearer c declaring, ∀ d, ix.classes[c']? = some d →
    some (name, desc) ∉ visibleMembers .method d

/-- The methods of a class with the inherited ones have an element of this name and descriptor, and the class
    does not declare it. -/
structure Inherits (ix : ElementIndex) (cls view : ElementId) (name desc : String) : Prop where
  listed : view ∈ (ix.methods cls true).1
  called : ∃ d m, (ix.methods cls true).2.methodDeclaration? view = some (d, m) ∧ m.name = name ∧ m.desc = desc
  elsewhere : ∀ d, ix.classDeclaration? cls = some d → ∀ m ∈ d.methods, ¬(m.name = name ∧ m.desc = desc)

theorem Inherits.takesOver (coherent : ix.Coherent r) {cls view : ElementId}
    (stored : ix.get? cls = some (.classDef c)) (h : ix.Inherits cls view name desc) :
    ∃ declaring position, c ≠ declaring ∧ ix.TakesOver c name desc declaring position ∧
      (ix.methods cls true).2.find? (.member .method declaring position c) = some view := by
  have own : ix.classIndex? cls = some c := by simp [classIndex?, stored]
  have seen : ix.methods cls true = ix.members .method c (memberPlaces .method ix.classes c true) := by
    rw [methods, membersOf, own]
  obtain ⟨⟨declaring, position⟩, place, found⟩ := mem_members (seen ▸ h.listed)
  rw [← seen] at found
  have same : (ix.methods cls true).2.classes = ix.classes := (membersOf_fills .method cls true ix).sameClasses
  have coherent' : (ix.methods cls true).2.Coherent r := (Accepted.membersOf coherent .method cls true).coherent
  obtain ⟨d, m, declared, rfl, rfl⟩ := h.called
  obtain ⟨there, body⟩ := coherent'.methodDeclaration?_eq found declared
  rw [same] at there
  have ownDeclaration : ix.classDeclaration? cls = ix.classes[c]? := by simp [classDeclaration?, ownClass?, stored]
  have notOwn : c ≠ declaring := by
    rintro rfl
    exact h.elsewhere d (ownDeclaration.trans there) m (List.mem_of_getElem? body) ⟨rfl, rfl⟩
  refine ⟨declaring, position, notOwn, ?_, found⟩
  rw [memberPlaces, if_pos rfl] at place
  rcases List.mem_append.mp place with declared | inherited
  · obtain ⟨i, -, here⟩ := List.mem_map.mp declared
    exact absurd (Prod.mk.inj here).1 notOwn
  · obtain ⟨before, after, d', ⟨name, desc⟩, tail, there', visible, -, earliest, first⟩ := mem_inheritedFrom inherited
    cases Option.some.inj (there.symm.trans there')
    obtain ⟨m', body', -, rfl, rfl⟩ := visibleMembers_getElem?.mp visible
    cases Option.some.inj (body.symm.trans body')
    have chain : ix.classes.superclassChain c = (c :: before) ++ declaring :: after := by
      rw [(ix.classes.superclassChain_distinct c).2, tail, List.cons_append]
    refine ⟨?_, ⟨d, there, visible, earliest⟩, ?_⟩
    · rw [chain]
      exact List.mem_append_right _ List.mem_cons_self
    · rw [ix.classes.nearer_eq chain]
      refine List.forall_mem_cons.mpr ⟨fun d' here member => ?_, first⟩
      obtain ⟨i, position⟩ := List.mem_iff_getElem?.mp member
      obtain ⟨own, body, -, named⟩ := visibleMembers_getElem?.mp position
      exact h.elsewhere d' (ownDeclaration.trans here) own (List.mem_of_getElem? body) named

/-! ## What a call means -/

/-- A call of this name and descriptor means a method of the class. Methods of made-up classes are known by
    name alone. -/
def Means (ix : ElementIndex) (name desc : String) (c : Nat) (m : MethodDeclaration) : Prop :=
  m.name = name ∧ (m.desc = desc ∨ ix.given ≤ c)

instance (ix : ElementIndex) (name desc : String) (c : Nat) (m : MethodDeclaration) :
    Decidable (ix.Means name desc c m) := inferInstanceAs (Decidable (_ ∧ _))

theorem methodPosition?_eq (there : ix.classes[c]? = some d) (name desc : String) :
    ix.methodPosition? name desc c = d.methods.findIdx? fun m => decide (ix.Means name desc c m) := by
  rw [methodPosition?, there, Option.bind_some]
  split
  · next madeUp =>
      congr 1
      funext m
      simp [Means, madeUp, beq_eq_decide]
  · next given =>
      congr 1
      funext m
      simp [Means, given, beq_eq_decide]

theorem methodPosition?_eq_none (there : ix.classes[c]? = some d) :
    ix.methodPosition? name desc c = none ↔ ∀ (i : Nat) m, d.methods[i]? = some m → ¬ix.Means name desc c m := by
  rw [methodPosition?_eq there, List.findIdx?_eq_none_iff]
  constructor
  · intro none' i m body
    exact of_decide_eq_false (none' m (List.mem_of_getElem? body))
  · intro none' m member
    obtain ⟨i, body⟩ := List.mem_iff_getElem?.mp member
    exact decide_eq_false (none' i m body)

theorem methodPosition?_eq_some (there : ix.classes[c]? = some d) {i : Nat} {m : MethodDeclaration}
    (body : d.methods[i]? = some m) (means : ix.Means name desc c m) :
    ix.methodPosition? name desc c = some i ↔ ∀ j < i, ∀ m, d.methods[j]? = some m → ¬ix.Means name desc c m := by
  rw [methodPosition?_eq there, List.findIdx?_eq_some_iff_getElem]
  obtain ⟨inside, rfl⟩ := List.getElem?_eq_some_iff.mp body
  constructor
  · rintro ⟨_, _, first⟩ j less m body
    obtain ⟨_, rfl⟩ := List.getElem?_eq_some_iff.mp body
    simpa using first j less
  · intro first
    refine ⟨inside, decide_eq_true means, fun j less => ?_⟩
    simpa using first j less _ (List.getElem?_eq_getElem (less.trans inside))

theorem mem_of_firstMatch {cs : List Nat} {place : Nat × Nat}
    (first : cs.findSome? (fun d => (ix.methodPosition? name desc d).map (d, ·)) = some place) :
    place.1 ∈ cs ∧ ix.methodPosition? name desc place.1 = some place.2 := by
  obtain ⟨d, member, matched⟩ := List.exists_of_findSome?_eq_some first
  obtain ⟨i, position, rfl⟩ := Option.map_eq_some_iff.mp matched
  exact ⟨member, position⟩

theorem firstMatch_append {before after : List Nat} (absent : declaring ∉ before) :
    (before ++ declaring :: after).findSome? (fun d => (ix.methodPosition? name desc d).map (d, ·)) =
        some (declaring, position) ↔
      (∀ c ∈ before, ix.methodPosition? name desc c = none) ∧
        ix.methodPosition? name desc declaring = some position := by
  constructor
  · intro first
    refine ⟨?_, (mem_of_firstMatch first).2⟩
    rw [List.findSome?_append] at first
    cases near : before.findSome? fun d => (ix.methodPosition? name desc d).map (d, ·) with
    | none =>
      intro c member
      simpa using List.findSome?_eq_none_iff.mp near c member
    | some place =>
      rw [near, Option.some_or] at first
      cases first
      exact absurd (mem_of_firstMatch near).1 absent
  · rintro ⟨none', here⟩
    have near : before.findSome? (fun d => (ix.methodPosition? name desc d).map (d, ·)) = none := by
      rw [List.findSome?_eq_none_iff]
      intro c member
      rw [none' c member]
      rfl
    rw [List.findSome?_append, near, Option.none_or, List.findSome?_cons, here]
    rfl

theorem resolveMethod?_eq {owner : TypeName} (named : ix.classes.indexOf? owner = some c) {declaring : Nat}
    (above : declaring ∈ ix.classes.superclassChain c) {position : Nat} {origin : ElementId}
    (found : ix.find? (.member .method declaring position declaring) = some origin) (name desc : String) :
    ix.resolveMethod? owner name desc = some origin ↔
      (∀ c' ∈ ix.classes.nearer c declaring, ix.methodPosition? name desc c' = none) ∧
        ix.methodPosition? name desc declaring = some position := by
  have searched : ix.resolveMethod? owner name desc = some origin ↔ (ix.classes.lookupOrder c).findSome?
      (fun d => (ix.methodPosition? name desc d).map (d, ·)) = some (declaring, position) := by
    simp only [resolveMethod?, named, Option.bind_eq_bind, Option.bind_some, Option.bind_eq_some_iff]
    constructor
    · rintro ⟨⟨d, i⟩, first, key⟩
      cases find?_inj key found
      exact first
    · exact fun first => ⟨_, first, found⟩
  -- The chain begins the order of the search, and the interfaces come after it.
  obtain ⟨more, order⟩ : ix.classes.superclassChain c <+: ix.classes.lookupOrder c := Search.sweep_begins _ _ _ _
  obtain ⟨before, after, chain⟩ := List.append_of_mem above
  rw [searched, ← order, chain, List.append_assoc, List.cons_append, ClassPool.nearer_eq chain]
  exact firstMatch_append (ClassPool.not_mem_before chain)

/-- A call means a method that no subclass takes over under this name and descriptor. -/
def Obscures (ix : ElementIndex) (name desc : String) (c i : Nat) : Prop :=
  ∃ d m, ix.classes[c]? = some d ∧ d.methods[i]? = some m ∧ m.name = name ∧
    (m.desc = desc ∧ m.Hidden ∨ m.desc ≠ desc ∧ ix.given ≤ c)

/-- No such method comes before a place in the superclass chain. -/
def Unobscured (ix : ElementIndex) (name desc : String) (c declaring position : Nat) : Prop :=
  (∀ c' ∈ ix.classes.nearer c declaring, ∀ i, ¬ix.Obscures name desc c' i) ∧
    ∀ i < position, ¬ix.Obscures name desc declaring i

theorem not_means_iff {c i : Nat} (there : ix.classes[c]? = some d)
    (invisible : (visibleMembers .method d)[i]? ≠ some (some (name, desc))) :
    (∀ m, d.methods[i]? = some m → ¬ix.Means name desc c m) ↔ ¬ix.Obscures name desc c i := by
  rw [ne_eq, visibleMembers_getElem?] at invisible
  constructor
  · rintro none' ⟨d', m, there', body, named, meant⟩
    cases Option.some.inj (there.symm.trans there')
    exact none' m body ⟨named, meant.imp And.left And.right⟩
  · rintro clear m body ⟨named, meant⟩
    refine clear ⟨d, m, there, body, named, ?_⟩
    by_cases same : m.desc = desc
    · exact .inl ⟨same, by_contra fun visible => invisible ⟨m, body, visible, named, same⟩⟩
    · exact .inr ⟨same, meant.resolve_left same⟩

/-- A call means the origin of an inherited method exactly if nothing obscures it. -/
theorem TakesOver.resolveMethod?_eq_origin {owner : TypeName} {c declaring position : Nat} {origin : ElementId}
    (h : ix.TakesOver c name desc declaring position) (named : ix.classes.indexOf? owner = some c)
    (found : ix.find? (.member .method declaring position declaring) = some origin) :
    ix.resolveMethod? owner name desc = some origin ↔ ix.Unobscured name desc c declaring position := by
  rw [resolveMethod?_eq named h.above found]
  refine and_congr (forall₂_congr fun c' before => ?_) ?_
  · cases there : ix.classes[c']? with
    | none => simp [methodPosition?, Obscures, there]
    | some d =>
      rw [methodPosition?_eq_none there]
      exact forall_congr' fun i =>
        not_means_iff there fun member => h.first c' before d there (List.mem_of_getElem? member)
  · obtain ⟨d, there, visible, earliest⟩ := h.visible
    obtain ⟨m, body, -, named, same⟩ := visibleMembers_getElem?.mp visible
    rw [methodPosition?_eq_some there body ⟨named, .inl same⟩]
    exact forall₂_congr fun i less => not_means_iff there (earliest i less)

/-! ## Inherited methods and their origins -/

theorem Inherits.origin (coherent : ix.Coherent r) (listed : ix.Listed) {cls view : ElementId}
    (stored : ix.get? cls = some (.classDef c)) (h : ix.Inherits cls view name desc) : ∃ declaring position origin,
      (ix.methods cls true).2.get? view = some (.member .method declaring position cls (some origin)) ∧
        ix.find? (.member .method declaring position declaring) = some origin ∧
        ix.TakesOver c name desc declaring position := by
  obtain ⟨declaring, position, other, takesOver, found⟩ := h.takesOver coherent stored
  have accepted := Accepted.membersOf coherent .method cls true
  obtain ⟨element, seen, justified⟩ := accepted.coherent.stored found
  cases justified with
  | declaredMember => exact absurd rfl other
  | @inheritedMember _ _ _ _ owner origin _ home declared =>
    cases Option.some.inj (home.symm.trans (accepted.grows.keys (coherent.get?_classDef.mp stored)))
    refine ⟨declaring, position, origin, seen, ?_, takesOver⟩
    obtain ⟨d, there, visible, -⟩ := takesOver.visible
    obtain ⟨m, body, -⟩ := visibleMembers_getElem?.mp visible
    obtain ⟨d', _, _, _, there', _, _, _, each⟩ := listed.each declaring (List.getElem?_eq_some_iff.mp there).1
    cases Option.some.inj (there.symm.trans there')
    obtain ⟨id, -, key⟩ := each.all position (List.mem_range.mpr (List.getElem?_eq_some_iff.mp body).1)
    rw [key, ← declared]
    exact (accepted.grows.keys key).symm

theorem CallsMethod.declared {followLambdas : Bool} {caller callee : ElementId}
    (h : ix.CallsMethod followLambdas caller callee) :
    ∃ c position, ix.find? (.member .method c position c) = some callee := by
  have resolved {owner : TypeName} {name desc : String} (meant : ix.resolveMethod? owner name desc = some callee) :
      ∃ c position, ix.find? (.member .method c position c) = some callee := by
    simp only [resolveMethod?, Option.bind_eq_bind, Option.bind_eq_some_iff] at meant
    obtain ⟨-, -, place, -, found⟩ := meant
    exact ⟨place.1, place.2, found⟩
  cases h with
  | invoked _ meant => exact resolved meant
  | captured _ _ _ meant => exact resolved meant

theorem not_concerns_inherited {a b : ElementIndex} (coherent : a.Coherent r) (coherent' : b.Coherent r)
    (grows : a.Grows b) {view owner origin : ElementId}
    (stored : b.get? view = some (.member .method declaring position owner (some origin))) (followLambdas : Bool)
    (leaveOut : ElementId → Prop) (source : ElementId) :
    ¬a.Concerns followLambdas leaveOut source view .invokes := by
  obtain ⟨key, found, justified⟩ := coherent'.keyed stored
  cases justified with
  | @inheritedMember _ _ _ seenFrom _ _ elsewhere _ _ =>
    rintro (⟨root, m, -, calls, rfl | ⟨-, declaring', position', origin', seen⟩⟩ | ⟨root, m, -, -, -, owner', -, -, -, named⟩)
    · obtain ⟨caller, -, call⟩ := Relation.TransGen.tail'_iff.mp calls
      obtain ⟨c, i, declared⟩ := call.declared
      cases find?_inj found (grows.keys declared)
      exact elsewhere rfl
    · obtain ⟨c, home, -⟩ := coherent.identified.members seen
      cases (grows.get? home).symm.trans stored
    · obtain ⟨c, -, home⟩ := Option.bind_eq_some_iff.mp named
      cases find?_inj found (grows.keys home)

def ComesTo (ix : ElementIndex) (followLambdas : Bool) (source : ElementId) (i : Instruction) : Prop :=
  ∃ root m, ix.StandsFor root source ∧ Relation.ReflTransGen (ix.CallsMethod followLambdas) root m ∧
    ix.HasInstruction m i

theorem ComesTo.concerns {followLambdas : Bool} {source callee : ElementId} {kind : InvokeKind}
    {owner name desc : String} (h : ix.ComesTo followLambdas source (.invoke kind owner name desc))
    (resolved : ix.resolveMethod? (.ofInternal owner) name desc = some callee) (leaveOut : ElementId → Prop) :
    ix.Concerns followLambdas leaveOut source callee .invokes := by
  obtain ⟨root, m, stands, calls, body⟩ := h
  exact .inl ⟨root, callee, stands, .tail' calls (.invoked body resolved), .inl rfl⟩

end ElementIndex

namespace CallScanner

/-- Calls of a method that a class takes over, in any state of an index. The inherited method has its origin
    in the superclass that declares it. A call that names the class means the origin, exactly if nothing
    obscures it, and then relating links what comes to the call with the entity of the origin. Only links
    back lead to the entity of the inherited method. -/
theorem calls_find_origin (classes : List ClassDeclaration) (ops : List IndexOperation)
    (requests : List EntityStore.Request) (asked : List ElementId) (followLambdas : Bool)
    (source target : EntityType) (key : String) (backtrack : Bool) (owner name desc : String)
    (cls view : ElementId) :
    let ix := (IndexState.after classes ops).index
    let store := EntityStore.performAll .empty requests
    let scanner := (CallScanner.reachableEach ix asked { followLambdas := followLambdas }).2
    let after := scanner.relate ix .invokes source target key backtrack store
    ix.classByName? (.ofInternal owner) = some cls → ix.Inherits cls view name desc →
      ∃ c declaring position origin, ix.get? cls = some (.classDef c) ∧
        (ix.methods cls true).2.get? view = some (.member .method declaring position cls (some origin)) ∧
        (ix.resolveMethod? (.ofInternal owner) name desc = some origin ↔
          ix.Unobscured name desc c declaring position) ∧
        (ix.Unobscured name desc c declaring position →
          ∀ kind, ∀ s ∈ store.ofType source, ix.ComesTo followLambdas s.element (.invoke kind owner name desc) →
            ∀ t ∈ store.ofType target, t.element = origin →
              ∀ edge, IsLink s.id t.id key backtrack edge → edge ∈ after.2.1.edges) ∧
        ∀ t ∈ store.ofType target, t.element = view →
          ∀ edge ∈ after.2.1.edges, edge.child = t.id → edge ∈ store.edges ∨ edge.key = backtrackKey := by
  intro ix store scanner after named inherits
  have coherent : ix.Coherent _ := (IndexState.after_accepted classes ops).2.1
  have listed : ix.Listed := IndexState.after_listed classes ops
  have numbered : store.Numbered :=
    (EntityStore.Intact.empty.evolves (EntityStore.performAll_evolves _ requests)).toNumbered
  have links := relate_addsLinks coherent listed numbered asked followLambdas .invokes source target key backtrack
  obtain ⟨c, position, home⟩ := Option.bind_eq_some_iff.mp named
  have stored : ix.get? cls = some (.classDef c) := coherent.get?_classDef.mpr home
  obtain ⟨declaring, place, origin, seen, found, takesOver⟩ := inherits.origin coherent listed stored
  have means := takesOver.resolveMethod?_eq_origin position found
  refine ⟨c, declaring, place, origin, stored, seen, means, ?_, ?_⟩
  · rintro clear kind s member comes t member' rfl edge link
    exact (links edge).mpr (.inr ⟨s, member, t, member', comes.concerns (means.mpr clear) _, link⟩)
  · rintro t member rfl edge there toTarget
    rcases (links edge).mp there with old | ⟨s, -, t', member', concerns, -, rfl | ⟨-, rfl⟩⟩
    · exact .inl old
    · -- Entities of one number are one entity.
      have same : t' = t := by
        have there' := numbered.get? (List.mem_of_mem_filter member')
        rw [show t'.id = t.id from toTarget, numbered.get? (List.mem_of_mem_filter member)] at there'
        exact (Option.some.inj there').symm
      have accepted := Accepted.membersOf coherent .method cls true
      exact absurd (same ▸ concerns) (ElementIndex.not_concerns_inherited coherent accepted.coherent accepted.grows
        seen followLambdas _ _)
    · exact .inr rfl

end CallScanner

/-! ## A call through two superclasses -/

namespace SavedPets

/-- Saving is declared by the base class, and a class on the way to it has a private method of that name. -/
def classes (descOnTheWay : String) : List ClassDeclaration :=
  [{ name := "app/Base", methods := [{ name := "save", desc := "()V" }] },
   { name := "app/Middle", superName := some "app/Base",
     methods := [{ name := "save", desc := descOnTheWay, access := Access.privateFlag }] },
   { name := "app/Pet", superName := some "app/Middle" },
   { name := "app/Service",
     methods := [{ name := "run", desc := "()V", instructions := [.invoke .virtual "app/Pet" "save" "()V"] }] }]

/-- The inherited methods of the pets were asked for. -/
def index : ElementIndex := (IndexState.after (classes "(I)V") [.members .method ⟨6⟩ true]).index

theorem inherits : index.Inherits ⟨6⟩ ⟨9⟩ "save" "()V" where
  listed := by decide +kernel
  called := ⟨_, _, rfl, rfl, rfl⟩
  elsewhere := by
    intro d declared m member
    have pet : index.classDeclaration? ⟨6⟩ = some { name := "app/Pet", superName := some "app/Middle" } := rfl
    cases Option.some.inj (pet.symm.trans declared)
    cases member

theorem comesTo : index.ComesTo true ⟨7⟩ (.invoke .virtual "app/Pet" "save" "()V") :=
  ⟨⟨8⟩, ⟨8⟩, .inr ⟨3, _, 0, by decide +kernel, rfl, by decide +kernel, by decide +kernel⟩, .refl,
    ⟨_, _, rfl, List.mem_singleton_self _⟩⟩

/-- A service and the method that pets inherit. -/
def inheritedStore : EntityStore := EntityStore.performAll .empty
  [.register "service" ⟨7⟩ .classDef none [], .register "operation" ⟨9⟩ .method none []]

/-- The service calls what pets inherit, and relating does not find it. -/
theorem inherited_method_not_found :
    let after := CallScanner.relate index .invokes "service" "operation" "invokes" false inheritedStore {}
    index.classByName? (.ofInternal "app/Pet") = some ⟨6⟩ ∧ index.Inherits ⟨6⟩ ⟨9⟩ "save" "()V" ∧
      (∃ s ∈ inheritedStore.ofType "service", s.id = ⟨0⟩ ∧
        index.ComesTo true s.element (.invoke .virtual "app/Pet" "save" "()V")) ∧
      (∃ t ∈ inheritedStore.ofType "operation", t.id = ⟨1⟩ ∧ t.element = ⟨9⟩) ∧
      ⟨⟨0⟩, "invokes", ⟨1⟩⟩ ∉ after.2.1.edges :=
  ⟨by decide +kernel, inherits, ⟨_, List.mem_singleton_self _, rfl, comesTo⟩,
    ⟨_, List.mem_singleton_self _, rfl, rfl⟩, by decide +kernel⟩

def requests : List EntityStore.Request :=
  [.register "service" ⟨7⟩ .classDef none [], .register "operation" ⟨2⟩ .method none [],
   .register "operation" ⟨9⟩ .method none []]

def store : EntityStore := EntityStore.performAll .empty requests

/-- With an entity of the declared method, relating finds that one. -/
theorem declared_method_found :
    let after := CallScanner.relate index .invokes "service" "operation" "invokes" false store {}
    index.classByName? (.ofInternal "app/Pet") = some ⟨6⟩ ∧ index.Inherits ⟨6⟩ ⟨9⟩ "save" "()V" ∧
      index.Unobscured "save" "()V" 2 0 0 ∧ ⟨⟨0⟩, "invokes", ⟨1⟩⟩ ∈ after.2.1.edges ∧
      ∀ edge ∈ after.2.1.edges, edge.child = ⟨2⟩ → edge ∈ store.edges ∨ edge.key = CallScanner.backtrackKey := by
  intro after
  have named : index.classByName? (.ofInternal "app/Pet") = some ⟨6⟩ := by decide +kernel
  obtain ⟨c, declaring, position, origin, stored, seen, means, linked, back⟩ :=
    CallScanner.calls_find_origin (classes "(I)V") [.members .method ⟨6⟩ true] requests [] true "service" "operation"
      "invokes" false "app/Pet" "save" "()V" ⟨6⟩ ⟨9⟩ named inherits
  have pet : index.get? ⟨6⟩ = some (.classDef 2) := by decide +kernel
  have view : (index.methods ⟨6⟩ true).2.get? ⟨9⟩ = some (.member .method 0 0 ⟨6⟩ (some ⟨2⟩)) := by decide +kernel
  cases pet.symm.trans stored
  cases view.symm.trans seen
  have clear : index.Unobscured "save" "()V" 2 0 0 := means.mp (by decide +kernel)
  refine ⟨named, inherits, clear, linked clear .virtual _ (List.mem_singleton_self _) comesTo _ List.mem_cons_self rfl _
    ⟨by decide, .inl rfl⟩, back _ (List.mem_cons_of_mem _ (List.mem_singleton_self _)) rfl⟩

/-- A private method of the same descriptor is what the call means. -/
example : (IndexState.after (classes "()V") []).index.resolveMethod? (.ofInternal "app/Pet") "save" "()V" =
    some ⟨4⟩ := by decide +kernel

end SavedPets

end ClassAtlas
