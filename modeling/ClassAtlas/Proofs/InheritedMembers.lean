import Mathlib.Tactic.Tauto
import ClassAtlas.Proofs.InheritedCalls

/-! # The members that a class inherits

A class has the members that it declares and, for every other name that a superclass offers, the first
member of that name in the nearest superclass that offers it. Superclasses are counted link by link, so
that nothing depends on how a walk up the classes notices that they form a cycle.
-/

namespace ClassAtlas

/-! ## What classes declare and offer -/

def Access.Inheritable (access : Access) : Prop :=
  access &&& Access.privateFlag = 0 ∧ access &&& Access.staticFlag = 0

namespace ClassDeclaration

/-- The class declares a member of that name at a position. The name of a method goes with its descriptor. -/
def Declares (d : ClassDeclaration) : MemberKind → Nat → String × String → Prop
  | .field, i, name => ∃ f, d.fields[i]? = some f ∧ name = (f.name, "")
  | .method, i, name => ∃ m, d.methods[i]? = some m ∧ name = (m.name, m.desc)

/-- The class declares a member of that name that subclasses can take over. -/
def Offers (d : ClassDeclaration) : MemberKind → Nat → String × String → Prop
  | .field, i, name => ∃ f, d.fields[i]? = some f ∧ name = (f.name, "") ∧ f.access.Inheritable
  | .method, i, name => ∃ m, d.methods[i]? = some m ∧ name = (m.name, m.desc) ∧ m.access.Inheritable ∧
      m.name ≠ "<init>" ∧ m.name ≠ "<clinit>"

end ClassDeclaration

theorem Access.inheritable_iff {access : Access} :
    access.Inheritable ↔ ¬ (access &&& (Access.privateFlag ||| Access.staticFlag) != 0) := by
  have apart : access &&& (Access.privateFlag ||| Access.staticFlag) =
      access &&& Access.privateFlag ||| access &&& Access.staticFlag :=
    UInt32.toBitVec_inj.mp (BitVec.and_or_distrib_left)
  rw [apart, bne_iff_ne, not_not, UInt32.or_eq_zero_iff]
  rfl

namespace ClassDeclaration

variable {d : ClassDeclaration} {kind : MemberKind} {i : Nat} {name : String × String}

theorem Offers.declares (offers : d.Offers kind i name) : d.Declares kind i name := by
  cases kind with
  | field =>
    obtain ⟨f, there, named, -⟩ := offers
    exact ⟨f, there, named⟩
  | method =>
    obtain ⟨m, there, named, -⟩ := offers
    exact ⟨m, there, named⟩

theorem memberNames_getElem? : (ElementIndex.memberNames kind d)[i]? = some name ↔ d.Declares kind i name := by
  cases kind with
  | field | method =>
    rw [ElementIndex.memberNames, List.getElem?_map, Option.map_eq_some_iff]
    exact exists_congr fun _ => and_congr_right fun _ => eq_comm

theorem visibleMembers_eq_some_iff :
    (ElementIndex.visibleMembers kind d)[i]? = some (some name) ↔ d.Offers kind i name := by
  cases kind with
  | field =>
    rw [ElementIndex.visibleMembers, List.getElem?_map, Option.map_eq_some_iff]
    refine exists_congr fun f => and_congr_right fun _ => ?_
    rw [Access.inheritable_iff]
    split
    · next hidden => simp [hidden]
    · next visible => simp [visible, eq_comm]
  | method =>
    obtain ⟨called, desc⟩ := name
    refine ElementIndex.visibleMembers_getElem?.trans
      (exists_congr fun m => and_congr_right fun _ => ?_)
    rw [Access.inheritable_iff, MethodDeclaration.Hidden, MethodDeclaration.isConstructor,
      MethodDeclaration.isStaticInitializer, beq_iff_eq, beq_iff_eq, bne_iff_ne, Prod.mk.injEq]
    tauto

theorem mem_visibleMembers : some name ∈ ElementIndex.visibleMembers kind d ↔ ∃ i, d.Offers kind i name := by
  rw [List.mem_iff_getElem?]
  exact exists_congr fun _ => visibleMembers_eq_some_iff

end ClassDeclaration

/-! ## Superclasses link by link -/

namespace ClassPool

def superclassAt? (pool : ClassPool) (c : Nat) : Nat → Option Nat
  | 0 => some c
  | n + 1 => (superclassAt? pool c n).bind pool.superclass?

/-- A class does not declare that name and takes over a member: in the nearest superclass that offers the
    name, the first that does. -/
structure Selects (pool : ClassPool) (kind : MemberKind) (c : Nat) (name : String × String)
    (declaring position : Nat) : Prop where
  notDeclared : ∀ d, pool[c]? = some d → ∀ i, ¬ d.Declares kind i name
  nearest : ∃ n, pool.superclassAt? c n = some declaring ∧
    ∀ k < n, ∀ other, pool.superclassAt? c k = some other →
      ∀ d, pool[other]? = some d → ∀ i, ¬ d.Offers kind i name
  first : ∃ d, pool[declaring]? = some d ∧ d.Offers kind position name ∧
    ∀ i < position, ¬ d.Offers kind i name

variable {pool : ClassPool} {c n x : Nat}

theorem walk_superclassAt? (fuel : Nat) (before : List Nat)
    (listed : ∀ i y, (before ++ [x])[i]? = some y → pool.superclassAt? c i = some y) :
    ∀ i y, (Search.walk pool.superclass? fuel (before ++ [x]) x)[i]? = some y →
      pool.superclassAt? c i = some y := by
  induction fuel generalizing before x with
  | zero => exact listed
  | succ fuel ih =>
    unfold Search.walk
    cases link : pool.superclass? x with
    | none => exact listed
    | some n =>
      dsimp only
      split
      · exact listed
      · refine ih (before ++ [x]) fun i y found => ?_
        rcases Nat.lt_trichotomy i (before ++ [x]).length with less | same | greater
        · rw [List.getElem?_append_left less] at found
          exact listed i y found
        · rw [same, List.getElem?_concat_length] at found
          have last : pool.superclassAt? c before.length = some x := listed _ x (by simp)
          rw [same, List.length_append, List.length_singleton, superclassAt?, last, ← found]
          exact link
        · have outside : (before ++ [x] ++ [n]).length ≤ i := by
            rw [List.length_append, List.length_singleton]
            omega
          rw [List.getElem?_eq_none outside] at found
          cases found

theorem superclassAt?_of_chain {i y : Nat} (found : (pool.superclassChain c)[i]? = some y) :
    pool.superclassAt? c i = some y := by
  refine walk_superclassAt? pool.length [] (fun i y start => ?_) i y found
  rw [List.nil_append, List.getElem?_singleton] at start
  split at start
  · next same => rw [same, ← start, superclassAt?]
  · cases start

theorem before_of_superclassAt? {before after : List Nat} (chain : pool.superclassChain c = before ++ after)
    {k y : Nat} (here : pool.superclassAt? c k = some y) (less : k < before.length) : y ∈ before := by
  have place : (pool.superclassChain c)[k]? = some before[k] := by
    rw [chain, List.getElem?_append_left less, List.getElem?_eq_getElem less]
  cases here.symm.trans (superclassAt?_of_chain place)
  exact List.getElem_mem less

theorem mem_superclassChain (found : pool.superclassAt? c n = some x) : x ∈ pool.superclassChain c := by
  refine ((Search.walk_reaches superclass?_lt c).2.2 x).mpr ?_
  induction n generalizing x with
  | zero =>
    cases found
    exact .refl
  | succ n ih =>
    obtain ⟨y, earlier, link⟩ := Option.bind_eq_some_iff.mp found
    exact (ih earlier).tail link

namespace Selects

variable {kind : MemberKind} {name : String × String} {declaring position : Nat}

theorem elsewhere (h : pool.Selects kind c name declaring position) : declaring ≠ c := by
  rintro rfl
  obtain ⟨d, there, offers, -⟩ := h.first
  exact h.notDeclared d there position offers.declares

theorem unique {declaring' position' : Nat} (h : pool.Selects kind c name declaring position)
    (h' : pool.Selects kind c name declaring' position') : declaring = declaring' ∧ position = position' := by
  obtain ⟨n, here, near⟩ := h.nearest
  obtain ⟨n', here', near'⟩ := h'.nearest
  obtain ⟨d, there, offers, first⟩ := h.first
  obtain ⟨d', there', offers', first'⟩ := h'.first
  have same : n = n' := by
    rcases Nat.lt_trichotomy n n' with less | same | greater
    · exact absurd offers (near' n less declaring here d there position)
    · exact same
    · exact absurd offers' (near n' greater declaring' here' d' there' position')
  subst same
  cases here.symm.trans here'
  cases there.symm.trans there'
  refine ⟨rfl, ?_⟩
  rcases Nat.lt_trichotomy position position' with less | same | greater
  · exact absurd offers (first' position less)
  · exact same
  · exact absurd offers' (first position' greater)

theorem exists_of_offered (notDeclared : ∀ d, pool[c]? = some d → ∀ i, ¬ d.Declares kind i name)
    (offered : ∃ n super d i, pool.superclassAt? c n = some super ∧ pool[super]? = some d ∧
      d.Offers kind i name) : ∃ declaring position, pool.Selects kind c name declaring position := by
  classical
  obtain ⟨declaring, d, i, here, there, offers⟩ := Nat.find_spec offered
  have found : ∃ i, d.Offers kind i name := ⟨i, offers⟩
  refine ⟨declaring, Nat.find found, notDeclared, ⟨Nat.find offered, here, ?_⟩, d, there, Nat.find_spec found, ?_⟩
  · intro k less other above d' there' i' offers'
    exact Nat.find_min offered less ⟨other, d', i', above, there', offers'⟩
  · intro i' less
    exact Nat.find_min found less

end Selects

end ClassPool

/-! ## What is selected along the chain -/

namespace ElementIndex

variable {kind : MemberKind} {pool : ClassPool} {c declaring position : Nat} {name : String × String}
  {id : ElementId} {seen : List (String × String)}

theorem mem_selectNew_of {i j : Nat} {entries : List (Option (String × String))}
    (there : entries[j]? = some (some name)) (new : name ∉ seen) (first : ∀ k < j, entries[k]? ≠ some (some name)) :
    (declaring, i + j) ∈ (selectNew declaring i entries seen).1 := by
  induction entries generalizing i j seen with
  | nil => cases there
  | cons entry rest ih =>
    cases j with
    | zero =>
      cases there
      have unknown : ¬ seen.contains name = true := by simpa using new
      rw [selectNew, if_neg unknown]
      exact List.mem_cons_self
    | succ j =>
      have others : ∀ k < j, rest[k]? ≠ some (some name) := fun k less => first (k + 1) (by omega)
      have further {seen' : List (String × String)} (new' : name ∉ seen') :
          (declaring, i + (j + 1)) ∈ (selectNew declaring (i + 1) rest seen').1 := by
        rw [← Nat.add_assoc, Nat.add_right_comm]
        exact ih there new' others
      cases entry with
      | none => exact further new
      | some other =>
        have different : name ≠ other := fun same => first 0 (by omega) (by rw [same]; rfl)
        rw [selectNew]
        split
        · exact further new
        · refine List.mem_cons_of_mem _ (further ?_)
          rw [List.mem_cons, not_or]
          exact ⟨different, new⟩

theorem mem_inheritedFrom_of {before after : List Nat} {d : ClassDeclaration} (there : pool[declaring]? = some d)
    (visible : (visibleMembers kind d)[position]? = some (some name)) (new : name ∉ seen)
    (first : ∀ i < position, (visibleMembers kind d)[i]? ≠ some (some name))
    (nearest : ∀ c ∈ before, ∀ d', pool[c]? = some d' → some name ∉ visibleMembers kind d') :
    (declaring, position) ∈ inheritedFrom kind pool (before ++ declaring :: after) seen := by
  induction before generalizing seen with
  | nil =>
    rw [List.nil_append, inheritedFrom, there]
    refine List.mem_append_left _ ?_
    have selected : (declaring, 0 + position) ∈ (selectNew declaring 0 (visibleMembers kind d) seen).1 :=
      mem_selectNew_of visible new first
    rwa [Nat.zero_add] at selected
  | cons c before ih =>
    rw [List.cons_append, inheritedFrom]
    refine List.mem_append_right _ (ih ?_ fun c' member => nearest c' (List.mem_cons_of_mem _ member))
    rw [selectNew_names, not_or]
    refine ⟨new, ?_⟩
    cases known : pool[c]? with
    | none => exact List.not_mem_nil
    | some d' => exact nearest c List.mem_cons_self d' known

theorem selectNew_nodup (i : Nat) (entries : List (Option (String × String))) (seen : List (String × String)) :
    (selectNew declaring i entries seen).1.Nodup := by
  induction entries generalizing i seen with
  | nil => exact List.nodup_nil
  | cons entry rest ih =>
    cases entry with
    | none => exact ih (i + 1) seen
    | some name =>
      rw [selectNew]
      split
      · exact ih (i + 1) seen
      · refine List.nodup_cons.mpr ⟨fun again => ?_, ih (i + 1) _⟩
        obtain ⟨j, _, same, -⟩ := mem_selectNew again
        have := (Prod.mk.inj same).2
        omega

theorem inheritedFrom_nodup {supers : List Nat} (distinct : supers.Nodup) (seen : List (String × String)) :
    (inheritedFrom kind pool supers seen).Nodup := by
  induction supers generalizing seen with
  | nil => exact List.nodup_nil
  | cons c rest ih =>
    obtain ⟨new, distinct⟩ := List.nodup_cons.mp distinct
    rw [inheritedFrom]
    refine List.nodup_append.mpr ⟨selectNew_nodup 0 _ _, ih distinct _, ?_⟩
    rintro ⟨declaring, position⟩ here place above rfl
    obtain ⟨j, _, same, -⟩ := mem_selectNew here
    obtain ⟨before, after, _, _, split, -⟩ := mem_inheritedFrom above
    obtain ⟨rfl, -⟩ := Prod.mk.inj same
    exact new (by rw [split]; exact List.mem_append_right _ List.mem_cons_self)

def ownNames (kind : MemberKind) (pool : ClassPool) (c : Nat) : List (String × String) :=
  (pool[c]?.map (memberNames kind)).getD []

def ownPlaces (kind : MemberKind) (pool : ClassPool) (c : Nat) : List (Nat × Nat) :=
  (List.range (ownNames kind pool c).length).map fun i => (c, i)

def takenPlaces (kind : MemberKind) (pool : ClassPool) (c : Nat) : List (Nat × Nat) :=
  inheritedFrom kind pool (pool.superclassChain c).tail (ownNames kind pool c)

theorem memberPlaces_inherited (kind : MemberKind) (pool : ClassPool) (c : Nat) :
    memberPlaces kind pool c true = ownPlaces kind pool c ++ takenPlaces kind pool c := rfl

theorem ownNames_getElem? {i : Nat} :
    (ownNames kind pool c)[i]? = some name ↔ ∃ d, pool[c]? = some d ∧ d.Declares kind i name := by
  unfold ownNames
  cases pool[c]? with
  | none => simp
  | some d => simp [ClassDeclaration.memberNames_getElem?]

theorem takenPlaces_nodup (kind : MemberKind) (pool : ClassPool) (c : Nat) : (takenPlaces kind pool c).Nodup :=
  inheritedFrom_nodup (pool.superclassChain_distinct c).1.tail _

theorem mem_takenPlaces :
    (declaring, position) ∈ takenPlaces kind pool c ↔ ∃ name, pool.Selects kind c name declaring position := by
  have chain := (pool.superclassChain_distinct c).2
  have own : ∀ name, name ∉ ownNames kind pool c ↔
      ∀ d, pool[c]? = some d → ∀ i, ¬ d.Declares kind i name := by
    intro name
    rw [List.mem_iff_getElem?]
    simp only [ownNames_getElem?]
    exact ⟨fun missing d there i declares => missing ⟨i, d, there, declares⟩,
      fun missing ⟨i, d, there, declares⟩ => missing d there i declares⟩
  unfold takenPlaces
  constructor
  · intro member
    obtain ⟨before, after, d, name, tail, there, visible, new, first, nearest⟩ := mem_inheritedFrom member
    rw [tail, ← List.cons_append] at chain
    have notDeclared := (own name).mp new
    refine ⟨name, notDeclared, ⟨before.length + 1, ?_, fun k less other above => ?_⟩, d, there,
      ClassDeclaration.visibleMembers_eq_some_iff.mp visible, fun i less offers => ?_⟩
    · exact ClassPool.superclassAt?_of_chain (by rw [chain]; simp)
    · have place := ClassPool.before_of_superclassAt? chain above less
      rcases List.mem_cons.mp place with rfl | near
      · exact fun d' there' i offers => notDeclared d' there' i offers.declares
      · exact fun d' there' i offers =>
          nearest other near d' there' (ClassDeclaration.mem_visibleMembers.mpr ⟨i, offers⟩)
    · exact first i less (ClassDeclaration.visibleMembers_eq_some_iff.mpr offers)
  · rintro ⟨name, selects⟩
    have other := selects.elsewhere
    obtain ⟨notDeclared, ⟨n, here, nearest⟩, d, there, offers, first⟩ := selects
    have above : declaring ∈ (pool.superclassChain c).tail := by
      have member := ClassPool.mem_superclassChain here
      rw [chain] at member
      exact (List.mem_cons.mp member).resolve_left other
    obtain ⟨before, after, tail⟩ := List.append_of_mem above
    rw [tail, ← List.cons_append] at chain
    rw [tail]
    refine mem_inheritedFrom_of there (ClassDeclaration.visibleMembers_eq_some_iff.mpr offers) ((own name).mpr notDeclared)
      (fun i less visible => first i less (ClassDeclaration.visibleMembers_eq_some_iff.mp visible)) ?_
    -- A class before it on the chain is fewer links away, or the declaring class would stand there.
    intro c' near d' there' visible
    obtain ⟨j, place⟩ := List.mem_iff_getElem?.mp near
    have inside : j < before.length := (List.getElem?_eq_some_iff.mp place).1
    have less : j + 1 < n := by
      by_contra far
      have early := ClassPool.before_of_superclassAt? chain here (by rw [List.length_cons]; omega)
      exact ClassPool.not_mem_before chain early
    have link : pool.superclassAt? c (j + 1) = some c' := by
      refine ClassPool.superclassAt?_of_chain ?_
      rw [chain, List.getElem?_append_left (by simpa using inside)]
      exact place
    obtain ⟨i, offers'⟩ := ClassDeclaration.mem_visibleMembers.mp visible
    exact nearest (j + 1) less c' link d' there' i offers'

/-! ## The elements of a class's members -/

variable {ix : ElementIndex} {r : SignatureResolver} {cls : ElementId}

/-- An element shows a member as the class has it: it belongs to the class, and its origin is the member in
    the class that declares it. -/
def Shows (ix : ElementIndex) (kind : MemberKind) (cls : ElementId) (declaring position : Nat)
    (id : ElementId) : Prop :=
  ∃ origin home, ix.get? id = some (.member kind declaring position cls (some origin)) ∧
    ix.get? origin = some (.member kind declaring position home none) ∧
    ix.get? home = some (.classDef declaring)

section Answers

variable {α β : Type} {ids : List α} {places : List β} {find : β → Option α}

theorem mem_answers (answers : ids.map some = places.map find) {id : α} :
    id ∈ ids ↔ ∃ place ∈ places, find place = some id := by
  rw [← List.mem_map, ← answers]
  simp

theorem answer_of_mem (answers : ids.map some = places.map find) {place : β} (member : place ∈ places) :
    ∃ id ∈ ids, find place = some id := by
  have listed : find place ∈ ids.map some := answers ▸ List.mem_map_of_mem member
  obtain ⟨id, here, same⟩ := List.mem_map.mp listed
  exact ⟨id, here, same.symm⟩

end Answers

theorem members_find? (kind : MemberKind) (seenFrom : Nat) (places : List (Nat × Nat)) (ix : ElementIndex) :
    (ix.members kind seenFrom places).1.map some = places.map fun place =>
      (ix.members kind seenFrom places).2.find? (.member kind place.1 place.2 seenFrom) := by
  induction places generalizing ix with
  | nil => rfl
  | cons place rest ih =>
    rw [members, List.map_cons, List.map_cons, ih]
    refine congrArg (· :: _) ?_
    exact ((members_fills kind seenFrom rest _).keys (member_find? kind place.1 place.2 seenFrom ix)).symm

theorem intern_known {key : ElementKey} (known : ix.find? key = some id) (element : Element) :
    ix.intern key element = (id, ix) := by
  rw [intern, known]

theorem declaredMember_known (coherent : ix.Coherent r)
    (known : ix.find? (.member kind declaring position declaring) = some id) :
    ix.declaredMember kind declaring position = (id, ix) := by
  obtain ⟨_, -, justified⟩ := coherent.stored known
  have home : ∃ owner, ix.find? (.classDef declaring) = some owner := by
    cases justified with
    | declaredMember home => exact ⟨_, home⟩
    | inheritedMember elsewhere => exact absurd rfl elsewhere
  obtain ⟨owner, home⟩ := home
  simp only [declaredMember, intern_known home, intern_known known]

theorem member_known (coherent : ix.Coherent r) {seenFrom : Nat}
    (known : ix.find? (.member kind declaring position seenFrom) = some id) :
    ix.member kind declaring position seenFrom = (id, ix) := by
  by_cases same : seenFrom = declaring
  · subst same
    rw [member, if_pos rfl]
    exact declaredMember_known coherent known
  · obtain ⟨_, -, justified⟩ := coherent.stored known
    cases justified with
    | declaredMember => exact absurd rfl same
    | inheritedMember _ home declared =>
      simp only [member, if_neg same, intern_known home, declaredMember_known coherent declared,
        intern_known known]

theorem members_known (coherent : ix.Coherent r) {seenFrom : Nat} {places : List (Nat × Nat)}
    {ids : List ElementId}
    (known : ids.map some = places.map fun place => ix.find? (.member kind place.1 place.2 seenFrom)) :
    ix.members kind seenFrom places = (ids, ix) := by
  induction places generalizing ids with
  | nil =>
    cases List.map_eq_nil_iff.mp known
    rfl
  | cons place rest ih =>
    cases ids with
    | nil => cases known
    | cons id others =>
      obtain ⟨here, more⟩ := List.cons.inj known
      simp only [members, member_known coherent here.symm, ih more]

theorem Coherent.member_cases (coherent : ix.Coherent r) (stored : ix.get? cls = some (.classDef c))
    (found : ix.find? (.member kind declaring position c) = some id) :
    declaring = c ∧ ix.get? id = some (.member kind c position cls none) ∨
      declaring ≠ c ∧ ix.Shows kind cls declaring position id := by
  have own := coherent.get?_classDef.mp stored
  obtain ⟨element, here, justified⟩ := coherent.stored found
  cases justified with
  | declaredMember home =>
    cases home.symm.trans own
    exact .inl ⟨rfl, here⟩
  | inheritedMember elsewhere home declared =>
    cases home.symm.trans own
    obtain ⟨_, origin, justified⟩ := coherent.stored declared
    cases justified with
    | declaredMember base => exact .inr ⟨Ne.symm elsewhere, _, _, here, origin, coherent.get?_classDef.mpr base⟩
    | inheritedMember absurdity => exact absurd rfl absurdity

theorem membersOf_classDef (stored : ix.get? cls = some (.classDef c)) (inherited : Bool) :
    ix.membersOf kind cls inherited = ix.members kind c (memberPlaces kind ix.classes c inherited) := by
  have own : ix.classIndex? cls = some c := by simp [classIndex?, stored]
  rw [membersOf, own]

theorem membersOf_again {later : ElementIndex} {r' : SignatureResolver} (stored : ix.get? cls = some (.classDef c))
    {inherited : Bool} (grows : (ix.membersOf kind cls inherited).2.Grows later) (coherent : later.Coherent r')
    (same : later.classes = ix.classes) :
    later.membersOf kind cls inherited = ((ix.membersOf kind cls inherited).1, later) := by
  have stored' : later.get? cls = some (.classDef c) :=
    grows.get? ((membersOf_fills kind cls inherited ix).get? stored)
  have found := members_find? kind c (memberPlaces kind ix.classes c inherited) ix
  rw [membersOf_classDef stored] at grows ⊢
  rw [membersOf_classDef stored', same]
  refine members_known coherent (found.trans (List.map_congr_left fun place member => ?_))
  obtain ⟨id, -, known⟩ := answer_of_mem found member
  rw [known, grows.keys known]

/-! ## Own members and members taken over -/

section Parts

variable {ids : List ElementId}

theorem own_getElem? (coherent : ix.Coherent r) (stored : ix.get? cls = some (.classDef c))
    (own : ids.map some =
      (ownPlaces kind pool c).map fun place => ix.find? (.member kind place.1 place.2 c)) (i : Nat) :
    ((∃ id, ids[i]? = some id) ↔ ∃ d name, pool[c]? = some d ∧ d.Declares kind i name) ∧
      ∀ id, ids[i]? = some id → ix.get? id = some (.member kind c i cls none) := by
  have entry : ids[i]?.map some = (ownPlaces kind pool c)[i]?.map
      fun place => ix.find? (.member kind place.1 place.2 c) := by
    rw [← List.getElem?_map, own, List.getElem?_map]
  have declared : (∃ name, (ownNames kind pool c)[i]? = some name) ↔
      ∃ d name, pool[c]? = some d ∧ d.Declares kind i name := by
    simp only [ownNames_getElem?]
    exact exists_comm
  rw [← declared]
  by_cases inside : i < (ownNames kind pool c).length
  · have place : (ownPlaces kind pool c)[i]? = some (c, i) := by
      simp [ownPlaces, List.getElem?_range inside]
    rw [place] at entry
    obtain ⟨id, here, found⟩ := Option.map_eq_some_iff.mp entry
    refine ⟨⟨fun _ => ⟨_, List.getElem?_eq_getElem inside⟩, fun _ => ⟨id, here⟩⟩, fun id' here' => ?_⟩
    cases here.symm.trans here'
    exact ((coherent.member_cases stored found.symm).resolve_right fun other => other.1 rfl).2
  · have place : (ownPlaces kind pool c)[i]? = none := by
      refine List.getElem?_eq_none ?_
      simpa [ownPlaces] using inside
    rw [place] at entry
    have absent : ids[i]? = none := Option.map_eq_none_iff.mp entry
    have absent' : (ownNames kind pool c)[i]? = none := List.getElem?_eq_none (by omega)
    simp [absent, absent']

variable (coherent : ix.Coherent r) (stored : ix.get? cls = some (.classDef c))
  (taken : ids.map some =
    (takenPlaces kind pool c).map fun place => ix.find? (.member kind place.1 place.2 c))

include taken

theorem taken_nodup : ids.Nodup := by
  refine List.Nodup.of_map some ?_
  rw [taken]
  refine (takenPlaces_nodup kind pool c).map_on fun place here place' here' same => ?_
  obtain ⟨id, -, found⟩ := answer_of_mem taken here
  have key := find?_inj found (same.symm.trans found)
  simp only [ElementKey.member.injEq] at key
  exact Prod.ext key.2.1 key.2.2.1

include coherent stored

theorem taken_shows {id : ElementId} (member : id ∈ ids) : ∃ name declaring position,
    pool.Selects kind c name declaring position ∧ ix.Shows kind cls declaring position id ∧
      ix.find? (.member kind declaring position c) = some id := by
  obtain ⟨⟨declaring, position⟩, place, found⟩ := (mem_answers taken).mp member
  obtain ⟨name, selects⟩ := mem_takenPlaces.mp place
  refine ⟨name, declaring, position, selects, ?_, found⟩
  exact ((coherent.member_cases stored found).resolve_left fun same => selects.elsewhere same.1).2

theorem taken_unique {name : String × String}
    (notDeclared : ∀ d, pool[c]? = some d → ∀ i, ¬ d.Declares kind i name)
    (offered : ∃ n super d i, pool.superclassAt? c n = some super ∧ pool[super]? = some d ∧
      d.Offers kind i name) :
    ∃! id, id ∈ ids ∧ ∃ declaring position, pool.Selects kind c name declaring position ∧
      ix.Shows kind cls declaring position id := by
  obtain ⟨declaring, position, selects⟩ := ClassPool.Selects.exists_of_offered notDeclared offered
  obtain ⟨id, here, found⟩ := answer_of_mem taken (mem_takenPlaces.mpr ⟨name, selects⟩)
  have shows := ((coherent.member_cases stored found).resolve_left fun same => selects.elsewhere same.1).2
  refine ⟨id, ⟨here, declaring, position, selects, shows⟩, ?_⟩
  rintro id' ⟨here', declaring', position', selects', shows'⟩
  obtain ⟨rfl, rfl⟩ := selects.unique selects'
  -- The element tells the place, and the place tells the number.
  obtain ⟨_, declaring'', position'', -, shows'', found'⟩ := taken_shows coherent stored taken here'
  obtain ⟨_, _, element, -⟩ := shows'
  obtain ⟨_, _, element', -⟩ := shows''
  cases element.symm.trans element'
  exact Option.some.inj (found'.symm.trans found)

end Parts

end ElementIndex

/-- The members of a class with the inherited ones, in any state of an index. They are its own in order and
    then, for every other name that a class above it offers, one element of its own: that of the first member
    of the name in the nearest superclass that offers it. Asking again gives the same elements and adds none,
    until a class is made up. -/
theorem membersOf_inherits_exactly (classes : List ClassDeclaration) (ops : List IndexOperation)
    (kind : MemberKind) {cls : ElementId} {c : Nat}
    (stored : (IndexState.after classes ops).index.get? cls = some (.classDef c)) :
    let ix := (IndexState.after classes ops).index
    let pool : ClassPool := ix.classes
    let call := ix.membersOf kind cls true
    (∃ own taken, call.1 = own ++ taken ∧
      (∀ i, ((∃ id, own[i]? = some id) ↔ ∃ d name, pool[c]? = some d ∧ d.Declares kind i name) ∧
        ∀ id, own[i]? = some id → call.2.get? id = some (.member kind c i cls none)) ∧
      taken.Nodup ∧
      (∀ id ∈ taken, ∃ name declaring position, pool.Selects kind c name declaring position ∧
        call.2.Shows kind cls declaring position id) ∧
      ∀ name, (∀ d, pool[c]? = some d → ∀ i, ¬ d.Declares kind i name) →
        (∃ n super d i, pool.superclassAt? c n = some super ∧ pool[super]? = some d ∧ d.Offers kind i name) →
        ∃! id, id ∈ taken ∧ ∃ declaring position, pool.Selects kind c name declaring position ∧
          call.2.Shows kind cls declaring position id) ∧
    call.2.membersOf kind cls true = (call.1, call.2) ∧
    ∀ more, let later := (IndexState.after classes (ops ++ .members kind cls true :: more)).index
      later.classes = pool → later.membersOf kind cls true = (call.1, later) := by
  intro ix pool call
  have coherent : ix.Coherent _ := (IndexState.after_accepted classes ops).2.1
  have accepted := Accepted.membersOf coherent kind cls true
  have stored' : call.2.get? cls = some (.classDef c) := accepted.grows.get? stored
  refine ⟨?_, ?_, ?_⟩
  · have found := ElementIndex.members_find? kind c (ElementIndex.memberPlaces kind pool c true) ix
    rw [← ElementIndex.membersOf_classDef stored true, ElementIndex.memberPlaces_inherited, List.map_append] at found
    obtain ⟨own, taken, split, declared, inherited⟩ := List.map_eq_append_iff.mp found
    refine ⟨own, taken, split, ElementIndex.own_getElem? accepted.coherent stored' declared,
      ElementIndex.taken_nodup inherited, fun id member => ?_, fun name notDeclared offered => ?_⟩
    · obtain ⟨name, declaring, position, selects, shows, -⟩ :=
        ElementIndex.taken_shows accepted.coherent stored' inherited member
      exact ⟨name, declaring, position, selects, shows⟩
    · exact ElementIndex.taken_unique accepted.coherent stored' inherited notDeclared offered
  · exact ElementIndex.membersOf_again stored (.refl _) accepted.coherent
      (ElementIndex.membersOf_fills kind cls true ix).sameClasses
  · intro more later same
    have history : IndexState.after classes (ops ++ .members kind cls true :: more) =
        IndexState.performAll more (IndexOperation.perform (.members kind cls true) (IndexState.after classes ops)) :=
      IndexState.after_append classes ops _
    have onward := (IndexState.performAll_accepted (s := IndexOperation.perform (.members kind cls true)
      (IndexState.after classes ops)) accepted.coherent more).2
    rw [← history] at onward
    exact ElementIndex.membersOf_again stored onward.2 onward.1 same

/-! Three classes that are one another's superclasses, and a second class of a name. -/

namespace SuperclassCycle

def classes : List ClassDeclaration :=
  [{ name := "app/A", superName := some "app/B", methods := [{ name := "save", desc := "()V" }] },
   { name := "app/B", superName := some "app/C",
     methods := [{ name := "load", desc := "()V", access := Access.privateFlag }, { name := "run", desc := "()V" }] },
   { name := "app/C", superName := some "app/A",
     methods := [{ name := "load", desc := "()V" }, { name := "save", desc := "()V" }] },
   { name := "app/B", methods := [{ name := "extra", desc := "()V" }] }]

end SuperclassCycle

open SuperclassCycle in
/-- `app/A` has its own `save`, takes `load` from `app/C` since that of `app/B` is private, and has no
    `extra`, whose class is not the first of its name. -/
theorem membersOf_inherits_exactly_cycle :
    let ix := (IndexState.after classes []).index
    let pool : ClassPool := ix.classes
    let call := ix.membersOf .method ⟨1⟩ true
    ix.get? ⟨1⟩ = some (.classDef 0) ∧ call.1 = [⟨2⟩, ⟨11⟩, ⟨12⟩] ∧
      (∃ own taken, call.1 = own ++ taken ∧ ∃! id, id ∈ taken ∧ ∃ declaring position,
        pool.Selects .method 0 ("load", "()V") declaring position ∧
          call.2.Shows .method ⟨1⟩ declaring position id) ∧
      call.2.membersOf .method ⟨1⟩ true = (call.1, call.2) := by
  intro ix pool call
  have stored : ix.get? ⟨1⟩ = some (.classDef 0) := by decide +kernel
  have listed : call.1 = [⟨2⟩, ⟨11⟩, ⟨12⟩] := by decide +kernel
  obtain ⟨⟨own, taken, split, -, -, -, unique⟩, again, -⟩ := membersOf_inherits_exactly classes [] .method stored
  refine ⟨stored, listed, ⟨own, taken, split, unique ("load", "()V") ?_ ?_⟩, again⟩
  · intro d here i declared
    obtain ⟨m, there, named⟩ := declared
    cases here
    cases i with
    | zero =>
        cases there
        exact absurd named (by decide)
    | succ => cases there
  · have above : pool.superclassAt? 0 2 = some 2 := by decide +kernel
    exact ⟨2, 2, _, 0, above, rfl, _, rfl, rfl, ⟨by decide, by decide⟩, by decide, by decide⟩

end ClassAtlas
