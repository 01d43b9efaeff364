import ClassAtlas.Proofs.IndexIdentity
import ClassAtlas.Proofs.ScopeKinds

/-! # What discovery lists below a class

Discovery notes the members of every class once, when the class comes in. Nothing that is asked of the
index later changes such a list, not even the views of inherited members that are interned meanwhile. So the
methods that stand for a class are those that it declares, in every state of an index.
-/

namespace ClassAtlas

variable {r : SignatureResolver} {ix : ElementIndex}

namespace ElementIndex

variable {step : Nat → ElementIndex → ElementId × ElementIndex} {ix a b : ElementIndex}
  {key : Nat → ElementKey} (kind : MemberKind)

/-! ## Lists of children -/

/-- Elements have lists of children, and classes only those before a position. -/
def ListsBelow (k : Nat) (ix : ElementIndex) : Prop :=
  ∀ entry ∈ ix.childLists, ∃ key, ix.find? key = some entry.1 ∧ ∀ c, key = .classDef c → c < k

/-- An index grew, and no list was added for a class. -/
structure ListsMembers (a b : ElementIndex) : Prop extends Grows a b where
  listed : ∀ entry ∈ b.childLists, entry ∈ a.childLists ∨ ∃ kind, kind ≠ .classDef ∧ b.Finds kind entry.1

namespace ListsMembers

variable {a b c : ElementIndex}

theorem of_same (grows : Grows a b) (same : b.childLists = a.childLists) : ListsMembers a b :=
  ⟨grows, fun _ member => .inl (same ▸ member)⟩

theorem refl (ix : ElementIndex) : ListsMembers ix ix := .of_same (.refl ix) rfl

theorem trans (h : ListsMembers a b) (h' : ListsMembers b c) : ListsMembers a c := by
  refine ⟨h.toGrows.trans h'.toGrows, fun entry member => ?_⟩
  rcases h'.listed entry member with old | new
  · rcases h.listed entry old with older | ⟨kind, other, found⟩
    · exact .inl older
    · exact .inr ⟨kind, other, found.grows h'.toGrows⟩
  · exact .inr new

end ListsMembers

theorem ListsBelow.members {k : Nat} (h : ListsBelow k a) (more : ListsMembers a b) : ListsBelow k b := by
  intro entry member
  rcases more.listed entry member with old | ⟨kind, other, key, rfl, found⟩
  · obtain ⟨key, found, below⟩ := h entry old
    exact ⟨key, more.keys found, below⟩
  · refine ⟨key, found, ?_⟩
    rintro c rfl
    exact absurd rfl other

theorem intern_childLists (key : ElementKey) (element : Element) (ix : ElementIndex) :
    (ix.intern key element).2.childLists = ix.childLists := by
  unfold intern
  split
  · rfl
  · split <;> rfl

theorem internAll_childLists (entries : List (ElementKey × Element)) (ix : ElementIndex) :
    (ix.internAll entries).2.childLists = ix.childLists := by
  induction entries generalizing ix with
  | nil => rfl
  | cons entry rest ih => exact (ih _).trans (intern_childLists entry.1 entry.2 ix)

theorem declaredMember_childLists (declaring position : Nat) (ix : ElementIndex) :
    (ix.declaredMember kind declaring position).2.childLists = ix.childLists :=
  (intern_childLists _ _ _).trans (intern_childLists _ _ ix)

/-! ## Members -/

theorem annotations_lists (owner : ElementId) (ix : ElementIndex) : ListsMembers ix (ix.annotations owner).2 :=
  .of_same (annotations_fills owner ix).toGrows (internAll_childLists _ ix)

theorem parameters_lists (method : ElementId) (ix : ElementIndex) : ListsMembers ix (ix.parameters method).2 :=
  .of_same (parameters_fills method ix).toGrows (internAll_childLists _ ix)

theorem declaredMember_lists (declaring position : Nat) (ix : ElementIndex) :
    ListsMembers ix (ix.declaredMember kind declaring position).2 :=
  .of_same (declaredMember_fills kind declaring position ix).toGrows
    (declaredMember_childLists kind declaring position ix)

theorem setChildren_lists {kind : ElementKind} {id : ElementId} (found : ix.Finds kind id)
    (other : kind ≠ .classDef) (ids : List ElementId) : ListsMembers ix (ix.setChildren id ids) := by
  refine ⟨(setChildren_fills id ids ix).toGrows, fun entry member => ?_⟩
  rcases List.mem_append.mp member with old | new
  · exact .inl old
  · obtain rfl := List.mem_singleton.mp new
    exact .inr ⟨kind, other, found⟩

theorem annotateAll_lists (kind : ElementKind) (other : kind ≠ .classDef) {ids : List ElementId}
    (found : ∀ id ∈ ids, ix.Finds kind id) : ListsMembers ix (ix.annotateAll ids) := by
  induction ids generalizing ix with
  | nil => exact .refl ix
  | cons id rest ih =>
    have marked := annotations_lists id ix
    have noted := setChildren_lists ((found id List.mem_cons_self).grows marked.toGrows) other
      (ix.annotations id).1
    have first := marked.trans noted
    exact first.trans (ih fun id member => (found id (List.mem_cons_of_mem _ member)).grows first.toGrows)

theorem declaredMember_find? (declaring position : Nat) (ix : ElementIndex) :
    (ix.declaredMember kind declaring position).2.find? (.member kind declaring position declaring) =
      some (ix.declaredMember kind declaring position).1 :=
  find?_intern _ _ _

theorem discoverField_lists (c position : Nat) (ix : ElementIndex) :
    ListsMembers ix (ix.discoverField c position).2 := by
  refine (declaredMember_lists .field c position ix).trans (annotateAll_lists .field nofun ?_)
  intro id member
  obtain rfl := List.mem_singleton.mp member
  exact ⟨_, rfl, declaredMember_find? .field c position ix⟩

theorem discoverField_find? (c position : Nat) (ix : ElementIndex) :
    (ix.discoverField c position).2.find? (.member .field c position c) =
      some (ix.discoverField c position).1 :=
  (annotateAll_fills _ _).keys (declaredMember_find? .field c position ix)

theorem discoverMethod_lists (c position : Nat) (ix : ElementIndex) :
    ListsMembers ix (ix.discoverMethod c position).2 := by
  have added := declaredMember_lists .method c position ix
  have found := declaredMember_find? .method c position ix
  unfold discoverMethod
  generalize ix.declaredMember .method c position = member at added found ⊢
  obtain ⟨id, ix1⟩ := member
  have marked := annotations_lists id ix1
  have taken := parameters_lists id (ix1.annotations id).2
  have noted := annotateAll_lists .parameter nofun (parameters_gives id (ix1.annotations id).2)
  have below := marked.trans (taken.trans noted)
  have listed := setChildren_lists ⟨_, rfl, below.keys found⟩ nofun
    ((ix1.annotations id).1 ++ ((ix1.annotations id).2.parameters id).1)
  exact added.trans (below.trans listed)

theorem discoverMethod_find? (c position : Nat) (ix : ElementIndex) :
    (ix.discoverMethod c position).2.find? (.member .method c position c) =
      some (ix.discoverMethod c position).1 :=
  (((annotations_fills _ _).trans (parameters_fills _ _)).trans
    ((annotateAll_fills _ _).trans (setChildren_fills _ _ _))).keys
      (declaredMember_find? .method c position ix)

theorem forPositions_lists (each : ∀ i ix, ListsMembers ix (step i ix).2) (positions : List Nat)
    (ix : ElementIndex) : ListsMembers ix (forPositions step positions ix).2 := by
  induction positions generalizing ix with
  | nil => exact .refl ix
  | cons i rest ih => exact (each i ix).trans (ih _)

/-- The elements of keys, one for each position. -/
structure Enumerates (ix : ElementIndex) (key : Nat → ElementKey) (positions : List Nat) (ids : List ElementId) :
    Prop where
  found : ∀ id ∈ ids, ∃ i ∈ positions, ix.find? (key i) = some id
  all : ∀ i ∈ positions, ∃ id ∈ ids, ix.find? (key i) = some id

theorem Enumerates.grows {positions : List Nat} {ids : List ElementId} (h : a.Enumerates key positions ids)
    (grows : a.Grows b) : b.Enumerates key positions ids where
  found id member := by
    obtain ⟨i, inside, found⟩ := h.found id member
    exact ⟨i, inside, grows.keys found⟩
  all i inside := by
    obtain ⟨id, member, found⟩ := h.all i inside
    exact ⟨id, member, grows.keys found⟩

theorem forPositions_enumerates (grows : ∀ i ix, ListsMembers ix (step i ix).2)
    (found : ∀ i ix, (step i ix).2.find? (key i) = some (step i ix).1) (positions : List Nat) (ix : ElementIndex) :
    (forPositions step positions ix).2.Enumerates key positions (forPositions step positions ix).1 := by
  induction positions generalizing ix with
  | nil => exact ⟨by simp [forPositions], by simp⟩
  | cons i rest ih =>
    have first := (forPositions_lists grows rest (step i ix).2).keys (found i ix)
    obtain ⟨later, all⟩ := ih (step i ix).2
    refine ⟨fun id member => ?_, fun j member => ?_⟩
    · rcases List.mem_cons.mp member with rfl | other
      · exact ⟨i, List.mem_cons_self, first⟩
      · obtain ⟨j, inside, found⟩ := later id other
        exact ⟨j, List.mem_cons_of_mem _ inside, found⟩
    · rcases List.mem_cons.mp member with rfl | other
      · exact ⟨_, List.mem_cons_self, first⟩
      · obtain ⟨id, inside, found⟩ := all j other
        exact ⟨id, List.mem_cons_of_mem _ inside, found⟩

/-! ## Classes -/

/-- Below a class stand the methods that it declares, and else no methods. -/
def ListsMethods (ix : ElementIndex) (c : Nat) : Prop :=
  ∃ d source others methods, ix.classes[c]? = some d ∧ ix.find? (.classDef c) = some source ∧
    ix.childLists.find? (·.1 == source) = some (source, others ++ methods) ∧
    (∀ id ∈ others, ∃ kind, kind ≠ .method ∧ ix.Finds kind id) ∧
    ix.Enumerates (fun i => .member .method c i c) (List.range d.methods.length) methods

theorem ListsMethods.grows {c : Nat} (h : a.ListsMethods c) (grows : a.Grows b) : b.ListsMethods c := by
  obtain ⟨d, source, others, methods, declared, found, listed, rest, each⟩ := h
  refine ⟨d, source, others, methods, ?_, grows.keys found, ?_, fun id member => ?_,
    each.grows grows⟩
  · obtain ⟨more, same⟩ := grows.classes
    rw [← same, List.getElem?_append_left (List.getElem?_eq_some_iff.mp declared).1]
    exact declared
  · obtain ⟨more, same⟩ := grows.childLists
    rw [← same, List.find?_append, listed]
    rfl
  · obtain ⟨kind, other, found⟩ := rest id member
    exact ⟨kind, other, found.grows grows⟩

theorem discoverClass_lists {c : Nat} (below : ListsBelow c ix) (inside : c < ix.classes.length) :
    ListsBelow (c + 1) (ix.discoverClass c) ∧ (ix.discoverClass c).ListsMethods c := by
  have declared : ix.classes[c]? = some ix.classes[c] := List.getElem?_eq_getElem inside
  generalize ix.classes[c] = d at declared
  have classes : (ix.discoverClass c).classes[c]? = some d := by
    rw [(discoverClass_fills c ix).sameClasses, declared]
  unfold discoverClass at classes ⊢
  simp only [declared] at classes ⊢
  -- The index after the class itself, its annotations, its fields and its methods.
  have first := find?_intern (.classDef c) (.classDef c) ix
  have interned : ListsMembers ix (ix.intern (.classDef c) (.classDef c)).2 :=
    .of_same (intern_grows _ _ ix) (intern_childLists _ _ ix)
  generalize ix.intern (.classDef c) (.classDef c) = class1 at first interned classes ⊢
  obtain ⟨source, ix1⟩ := class1
  have marked := annotations_lists source ix1
  have markKind := annotations_gives source ix1
  generalize ix1.annotations source = marks2 at marked markKind classes ⊢
  obtain ⟨marks, ix2⟩ := marks2
  have fielded := forPositions_lists (discoverField_lists c) (List.range d.fields.length) ix2
  have fieldKeys := forPositions_enumerates (discoverField_lists c) (discoverField_find? c) (List.range d.fields.length) ix2
  generalize forPositions (discoverField c) (List.range d.fields.length) ix2 = fields3
    at fielded fieldKeys classes ⊢
  obtain ⟨fields, ix3⟩ := fields3
  have methoded := forPositions_lists (discoverMethod_lists c) (List.range d.methods.length) ix3
  have methodKeys := forPositions_enumerates (discoverMethod_lists c) (discoverMethod_find? c)
    (List.range d.methods.length) ix3
  generalize forPositions (discoverMethod c) (List.range d.methods.length) ix3 = methods4
    at methoded methodKeys classes ⊢
  obtain ⟨methods, ix4⟩ := methods4
  have found : ix4.find? (.classDef c) = some source := (marked.trans (fielded.trans methoded)).keys first
  have below4 : ListsBelow c ix4 := below.members (interned.trans (marked.trans (fielded.trans methoded)))
  have absent : ix4.childLists.find? (·.1 == source) = none := by
    rw [List.find?_eq_none]
    intro entry member same
    obtain ⟨key, there, earlier⟩ := below4 entry member
    have same : entry.1 = source := by simpa using same
    have again := earlier c (find?_inj (same ▸ there) found)
    omega
  have noted := (setChildren_fills source (marks ++ fields ++ methods) ix4).toGrows
  refine ⟨fun entry member => ?_, d, source, marks ++ fields, methods, classes, found, ?_, fun id member => ?_,
    methodKeys.grows noted⟩
  · rcases List.mem_append.mp member with old | new
    · obtain ⟨key, there, earlier⟩ := below4 entry old
      exact ⟨key, there, fun c' same => Nat.lt_succ_of_lt (earlier c' same)⟩
    · obtain rfl := List.mem_singleton.mp new
      refine ⟨.classDef c, found, ?_⟩
      rintro c' ⟨⟩
      exact Nat.lt_succ_self c
  · simp [setChildren, List.find?_append, absent]
  · rcases List.mem_append.mp member with mark | field
    · exact ⟨.annotationUse, nofun, (markKind id mark).grows ((fielded.trans methoded).toGrows.trans noted)⟩
    · obtain ⟨i, -, key⟩ := fieldKeys.found id field
      exact ⟨.field, nofun, _, rfl, methoded.keys key⟩

/-- All classes list their methods. -/
structure Listed (ix : ElementIndex) : Prop where
  below : ListsBelow ix.classes.length ix
  each : ∀ c < ix.classes.length, ix.ListsMethods c

namespace Listed

variable {a b ix : ElementIndex}

theorem of_same (h : a.Listed) (grows : a.Grows b) (classes : b.classes = a.classes)
    (same : b.childLists = a.childLists) : b.Listed where
  below := classes ▸ h.below.members (.of_same grows same)
  each c inside := (h.each c (classes ▸ inside)).grows grows

theorem discoverClass {c : Nat} (below : ListsBelow c ix) (each : ∀ c' < c, ix.ListsMethods c')
    (last : ix.classes.length = c + 1) : (ix.discoverClass c).Listed := by
  have fills := discoverClass_fills c ix
  obtain ⟨below', lists⟩ := discoverClass_lists below (by omega)
  refine ⟨by rwa [fills.sameClasses, last], fun c' inside => ?_⟩
  rw [fills.sameClasses, last] at inside
  rcases Nat.lt_succ_iff_lt_or_eq.mp inside with earlier | rfl
  · exact (each c' earlier).grows fills.toGrows
  · exact lists

end Listed

theorem discoverAll_lists (ix : ElementIndex) (none : ix.childLists = []) {k : Nat}
    (inside : k ≤ ix.classes.length) :
    let ix' := (List.range k).foldl (fun ix c => ix.discoverClass c) ix
    ListsBelow k ix' ∧ ∀ c < k, ix'.ListsMethods c := by
  induction k with
  | zero => exact ⟨fun entry member => by simp [none] at member, fun c absurdity => by omega⟩
  | succ k ih =>
    obtain ⟨below, each⟩ := ih (by omega)
    have classes := (discoverAll_fills (List.range k) ix).sameClasses
    simp only [List.range_succ, List.foldl_append, List.foldl_cons, List.foldl_nil]
    obtain ⟨below', lists⟩ := discoverClass_lists below (by rw [classes]; omega)
    refine ⟨below', fun c less => ?_⟩
    rcases Nat.lt_succ_iff_lt_or_eq.mp less with earlier | rfl
    · exact (each c earlier).grows (discoverClass_fills k _).toGrows
    · exact lists

theorem ofClasses_listed (classes : List ClassDeclaration) : (ofClasses classes).Listed := by
  have fills := discoverAll_fills (List.range classes.length) { classes := classes, given := classes.length }
  have lists := discoverAll_lists { classes := classes, given := classes.length } rfl (Nat.le_refl _)
  have size : (ofClasses classes).classes.length = classes.length := congrArg List.length fills.sameClasses
  exact ⟨size ▸ lists.1, size ▸ lists.2⟩

theorem synthesizeClass_listed (t : TypeName) (methods : List String) (h : ix.Listed) :
    (ix.synthesizeClass t methods).2.Listed := by
  unfold synthesizeClass
  split
  · exact h
  · have added : ix.Grows { ix with classes := ix.classes ++ [stub t methods] } :=
      ⟨rfl, List.prefix_append _ _, List.prefix_rfl, List.prefix_rfl, List.prefix_rfl, fun h => h⟩
    have discovered := Listed.discoverClass (c := ix.classes.length)
      (h.below.members (.of_same added rfl)) (fun c' less => (h.each c' less).grows added) (by simp)
    exact discovered.of_same (intern_grows _ _ _) (intern_fills .classDef _).sameClasses (intern_childLists _ _ _)

/-! ## Nothing is listed later -/

theorem member_childLists (declaring position seenFrom : Nat) (ix : ElementIndex) :
    (ix.member kind declaring position seenFrom).2.childLists = ix.childLists := by
  unfold member
  split
  · exact declaredMember_childLists kind declaring position ix
  · exact (intern_childLists _ _ _).trans
      ((declaredMember_childLists kind declaring position _).trans (intern_childLists _ _ ix))

theorem membersOf_childLists (id : ElementId) (inherited : Bool) (ix : ElementIndex) :
    (ix.membersOf kind id inherited).2.childLists = ix.childLists := by
  have each (seenFrom : Nat) (places : List (Nat × Nat)) (ix : ElementIndex) :
      (ix.members kind seenFrom places).2.childLists = ix.childLists := by
    induction places generalizing ix with
    | nil => rfl
    | cons place rest ih => exact (ih _).trans (member_childLists kind place.1 place.2 seenFrom ix)
  unfold membersOf
  split
  · rfl
  · exact each _ _ ix

end ElementIndex

theorem Step.argumentsOf_childLists (id : ElementId) (ix : ElementIndex) :
    (argumentsOf id ix).2.childLists = ix.childLists := by
  have each (args : List TypeSignature) (i : Nat) (ix : ElementIndex) :
      (internArguments id i args ix).2.childLists = ix.childLists := by
    induction args generalizing i ix with
    | nil => rfl
    | cons s rest ih => exact (ih _ _).trans (ElementIndex.intern_childLists _ _ ix)
  unfold argumentsOf
  split
  · exact each _ _ ix
  · rfl

theorem PropertyStrategy.annotationLiterals_childLists (id : ElementId) (type : TypeName) (field : String)
    (ix : ElementIndex) : (annotationLiterals id type field ix).2.childLists = ix.childLists := by
  have each (literals : List Literal) (owner : ElementId) (i : Nat) (ix : ElementIndex) :
      (internLiterals owner field i literals ix).childLists = ix.childLists := by
    induction literals generalizing i ix with
    | nil => rfl
    | cons l rest ih => exact (ih _ _).trans (ElementIndex.intern_childLists _ _ ix)
  have marks : (ix.annotations id).2.childLists = ix.childLists := ElementIndex.internAll_childLists _ ix
  unfold annotationLiterals
  simp only
  split
  · rfl
  · split
    · exact marks
    · exact (each _ _ _ _).trans marks

theorem IndexOperation.perform_listed (op : IndexOperation) {s : IndexState} (h : s.index.Listed) :
    (op.perform s).index.Listed := by
  have filled {ix : ElementIndex} (fills : s.index.Fills ix) (same : ix.childLists = s.index.childLists) :
      ix.Listed := h.of_same fills.toGrows fills.sameClasses same
  cases op with
  | annotations id => exact filled (ElementIndex.annotations_fills id _) (ElementIndex.internAll_childLists _ _)
  | parameters id => exact filled (ElementIndex.parameters_fills id _) (ElementIndex.internAll_childLists _ _)
  | members kind id inherited =>
    exact filled (ElementIndex.membersOf_fills kind id inherited _)
      (ElementIndex.membersOf_childLists kind id inherited _)
  | signature id =>
    simp only [perform]
    split
    · exact h
    · exact filled (ElementIndex.intern_fills .signature _) (ElementIndex.intern_childLists _ _ _)
  | typeArguments id => exact filled (Step.argumentsOf_fills id _) (Step.argumentsOf_childLists id _)
  | values id type field =>
    exact filled (PropertyStrategy.annotationLiterals_fills id type field _)
      (PropertyStrategy.annotationLiterals_childLists id type field _)
  | synthesize type methods => exact ElementIndex.synthesizeClass_listed type methods h
  | declaredType id => exact h
  | erasure type => exact h

theorem IndexState.after_listed (classes : List ClassDeclaration) (ops : List IndexOperation) :
    (after classes ops).index.Listed := by
  have all (s : IndexState) (h : s.index.Listed) : (performAll ops s).index.Listed := by
    induction ops generalizing s with
    | nil => exact h
    | cons op rest ih => exact ih _ (op.perform_listed h)
  exact all _ (ElementIndex.ofClasses_listed classes)

/-! ## The methods of an element -/

/-- A method stands for itself, and the methods that a class declares stand for the class. -/
def ElementIndex.StandsFor (ix : ElementIndex) (root source : ElementId) : Prop :=
  (root = source ∧ ix.kind? source = some .method) ∨
    ∃ c d position, ix.get? source = some (.classDef c) ∧ ix.classes[c]? = some d ∧
      position < d.methods.length ∧ ix.find? (.member .method c position c) = some root

theorem ElementIndex.Coherent.get?_classDef (h : ix.Coherent r) {id : ElementId} {c : Nat} :
    ix.get? id = some (.classDef c) ↔ ix.find? (.classDef c) = some id := by
  constructor
  · intro stored
    obtain ⟨key, found, justified⟩ := h.keyed stored
    cases justified
    exact found
  · intro found
    obtain ⟨element, stored, justified⟩ := h.stored found
    cases justified
    exact stored

theorem ElementIndex.Coherent.isKeyed (h : ix.Coherent r) : ix.Keyed := by
  rintro ⟨key, element⟩ member
  have justified : ix.Justified r key element := h.justified _ (List.mem_append.mpr member)
  cases justified <;> constructor

theorem CallScanner.mem_roots (coherent : ix.Coherent r) (listed : ix.Listed) {root source : ElementId} :
    root ∈ roots ix source ↔ ix.StandsFor root source := by
  have keyed := coherent.isKeyed
  -- Below a class, the methods are those that it declares.
  have declared {c : Nat} {d : ClassDeclaration} (stored : ix.get? source = some (.classDef c))
      (there : ix.classes[c]? = some d) :
      root ∈ ix.children source ∧ ix.kind? root = some .method ↔
        ∃ position < d.methods.length, ix.find? (.member .method c position c) = some root := by
    obtain ⟨d', source', others, methods, there', found, list, rest, each⟩ :=
      listed.each c (List.getElem?_eq_some_iff.mp there).1
    cases Option.some.inj (there.symm.trans there')
    cases Option.some.inj ((coherent.get?_classDef.mp stored).symm.trans found)
    have children : ix.children source = others ++ methods := by rw [ElementIndex.children, list]; rfl
    rw [children]
    constructor
    · rintro ⟨member, method⟩
      rcases List.mem_append.mp member with other | own
      · obtain ⟨kind, notMethod, finds⟩ := rest root other
        exact absurd (Option.some.inj ((finds.kind? keyed).symm.trans method)) notMethod
      · obtain ⟨position, inside, key⟩ := each.found root own
        exact ⟨position, List.mem_range.mp inside, key⟩
    · rintro ⟨position, inside, key⟩
      obtain ⟨id, own, key'⟩ := each.all position (List.mem_range.mpr inside)
      cases Option.some.inj (key.symm.trans key')
      have finds : ix.Finds .method root := ⟨_, rfl, key⟩
      exact ⟨List.mem_append_right _ own, finds.kind? keyed⟩
  unfold roots ElementIndex.StandsFor
  cases stored : ix.get? source with
  | none => simp [ElementIndex.kind?, stored]
  | some element =>
    cases element with
    | classDef c =>
      have kind : ix.kind? source = some .classDef := by rw [ElementIndex.kind?, stored]; rfl
      simp only [kind, List.mem_filter, beq_iff_eq]
      constructor
      · rintro ⟨member, method⟩
        -- A class with children is one of the pool.
        have inside : c < ix.classes.length := by
          unfold ElementIndex.children at member
          cases list : ix.childLists.find? (·.1 == source) with
          | none => simp [list] at member
          | some entry =>
            obtain ⟨key, found, below⟩ := listed.below entry (List.mem_of_find?_eq_some list)
            have same : entry.1 = source := by simpa using List.find?_some list
            refine below c (ElementIndex.find?_inj (same ▸ found) (coherent.get?_classDef.mp stored))
        have there := List.getElem?_eq_getElem inside
        obtain ⟨position, less, key⟩ := (declared stored there).mp ⟨member, method⟩
        exact .inr ⟨c, _, position, rfl, there, less, key⟩
      · rintro (⟨-, absurdity⟩ | ⟨c', d, position, same, there, less, key⟩)
        · cases absurdity
        · cases same
          exact (declared stored there).mpr ⟨position, less, key⟩
    | member kind declaring position owner origin =>
      cases kind <;> simp [ElementIndex.kind?, stored, Element.kind, MemberKind.elementKind]
    | parameter | annotationUse | signature | value => simp [ElementIndex.kind?, stored, Element.kind]

end ClassAtlas
