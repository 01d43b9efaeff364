import ClassAtlas.Proofs.Discovery
import ClassAtlas.Proofs.Signature.Acceptance

/-! # What discovery adds

Discovery interns an element only when a declaration puts it below another one that is there already, and it
notes the list of an element's children only when the children have theirs. Both are kept from one function of
discovery to the next.
-/

namespace ClassAtlas

/-! ## Parameters of descriptors -/

namespace Signature

/-- How a descriptor is read. There is nothing around it that declares type variables. -/
def MethodSigSyntax.Describes (d : MethodSigSyntax) (desc : String) : Prop :=
  d.text = desc.toList ∧ ∀ x ∈ d.variableNames, Declared .empty (declaredNames d.formals) x

/-- How many parameters a descriptor has. One that cannot be read has none. -/
def Takes (desc : String) (n : Nat) : Prop :=
  (∃ d : MethodSigSyntax, d.Describes desc ∧ d.parameters.length = n) ∨
    (¬∃ d : MethodSigSyntax, d.Describes desc) ∧ n = 0

theorem takes_parameterCount (desc : String) : Takes desc ((parameterCount desc).toOption.getD 0) := by
  unfold parameterCount
  cases parsed : parseMethod .empty (.ofMethod ⟨""⟩ "" desc) desc with
  | ok t =>
    obtain ⟨d, text, declared, rfl⟩ := (parseMethod_iff _ _ _ _).mp parsed
    refine .inl ⟨d, ⟨text, declared⟩, ?_⟩
    change d.parameters.length = (d.parameters.map _).length
    rw [List.length_map]
  | error e =>
    refine .inr ⟨?_, rfl⟩
    rintro ⟨d, text, declared⟩
    have read := (parseMethod_iff .empty (.ofMethod ⟨""⟩ "" desc) desc _).mpr ⟨d, text, declared, rfl⟩
    cases parsed.symm.trans read

theorem Takes.unique {desc : String} {n n' : Nat} (h : Takes desc n) (h' : Takes desc n') : n = n' := by
  rcases h with ⟨d, ⟨text, declared⟩, rfl⟩ | ⟨unread, rfl⟩
  · rcases h' with ⟨d', ⟨text', -⟩, rfl⟩ | ⟨unread, -⟩
    · rw [MethodSigSyntax.unique (text.trans text'.symm)]
    · exact absurd ⟨d, text, declared⟩ unread
  · rcases h' with ⟨d', read, -⟩ | ⟨-, rfl⟩
    · exact absurd ⟨d', read⟩ unread
    · rfl

end Signature

namespace ElementIndex

/-! ## What stands below an element -/

def marks (owner : ElementId) (entries : List AnnotationEntry) : List Element :=
  (List.range entries.length).map (.annotationUse owner)

def declaredMembers (kind : MemberKind) (c : Nat) (owner : ElementId) (n : Nat) : List Element :=
  (List.range n).map fun i => .member kind c i owner none

def parameterElements (method : ElementId) (n : Nat) : List Element :=
  (List.range n).map (.parameter method)

/-- What the declaration of an element puts below it, in order: annotations and other elements. -/
inductive Outline (ix : ElementIndex) : ElementId → List AnnotationEntry → List Element → Prop where
  | classDef {id c d} (stored : ix.get? id = some (.classDef c)) (declared : ix.classes[c]? = some d) :
      Outline ix id d.annotations (declaredMembers .field c id d.fields.length ++
        declaredMembers .method c id d.methods.length)
  | field {id c i owner d f} (stored : ix.get? id = some (.member .field c i owner none))
      (declared : ix.classes[c]? = some d) (field : d.fields[i]? = some f) : Outline ix id f.annotations []
  | method {id c i owner d m n} (stored : ix.get? id = some (.member .method c i owner none))
      (declared : ix.classes[c]? = some d) (method : d.methods[i]? = some m) (takes : Signature.Takes m.desc n) :
      Outline ix id m.annotations (parameterElements id n)
  | parameter {id parent position c i owner d m} (stored : ix.get? id = some (.parameter parent position))
      (above : ix.get? parent = some (.member .method c i owner none)) (declared : ix.classes[c]? = some d)
      (method : d.methods[i]? = some m) : Outline ix id (m.annotationsOf position) []
  | annotationUse {id owner i} (stored : ix.get? id = some (.annotationUse owner i)) : Outline ix id [] []

/-- A class, and what stands below it at any depth. -/
inductive Inside (ix : ElementIndex) (c : Nat) : ElementId → Prop where
  | classDef {id} (stored : ix.get? id = some (.classDef c)) : Inside ix c id
  | part {id p} (parent : ix.parent? id = some p) (inside : Inside ix c p) : Inside ix c id

/-- An element that discovery of a class has a reason to intern. -/
def Due (ix : ElementIndex) (c : Nat) (e : Element) : Prop :=
  e = .classDef c ∨ ∃ p entries rest, ix.Inside c p ∧ ix.Outline p entries rest ∧ e ∈ marks p entries ++ rest

/-- Discovery has noted a list of children. -/
def Noted (ix : ElementIndex) (id : ElementId) : Prop := ∃ ids, (id, ids) ∈ ix.childLists

/-- A list of children is what the declaration says, and the children have their lists. -/
def Charted (ix : ElementIndex) (entry : ElementId × List ElementId) : Prop :=
  ∃ entries rest, ix.Outline entry.1 entries rest ∧
    entry.2.map ix.get? = (marks entry.1 entries ++ rest).map some ∧
    ∀ id ∈ entry.2, ix.kind? id = some .annotationUse ∨ ix.Noted id

section Later

variable {a b : ElementIndex} {c : Nat} {id : ElementId}

theorem Grows.parent? (h : Grows a b) {p : ElementId} (known : a.parent? id = some p) : b.parent? id = some p := by
  obtain ⟨e, stored, parent⟩ := Option.bind_eq_some_iff.mp known
  exact Option.bind_eq_some_iff.mpr ⟨e, h.get? stored, parent⟩

theorem Outline.later {entries : List AnnotationEntry} {rest : List Element} (outline : a.Outline id entries rest)
    (h : Grows a b) : b.Outline id entries rest := by
  cases outline with
  | classDef stored declared => exact .classDef (h.get? stored) (h.class? declared)
  | field stored declared field => exact .field (h.get? stored) (h.class? declared) field
  | method stored declared method takes => exact .method (h.get? stored) (h.class? declared) method takes
  | parameter stored above declared method =>
    exact .parameter (h.get? stored) (h.get? above) (h.class? declared) method
  | annotationUse stored => exact .annotationUse (h.get? stored)

theorem Inside.later (inside : a.Inside c id) (h : Grows a b) : b.Inside c id := by
  induction inside with
  | classDef stored => exact .classDef (h.get? stored)
  | part parent _ ih => exact .part (h.parent? parent) ih

theorem Due.later {e : Element} (due : a.Due c e) (h : Grows a b) : b.Due c e := by
  rcases due with rfl | ⟨p, entries, rest, inside, outline, member⟩
  · exact .inl rfl
  · exact .inr ⟨p, entries, rest, inside.later h, outline.later h, member⟩

theorem Noted.later (noted : a.Noted id) (h : Grows a b) : b.Noted id := by
  obtain ⟨ids, listed⟩ := noted
  exact ⟨ids, h.childLists.subset listed⟩

theorem Grows.map_get? (h : Grows a b) {ids : List ElementId} {parts : List Element}
    (stored : ids.map a.get? = parts.map some) : ids.map b.get? = parts.map some := by
  rw [← stored]
  refine List.map_congr_left fun id member => ?_
  obtain ⟨e, -, here⟩ := List.mem_map.mp (stored ▸ List.mem_map_of_mem member)
  rw [← here]
  exact h.get? here.symm

theorem Charted.later {entry : ElementId × List ElementId} (charted : a.Charted entry) (h : Grows a b) :
    b.Charted entry := by
  obtain ⟨entries, rest, outline, stored, children⟩ := charted
  refine ⟨entries, rest, outline.later h, h.map_get? stored, fun id member => ?_⟩
  rcases children id member with mark | noted
  · obtain ⟨e, here, kind⟩ := Option.map_eq_some_iff.mp mark
    exact .inl (Option.map_eq_some_iff.mpr ⟨e, h.get? here, kind⟩)
  · exact .inr (noted.later h)

end Later

/-! ## Discovery of a class -/

/-- Discovery of a class adds elements that the class has below it, and lists of children that are right. -/
structure Expands (c : Nat) (r : SignatureResolver) (a b : ElementIndex) : Prop extends Grows a b where
  coherent : b.Coherent r
  added : ∀ {id e}, b.get? id = some e → a.get? id = some e ∨ b.Due c e
  lists : ∀ entry ∈ b.childLists, entry ∈ a.childLists ∨ b.Charted entry

namespace Expands

variable {c : Nat} {r : SignatureResolver} {ix ix' ix'' : ElementIndex}

theorem refl (h : ix.Coherent r) : Expands c r ix ix := ⟨.refl ix, h, .inl, fun _ => .inl⟩

theorem trans (first : Expands c r ix ix') (second : Expands c r ix' ix'') : Expands c r ix ix'' where
  toGrows := first.toGrows.trans second.toGrows
  coherent := second.coherent
  added stored := by
    rcases second.added stored with old | due
    · exact (first.added old).imp_right (·.later second.toGrows)
    · exact .inr due
  lists entry member := by
    rcases second.lists entry member with old | charted
    · exact (first.lists entry old).imp_right (·.later second.toGrows)
    · exact .inr charted

theorem intern (h : ix.Coherent r) {key : ElementKey} {e : Element} (justified : ix.Justified r key e)
    (due : ix.Due c e) : Expands c r ix (ix.intern key e).2 where
  toGrows := intern_grows key e ix
  coherent := h.intern justified
  added {id e'} stored := by
    cases known : ix.find? key with
    | some _ =>
      rw [ElementIndex.intern, known] at stored
      exact .inl stored
    | none =>
      rw [get?_eq_row?] at stored ⊢
      obtain ⟨entry, place, rfl⟩ := Option.map_eq_some_iff.mp stored
      rcases row?_intern known place with old | ⟨rfl, -⟩
      · exact .inl (by rw [old, Option.map_some])
      · exact .inr (due.later (intern_grows key e ix))
  lists entry member := .inl (intern_childLists key e ix ▸ member)

theorem internAll (h : ix.Coherent r) {entries : List (ElementKey × Element)}
    (justified : ∀ entry ∈ entries, ix.Justified r entry.1 entry.2) (due : ∀ entry ∈ entries, ix.Due c entry.2) :
    Expands c r ix (ix.internAll entries).2 := by
  induction entries generalizing ix with
  | nil => exact .refl h
  | cons entry rest ih =>
    obtain ⟨first, others⟩ := List.forall_mem_cons.mp justified
    obtain ⟨firstDue, othersDue⟩ := List.forall_mem_cons.mp due
    have here := Expands.intern h first firstDue
    exact here.trans (ih here.coherent (fun entry member => (others entry member).later here.toGrows (.refl r))
      fun entry member => (othersDue entry member).later here.toGrows)

theorem setChildren (h : ix.Coherent r) {id : ElementId} {ids : List ElementId} (charted : ix.Charted (id, ids)) :
    Expands c r ix (ix.setChildren id ids) where
  toGrows := (setChildren_fills id ids ix).toGrows
  coherent := (Accepted.setChildren h id ids).coherent
  added := .inl
  lists entry member := by
    rcases List.mem_append.mp member with old | new
    · exact .inl old
    · obtain rfl := List.mem_singleton.mp new
      exact .inr (charted.later (setChildren_fills id ids ix).toGrows)

end Expands

/-! ### One element after another -/

section Steps

variable {c : Nat} {r : SignatureResolver} {ix : ElementIndex} {entries : List AnnotationEntry} {id : ElementId}
  {rest : List Element}

theorem Coherent.get?_of_justified (h : ix.Coherent r) {key : ElementKey} {e : Element}
    (justified : ix.Justified r key e) (found : ix.find? key = some id) : ix.get? id = some e := by
  obtain ⟨e', stored, justified'⟩ := h.stored found
  rw [stored, justified.unique justified']

theorem intern_get? (h : ix.Coherent r) {key : ElementKey} {e : Element} (justified : ix.Justified r key e) :
    (ix.intern key e).2.get? (ix.intern key e).1 = some e :=
  (h.intern justified).get?_of_justified (justified.later (intern_grows key e ix) (.refl r))
    (find?_intern key e ix)

theorem internAll_get? (h : ix.Coherent r) {entries : List (ElementKey × Element)}
    (justified : ∀ entry ∈ entries, ix.Justified r entry.1 entry.2) :
    (ix.internAll entries).1.map (ix.internAll entries).2.get? = (entries.map (·.2)).map some := by
  induction entries generalizing ix with
  | nil => rfl
  | cons entry rest ih =>
    obtain ⟨first, others⟩ := List.forall_mem_cons.mp justified
    have grows := intern_grows entry.1 entry.2 ix
    have later := ih (h.intern first) fun entry member => (others entry member).later grows (.refl r)
    exact congrArg₂ List.cons ((internAll_grows rest _).get? (intern_get? h first)) later

theorem Outline.stored (outline : ix.Outline id entries rest) : ∃ e, ix.get? id = some e := by
  cases outline <;> exact ⟨_, ‹_›⟩

theorem Outline.annotationEntries (outline : ix.Outline id entries rest) : ix.annotationEntries id = entries := by
  unfold ElementIndex.annotationEntries
  cases outline with
  | classDef stored declared => simp [stored, declared]
  | field stored declared field => simp [fieldDeclaration?, stored, declared, field]
  | method stored declared method => simp [methodDeclaration?, stored, declared, method]
  | parameter stored above declared method => simp [methodDeclaration?, stored, above, declared, method]
  | annotationUse stored => simp [stored]

theorem annotations_expands (h : ix.Coherent r) (inside : ix.Inside c id) (outline : ix.Outline id entries rest) :
    Expands c r ix (ix.annotations id).2 ∧
      (ix.annotations id).1.map (ix.annotations id).2.get? = (marks id entries).map some := by
  obtain ⟨e, stored⟩ := outline.stored
  have justified : ∀ entry ∈ (List.range (ix.annotationEntries id).length).map fun i =>
      (ElementKey.annotationUse id i, Element.annotationUse id i), ix.Justified r entry.1 entry.2 := by
    intro entry member
    obtain ⟨i, -, rfl⟩ := List.mem_map.mp member
    exact .annotationUse stored
  refine ⟨.internAll h justified fun entry member => ?_, (internAll_get? h justified).trans ?_⟩
  · obtain ⟨i, bound, rfl⟩ := List.mem_map.mp member
    rw [outline.annotationEntries] at bound
    exact .inr ⟨id, _, _, inside, outline, List.mem_append_left _ (List.mem_map_of_mem bound)⟩
  · simp [marks, outline.annotationEntries]

theorem parameters_expands (h : ix.Coherent r) {c' i : Nat} {owner : ElementId} {d : ClassDeclaration}
    {m : MethodDeclaration} (inside : ix.Inside c id)
    (stored : ix.get? id = some (.member .method c' i owner none)) (declared : ix.classes[c']? = some d)
    (method : d.methods[i]? = some m) :
    Expands c r ix (ix.parameters id).2 ∧ ∃ n, Signature.Takes m.desc n ∧
      (ix.parameters id).1.map (ix.parameters id).2.get? = (parameterElements id n).map some := by
  have takes := Signature.takes_parameterCount m.desc
  have count : ix.parameterCount id = (Signature.parameterCount m.desc).toOption.getD 0 := by
    simp [parameterCount, methodDeclaration?, stored, declared, method]
  rw [← count] at takes
  have justified : ∀ entry ∈ (List.range (ix.parameterCount id)).map fun i =>
      (ElementKey.parameter id i, Element.parameter id i), ix.Justified r entry.1 entry.2 := by
    intro entry member
    obtain ⟨i, -, rfl⟩ := List.mem_map.mp member
    exact .parameter stored
  refine ⟨.internAll h justified fun entry member => ?_, _, takes, (internAll_get? h justified).trans ?_⟩
  · obtain ⟨i, bound, rfl⟩ := List.mem_map.mp member
    exact .inr ⟨id, _, _, inside, .method stored declared method takes,
      List.mem_append_right _ (List.mem_map_of_mem bound)⟩
  · simp [parameterElements]

theorem kind?_of_marks {owner id : ElementId} {ids : List ElementId}
    (stored : ids.map ix.get? = (marks owner entries).map some) (member : id ∈ ids) :
    ix.kind? id = some .annotationUse := by
  obtain ⟨e, mark, here⟩ := List.mem_map.mp (stored ▸ List.mem_map_of_mem member)
  obtain ⟨i, -, rfl⟩ := List.mem_map.mp mark
  rw [kind?, ← here]
  rfl

theorem annotateAll_expands (h : ix.Coherent r) (ids : List ElementId) (inside : ∀ id ∈ ids, ix.Inside c id)
    (outlines : ∀ id ∈ ids, ∃ entries, ix.Outline id entries []) :
    Expands c r ix (ix.annotateAll ids) ∧ ∀ id ∈ ids, (ix.annotateAll ids).Noted id := by
  induction ids generalizing ix with
  | nil => exact ⟨.refl h, List.forall_mem_nil _⟩
  | cons id rest ih =>
    obtain ⟨first, others⟩ := List.forall_mem_cons.mp inside
    obtain ⟨⟨entries, outline⟩, outlines⟩ := List.forall_mem_cons.mp outlines
    obtain ⟨marked, stored⟩ := annotations_expands h first outline
    have listed : Expands c r (ix.annotations id).2 ((ix.annotations id).2.setChildren id (ix.annotations id).1) := by
      refine .setChildren marked.coherent ⟨entries, [], outline.later marked.toGrows, ?_, fun mark member => ?_⟩
      · rw [stored, List.append_nil]
      · exact .inl (kind?_of_marks stored member)
    have here := marked.trans listed
    obtain ⟨later, noted⟩ := ih here.coherent (fun id member => (others id member).later here.toGrows)
      fun id member => (outlines id member).imp fun _ outline => outline.later here.toGrows
    refine ⟨here.trans later, List.forall_mem_cons.mpr ⟨?_, noted⟩⟩
    exact Noted.later ⟨_, List.mem_append_right _ (List.mem_singleton_self _)⟩ later.toGrows

end Steps

/-! ### Members and classes -/

/-- A class is being discovered. -/
structure Visits (ix : ElementIndex) (r : SignatureResolver) (c : Nat) (d : ClassDeclaration) (source : ElementId) :
    Prop where
  coherent : ix.Coherent r
  found : ix.find? (.classDef c) = some source
  declared : ix.classes[c]? = some d

/-- What discovery of one member does: it gives the member's element, which has its list of children then. -/
def DiscoversMember (r : SignatureResolver) (c : Nat) (d : ClassDeclaration) (source : ElementId) (kind : MemberKind)
    (i : Nat) (step : ElementIndex → ElementId × ElementIndex) : Prop :=
  ∀ ix : ElementIndex, ix.Visits r c d source → Expands c r ix (step ix).2 ∧
    (step ix).2.get? (step ix).1 = some (.member kind c i source none) ∧ (step ix).2.Noted (step ix).1

section Members

variable {r : SignatureResolver} {c : Nat} {d : ClassDeclaration} {source : ElementId} {kind : MemberKind}
  {i : Nat} {ix : ElementIndex}

theorem Visits.later {b : ElementIndex} (h : ix.Visits r c d source) (expands : Expands c r ix b) :
    b.Visits r c d source :=
  ⟨expands.coherent, expands.keys h.found, expands.class? h.declared⟩

theorem Visits.stored (h : ix.Visits r c d source) : ix.get? source = some (.classDef c) :=
  h.coherent.get?_classDef.mpr h.found

theorem Visits.inside (h : ix.Visits r c d source) {id : ElementId}
    (stored : ix.get? id = some (.member kind c i source none)) : ix.Inside c id :=
  .part (by rw [parent?, stored]; rfl) (.classDef h.stored)

theorem declaredMember_expands (h : ix.Visits r c d source)
    (due : .member kind c i source none ∈
      declaredMembers .field c source d.fields.length ++ declaredMembers .method c source d.methods.length) :
    Expands c r ix (ix.declaredMember kind c i).2 ∧
      (ix.declaredMember kind c i).2.get? (ix.declaredMember kind c i).1 = some (.member kind c i source none) := by
  have same : ix.declaredMember kind c i = ix.intern (.member kind c i c) (.member kind c i source none) := by
    have known : ix.intern (.classDef c) (.classDef c) = (source, ix) := by rw [intern, h.found]
    rw [declaredMember, known]
  have justified : ix.Justified r (.member kind c i c) (.member kind c i source none) := .declaredMember h.found
  rw [same]
  refine ⟨.intern h.coherent justified (.inr ⟨source, _, _, .classDef h.stored, .classDef h.stored h.declared, ?_⟩),
    intern_get? h.coherent justified⟩
  exact List.mem_append_right _ due

theorem discoverField_expands (inside : i < d.fields.length) :
    DiscoversMember r c d source .field i (discoverField c i) := by
  intro ix h
  have due : Element.member .field c i source none ∈ declaredMembers .field c source d.fields.length ++
      declaredMembers .method c source d.methods.length :=
    List.mem_append_left _ (List.mem_map.mpr ⟨i, List.mem_range.mpr inside, rfl⟩)
  obtain ⟨member, stored⟩ := declaredMember_expands h due
  have visits := h.later member
  obtain ⟨marked, noted⟩ := annotateAll_expands visits.coherent [(ix.declaredMember .field c i).1]
    (List.forall_mem_singleton.mpr (visits.inside stored))
    (List.forall_mem_singleton.mpr ⟨_, .field stored visits.declared (List.getElem?_eq_getElem inside)⟩)
  exact ⟨member.trans marked, marked.get? stored, noted _ List.mem_cons_self⟩

theorem discoverMethod_expands (inside : i < d.methods.length) :
    DiscoversMember r c d source .method i (discoverMethod c i) := by
  intro ix h
  have due : Element.member .method c i source none ∈ declaredMembers .field c source d.fields.length ++
      declaredMembers .method c source d.methods.length :=
    List.mem_append_right _ (List.mem_map.mpr ⟨i, List.mem_range.mpr inside, rfl⟩)
  have method : d.methods[i]? = some d.methods[i] := List.getElem?_eq_getElem inside
  obtain ⟨member, stored⟩ := declaredMember_expands h due
  unfold discoverMethod
  generalize ix.declaredMember .method c i = found at member stored ⊢
  obtain ⟨id, ix1⟩ := found
  have visits1 := h.later member
  obtain ⟨marked, marks⟩ := annotations_expands visits1.coherent (visits1.inside stored)
    (.method stored visits1.declared method (Signature.takes_parameterCount _))
  have visits2 := visits1.later marked
  have stored2 := marked.get? stored
  obtain ⟨taken, n, takes, params⟩ := parameters_expands visits2.coherent (visits2.inside stored2) stored2
    visits2.declared method
  have visits3 := visits2.later taken
  have stored3 := taken.get? stored2
  -- The parameters get their lists before the method does.
  have parameter : ∀ p ∈ ((ix1.annotations id).2.parameters id).1, ∃ j,
      ((ix1.annotations id).2.parameters id).2.get? p = some (.parameter id j) := by
    intro p listed
    obtain ⟨e, part, here⟩ := List.mem_map.mp (params ▸ List.mem_map_of_mem listed)
    obtain ⟨j, -, rfl⟩ := List.mem_map.mp part
    exact ⟨j, here.symm⟩
  obtain ⟨annotated, noted⟩ := annotateAll_expands visits3.coherent ((ix1.annotations id).2.parameters id).1
    (fun p listed => by
      obtain ⟨j, here⟩ := parameter p listed
      exact .part (by rw [parent?, here]; rfl) (visits3.inside stored3))
    (fun p listed => by
      obtain ⟨j, here⟩ := parameter p listed
      exact ⟨_, .parameter here stored3 visits3.declared method⟩)
  have visits4 := visits3.later annotated
  have stored4 := annotated.get? stored3
  have marks4 := (taken.toGrows.trans annotated.toGrows).map_get? marks
  have charted : ElementIndex.Charted (((ix1.annotations id).2.parameters id).2.annotateAll
      ((ix1.annotations id).2.parameters id).1)
      (id, (ix1.annotations id).1 ++ ((ix1.annotations id).2.parameters id).1) := by
    refine ⟨_, _, .method stored4 visits4.declared method takes, ?_, fun child listed => ?_⟩
    · rw [List.map_append, List.map_append, marks4, annotated.map_get? params]
    · rcases List.mem_append.mp listed with mark | param
      · exact .inl (kind?_of_marks marks4 mark)
      · exact .inr (noted child param)
  have listed : Expands c r _ _ := .setChildren visits4.coherent charted
  refine ⟨member.trans (marked.trans (taken.trans (annotated.trans listed))), listed.get? stored4, ?_⟩
  exact ⟨_, List.mem_append_right _ (List.mem_singleton_self _)⟩

theorem forPositions_expands {step : Nat → ElementIndex → ElementId × ElementIndex} {positions : List Nat}
    (each : ∀ i ∈ positions, DiscoversMember r c d source kind i (step i)) (h : ix.Visits r c d source) :
    Expands c r ix (forPositions step positions ix).2 ∧
      (forPositions step positions ix).1.map (forPositions step positions ix).2.get? =
        (positions.map fun i => Element.member kind c i source none).map some ∧
      ∀ id ∈ (forPositions step positions ix).1, (forPositions step positions ix).2.Noted id := by
  induction positions generalizing ix with
  | nil => exact ⟨.refl h.coherent, rfl, List.forall_mem_nil _⟩
  | cons i rest ih =>
    obtain ⟨first, others⟩ := List.forall_mem_cons.mp each
    obtain ⟨here, stored, noted⟩ := first ix h
    obtain ⟨later, storedLater, notedLater⟩ := ih others (h.later here)
    exact ⟨here.trans later, congrArg₂ List.cons (later.get? stored) storedLater,
      List.forall_mem_cons.mpr ⟨noted.later later.toGrows, notedLater⟩⟩

theorem discoverClass_expands (h : ix.Coherent r) (declared : ix.classes[c]? = some d) :
    Expands c r ix (ix.discoverClass c) ∧
      (ix.discoverClass c).get? (ix.intern (.classDef c) (.classDef c)).1 = some (.classDef c) := by
  have justified : ix.Justified r (.classDef c) (.classDef c) := .classDef (List.getElem?_eq_some_iff.mp declared).1
  unfold discoverClass
  simp only [declared]
  have interned : Expands c r ix (ix.intern (.classDef c) (.classDef c)).2 := .intern h justified (.inl rfl)
  have found := find?_intern (.classDef c) (.classDef c) ix
  generalize ix.intern (.classDef c) (.classDef c) = class1 at interned found ⊢
  obtain ⟨source, ix1⟩ := class1
  have visits1 : ix1.Visits r c d source := ⟨interned.coherent, found, interned.class? declared⟩
  obtain ⟨marked, marks⟩ := annotations_expands visits1.coherent (.classDef visits1.stored)
    (.classDef visits1.stored visits1.declared)
  generalize ix1.annotations source = marks2 at marked marks ⊢
  obtain ⟨markIds, ix2⟩ := marks2
  have visits2 := visits1.later marked
  obtain ⟨fielded, fields, fieldsNoted⟩ := forPositions_expands
    (fun i member => discoverField_expands (List.mem_range.mp member)) visits2
  generalize forPositions (discoverField c) (List.range d.fields.length) ix2 = fields3
    at fielded fields fieldsNoted ⊢
  obtain ⟨fieldIds, ix3⟩ := fields3
  have visits3 := visits2.later fielded
  obtain ⟨methoded, methods, methodsNoted⟩ := forPositions_expands
    (fun i member => discoverMethod_expands (List.mem_range.mp member)) visits3
  generalize forPositions (discoverMethod c) (List.range d.methods.length) ix3 = methods4
    at methoded methods methodsNoted ⊢
  obtain ⟨methodIds, ix4⟩ := methods4
  have visits4 := visits3.later methoded
  have marks4 := (fielded.toGrows.trans methoded.toGrows).map_get? marks
  have charted : ix4.Charted (source, markIds ++ fieldIds ++ methodIds) := by
    refine ⟨_, _, .classDef visits4.stored visits4.declared, ?_, fun child listed => ?_⟩
    · simp only [List.map_append, marks4, methoded.map_get? fields, methods, List.append_assoc]
      rfl
    · rcases List.mem_append.mp listed with earlier | method
      · rcases List.mem_append.mp earlier with mark | field
        · exact .inl (kind?_of_marks marks4 mark)
        · exact .inr ((fieldsNoted child field).later methoded.toGrows)
      · exact .inr (methodsNoted child method)
  have listed : Expands c r _ _ := .setChildren visits4.coherent charted
  exact ⟨interned.trans (marked.trans (fielded.trans (methoded.trans listed))), listed.get? visits4.stored⟩

end Members

end ElementIndex

end ClassAtlas
