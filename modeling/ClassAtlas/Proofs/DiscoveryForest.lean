import ClassAtlas.Proofs.Outlines

/-! # Discovery builds a forest

Right after discovery the elements of the given classes form one tree for each class. The numbers of a tree
stand in a row behind those of the classes before it, and the lists of children tell the same story as the
parents.
-/

namespace ClassAtlas

namespace ElementIndex

/-! ## One class after the other -/

section Survey

variable {ix : ElementIndex} {c : Nat} {r : SignatureResolver} {entries : List AnnotationEntry} {e : Element}
  {rest : List Element} {id : ElementId}

theorem Outline.cases_part {p : ElementId} (outline : ix.Outline p entries rest)
    (part : e ∈ marks p entries ++ rest) :
    (∃ i, e = .annotationUse p i) ∨ (∃ i, e = .parameter p i) ∨ ∃ kind c i, e = .member kind c i p none := by
  rcases List.mem_append.mp part with mark | other
  · obtain ⟨i, -, rfl⟩ := List.mem_map.mp mark
    exact .inl ⟨i, rfl⟩
  · cases outline with
    | classDef =>
      rcases List.mem_append.mp other with field | method
      · obtain ⟨i, -, rfl⟩ := List.mem_map.mp field
        exact .inr (.inr ⟨_, _, _, rfl⟩)
      · obtain ⟨i, -, rfl⟩ := List.mem_map.mp method
        exact .inr (.inr ⟨_, _, _, rfl⟩)
    | method =>
      obtain ⟨i, -, rfl⟩ := List.mem_map.mp other
      exact .inr (.inl ⟨i, rfl⟩)
    | field | parameter | annotationUse => cases other

theorem Outline.parent? {p : ElementId} (outline : ix.Outline p entries rest) (part : e ∈ marks p entries ++ rest) :
    e.parent? = some p := by
  rcases outline.cases_part part with ⟨i, rfl⟩ | ⟨i, rfl⟩ | ⟨kind, c, i, rfl⟩ <;> rfl

theorem Outline.eq_of_stored (h : ix.Coherent r) {p id id' : ElementId} (outline : ix.Outline p entries rest)
    (part : e ∈ marks p entries ++ rest) (stored : ix.get? id = some e) (stored' : ix.get? id' = some e) :
    id = id' := by
  obtain ⟨key, found, justified⟩ := h.keyed stored
  obtain ⟨key', found', justified'⟩ := h.keyed stored'
  have same : key = key' := by
    rcases outline.cases_part part with ⟨i, rfl⟩ | ⟨i, rfl⟩ | ⟨kind, c, i, rfl⟩ <;>
      cases justified <;> cases justified' <;> rfl
  rw [same] at found
  exact Option.some.inj (found.symm.trans found')

theorem Due.inside (due : ix.Due c e) (stored : ix.get? id = some e) : ix.Inside c id := by
  rcases due with rfl | ⟨p, entries, rest, inside, outline, part⟩
  · exact .classDef stored
  · refine .part ?_ inside
    rw [ElementIndex.parent?, stored]
    exact outline.parent? part

theorem Inside.unique {c' : Nat} (inside : ix.Inside c id) (inside' : ix.Inside c' id) : c = c' := by
  induction inside with
  | classDef stored =>
    cases inside' with
    | classDef stored' =>
      cases stored.symm.trans stored'
      rfl
    | part parent =>
      rw [ElementIndex.parent?, stored] at parent
      cases parent
  | part parent _ ih =>
    cases inside' with
    | classDef stored =>
      rw [ElementIndex.parent?, stored] at parent
      cases parent
    | part parent' inside' =>
      cases parent.symm.trans parent'
      exact ih inside'

theorem Coherent.home_lt (h : ix.Coherent r) (stored : ix.get? id = some e) (home : e.home? = some c) :
    c < ix.classes.length := by
  cases e with
  | classDef c' =>
    cases home
    exact h.class_lt (h.get?_classDef.mp stored)
  | member kind declaring position owner origin =>
    cases home
    obtain ⟨seenFrom, above, apart, origins⟩ := h.identified.members stored
    cases origin with
    | none =>
      have same : seenFrom = c := by simpa using apart
      exact h.class_lt (h.get?_classDef.mp (same ▸ above))
    | some o =>
      obtain ⟨-, home, -, declared⟩ := origins o rfl
      exact h.class_lt (h.get?_classDef.mp declared)
  | parameter | annotationUse | signature | value => cases home

/-- Without made-up classes there are no elements for them: the first one would have its parent before it. -/
theorem Coherent.synthetic_eq_nil (h : ix.Coherent r) (all : ix.classes.length ≤ ix.given) : ix.synthetic = [] := by
  cases madeUp : ix.synthetic with
  | nil => rfl
  | cons entry rest =>
    have member : entry ∈ ix.synthetic := madeUp ▸ List.mem_cons_self
    have place : ix.row? ⟨0⟩ = some entry := by simp [row?, madeUp]
    rcases (derivesSynthetic_iff ix entry.2).mp (h.synthetic entry member) with ⟨c, home, later⟩ | ⟨p, parent, before⟩
    · have stored : ix.get? ⟨0⟩ = some entry.2 := by rw [get?_eq_row?, place, Option.map_some]
      have there := h.home_lt stored home
      omega
    · have above : 0 < p.val := (h.earlier place parent).2 (Int.le_refl 0)
      omega

theorem ids_of_given (given : ix.synthetic = []) :
    ix.ids = (List.range ix.discovered.length).map fun i => ⟨(i : Int) + 1⟩ := by
  simp [ids, given]

/-- The numbers of an index come in one block for each class, and each block starts with its class. -/
def InBlocks (ix : ElementIndex) (blocks : List (List ElementId)) : Prop :=
  ix.ids = blocks.flatten ∧ ∀ c block, blocks[c]? = some block →
    (∃ id rest, block = id :: rest ∧ ix.get? id = some (.classDef c)) ∧ ∀ id ∈ block, ix.Inside c id

/-- The first classes are discovered. -/
structure Surveyed (ix : ElementIndex) (k : Nat) : Prop where
  coherent : ix.Coherent {}
  blocks : ∃ blocks, blocks.length = k ∧ ix.InBlocks blocks
  due : ∀ {id e}, ix.get? id = some e → ∃ c, ix.Due c e
  charted : ∀ entry ∈ ix.childLists, ix.Charted entry

theorem InBlocks.expand {a b : ElementIndex} {blocks : List (List ElementId)} (h : a.InBlocks blocks)
    (given : a.synthetic = []) (given' : b.synthetic = []) (expands : Expands blocks.length r a b)
    (starts : b.get? ⟨(a.discovered.length : Int) + 1⟩ = some (.classDef blocks.length)) :
    ∃ block, b.InBlocks (blocks ++ [block]) := by
  obtain ⟨more, appended⟩ := expands.discovered
  refine ⟨(List.range more.length).map fun i => ⟨((a.discovered.length + i : Nat) : Int) + 1⟩, ?_, ?_⟩
  · rw [ids_of_given given', ← appended, List.length_append, List.range_add, List.map_append, List.map_map,
      List.flatten_append, ← h.1, ids_of_given given, List.flatten_singleton]
    rfl
  · intro c block here
    rw [List.getElem?_append] at here
    split at here
    · obtain ⟨⟨id, rest, same, stored⟩, inside⟩ := h.2 c block here
      exact ⟨⟨id, rest, same, expands.get? stored⟩, fun id member => (inside id member).later expands.toGrows⟩
    · have last : c = blocks.length := by
        have := (List.getElem?_eq_some_iff.mp here).1
        simp at this
        omega
      subst last
      simp only [Nat.sub_self, List.getElem?_cons_zero, Option.some.injEq] at here
      subst here
      constructor
      · have size : ∃ n, more.length = n + 1 := by
          have bounds := (b.exists_get?_iff _).mp ⟨_, starts⟩
          rw [given', ← appended, List.length_append] at bounds
          simp at bounds
          exact ⟨more.length - 1, by omega⟩
        obtain ⟨n, size⟩ := size
        rw [size, List.range_succ_eq_map, List.map_cons]
        exact ⟨_, _, rfl, starts⟩
      · intro id member
        obtain ⟨i, bound, rfl⟩ := List.mem_map.mp member
        rw [List.mem_range] at bound
        have stored : ∃ e, b.get? ⟨((a.discovered.length + i : Nat) : Int) + 1⟩ = some e := by
          rw [exists_get?_iff, ← appended, List.length_append]
          exact .inl ⟨by simp; omega, by simp; omega⟩
        obtain ⟨e, stored⟩ := stored
        rcases expands.added stored with old | due
        · have bounds := (a.exists_get?_iff _).mp ⟨e, old⟩
          rw [given] at bounds
          simp at bounds
          omega
        · exact due.inside stored

theorem Surveyed.discoverClass (h : ix.Surveyed c) (there : c < ix.classes.length)
    (all : ix.classes.length ≤ ix.given) : (ix.discoverClass c).Surveyed (c + 1) := by
  obtain ⟨expands, stored⟩ := discoverClass_expands h.coherent (List.getElem?_eq_getElem there)
  have fills := discoverClass_fills c ix
  have given := h.coherent.synthetic_eq_nil all
  have given' := expands.coherent.synthetic_eq_nil (by rw [fills.sameClasses, fills.given]; exact all)
  obtain ⟨blocks, size, inBlocks⟩ := h.blocks
  -- The class is new: all elements that there are belong to other classes.
  have absent : ix.find? (.classDef c) = none := by
    cases known : ix.find? (.classDef c) with
    | none => rfl
    | some id =>
      have stored := h.coherent.get?_classDef.mpr known
      have member : id ∈ blocks.flatten := inBlocks.1 ▸ mem_ids.mpr (Option.isSome_of_eq_some stored)
      obtain ⟨block, listed, inside⟩ := List.mem_flatten.mp member
      obtain ⟨c', bound, rfl⟩ := List.getElem_of_mem listed
      have other := (inBlocks.2 c' _ (List.getElem?_eq_getElem bound)).2 id inside
      have same := other.unique (.classDef stored)
      omega
  have number : (ix.intern (.classDef c) (.classDef c)).1 = ⟨(ix.discovered.length : Int) + 1⟩ := by
    have plain : ix.derivesSynthetic (.classDef c) = false := by
      simp only [derivesSynthetic, decide_eq_false_iff_not]
      omega
    simp [intern, absent, plain]
  subst size
  obtain ⟨block, inBlocks'⟩ := inBlocks.expand given given' expands (number ▸ stored)
  refine ⟨expands.coherent, ⟨_, List.length_append, inBlocks'⟩, fun {id e} here => ?_, fun entry member => ?_⟩
  · rcases expands.added here with old | due
    · obtain ⟨c', due⟩ := h.due old
      exact ⟨c', due.later expands.toGrows⟩
    · exact ⟨_, due⟩
  · rcases expands.lists entry member with old | charted
    · exact (h.charted entry old).later expands.toGrows
    · exact charted

theorem discoverAll_surveyed (classes : List ClassDeclaration) {k : Nat} (inside : k ≤ classes.length) :
    Surveyed ((List.range k).foldl (fun ix c => ix.discoverClass c)
      { classes := classes, given := classes.length }) k := by
  induction k with
  | zero =>
    refine ⟨.empty classes, ⟨[], rfl, rfl, fun c block here => by cases here⟩, fun {id e} here => ?_,
      List.forall_mem_nil _⟩
    simp [get?] at here
  | succ k ih =>
    have fills := discoverAll_fills (List.range k) { classes := classes, given := classes.length }
    simp only [List.range_succ, List.foldl_append, List.foldl_cons, List.foldl_nil]
    refine (ih (by omega)).discoverClass ?_ ?_
    · rw [fills.sameClasses]
      exact inside
    · rw [fills.sameClasses, fills.given]

end Survey

/-! ## The forest -/

section Lists

variable {ix : ElementIndex} {c k : Nat} {r : SignatureResolver} {p id : ElementId}

theorem Outline.unique {entries entries' : List AnnotationEntry} {rest rest' : List Element}
    (outline : ix.Outline p entries rest) (outline' : ix.Outline p entries' rest') :
    entries = entries' ∧ rest = rest' := by
  refine ⟨outline.annotationEntries.symm.trans outline'.annotationEntries, ?_⟩
  cases outline with
  | classDef stored declared =>
    cases outline' with
    | classDef stored' declared' =>
      cases stored.symm.trans stored'
      cases declared.symm.trans declared'
      rfl
    | field stored' | method stored' | parameter stored' | annotationUse stored' => cases stored.symm.trans stored'
  | method stored declared method takes =>
    cases outline' with
    | method stored' declared' method' takes' =>
      cases stored.symm.trans stored'
      cases declared.symm.trans declared'
      cases method.symm.trans method'
      rw [takes.unique takes']
    | classDef stored' | field stored' | parameter stored' | annotationUse stored' => cases stored.symm.trans stored'
  | field stored | parameter stored | annotationUse stored =>
    cases outline' with
    | classDef stored' | method stored' => cases stored.symm.trans stored'
    | field | parameter | annotationUse => rfl

theorem Noted.charted (noted : ix.Noted p) (all : ∀ entry ∈ ix.childLists, ix.Charted entry) :
    ix.Charted (p, ix.children p) := by
  obtain ⟨ids, listed⟩ := noted
  unfold children
  cases found : ix.childLists.find? (·.1 == p) with
  | none =>
    rw [List.find?_eq_none] at found
    exact absurd (beq_self_eq_true p) (found _ listed)
  | some entry =>
    have charted := all entry (List.mem_of_find?_eq_some found)
    obtain rfl : entry.1 = p := by simpa using List.find?_some found
    exact charted

theorem children_of_not_noted (unlisted : ¬ix.Noted p) : ix.children p = [] := by
  unfold children
  cases found : ix.childLists.find? (·.1 == p) with
  | none => rfl
  | some entry =>
    obtain rfl : entry.1 = p := by simpa using List.find?_some found
    exact absurd ⟨entry.2, List.mem_of_find?_eq_some found⟩ unlisted

theorem Inside.stored (inside : ix.Inside c id) : ∃ e, ix.get? id = some e := by
  cases inside with
  | classDef stored => exact ⟨_, stored⟩
  | part parent =>
    obtain ⟨e, stored, -⟩ := Option.bind_eq_some_iff.mp parent
    exact ⟨e, stored⟩

/-- The first classes are discovered, and all classes that have elements have lists. -/
structure Mapped (ix : ElementIndex) (k : Nat) : Prop extends Surveyed ix k where
  given : ix.synthetic = []
  classes : ∀ {id c}, ix.get? id = some (.classDef c) → ix.Noted id

namespace Mapped

theorem part (h : ix.Mapped k) {id p : ElementId} (parent : ix.parent? id = some p) :
    ∃ e entries rest, ix.get? id = some e ∧ ix.Outline p entries rest ∧ e ∈ marks p entries ++ rest := by
  obtain ⟨e, stored, parent⟩ := Option.bind_eq_some_iff.mp parent
  obtain ⟨c, rfl | ⟨p', entries, rest, -, outline, part⟩⟩ := h.due stored
  · cases parent
  · cases (outline.parent? part).symm.trans parent
    exact ⟨e, entries, rest, stored, outline, part⟩

theorem noted (h : ix.Mapped k) {id : ElementId} (inside : ix.Inside c id) :
    ix.kind? id = some .annotationUse ∨ ix.Noted id := by
  -- Up to the class every element has a list, so the list of the parent has the element.
  induction inside with
  | classDef stored => exact .inr (h.classes stored)
  | @part id p parent _ ih =>
    obtain ⟨e, entries, rest, stored, outline, part⟩ := h.part parent
    rcases ih with mark | noted
    · cases outline with
      | annotationUse => cases part
      | classDef stored | field stored | method stored | parameter stored =>
        rw [kind?, stored] at mark
        cases mark
    · obtain ⟨entries', rest', outline', listed, children⟩ := noted.charted h.charted
      obtain ⟨rfl, rfl⟩ := outline.unique outline'
      obtain ⟨id', member, stored'⟩ := List.mem_map.mp (listed ▸ List.mem_map_of_mem part)
      rw [outline.eq_of_stored h.coherent part stored stored']
      exact children id' member

theorem children_outline (h : ix.Mapped k) {id : ElementId} {e : Element} (stored : ix.get? id = some e) :
    ∃ entries rest, ix.Outline id entries rest ∧
      (ix.children id).map ix.get? = (marks id entries ++ rest).map some := by
  by_cases listed : ix.Noted id
  · obtain ⟨entries, rest, outline, same, -⟩ := listed.charted h.charted
    exact ⟨entries, rest, outline, same⟩
  · obtain ⟨c, due⟩ := h.due stored
    have mark := (h.noted (due.inside stored)).resolve_right listed
    rw [kind?, stored] at mark
    cases e with
    | annotationUse owner i => exact ⟨[], [], .annotationUse stored, by rw [children_of_not_noted listed]; rfl⟩
    | member kind => cases kind <;> cases mark
    | classDef | parameter | signature | value => cases mark

theorem mem_children (h : ix.Mapped k) {id p : ElementId} : id ∈ ix.children p ↔ ix.parent? id = some p := by
  constructor
  · intro member
    have noted : ix.Noted p := by
      by_contra unlisted
      rw [children_of_not_noted unlisted] at member
      cases member
    obtain ⟨entries, rest, outline, listed, -⟩ := noted.charted h.charted
    obtain ⟨e, part, stored⟩ := List.mem_map.mp (listed ▸ List.mem_map_of_mem member)
    rw [parent?, ← stored]
    exact outline.parent? part
  · intro parent
    obtain ⟨e, entries, rest, stored, outline, part⟩ := h.part parent
    obtain ⟨above, there⟩ := outline.stored
    obtain ⟨entries', rest', outline', listed⟩ := h.children_outline there
    obtain ⟨rfl, rfl⟩ := outline.unique outline'
    obtain ⟨id', member, stored'⟩ := List.mem_map.mp (listed ▸ List.mem_map_of_mem part)
    rwa [outline.eq_of_stored h.coherent part stored stored']

end Mapped

theorem Outline.nodup {entries : List AnnotationEntry} {rest : List Element} (outline : ix.Outline p entries rest) :
    (marks p entries ++ rest).Nodup := by
  have each {f : Nat → Element} (n : Nat) (injective : ∀ i j, f i = f j → i = j) : ((List.range n).map f).Nodup :=
    List.nodup_range.map_on fun i _ j _ same => injective i j same
  have marked : (marks p entries).Nodup := each _ fun i j same => (Element.annotationUse.inj same).2
  have members (kind : MemberKind) (c n : Nat) : (declaredMembers kind c p n).Nodup :=
    each n fun i j same => (Element.member.inj same).2.2.1
  cases outline with
  | classDef =>
    refine List.nodup_append.mpr ⟨marked, List.nodup_append.mpr ⟨members _ _ _, members _ _ _, ?_⟩, ?_⟩
    · simp [declaredMembers]
    · intro mark member other listed
      obtain ⟨i, -, rfl⟩ := List.mem_map.mp member
      rcases List.mem_append.mp listed with field | method
      · obtain ⟨j, -, rfl⟩ := List.mem_map.mp field
        exact Element.noConfusion
      · obtain ⟨j, -, rfl⟩ := List.mem_map.mp method
        exact Element.noConfusion
  | method =>
    refine List.nodup_append.mpr ⟨marked, each _ fun i j same => (Element.parameter.inj same).2, ?_⟩
    simp [marks, parameterElements]
  | field | parameter | annotationUse =>
    rw [List.append_nil]
    exact marked

theorem ids_nodup (given : ix.synthetic = []) : ix.ids.Nodup := by
  rw [ids_of_given given]
  refine List.nodup_range.map_on fun i _ j _ same => ?_
  have numbers : (i : Int) + 1 = (j : Int) + 1 := congrArg ElementId.val same
  omega

theorem InBlocks.mem_iff {blocks : List (List ElementId)} (h : ix.InBlocks blocks) {block : List ElementId}
    (here : blocks[c]? = some block) : id ∈ block ↔ ix.Inside c id := by
  refine ⟨(h.2 c block here).2 id, fun inside => ?_⟩
  obtain ⟨e, stored⟩ := inside.stored
  have member : id ∈ blocks.flatten := h.1 ▸ mem_ids.mpr (Option.isSome_of_eq_some stored)
  obtain ⟨block', listed, member'⟩ := List.mem_flatten.mp member
  obtain ⟨c', bound, rfl⟩ := List.getElem_of_mem listed
  have there := List.getElem?_eq_getElem bound
  cases ((h.2 c' _ there).2 id member').unique inside
  cases here.symm.trans there
  exact member'

theorem Mapped.nodup_children (h : ix.Mapped k) : (ix.ids.flatMap ix.children).Nodup := by
  refine List.nodup_flatMap.mpr ⟨fun p listed => ?_, (ids_nodup h.given).imp fun {p q} apart => ?_⟩
  · obtain ⟨e, stored⟩ := Option.isSome_iff_exists.mp (mem_ids.mp listed)
    obtain ⟨entries, rest, outline, same⟩ := h.children_outline stored
    refine List.Nodup.of_map ix.get? ?_
    rw [same]
    exact outline.nodup.map (Option.some_injective _)
  · intro id first second
    cases (h.mem_children.mp first).symm.trans (h.mem_children.mp second)
    exact apart rfl

theorem Mapped.count_children (h : ix.Mapped k) (listed : id ∈ ix.ids) :
    (ix.ids.flatMap ix.children).count id = if ix.kind? id = some .classDef then 0 else 1 := by
  obtain ⟨e, stored⟩ := Option.isSome_iff_exists.mp (mem_ids.mp listed)
  have occurs : id ∈ ix.ids.flatMap ix.children ↔ e.parent?.isSome := by
    rw [List.mem_flatMap, Option.isSome_iff_exists]
    refine exists_congr fun p => ?_
    rw [h.mem_children, parent?, stored, Option.bind_some]
    refine ⟨And.right, fun parent => ⟨mem_ids.mpr ?_, parent⟩⟩
    obtain ⟨key, -, justified⟩ := h.coherent.keyed stored
    obtain ⟨above, there⟩ := justified.parent parent
    exact Option.isSome_of_eq_some there
  have isKind : ix.kind? id = some e.kind := by rw [kind?, stored, Option.map_some]
  rw [isKind]
  cases e with
  | classDef c => exact List.count_eq_zero.mpr fun member => by cases occurs.mp member
  | member kind =>
    have one := List.count_eq_one_of_mem h.nodup_children (occurs.mpr rfl)
    cases kind <;> exact one
  | parameter | annotationUse | signature | value =>
    exact List.count_eq_one_of_mem h.nodup_children (occurs.mpr rfl)

theorem ofClasses_mapped (classes : List ClassDeclaration) : (ofClasses classes).Mapped classes.length := by
  have surveyed : (ofClasses classes).Surveyed classes.length := discoverAll_surveyed classes (Nat.le_refl _)
  have fills := discoverAll_fills (List.range classes.length) { classes := classes, given := classes.length }
  refine ⟨surveyed, surveyed.coherent.synthetic_eq_nil ?_, fun {id c} stored => ?_⟩
  · rw [ofClasses, fills.sameClasses, fills.given]
  · have found := surveyed.coherent.get?_classDef.mp stored
    obtain ⟨d, source, others, methods, -, found', listed, -⟩ :=
      (ofClasses_listed classes).each c (surveyed.coherent.class_lt found)
    cases found.symm.trans found'
    exact ⟨_, List.mem_of_find?_eq_some listed⟩

end Lists

/-- Elements are the trees of some classes. -/
structure Forest (classes : List ClassDeclaration) (ix : ElementIndex) : Prop where
  about : ix.classes = classes
  given : ix.synthetic = []
  numbers : ix.ids = (List.range ix.size).map fun i => ⟨(i : Int) + 1⟩
  /-- The elements of a class have numbers in a row, which start with that of the class. -/
  blocks : ∃ blocks : List (List ElementId), blocks.length = classes.length ∧ ix.ids = blocks.flatten ∧
    ∀ c block, blocks[c]? = some block →
      (∃ id rest, block = id :: rest ∧ ix.get? id = some (.classDef c)) ∧ ∀ id, id ∈ block ↔ ix.Inside c id
  /-- Elements other than classes are in one list, once. -/
  once : ∀ id ∈ ix.ids, (ix.ids.flatMap ix.children).count id = if ix.kind? id = some .classDef then 0 else 1
  parents : ∀ id p, id ∈ ix.children p ↔ ix.parent? id = some p
  /-- The children are those of the declaration, in order. -/
  children : ∀ id ∈ ix.ids, ∃ entries rest, ix.Outline id entries rest ∧
    (ix.children id).map ix.get? = (marks id entries ++ rest).map some

/-- Discovery finds one tree for each class. -/
theorem ofClasses_forest (classes : List ClassDeclaration) : Forest classes (ofClasses classes) := by
  have mapped := ofClasses_mapped classes
  obtain ⟨blocks, size, inBlocks⟩ := mapped.blocks
  refine ⟨?_, mapped.given, ?_, ⟨blocks, size, inBlocks.1, fun c block here => ?_⟩, fun id => mapped.count_children,
    fun id p => mapped.mem_children, fun id listed => ?_⟩
  · exact (discoverAll_fills (List.range classes.length) { classes := classes, given := classes.length }).sameClasses
  · rw [ids_of_given mapped.given, ElementIndex.size, mapped.given, List.length_nil, Nat.add_zero]
  · exact ⟨(inBlocks.2 c block here).1, fun id => inBlocks.mem_iff here⟩
  · obtain ⟨e, stored⟩ := Option.isSome_iff_exists.mp (mem_ids.mp listed)
    exact mapped.children_outline stored

end ElementIndex

end ClassAtlas
