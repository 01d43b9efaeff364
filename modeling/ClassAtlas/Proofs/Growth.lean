import Mathlib.Data.List.Infix
import ClassAtlas.Pipeline.Step

/-! # The index only grows

No operation of the index takes anything away or puts something else in its place: every list of the
index afterwards starts with what it was before, and what has a number keeps it. What is interned under
a key is what the key says. Classes come with elements for all their methods, so calls can be looked up
as soon as a class is there.
-/

namespace ClassAtlas

/-- The kind of the elements that a key is for. -/
def ElementKey.kind : ElementKey → ElementKind
  | .classDef _ => .classDef
  | .member k _ _ _ => k.elementKind
  | .parameter _ _ => .parameter
  | .annotationUse _ _ => .annotationUse
  | .signature _ _ => .signature
  | .value _ _ => .value

/-- An element is one that a key is for. -/
inductive ElementKey.Describes : ElementKey → Element → Prop where
  | classDef {c} : Describes (.classDef c) (.classDef c)
  | member {kind declaring position seenFrom owner origin} :
      Describes (.member kind declaring position seenFrom) (.member kind declaring position owner origin)
  | parameter {method position} : Describes (.parameter method position) (.parameter method position)
  | annotationUse {owner position} :
      Describes (.annotationUse owner position) (.annotationUse owner position)
  | signature {owner slot type} : Describes (.signature owner slot) (.signature owner type)
  | value {owner key literal} : Describes (.value owner key) (.value owner literal)

theorem ElementKey.Describes.kind {key : ElementKey} {element : Element} (h : key.Describes element) :
    element.kind = key.kind := by
  cases h <;> rfl

namespace ClassPool

theorem indexOf?_lt {pool : ClassPool} {t : TypeName} {c : Nat} (known : pool.indexOf? t = some c) : c < pool.length :=
  (List.findIdx?_eq_some_iff_getElem.mp known).1

theorem superclass?_lt {pool : ClassPool} {sub super : Nat} (link : pool.superclass? sub = some super) :
    sub < pool.length ∧ super < pool.length := by
  obtain ⟨d, found, named⟩ := Option.bind_eq_some_iff.mp link
  obtain ⟨name, -, known⟩ := Option.bind_eq_some_iff.mp named
  exact ⟨(List.getElem?_eq_some_iff.mp found).1, indexOf?_lt known⟩

end ClassPool

namespace Search

variable {α : Type} [BEq α]

theorem mem_walk {next : α → Option α} {fuel : Nat} {visited : List α} {a x : α}
    (member : x ∈ walk next fuel visited a) : x ∈ visited ∨ ∃ y, next y = some x := by
  induction fuel generalizing visited a with
  | zero => exact .inl member
  | succ fuel ih =>
    unfold walk at member
    split at member
    · exact .inl member
    · next n link =>
        split at member
        · exact .inl member
        · rcases ih member with listed | linked
          · rcases List.mem_append.mp listed with earlier | new
            · exact .inl earlier
            · exact .inr ⟨a, List.mem_singleton.mp new ▸ link⟩
          · exact .inr linked

variable [LawfulBEq α]

theorem mem_fresh {seen xs : List α} {x : α} :
    x ∈ fresh seen xs ↔ x ∈ xs ∧ x ∉ seen := by
  induction xs generalizing seen with
  | nil => simp [fresh]
  | cons y rest ih =>
    simp only [fresh, List.contains_iff_mem]
    split
    · next before =>
        rw [ih, List.mem_cons]
        constructor
        · exact fun ⟨later, new⟩ => ⟨.inr later, new⟩
        · rintro ⟨rfl | later, new⟩
          · exact absurd before new
          · exact ⟨later, new⟩
    · next new =>
        rw [List.mem_cons, ih, List.mem_cons, List.mem_cons]
        by_cases same : x = y
        · subst same
          simp [new]
        · simp [same]

theorem fresh_nodup (seen xs : List α) : (fresh seen xs).Nodup := by
  induction xs generalizing seen with
  | nil => exact List.nodup_nil
  | cons y rest ih =>
    simp only [fresh]
    split
    · exact ih seen
    · refine List.nodup_cons.mpr ⟨fun again => ?_, ih _⟩
      exact (mem_fresh.mp again).2 (by simp)

end Search

namespace ElementIndex

variable {ix : ElementIndex} {key : ElementKey} {id : ElementId} (kind : MemberKind)

def Keyed (ix : ElementIndex) : Prop :=
  ∀ entry, entry ∈ ix.discovered ∨ entry ∈ ix.synthetic → entry.1.Describes entry.2

/-- One index is an earlier state of another. -/
structure Grows (a b : ElementIndex) : Prop where
  given : b.given = a.given
  classes : a.classes <+: b.classes
  discovered : a.discovered <+: b.discovered
  synthetic : a.synthetic <+: b.synthetic
  childLists : a.childLists <+: b.childLists
  keys : ∀ {key id}, a.find? key = some id → b.find? key = some id

/-- Elements were added, and no classes. -/
structure Fills (a b : ElementIndex) : Prop extends Grows a b where
  sameClasses : b.classes = a.classes
  keyed : a.Keyed → b.Keyed

/-- A class and its methods have elements. -/
structure Covers (ix : ElementIndex) (c : Nat) : Prop where
  cls : (ix.find? (.classDef c)).isSome
  methods : ∀ {d}, ix.classes[c]? = some d → ∀ i < d.methods.length,
    (ix.find? (.member .method c i c)).isSome

/-- All classes and their methods have elements. -/
def Complete (ix : ElementIndex) : Prop := ∀ c < ix.classes.length, ix.Covers c

/-- Elements were added, and perhaps classes together with theirs. -/
structure Develops (a b : ElementIndex) : Prop extends Grows a b where
  complete : a.Complete → b.Complete
  keyed : a.Keyed → b.Keyed

private theorem getElem?_longer {α : Type} {xs ys : List α} (h : xs <+: ys) {i : Nat} {a : α}
    (found : xs[i]? = some a) : ys[i]? = some a := by
  obtain ⟨rest, rfl⟩ := h
  rw [List.getElem?_append_left (List.getElem?_eq_some_iff.mp found).1]
  exact found

namespace Grows

variable {a b c : ElementIndex}

theorem refl (ix : ElementIndex) : Grows ix ix :=
  ⟨rfl, List.prefix_rfl, List.prefix_rfl, List.prefix_rfl, List.prefix_rfl, id⟩

theorem trans (h : Grows a b) (h' : Grows b c) : Grows a c :=
  ⟨h'.given.trans h.given, h.classes.trans h'.classes, h.discovered.trans h'.discovered,
    h.synthetic.trans h'.synthetic, h.childLists.trans h'.childLists, fun found => h'.keys (h.keys found)⟩

theorem ids (h : Grows a b) : a.ids ⊆ b.ids := by
  intro id member
  have synthetic := h.synthetic.length_le
  have discovered := h.discovered.length_le
  simp only [ElementIndex.ids, List.mem_append, List.mem_map, List.mem_reverse, List.mem_range] at member ⊢
  rcases member with ⟨i, inside, rfl⟩ | ⟨i, inside, rfl⟩
  · exact .inl ⟨i, by omega, rfl⟩
  · exact .inr ⟨i, by omega, rfl⟩

theorem get? (h : Grows a b) {id : ElementId} {e : Element} (found : a.get? id = some e) :
    b.get? id = some e := by
  unfold ElementIndex.get? at found ⊢
  split at found
  · next positive =>
      obtain ⟨entry, position, rfl⟩ := Option.map_eq_some_iff.mp found
      rw [if_pos positive, getElem?_longer h.discovered position, Option.map_some]
  · next notPositive =>
      obtain ⟨entry, position, rfl⟩ := Option.map_eq_some_iff.mp found
      rw [if_neg notPositive, getElem?_longer h.synthetic position, Option.map_some]

theorem isSome_find? (h : Grows a b) {key : ElementKey} (present : (a.find? key).isSome) :
    (b.find? key).isSome := by
  obtain ⟨id, found⟩ := Option.isSome_iff_exists.mp present
  rw [h.keys found]
  rfl

theorem covers (h : Grows a b) {c : Nat} (inside : c < a.classes.length) (covers : a.Covers c) :
    b.Covers c := by
  refine ⟨h.isSome_find? covers.cls, fun {d} declared i bound => h.isSome_find? (covers.methods ?_ i bound)⟩
  rw [← declared]
  exact ((getElem?_longer h.classes (List.getElem?_eq_getElem inside)).trans
    (List.getElem?_eq_getElem inside).symm).symm

end Grows

namespace Fills

variable {a b c : ElementIndex}

theorem refl (ix : ElementIndex) : Fills ix ix := ⟨.refl ix, rfl, id⟩

theorem trans (h : Fills a b) (h' : Fills b c) : Fills a c :=
  ⟨h.toGrows.trans h'.toGrows, h'.sameClasses.trans h.sameClasses, fun keyed => h'.keyed (h.keyed keyed)⟩

theorem develops (h : Fills a b) : Develops a b where
  toGrows := h.toGrows
  complete complete c inside := by
    rw [h.sameClasses] at inside
    exact h.covers inside (complete c inside)
  keyed := h.keyed

end Fills

namespace Develops

variable {a b c : ElementIndex}

theorem refl (ix : ElementIndex) : Develops ix ix := (Fills.refl ix).develops

theorem trans (h : Develops a b) (h' : Develops b c) : Develops a c :=
  ⟨h.toGrows.trans h'.toGrows, fun complete => h'.complete (h.complete complete),
    fun keyed => h'.keyed (h.keyed keyed)⟩

end Develops

/-! ## Interning -/

theorem find?_eq_some :
    ix.find? key = some id ↔
      (∃ i, ix.discovered.findIdx? (·.1 == key) = some i ∧ id = ⟨(i : Int) + 1⟩) ∨
      ix.discovered.findIdx? (·.1 == key) = none ∧
        ∃ i, ix.synthetic.findIdx? (·.1 == key) = some i ∧ id = ⟨-(i : Int)⟩ := by
  unfold find?
  cases ix.discovered.findIdx? (·.1 == key) <;> cases ix.synthetic.findIdx? (·.1 == key) <;>
    simp [eq_comm]

theorem find?_eq_none :
    ix.find? key = none ↔
      ix.discovered.findIdx? (·.1 == key) = none ∧ ix.synthetic.findIdx? (·.1 == key) = none := by
  unfold find?
  cases ix.discovered.findIdx? (·.1 == key) <;> cases ix.synthetic.findIdx? (·.1 == key) <;> simp

def row? (ix : ElementIndex) (id : ElementId) : Option (ElementKey × Element) :=
  if 0 < id.val then ix.discovered[(id.val - 1).toNat]? else ix.synthetic[id.val.natAbs]?

theorem get?_eq_row? (ix : ElementIndex) (id : ElementId) : ix.get? id = (ix.row? id).map (·.2) := by
  unfold get? row?
  split <;> rfl

theorem mem_of_row? {entry : ElementKey × Element} (stored : ix.row? id = some entry) :
    entry ∈ ix.discovered ∨ entry ∈ ix.synthetic := by
  unfold row? at stored
  split at stored
  · exact .inl (List.mem_of_getElem? stored)
  · exact .inr (List.mem_of_getElem? stored)

private theorem findIdx?_entry {entries : List (ElementKey × Element)} {key : ElementKey} {i : Nat}
    (position : entries.findIdx? (·.1 == key) = some i) :
    ∃ element, entries[i]? = some (key, element) := by
  obtain ⟨inside, same, -⟩ := List.findIdx?_eq_some_iff_getElem.mp position
  have same : entries[i].1 = key := by simpa using same
  exact ⟨entries[i].2, by rw [List.getElem?_eq_getElem inside, ← same]⟩

theorem row?_of_find? (found : ix.find? key = some id) : ∃ element, ix.row? id = some (key, element) := by
  rcases find?_eq_some.mp found with ⟨i, position, rfl⟩ | ⟨-, i, position, rfl⟩
  · obtain ⟨element, entry⟩ := findIdx?_entry position
    have positive : (0 : Int) < (i : Int) + 1 := by omega
    have back : ((i : Int) + 1 - 1).toNat = i := by omega
    refine ⟨element, ?_⟩
    rw [row?, if_pos positive, back, entry]
  · obtain ⟨element, entry⟩ := findIdx?_entry position
    have notPositive : ¬(0 : Int) < -(i : Int) := by omega
    have back : (-(i : Int)).natAbs = i := by omega
    refine ⟨element, ?_⟩
    rw [row?, if_neg notPositive, back, entry]

theorem get?_of_find? (found : ix.find? key = some id) :
    ∃ element, ix.get? id = some element ∧ ((key, element) ∈ ix.discovered ∨ (key, element) ∈ ix.synthetic) := by
  obtain ⟨element, entry⟩ := row?_of_find? found
  refine ⟨element, ?_, mem_of_row? entry⟩
  rw [get?_eq_row?, entry, Option.map_some]

theorem find?_inj {key key' : ElementKey} (found : ix.find? key = some id) (found' : ix.find? key' = some id) :
    key = key' := by
  obtain ⟨element, entry⟩ := row?_of_find? found
  obtain ⟨element', entry'⟩ := row?_of_find? found'
  cases entry.symm.trans entry'
  rfl

theorem find?_intern (key : ElementKey) (element : Element) (ix : ElementIndex) :
    (ix.intern key element).2.find? key = some (ix.intern key element).1 := by
  unfold intern
  cases known : ix.find? key with
  | some id => exact known
  | none =>
    obtain ⟨discovered, synthetic⟩ := find?_eq_none.mp known
    simp only
    split
    · exact find?_eq_some.mpr (.inr ⟨discovered, _, by simp [List.findIdx?_append, synthetic], rfl⟩)
    · exact find?_eq_some.mpr (.inl ⟨_, by simp [List.findIdx?_append, discovered], rfl⟩)

private theorem findIdx?_append_some {xs ys : List (ElementKey × Element)} {key : ElementKey} {i : Nat}
    (found : xs.findIdx? (·.1 == key) = some i) : (xs ++ ys).findIdx? (·.1 == key) = some i := by
  simp [List.findIdx?_append, found]

theorem Keyed.intern {element : Element} (described : key.Describes element) (keyed : ix.Keyed) :
    (ix.intern key element).2.Keyed := by
  unfold ElementIndex.intern
  split
  · exact keyed
  · split
    · rintro entry (old | new)
      · exact keyed entry (.inl old)
      · rcases List.mem_append.mp new with old | last
        · exact keyed entry (.inr old)
        · exact List.mem_singleton.mp last ▸ described
    · rintro entry (new | old)
      · rcases List.mem_append.mp new with old | last
        · exact keyed entry (.inl old)
        · exact List.mem_singleton.mp last ▸ described
      · exact keyed entry (.inr old)

theorem intern_grows (key : ElementKey) (element : Element) (ix : ElementIndex) :
    ix.Grows (ix.intern key element).2 := by
  unfold intern
  cases known : ix.find? key with
  | some id => exact .refl ix
  | none =>
    simp only
    split
    · refine ⟨rfl, List.prefix_rfl, List.prefix_rfl, List.prefix_append _ _, List.prefix_rfl,
        fun {key' id} found => ?_⟩
      rcases find?_eq_some.mp found with ⟨i, position, rfl⟩ | ⟨absent, i, position, rfl⟩
      · exact find?_eq_some.mpr (.inl ⟨i, position, rfl⟩)
      · exact find?_eq_some.mpr (.inr ⟨absent, i, findIdx?_append_some position, rfl⟩)
    · refine ⟨rfl, List.prefix_rfl, List.prefix_append _ _, List.prefix_rfl, List.prefix_rfl,
        fun {key' id} found => ?_⟩
      have different : key ≠ key' := by
        rintro rfl
        rw [known] at found
        cases found
      rcases find?_eq_some.mp found with ⟨i, position, rfl⟩ | ⟨absent, i, position, rfl⟩
      · exact find?_eq_some.mpr (.inl ⟨i, findIdx?_append_some position, rfl⟩)
      · refine find?_eq_some.mpr (.inr ⟨?_, i, position, rfl⟩)
        simp [List.findIdx?_append, absent, List.findIdx?_cons, different]

theorem intern_fills {element : Element} (described : key.Describes element) (ix : ElementIndex) :
    ix.Fills (ix.intern key element).2 := by
  refine ⟨intern_grows key element ix, ?_, .intern described⟩
  unfold intern
  split
  · rfl
  · split <;> rfl

theorem internAll_fills {entries : List (ElementKey × Element)}
    (described : ∀ entry ∈ entries, entry.1.Describes entry.2) (ix : ElementIndex) :
    ix.Fills (ix.internAll entries).2 := by
  induction entries generalizing ix with
  | nil => exact .refl ix
  | cons entry rest ih =>
    exact (intern_fills (described entry (by simp)) ix).trans
      (ih (fun later member => described later (by simp [member])) _)

theorem annotations_fills (owner : ElementId) (ix : ElementIndex) : ix.Fills (ix.annotations owner).2 :=
  internAll_fills (by
    intro entry member
    obtain ⟨i, -, rfl⟩ := List.mem_map.mp member
    constructor) ix

theorem parameters_fills (method : ElementId) (ix : ElementIndex) : ix.Fills (ix.parameters method).2 :=
  internAll_fills (by
    intro entry member
    obtain ⟨i, -, rfl⟩ := List.mem_map.mp member
    constructor) ix

theorem declaredMember_fills (declaring position : Nat) (ix : ElementIndex) :
    ix.Fills (ix.declaredMember kind declaring position).2 :=
  (intern_fills .classDef ix).trans (intern_fills .member _)

theorem member_fills (declaring position seenFrom : Nat) (ix : ElementIndex) :
    ix.Fills (ix.member kind declaring position seenFrom).2 := by
  unfold member
  split
  · exact declaredMember_fills kind declaring position ix
  · exact ((intern_fills .classDef ix).trans (declaredMember_fills kind declaring position _)).trans
      (intern_fills .member _)

theorem members_fills (seenFrom : Nat) (places : List (Nat × Nat)) (ix : ElementIndex) :
    ix.Fills (ix.members kind seenFrom places).2 := by
  induction places generalizing ix with
  | nil => exact .refl ix
  | cons place rest ih => exact (member_fills kind place.1 place.2 seenFrom ix).trans (ih _)

theorem inheritedFrom_supers {kind : MemberKind} {pool : ClassPool} {supers : List Nat}
    {seen : List (String × String)} {place : Nat × Nat} (member : place ∈ inheritedFrom kind pool supers seen) :
    place.1 ∈ supers := by
  have selected (declaring i : Nat) (entries : List (Option (String × String))) (seen : List (String × String)) :
      ∀ place ∈ (selectNew declaring i entries seen).1, place.1 = declaring := by
    fun_induction selectNew declaring i entries seen with
    | case1 => simp
    | case2 _ _ _ ih | case3 _ _ _ _ _ ih => exact ih
    | case4 _ _ _ _ _ _ _ rest ih =>
      rw [rest] at ih
      simpa using ih
  induction supers generalizing seen with
  | nil => cases member
  | cons c rest ih =>
    rcases List.mem_append.mp member with here | later
    · exact selected _ _ _ _ place here ▸ List.mem_cons_self
    · exact List.mem_cons_of_mem _ (ih later)

theorem memberPlaces_lt {kind : MemberKind} {pool : ClassPool} {c : Nat} {inherited : Bool} {place : Nat × Nat}
    (there : c < pool.length) (member : place ∈ memberPlaces kind pool c inherited) : place.1 < pool.length := by
  have chain : ∀ x ∈ pool.superclassChain c, x < pool.length := by
    intro x above
    rcases Search.mem_walk above with start | ⟨y, link⟩
    · exact List.mem_singleton.mp start ▸ there
    · exact (ClassPool.superclass?_lt link).2
  have own : ∀ n, place ∈ (List.range n).map (fun i => (c, i)) → place.1 < pool.length := by
    intro n listed
    obtain ⟨i, -, rfl⟩ := List.mem_map.mp listed
    exact there
  unfold memberPlaces at member
  split at member
  · rcases List.mem_append.mp member with declared | taken
    · exact own _ declared
    · exact chain _ (List.mem_of_mem_tail (inheritedFrom_supers taken))
  · exact own _ member

theorem membersOf_fills (id : ElementId) (inherited : Bool) (ix : ElementIndex) :
    ix.Fills (ix.membersOf kind id inherited).2 := by
  unfold membersOf
  split
  · exact .refl ix
  · exact members_fills kind _ _ ix

/-! ## Discovery -/

theorem setChildren_fills (id : ElementId) (ids : List ElementId) (ix : ElementIndex) :
    ix.Fills (ix.setChildren id ids) :=
  ⟨⟨rfl, List.prefix_rfl, List.prefix_rfl, List.prefix_rfl, List.prefix_append _ _, fun h => h⟩, rfl, fun h => h⟩

theorem annotateAll_fills (ids : List ElementId) (ix : ElementIndex) : ix.Fills (ix.annotateAll ids) := by
  induction ids generalizing ix with
  | nil => exact .refl ix
  | cons id rest ih =>
    exact ((annotations_fills id ix).trans (setChildren_fills id _ _)).trans (ih _)

theorem discoverField_fills (c position : Nat) (ix : ElementIndex) :
    ix.Fills (ix.discoverField c position).2 :=
  (declaredMember_fills .field c position ix).trans (annotateAll_fills _ _)

theorem discoverMethod_fills (c position : Nat) (ix : ElementIndex) :
    ix.Fills (ix.discoverMethod c position).2 :=
  (((declaredMember_fills .method c position ix).trans (annotations_fills _ _)).trans
    (parameters_fills _ _)).trans ((annotateAll_fills _ _).trans (setChildren_fills _ _ _))

theorem forPositions_fills {step : Nat → ElementIndex → ElementId × ElementIndex}
    (grows : ∀ i ix, Fills ix (step i ix).2) (positions : List Nat) (ix : ElementIndex) :
    ix.Fills (forPositions step positions ix).2 := by
  induction positions generalizing ix with
  | nil => exact .refl ix
  | cons i rest ih => exact (grows i ix).trans (ih _)

theorem discoverClass_fills (c : Nat) (ix : ElementIndex) : ix.Fills (ix.discoverClass c) := by
  unfold discoverClass
  split
  · exact .refl ix
  · exact ((((intern_fills .classDef ix).trans (annotations_fills _ _)).trans
      (forPositions_fills (discoverField_fills c) _ _)).trans
      (forPositions_fills (discoverMethod_fills c) _ _)).trans (setChildren_fills _ _ _)

/-! ## Classes come with their methods -/

theorem declaredMember_present (declaring position : Nat) (ix : ElementIndex) :
    ((ix.declaredMember kind declaring position).2.find? (.member kind declaring position declaring)).isSome := by
  unfold declaredMember
  rw [find?_intern]
  rfl

theorem discoverMethod_present (c position : Nat) (ix : ElementIndex) :
    ((ix.discoverMethod c position).2.find? (.member .method c position c)).isSome :=
  (((annotations_fills _ _).trans (parameters_fills _ _)).trans
    ((annotateAll_fills _ _).trans (setChildren_fills _ _ _))).isSome_find?
      (declaredMember_present .method c position ix)

theorem forPositions_present (c : Nat) {positions : List Nat} {i : Nat} (member : i ∈ positions)
    (ix : ElementIndex) :
    ((forPositions (discoverMethod c) positions ix).2.find? (.member .method c i c)).isSome := by
  induction positions generalizing ix with
  | nil => cases member
  | cons j rest ih =>
    rcases List.mem_cons.mp member with rfl | later
    · exact (forPositions_fills (discoverMethod_fills c) rest _).isSome_find?
        (discoverMethod_present c i ix)
    · exact ih later _

theorem discoverClass_covers {c : Nat} (inside : c < ix.classes.length) : (ix.discoverClass c).Covers c := by
  have fills := discoverClass_fills c ix
  unfold discoverClass at fills ⊢
  rw [List.getElem?_eq_getElem inside] at fills ⊢
  refine ⟨?_, fun {d} declared i bound => ?_⟩
  · have present : ((ix.intern (.classDef c) (.classDef c)).2.find? (.classDef c)).isSome := by
      rw [find?_intern]
      rfl
    exact ((((annotations_fills _ _).trans (forPositions_fills (discoverField_fills c) _ _)).trans
      (forPositions_fills (discoverMethod_fills c) _ _)).trans (setChildren_fills _ _ _)).isSome_find? present
  · rw [fills.sameClasses, List.getElem?_eq_getElem inside] at declared
    obtain rfl := Option.some.inj declared
    exact (setChildren_fills _ _ _).isSome_find? (forPositions_present c (List.mem_range.mpr bound) _)

theorem discoverAll_fills (positions : List Nat) (ix : ElementIndex) :
    ix.Fills (positions.foldl (fun ix c => ix.discoverClass c) ix) := by
  induction positions generalizing ix with
  | nil => exact .refl ix
  | cons c rest ih => exact (discoverClass_fills c ix).trans (ih _)

theorem discoverAll_covers {positions : List Nat} {c : Nat} (member : c ∈ positions)
    (inside : c < ix.classes.length) : (positions.foldl (fun ix c => ix.discoverClass c) ix).Covers c := by
  induction positions generalizing ix with
  | nil => cases member
  | cons first rest ih =>
    have still : c < (ix.discoverClass first).classes.length := by
      rw [(discoverClass_fills first ix).sameClasses]
      exact inside
    rcases List.mem_cons.mp member with rfl | later
    · exact (discoverAll_fills rest _).covers still (discoverClass_covers inside)
    · exact ih later still

theorem ofClasses_complete (classes : List ClassDeclaration) : (ofClasses classes).Complete := by
  intro c inside
  have fills := discoverAll_fills (List.range classes.length) { classes := classes, given := classes.length }
  have bound : c < classes.length := by
    rw [ofClasses, fills.sameClasses] at inside
    exact inside
  exact discoverAll_covers (List.mem_range.mpr bound) bound

theorem ofClasses_keyed (classes : List ClassDeclaration) : (ofClasses classes).Keyed :=
  (discoverAll_fills _ _).keyed (by simp [Keyed])

theorem synthesizeClass_develops (t : TypeName) (methods : List String) (ix : ElementIndex) :
    ix.Develops (ix.synthesizeClass t methods).2 := by
  unfold synthesizeClass
  split
  · exact .refl ix
  · have added : ix.Grows { ix with classes := ix.classes ++ [stub t methods] } :=
      ⟨rfl, List.prefix_append _ _, List.prefix_rfl, List.prefix_rfl, List.prefix_rfl, fun h => h⟩
    have fills := (discoverClass_fills ix.classes.length
      { ix with classes := ix.classes ++ [stub t methods] }).trans
        (intern_fills (.classDef (c := ix.classes.length)) _)
    refine ⟨added.trans fills.toGrows, fun complete c inside => ?_, fun keyed => fills.keyed keyed⟩
    rw [fills.sameClasses, List.length_append, List.length_singleton] at inside
    rcases Nat.lt_succ_iff_lt_or_eq.mp inside with old | rfl
    · exact (added.trans fills.toGrows).covers old (complete c old)
    · have last : ix.classes.length <
          ({ ix with classes := ix.classes ++ [stub t methods] } : ElementIndex).classes.length := by simp
      refine (intern_grows _ _ _).covers ?_ (discoverClass_covers last)
      rw [(discoverClass_fills _ _).sameClasses]
      exact last

end ElementIndex

/-! ## Steps and properties -/

namespace Step

open ElementIndex (Fills)

theorem gather_fills {f : ElementId → ElementIndex → List ElementId × ElementIndex}
    (grows : ∀ id ix, Fills ix (f id ix).2) (ids : List ElementId) (ix : ElementIndex) :
    ix.Fills (gather f ids ix).2 := by
  induction ids generalizing ix with
  | nil => exact .refl ix
  | cons id rest ih => exact (grows id ix).trans (ih _)

theorem annotationsOfType_fills (type : Option TypeName) (id : ElementId) (ix : ElementIndex) :
    ix.Fills (annotationsOfType type id ix).2 := by
  have grows := ElementIndex.annotations_fills id ix
  cases type <;> exact grows

theorem internArguments_fills (owner : ElementId) (i : Nat) (args : List TypeSignature)
    (ix : ElementIndex) : ix.Fills (internArguments owner i args ix).2 := by
  induction args generalizing i ix with
  | nil => exact .refl ix
  | cons s rest ih => exact (ElementIndex.intern_fills .signature ix).trans (ih _ _)

theorem argumentsOf_fills (id : ElementId) (ix : ElementIndex) : ix.Fills (argumentsOf id ix).2 := by
  unfold argumentsOf
  split
  · exact internArguments_fills id 0 _ ix
  · exact .refl ix

theorem classNamed_develops (create : Bool) (t : TypeName) (ix : ElementIndex) :
    ix.Develops (classNamed create t ix).2 := by
  unfold classNamed
  split
  · exact .refl ix
  · split
    · exact ElementIndex.synthesizeClass_develops t [] ix
    · exact .refl ix

theorem synthesizeAll_develops (targets : List SynthesisTarget) (ix : ElementIndex) :
    ix.Develops (synthesizeAll targets ix).2 := by
  induction targets generalizing ix with
  | nil => exact .refl ix
  | cons t rest ih => exact (ElementIndex.synthesizeClass_develops t.type t.methods ix).trans (ih _)

end Step

namespace PropertyStrategy

theorem internLiterals_fills (owner : ElementId) (field : String) (i : Nat) (literals : List Literal)
    (ix : ElementIndex) : ix.Fills (internLiterals owner field i literals ix) := by
  induction literals generalizing i ix with
  | nil => exact .refl ix
  | cons l rest ih => exact (ElementIndex.intern_fills .value ix).trans (ih _ _)

theorem annotationLiterals_fills (id : ElementId) (type : TypeName) (field : String)
    (ix : ElementIndex) : ix.Fills (annotationLiterals id type field ix).2 := by
  unfold annotationLiterals
  simp only
  split
  · exact .refl ix
  · split
    · exact ElementIndex.annotations_fills id ix
    · exact (ElementIndex.annotations_fills id ix).trans (internLiterals_fills _ _ _ _ _)

theorem read_fills (id : ElementId) (strategy : PropertyStrategy) (ix : ElementIndex)
    (r : SignatureResolver) : ix.Fills (strategy.read id ix r).2.1 := by
  cases strategy with
  | annotationValue type field => exact annotationLiterals_fills id type field ix
  | name | label | resolvedType | literal => exact .refl ix
  | erasedType =>
    simp only [read]
    split <;> exact .refl ix

end PropertyStrategy

theorem PropertySpec.readAll_fills (id : ElementId) (specs : List PropertySpec) (ix : ElementIndex)
    (r : SignatureResolver) : ix.Fills (readAll id specs ix r).2.1 := by
  induction specs generalizing ix r with
  | nil => exact .refl ix
  | cons spec rest ih => exact (PropertyStrategy.read_fills id spec.value ix r).trans (ih _ _)

end ClassAtlas
