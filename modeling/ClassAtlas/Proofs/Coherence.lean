import ClassAtlas.Proofs.Json.Lexing
import ClassAtlas.Proofs.ResolverMemory

/-! # Coherent indexes

Interning gives every key one element. It does not look at the element that is offered under a known key,
so two offers that differ would go unnoticed. They never differ: an element is determined by its key, by
elements that are already there and by declared types, none of which changes. A guard that refuses offers
which differ, and elements whose parents are missing, would never have anything to do.
-/

namespace ClassAtlas

/-! ## Interning behind a guard -/

namespace ElementIndex

/-- The element's parent is there, and a key that is known has this element. -/
def admits (ix : ElementIndex) (key : ElementKey) (element : Element) : Bool :=
  element.parent?.all (fun p => (ix.get? p).isSome) && (ix.find? key).all fun id => ix.get? id == some element

end ElementIndex

/-! The functions of the index once more, with a guard before every element that is interned. -/

namespace Guarded

/-- Intern an element that the index admits. -/
def intern (key : ElementKey) (element : Element) (ix : ElementIndex) : Option (ElementId × ElementIndex) :=
  if ix.admits key element then some (ix.intern key element) else none

def internAll : List (ElementKey × Element) → ElementIndex → Option (List ElementId × ElementIndex)
  | [], ix => some ([], ix)
  | (key, element) :: rest, ix => do
      let (id, ix) ← intern key element ix
      let (ids, ix) ← internAll rest ix
      return (id :: ids, ix)

def annotations (owner : ElementId) (ix : ElementIndex) : Option (List ElementId × ElementIndex) :=
  internAll ((List.range (ix.annotationEntries owner).length).map fun i =>
    (.annotationUse owner i, .annotationUse owner i)) ix

def parameters (method : ElementId) (ix : ElementIndex) : Option (List ElementId × ElementIndex) :=
  internAll ((List.range (ix.parameterCount method)).map fun i =>
    (.parameter method i, .parameter method i)) ix

def declaredMember (kind : MemberKind) (declaring position : Nat) (ix : ElementIndex) :
    Option (ElementId × ElementIndex) := do
  let (owner, ix) ← intern (.classDef declaring) (.classDef declaring) ix
  intern (.member kind declaring position declaring) (.member kind declaring position owner none) ix

def member (kind : MemberKind) (declaring position seenFrom : Nat) (ix : ElementIndex) :
    Option (ElementId × ElementIndex) :=
  if seenFrom = declaring then declaredMember kind declaring position ix
  else do
    let (owner, ix) ← intern (.classDef seenFrom) (.classDef seenFrom) ix
    let (origin, ix) ← declaredMember kind declaring position ix
    intern (.member kind declaring position seenFrom) (.member kind declaring position owner (some origin)) ix

def members (kind : MemberKind) (seenFrom : Nat) :
    List (Nat × Nat) → ElementIndex → Option (List ElementId × ElementIndex)
  | [], ix => some ([], ix)
  | (declaring, position) :: rest, ix => do
      let (id, ix) ← member kind declaring position seenFrom ix
      let (ids, ix) ← members kind seenFrom rest ix
      return (id :: ids, ix)

def membersOf (kind : MemberKind) (id : ElementId) (inherited : Bool) (ix : ElementIndex) :
    Option (List ElementId × ElementIndex) :=
  match ix.classIndex? id with
  | none => some ([], ix)
  | some c => members kind c (ElementIndex.memberPlaces kind ix.classes c inherited) ix

def annotateAll : List ElementId → ElementIndex → Option ElementIndex
  | [], ix => some ix
  | id :: rest, ix => do
      let (marks, ix) ← annotations id ix
      annotateAll rest (ix.setChildren id marks)

def discoverField (c position : Nat) (ix : ElementIndex) : Option (ElementId × ElementIndex) := do
  let (id, ix) ← declaredMember .field c position ix
  let ix ← annotateAll [id] ix
  return (id, ix)

def discoverMethod (c position : Nat) (ix : ElementIndex) : Option (ElementId × ElementIndex) := do
  let (id, ix) ← declaredMember .method c position ix
  let (marks, ix) ← annotations id ix
  let (params, ix) ← parameters id ix
  let ix ← annotateAll params ix
  return (id, ix.setChildren id (marks ++ params))

def forPositions (step : Nat → ElementIndex → Option (ElementId × ElementIndex)) :
    List Nat → ElementIndex → Option (List ElementId × ElementIndex)
  | [], ix => some ([], ix)
  | i :: rest, ix => do
      let (id, ix) ← step i ix
      let (ids, ix) ← forPositions step rest ix
      return (id :: ids, ix)

def discoverClass (c : Nat) (ix : ElementIndex) : Option ElementIndex :=
  match ix.classes[c]? with
  | none => some ix
  | some d => do
      let (id, ix) ← intern (.classDef c) (.classDef c) ix
      let (marks, ix) ← annotations id ix
      let (fieldIds, ix) ← forPositions (discoverField c) (List.range d.fields.length) ix
      let (methodIds, ix) ← forPositions (discoverMethod c) (List.range d.methods.length) ix
      return ix.setChildren id (marks ++ fieldIds ++ methodIds)

def discoverAll : List Nat → ElementIndex → Option ElementIndex
  | [], ix => some ix
  | c :: rest, ix => do
      let ix ← discoverClass c ix
      discoverAll rest ix

def ofClasses (classes : List ClassDeclaration) : Option ElementIndex :=
  discoverAll (List.range classes.length) { classes := classes, given := classes.length }

def synthesizeClass (t : TypeName) (methods : List String) (ix : ElementIndex) :
    Option (ElementId × ElementIndex) :=
  match ix.classByName? t with
  | some id => some (id, ix)
  | none => do
      let c := ix.classes.length
      let ix ← discoverClass c { ix with classes := ix.classes ++ [ElementIndex.stub t methods] }
      intern (.classDef c) (.classDef c) ix

def internArguments (owner : ElementId) : (i : Nat) → List TypeSignature → ElementIndex →
    Option (List ElementId × ElementIndex)
  | _, [], ix => some ([], ix)
  | i, s :: rest, ix => do
      let (id, ix) ← intern (.signature owner (.argument i)) (.signature owner s) ix
      let (ids, ix) ← internArguments owner (i + 1) rest ix
      return (id :: ids, ix)

def argumentsOf (id : ElementId) (ix : ElementIndex) : Option (List ElementId × ElementIndex) :=
  match ix.get? id with
  | some (.signature _ type) => internArguments id 0 type.args ix
  | _ => some ([], ix)

def internLiterals (owner : ElementId) (field : String) : (i : Nat) → List Literal → ElementIndex →
    Option ElementIndex
  | _, [], ix => some ix
  | i, l :: ls, ix => do
      let (_, ix) ← intern (.value owner (field ++ "[" ++ naturalText i ++ "]")) (.value owner l) ix
      internLiterals owner field (i + 1) ls ix

def annotationLiterals (id : ElementId) (type : TypeName) (field : String) (ix : ElementIndex) :
    Option (List Literal × ElementIndex) :=
  let entries := ix.annotationEntries id
  match entries.findIdx? (·.typeName? == some type) with
  | none => some ([], ix)
  | some position => do
      let literals := ((entries[position]?.bind (·.value? field)).map (·.literals)).getD []
      let (ids, ix) ← annotations id ix
      match ids[position]? with
      | none => return ([], ix)
      | some owner =>
        let ix ← internLiterals owner field 0 literals ix
        return (literals, ix)

end Guarded

/-! ## Why an element is the one of its key -/

namespace ElementIndex

variable {ix : ElementIndex} {r : SignatureResolver} {key : ElementKey} {id : ElementId} {element : Element}

def valueName (field : String) (i : Nat) : String := field ++ "[" ++ naturalText i ++ "]"

/-- What determines the element of a key. -/
inductive Justified (ix : ElementIndex) (r : SignatureResolver) : ElementKey → Element → Prop where
  | classDef {c} (there : c < ix.classes.length) : Justified ix r (.classDef c) (.classDef c)
  | declaredMember {kind declaring position owner} (home : ix.find? (.classDef declaring) = some owner) :
      Justified ix r (.member kind declaring position declaring) (.member kind declaring position owner none)
  | inheritedMember {kind declaring position seenFrom owner origin} (elsewhere : seenFrom ≠ declaring)
      (home : ix.find? (.classDef seenFrom) = some owner)
      (declared : ix.find? (.member kind declaring position declaring) = some origin) :
      Justified ix r (.member kind declaring position seenFrom)
        (.member kind declaring position owner (some origin))
  | parameter {method i element} (known : ix.get? method = some element) :
      Justified ix r (.parameter method i) (.parameter method i)
  | annotationUse {owner i element} (known : ix.get? owner = some element) :
      Justified ix r (.annotationUse owner i) (.annotationUse owner i)
  | declaredType {owner type} (settled : r.Settled ix owner type) :
      Justified ix r (.signature owner .declared) (.signature owner type)
  | typeArgument {owner i type whole outer} (known : ix.get? owner = some (.signature outer whole))
      (part : whole.args[i]? = some type) :
      Justified ix r (.signature owner (.argument i)) (.signature owner type)
  | value {owner field i literal entry value} (known : ix.annotationAt? owner = some entry)
      (named : entry.value? field = some value) (part : value.literals[i]? = some literal) :
      Justified ix r (.value owner (valueName field i)) (.value owner literal)

private theorem split_unique {α : Type} {a : α} {xs xs' ys ys' : List α} (absent : a ∉ ys) (absent' : a ∉ ys')
    (same : xs ++ a :: ys = xs' ++ a :: ys') : xs = xs' ∧ ys = ys' := by
  induction xs generalizing xs' with
  | nil =>
    cases xs' with
    | nil => exact ⟨rfl, (List.cons.inj same).2⟩
    | cons x xs' =>
      have rest : ys = xs' ++ a :: ys' := (List.cons.inj same).2
      simp [rest] at absent
  | cons x xs ih =>
    cases xs' with
    | nil =>
      have rest : xs ++ a :: ys = ys' := (List.cons.inj same).2
      simp [← rest] at absent'
    | cons x' xs' =>
      obtain ⟨rfl, rest⟩ := List.cons.inj same
      obtain ⟨rfl, rfl⟩ := ih rest
      exact ⟨rfl, rfl⟩

theorem valueName_inj {field field' : String} {i i' : Nat} (same : valueName field i = valueName field' i') :
    field = field' ∧ i = i' := by
  have noBracket (n : Nat) : '[' ∉ digitChars n := by
    intro member
    cases Json.digitChars_isDigit member
  have chars (field : String) (i : Nat) :
      (valueName field i).toList = field.toList ++ '[' :: digitChars i ++ [']'] := by
    simp [valueName, naturalText]
  have lists := congrArg String.toList same
  rw [chars, chars, List.append_cancel_right_eq] at lists
  obtain ⟨fields, digits⟩ := split_unique (noBracket i) (noBracket i') lists
  have numbers := congrArg (Json.digitsValue 0) digits
  rw [Json.digitsValue_digitChars, Json.digitsValue_digitChars] at numbers
  exact ⟨String.toList_injective fields, numbers⟩

/-! ### It says the same ever after -/

theorem Justified.later {ix ix' : ElementIndex} {r r' : SignatureResolver} (justified : ix.Justified r key element)
    (grows : ix.Grows ix') (extension : r.Extends r') : ix'.Justified r' key element := by
  cases justified with
  | classDef there => exact .classDef (Nat.lt_of_lt_of_le there grows.classes.length_le)
  | declaredMember home => exact .declaredMember (grows.keys home)
  | inheritedMember elsewhere home declared =>
    exact .inheritedMember elsewhere (grows.keys home) (grows.keys declared)
  | parameter known => exact .parameter (grows.get? known)
  | annotationUse known => exact .annotationUse (grows.get? known)
  | declaredType settled => exact .declaredType (settled.later grows extension)
  | typeArgument known part => exact .typeArgument (grows.get? known) part
  | value known named part => exact .value (grows.annotationAt? known) named part

theorem Justified.rest {α : Type} {ix ix' : ElementIndex} {r : SignatureResolver} {i : Nat} {x : α} {xs : List α}
    (key : Nat → ElementKey) (element : α → Element) (grows : ix.Grows ix')
    (justified : ∀ {j a}, (x :: xs)[j]? = some a → ix.Justified r (key (i + j)) (element a)) {j : Nat} {a : α}
    (part : xs[j]? = some a) : ix'.Justified r (key (i + 1 + j)) (element a) := by
  have later := (justified (j := j + 1) part).later grows (.refl r)
  rwa [Nat.add_comm j 1, ← Nat.add_assoc] at later

theorem Justified.unique {element element' : Element} (justified : ix.Justified r key element)
    (justified' : ix.Justified r key element') : element = element' := by
  cases justified with
  | classDef =>
    cases justified'
    rfl
  | declaredMember home =>
    cases justified' with
    | declaredMember home' =>
      cases home.symm.trans home'
      rfl
    | inheritedMember elsewhere => exact absurd rfl elsewhere
  | inheritedMember elsewhere home declared =>
    cases justified' with
    | declaredMember => exact absurd rfl elsewhere
    | inheritedMember _ home' declared' =>
      cases home.symm.trans home'
      cases declared.symm.trans declared'
      rfl
  | parameter =>
    cases justified'
    rfl
  | annotationUse =>
    cases justified'
    rfl
  | declaredType settled =>
    cases justified' with
    | declaredType settled' =>
      have now := settled ix r (.refl ix) (.refl r)
      have now' := settled' ix r (.refl ix) (.refl r)
      cases now.symm.trans now'
      rfl
  | typeArgument known part =>
    cases justified' with
    | typeArgument known' part' =>
      cases known.symm.trans known'
      cases part.symm.trans part'
      rfl
  | value known named part =>
    -- The key only has the text of field and position, so the two have to be read off it first.
    generalize same : ElementKey.value _ _ = key at justified'
    cases justified' with
    | value known' named' part' =>
      obtain ⟨rfl, names⟩ := ElementKey.value.inj same
      obtain ⟨rfl, rfl⟩ := valueName_inj names
      cases known.symm.trans known'
      cases named.symm.trans named'
      cases part.symm.trans part'
      rfl
    | _ => cases same

theorem Justified.parent (justified : ix.Justified r key element) {p : ElementId}
    (parent : element.parent? = some p) : ∃ e, ix.get? p = some e := by
  cases justified with
  | classDef => cases parent
  | declaredMember home | inheritedMember _ home =>
    cases parent
    obtain ⟨e, stored, -⟩ := get?_of_find? home
    exact ⟨e, stored⟩
  | parameter known | annotationUse known | typeArgument known =>
    cases parent
    exact ⟨_, known⟩
  | declaredType settled =>
    cases parent
    have now := settled ix r (.refl ix) (.refl r)
    cases stored : ix.get? p with
    | none =>
      rw [SignatureResolver.declaredType, stored] at now
      cases now
    | some e => exact ⟨e, rfl⟩
  | value known =>
    cases parent
    cases stored : ix.get? p with
    | none =>
      rw [annotationAt?, stored] at known
      cases known
    | some e => exact ⟨e, rfl⟩

/-! ## Coherent indexes -/

def entries (ix : ElementIndex) : List (ElementKey × Element) := ix.discovered ++ ix.synthetic

theorem exists_get?_iff (ix : ElementIndex) (id : ElementId) :
    (∃ element, ix.get? id = some element) ↔
      1 ≤ id.val ∧ id.val ≤ ix.discovered.length ∨ -(ix.synthetic.length : Int) < id.val ∧ id.val ≤ 0 := by
  rw [← Option.isSome_iff_exists]
  unfold get?
  split
  · rw [Option.isSome_map, isSome_getElem?]
    omega
  · rw [Option.isSome_map, isSome_getElem?]
    omega

/-- Every key has one element, the one that it should have. It is counted with those of given or of made-up
    classes as it should be, and after its parent if the two are counted together. -/
structure Coherent (ix : ElementIndex) (r : SignatureResolver) : Prop where
  once : (ix.entries.map (·.1)).Nodup
  justified : ∀ entry ∈ ix.entries, ix.Justified r entry.1 entry.2
  discovered : ∀ entry ∈ ix.discovered, ix.derivesSynthetic entry.2 = false
  synthetic : ∀ entry ∈ ix.synthetic, ix.derivesSynthetic entry.2 = true
  earlier : ∀ {id entry p}, ix.row? id = some entry → entry.2.parent? = some p →
    (0 < id.val → p.val < id.val) ∧ (id.val ≤ 0 → id.val < p.val)

theorem derivesSynthetic_congr {a b : ElementIndex} (same : b.given = a.given) (element : Element) :
    b.derivesSynthetic element = a.derivesSynthetic element := by
  cases element <;> simp [derivesSynthetic, same]

theorem not_mem_keys (absent : ix.find? key = none) : key ∉ ix.entries.map (·.1) := by
  obtain ⟨discovered, synthetic⟩ := find?_eq_none.mp absent
  rw [List.findIdx?_eq_none_iff] at discovered synthetic
  intro member
  obtain ⟨entry, inside, rfl⟩ := List.mem_map.mp member
  rcases List.mem_append.mp inside with first | second
  · simpa using discovered entry first
  · simpa using synthetic entry second

theorem entries_intern (element : Element) (absent : ix.find? key = none) :
    (ix.intern key element).2.entries.Perm ((key, element) :: ix.entries) := by
  unfold intern entries
  simp only [absent]
  split
  · rw [← List.append_assoc]
    exact List.perm_append_singleton _ _
  · rw [List.append_assoc]
    exact List.perm_middle

theorem row?_intern (absent : ix.find? key = none) {entry : ElementKey × Element}
    (stored : (ix.intern key element).2.row? id = some entry) :
    ix.row? id = some entry ∨
      entry = (key, element) ∧ (id.val = ix.discovered.length + 1 ∨ id.val = -(ix.synthetic.length : Int)) := by
  have last {xs : List (ElementKey × Element)} {i : Nat} (here : (xs ++ [(key, element)])[i]? = some entry) :
      xs[i]? = some entry ∨ entry = (key, element) ∧ i = xs.length := by
    rw [List.getElem?_append] at here
    split at here
    · exact .inl here
    · obtain ⟨bound, same⟩ := List.getElem?_eq_some_iff.mp here
      rw [List.length_singleton] at bound
      refine .inr ⟨?_, by omega⟩
      rw [← same, List.getElem_singleton]
  unfold intern row? at stored
  unfold row?
  simp only [absent] at stored
  split at stored
  · next positive =>
      rw [if_pos positive]
      split at stored
      · exact .inl stored
      · rcases last stored with old | ⟨new, number⟩
        · exact .inl old
        · exact .inr ⟨new, by omega⟩
  · next positive =>
      rw [if_neg positive]
      split at stored
      · rcases last stored with old | ⟨new, number⟩
        · exact .inl old
        · exact .inr ⟨new, by omega⟩
      · exact .inl stored

namespace Coherent

variable {ix ix' : ElementIndex} {r r' : SignatureResolver} {key : ElementKey}

theorem empty (classes : List ClassDeclaration) :
    ElementIndex.Coherent { classes := classes, given := classes.length } {} := by
  refine ⟨.nil, ?_, ?_, ?_, ?_⟩ <;> simp [entries, row?]

theorem later (h : ix.Coherent r) (grows : ix.Grows ix') (discovered : ix'.discovered = ix.discovered)
    (synthetic : ix'.synthetic = ix.synthetic) (extension : r.Extends r') : ix'.Coherent r' := by
  have same : ix'.entries = ix.entries := by simp [entries, discovered, synthetic]
  refine ⟨?_, ?_, ?_, ?_, ?_⟩
  · rw [same]
    exact h.once
  · intro entry member
    rw [same] at member
    exact (h.justified entry member).later grows extension
  · intro entry member
    rw [discovered] at member
    rw [derivesSynthetic_congr grows.given]
    exact h.discovered entry member
  · intro entry member
    rw [synthetic] at member
    rw [derivesSynthetic_congr grows.given]
    exact h.synthetic entry member
  · intro id entry p stored parent
    rw [row?, discovered, synthetic] at stored
    exact h.earlier stored parent

theorem intern (h : ix.Coherent r) {element : Element} (justified : ix.Justified r key element) :
    (ix.intern key element).2.Coherent r := by
  cases known : ix.find? key with
  | some id =>
    rw [ElementIndex.intern, known]
    exact h
  | none =>
    -- What was there stays justified, since the index only grows by the new entry.
    have grows := intern_grows key element ix
    have added := entries_intern element known
    have sorts := derivesSynthetic_congr grows.given
    refine ⟨?_, ?_, ?_, ?_, ?_⟩
    · rw [(added.map _).nodup_iff]
      exact List.nodup_cons.mpr ⟨not_mem_keys known, h.once⟩
    · intro entry member
      rcases List.mem_cons.mp (added.mem_iff.mp member) with rfl | old
      · exact justified.later grows (.refl r)
      · exact (h.justified entry old).later grows (.refl r)
    · intro entry member
      rw [sorts]
      unfold ElementIndex.intern at member
      simp only [known] at member
      split at member
      · exact h.discovered entry member
      · next given =>
          rcases List.mem_append.mp member with old | new
          · exact h.discovered entry old
          · rw [List.mem_singleton.mp new]
            simpa using given
    · intro entry member
      rw [sorts]
      unfold ElementIndex.intern at member
      simp only [known] at member
      split at member
      · next madeUp =>
          rcases List.mem_append.mp member with old | new
          · exact h.synthetic entry old
          · rw [List.mem_singleton.mp new]
            exact madeUp
      · exact h.synthetic entry member
    · intro id entry p stored parent
      rcases row?_intern known stored with old | ⟨rfl, number⟩
      · exact h.earlier old parent
      · have bounds := (ix.exists_get?_iff p).mp (justified.parent parent)
        omega

theorem stored (h : ix.Coherent r) {id : ElementId} (found : ix.find? key = some id) :
    ∃ element, ix.get? id = some element ∧ ix.Justified r key element := by
  obtain ⟨element, stored, entry⟩ := get?_of_find? found
  exact ⟨element, stored, h.justified _ (List.mem_append.mpr entry)⟩

theorem admits (h : ix.Coherent r) {element : Element} (justified : ix.Justified r key element) :
    ix.admits key element = true := by
  unfold ElementIndex.admits
  rw [Bool.and_eq_true, Option.all_eq_true, Option.all_eq_true]
  refine ⟨fun p parent => ?_, fun id found => ?_⟩
  · obtain ⟨e, stored⟩ := justified.parent parent
    rw [stored]
    rfl
  · obtain ⟨element', stored, justified'⟩ := h.stored found
    rw [stored, justified.unique justified']
    simp

end Coherent

private theorem findIdx?_entry_of_nodup {entries : List (ElementKey × Element)} {i : Nat} {key : ElementKey}
    {element : Element} (once : (entries.map (·.1)).Nodup) (entry : entries[i]? = some (key, element)) :
    entries.findIdx? (·.1 == key) = some i := by
  obtain ⟨bound, here⟩ := List.getElem?_eq_some_iff.mp entry
  refine List.findIdx?_eq_some_iff_getElem.mpr ⟨bound, by simp [here], fun j before => ?_⟩
  intro repeated
  have first : (entries.map (·.1))[j]? = some key := by
    rw [List.getElem?_map, List.getElem?_eq_getElem (by omega), Option.map_some, eq_of_beq repeated]
  have second : (entries.map (·.1))[i]? = some key := by
    rw [List.getElem?_map, entry, Option.map_some]
  have bound' : j < (entries.map (·.1)).length := by
    rw [List.length_map]
    omega
  have same := (List.getElem?_inj bound' once).mp (first.trans second.symm)
  omega

theorem Coherent.keyed (h : ix.Coherent r) (stored : ix.get? id = some element) :
    ∃ key, ix.find? key = some id ∧ ix.Justified r key element := by
  rw [get?_eq_row?] at stored
  obtain ⟨⟨key, element'⟩, entry, rfl⟩ := Option.map_eq_some_iff.mp stored
  refine ⟨key, ?_, h.justified _ (List.mem_append.mpr (mem_of_row? entry))⟩
  obtain ⟨onceDiscovered, onceSynthetic, apart⟩ := List.nodup_append.mp (List.map_append ▸ h.once)
  unfold row? at entry
  split at entry
  · have back : (((id.val - 1).toNat : Nat) : Int) + 1 = id.val := by omega
    refine find?_eq_some.mpr (.inl ⟨_, findIdx?_entry_of_nodup onceDiscovered entry, ?_⟩)
    rw [back]
  · have back : -((id.val.natAbs : Nat) : Int) = id.val := by omega
    refine find?_eq_some.mpr (.inr ⟨?_, _, findIdx?_entry_of_nodup onceSynthetic entry, ?_⟩)
    · rw [List.findIdx?_eq_none_iff]
      intro other member
      have different := apart _ (List.mem_map_of_mem member) _
        (List.mem_map_of_mem (List.mem_of_getElem? entry))
      simpa using different
    · rw [back]

theorem internAll_grows (entries : List (ElementKey × Element)) (ix : ElementIndex) :
    ix.Grows (ix.internAll entries).2 := by
  induction entries generalizing ix with
  | nil => exact .refl ix
  | cons entry rest ih => exact (intern_grows entry.1 entry.2 ix).trans (ih _)

theorem internAll_find? {entries : List (ElementKey × Element)} {j : Nat}
    (given : (ix.internAll entries).1[j]? = some id) :
    ∃ entry, entries[j]? = some entry ∧ (ix.internAll entries).2.find? entry.1 = some id := by
  induction entries generalizing ix j with
  | nil => cases given
  | cons entry rest ih =>
    cases j with
    | zero =>
      cases given
      exact ⟨entry, rfl, (internAll_grows rest _).keys (find?_intern entry.1 entry.2 ix)⟩
    | succ j => exact ih given

theorem Coherent.class_lt (h : ix.Coherent r) {c : Nat} (found : ix.find? (.classDef c) = some id) :
    c < ix.classes.length := by
  obtain ⟨element, -, justified⟩ := h.stored found
  cases justified with
  | classDef there => exact there

theorem Coherent.owned (h : ix.Coherent r) : ix.Owned := by
  intro id kind declaring position owner origin stored
  obtain ⟨key, -, justified⟩ := h.keyed stored
  have owner : ∃ c, ix.find? (.classDef c) = some owner := by
    cases justified with
    | declaredMember home => exact ⟨_, home⟩
    | inheritedMember _ home => exact ⟨_, home⟩
  obtain ⟨c, home⟩ := owner
  obtain ⟨element, stored, justified⟩ := h.stored home
  cases justified
  exact ⟨c, by rw [classIndex?, stored]⟩

theorem Coherent.classIndex?_lt (h : ix.Coherent r) {c : Nat} (known : ix.classIndex? id = some c) :
    c < ix.classes.length := by
  have class_lt {id : ElementId} (stored : ix.get? id = some (.classDef c)) : c < ix.classes.length := by
    obtain ⟨key, -, justified⟩ := h.keyed stored
    cases justified with
    | classDef there => exact there
  unfold classIndex? at known
  split at known
  · next stored =>
      cases known
      exact class_lt stored
  · unfold ownClass? at known
    split at known
    · next stored =>
        cases known
        exact class_lt stored
    · cases known
  · cases known

end ElementIndex

/-! ## The guard has nothing to do -/

/-- What was tried behind the guard went as it goes without one and left a coherent index. -/
structure Accepted {β : Type} (r : SignatureResolver) (ix : ElementIndex) (index : β → ElementIndex)
    (attempt : Option β) (outcome : β) : Prop where
  passes : attempt = some outcome
  coherent : (index outcome).Coherent r
  grows : ix.Grows (index outcome)

namespace Accepted

open ElementIndex (Coherent Justified)

variable {α β : Type} {r : SignatureResolver} {ix : ElementIndex} {index : α → ElementIndex} {c : Nat}

theorem nothing (h : ix.Coherent r) (b : β) (index : β → ElementIndex) (same : index b = ix) :
    Accepted r ix index (some b) b :=
  ⟨rfl, same ▸ h, same ▸ .refl ix⟩

theorem bind {index' : β → ElementIndex} {attempt : Option α} {outcome : α} {next : α → Option β} {outcome' : β}
    (first : Accepted r ix index attempt outcome)
    (second : Accepted r (index outcome) index' (next outcome) outcome') :
    Accepted r ix index' (attempt >>= next) outcome' := by
  refine ⟨?_, second.coherent, first.grows.trans second.grows⟩
  rw [first.passes]
  exact second.passes

theorem still {index : β → ElementIndex} {attempt : Option β} {outcome : β}
    (first : Accepted r ix index attempt outcome) (there : c < ix.classes.length) :
    c < (index outcome).classes.length :=
  Nat.lt_of_lt_of_le there first.grows.classes.length_le

theorem map {attempt : Option α} {outcome : α} (first : Accepted r ix index attempt outcome) (f : α → β)
    (index' : β → ElementIndex) (same : index' (f outcome) = index outcome) :
    Accepted r ix index' (attempt >>= fun a => some (f a)) (f outcome) :=
  first.bind (.nothing first.coherent _ _ same)

variable (h : ix.Coherent r)
include h

theorem intern {key : ElementKey} {element : Element} (justified : ix.Justified r key element) :
    Accepted r ix Prod.snd (Guarded.intern key element ix) (ix.intern key element) :=
  ⟨if_pos (h.admits justified), h.intern justified, ElementIndex.intern_grows key element ix⟩

theorem internAll {entries : List (ElementKey × Element)}
    (justified : ∀ entry ∈ entries, ix.Justified r entry.1 entry.2) :
    Accepted r ix Prod.snd (Guarded.internAll entries ix) (ix.internAll entries) := by
  induction entries generalizing ix with
  | nil => exact .nothing h _ _ rfl
  | cons entry rest ih =>
    have first := Accepted.intern h (justified entry List.mem_cons_self)
    have others := ih first.coherent fun later member =>
      (justified later (List.mem_cons_of_mem _ member)).later first.grows (.refl r)
    exact first.bind (others.map (fun out => (_ :: out.1, out.2)) _ rfl)

theorem annotations (owner : ElementId) :
    Accepted r ix Prod.snd (Guarded.annotations owner ix) (ix.annotations owner) := by
  refine .internAll h fun entry member => ?_
  obtain ⟨i, inside, rfl⟩ := List.mem_map.mp member
  cases stored : ix.get? owner with
  | none =>
    rw [ElementIndex.annotationEntries, stored] at inside
    cases inside
  | some element => exact .annotationUse stored

theorem parameters (method : ElementId) :
    Accepted r ix Prod.snd (Guarded.parameters method ix) (ix.parameters method) := by
  refine .internAll h fun entry member => ?_
  obtain ⟨i, inside, rfl⟩ := List.mem_map.mp member
  cases stored : ix.get? method with
  | none =>
    rw [ElementIndex.parameterCount, ElementIndex.methodDeclaration?, stored] at inside
    cases inside
  | some element => exact .parameter stored

theorem declaredMember (kind : MemberKind) {declaring : Nat}
    (there : declaring < ix.classes.length) (position : Nat) :
    Accepted r ix Prod.snd (Guarded.declaredMember kind declaring position ix)
      (ix.declaredMember kind declaring position) := by
  have owner := Accepted.intern h (.classDef there)
  exact owner.bind (.intern owner.coherent (.declaredMember (ElementIndex.find?_intern _ _ ix)))

theorem member (kind : MemberKind) {declaring seenFrom : Nat}
    (there : declaring < ix.classes.length) (seen : seenFrom < ix.classes.length) (position : Nat) :
    Accepted r ix Prod.snd (Guarded.member kind declaring position seenFrom ix)
      (ix.member kind declaring position seenFrom) := by
  unfold Guarded.member ElementIndex.member
  by_cases same : seenFrom = declaring
  · simp only [if_pos same]
    exact .declaredMember h kind there position
  · simp only [if_neg same]
    have owner := Accepted.intern h (.classDef seen)
    have origin := Accepted.declaredMember owner.coherent kind (owner.still there) position
    refine owner.bind (origin.bind (.intern origin.coherent (.inheritedMember same ?_ ?_)))
    · exact origin.grows.keys (ElementIndex.find?_intern _ _ ix)
    · exact ElementIndex.find?_intern _ _ _

theorem members (kind : MemberKind) {seenFrom : Nat} (seen : seenFrom < ix.classes.length)
    {places : List (Nat × Nat)} (there : ∀ place ∈ places, place.1 < ix.classes.length) :
    Accepted r ix Prod.snd (Guarded.members kind seenFrom places ix) (ix.members kind seenFrom places) := by
  induction places generalizing ix with
  | nil => exact .nothing h _ _ rfl
  | cons place rest ih =>
    have first := Accepted.member h kind (there place List.mem_cons_self) seen place.2
    have others := ih first.coherent (first.still seen) fun later member =>
      first.still (there later (List.mem_cons_of_mem _ member))
    exact first.bind (others.map (fun out => (_ :: out.1, out.2)) _ rfl)

theorem membersOf (kind : MemberKind) (id : ElementId) (inherited : Bool) :
    Accepted r ix Prod.snd (Guarded.membersOf kind id inherited ix) (ix.membersOf kind id inherited) := by
  unfold Guarded.membersOf ElementIndex.membersOf
  cases known : ix.classIndex? id with
  | none => exact .nothing h _ _ rfl
  | some c =>
    have seen := h.classIndex?_lt known
    exact .members h kind seen fun place member => ElementIndex.memberPlaces_lt seen member

theorem setChildren (id : ElementId) (ids : List ElementId) :
    Accepted r ix (fun ix => ix) (some (ix.setChildren id ids)) (ix.setChildren id ids) := by
  have grows := (ElementIndex.setChildren_fills id ids ix).toGrows
  exact ⟨rfl, h.later grows rfl rfl (.refl r), grows⟩

theorem annotateAll (ids : List ElementId) :
    Accepted r ix (fun ix => ix) (Guarded.annotateAll ids ix) (ix.annotateAll ids) := by
  induction ids generalizing ix with
  | nil => exact .nothing h _ _ rfl
  | cons id rest ih =>
    have marks := Accepted.annotations h id
    have children := Accepted.setChildren marks.coherent id (ix.annotations id).1
    have others := ih children.coherent
    exact marks.bind ⟨others.passes, others.coherent, children.grows.trans others.grows⟩

theorem discoverField (there : c < ix.classes.length) (position : Nat) :
    Accepted r ix Prod.snd (Guarded.discoverField c position ix) (ix.discoverField c position) := by
  have field := Accepted.declaredMember h .field there position
  exact field.bind ((Accepted.annotateAll field.coherent [_]).map (fun ix => (_, ix)) _ rfl)

theorem discoverMethod (there : c < ix.classes.length) (position : Nat) :
    Accepted r ix Prod.snd (Guarded.discoverMethod c position ix) (ix.discoverMethod c position) := by
  have method := Accepted.declaredMember h .method there position
  have marks := Accepted.annotations method.coherent (ix.declaredMember .method c position).1
  have params := Accepted.parameters marks.coherent (ix.declaredMember .method c position).1
  have annotated := fun ids => Accepted.annotateAll params.coherent ids
  have children := fun ids all => Accepted.setChildren (annotated ids).coherent
    (ix.declaredMember .method c position).1 all
  exact method.bind (marks.bind (params.bind ((annotated _).bind
    ⟨rfl, (children _ _).coherent, (children _ _).grows⟩)))

theorem forPositions {guarded : Nat → ElementIndex → Option (ElementId × ElementIndex)}
    {step : Nat → ElementIndex → ElementId × ElementIndex}
    (each : ∀ i ix, ix.Coherent r → c < ix.classes.length → Accepted r ix Prod.snd (guarded i ix) (step i ix))
    (there : c < ix.classes.length) (positions : List Nat) :
    Accepted r ix Prod.snd (Guarded.forPositions guarded positions ix)
      (ElementIndex.forPositions step positions ix) := by
  induction positions generalizing ix with
  | nil => exact .nothing h _ _ rfl
  | cons i rest ih =>
    have first := each i ix h there
    exact first.bind ((ih first.coherent (first.still there)).map (fun out => (_ :: out.1, out.2)) _ rfl)

theorem discoverClass (c : Nat) :
    Accepted r ix (fun ix => ix) (Guarded.discoverClass c ix) (ix.discoverClass c) := by
  unfold Guarded.discoverClass ElementIndex.discoverClass
  cases declared : ix.classes[c]? with
  | none => exact .nothing h _ _ rfl
  | some d =>
    have there := (List.getElem?_eq_some_iff.mp declared).1
    have cls := Accepted.intern h (.classDef there)
    have marks := Accepted.annotations cls.coherent (ix.intern (.classDef c) (.classDef c)).1
    have fields := Accepted.forPositions marks.coherent (fun i _ h there => Accepted.discoverField h there i)
      (marks.still (cls.still there)) (List.range d.fields.length)
    have methods := Accepted.forPositions fields.coherent (fun i _ h there => Accepted.discoverMethod h there i)
      (fields.still (marks.still (cls.still there))) (List.range d.methods.length)
    exact cls.bind (marks.bind (fields.bind (methods.bind (.setChildren methods.coherent _ _))))

theorem discoverAll (positions : List Nat) :
    Accepted r ix (fun ix => ix) (Guarded.discoverAll positions ix)
      (positions.foldl (fun ix c => ix.discoverClass c) ix) := by
  induction positions generalizing ix with
  | nil => exact .nothing h _ _ rfl
  | cons c rest ih =>
    have first := Accepted.discoverClass h c
    exact first.bind (ih first.coherent)

theorem synthesizeClass (t : TypeName) (methods : List String) :
    Accepted r ix Prod.snd (Guarded.synthesizeClass t methods ix) (ix.synthesizeClass t methods) := by
  unfold Guarded.synthesizeClass ElementIndex.synthesizeClass
  cases ix.classByName? t with
  | some id => exact .nothing h _ _ rfl
  | none =>
    -- The class comes before its elements: the index grows once without any, then by discovery.
    have grows : ix.Grows { ix with classes := ix.classes ++ [ElementIndex.stub t methods] } :=
      ⟨rfl, List.prefix_append _ _, List.prefix_rfl, List.prefix_rfl, List.prefix_rfl, fun h => h⟩
    have discovered := Accepted.discoverClass (h.later grows rfl rfl (.refl r)) ix.classes.length
    have last : ix.classes.length < (ix.classes ++ [ElementIndex.stub t methods]).length := by simp
    have whole := discovered.bind (.intern discovered.coherent (.classDef (discovered.still last)))
    exact ⟨whole.passes, whole.coherent, grows.trans whole.grows⟩

theorem internArguments {owner : ElementId} {i : Nat} {args : List TypeSignature}
    (justified : ∀ {j type}, args[j]? = some type →
      ix.Justified r (.signature owner (.argument (i + j))) (.signature owner type)) :
    Accepted r ix Prod.snd (Guarded.internArguments owner i args ix) (Step.internArguments owner i args ix) := by
  induction args generalizing ix i with
  | nil => exact .nothing h _ _ rfl
  | cons type rest ih =>
    have first := Accepted.intern h (justified (j := 0) rfl)
    have others := ih (i := i + 1) first.coherent (Justified.rest (fun n => .signature owner (.argument n))
      (.signature owner) first.grows justified)
    exact first.bind (others.map (fun out => (_ :: out.1, out.2)) _ rfl)

theorem argumentsOf (id : ElementId) :
    Accepted r ix Prod.snd (Guarded.argumentsOf id ix) (Step.argumentsOf id ix) := by
  unfold Guarded.argumentsOf Step.argumentsOf
  cases stored : ix.get? id with
  | none => exact .nothing h _ _ rfl
  | some element =>
    cases element with
    | signature outer whole =>
      refine .internArguments h fun {j type} part => ?_
      rw [Nat.zero_add]
      exact .typeArgument stored part
    | classDef | member | parameter | annotationUse | value => exact .nothing h _ _ rfl

theorem internLiterals {owner : ElementId} {field : String} {i : Nat}
    {literals : List Literal} (justified : ∀ {j literal}, literals[j]? = some literal →
      ix.Justified r (.value owner (ElementIndex.valueName field (i + j))) (.value owner literal)) :
    Accepted r ix (fun ix => ix) (Guarded.internLiterals owner field i literals ix)
      (PropertyStrategy.internLiterals owner field i literals ix) := by
  induction literals generalizing ix i with
  | nil => exact .nothing h _ _ rfl
  | cons literal rest ih =>
    have first := Accepted.intern h (justified (j := 0) rfl)
    have others := ih (i := i + 1) first.coherent
      (Justified.rest (fun n => .value owner (ElementIndex.valueName field n)) (.value owner) first.grows justified)
    exact first.bind others

theorem annotationAt?_annotations {id owner : ElementId} {position : Nat}
    {entry : AnnotationEntry} (present : (ix.annotationEntries id)[position]? = some entry)
    (given : (ix.annotations id).1[position]? = some owner) :
    (ix.annotations id).2.annotationAt? owner = some entry := by
  have marks := Accepted.annotations h id
  obtain ⟨offered, place, found⟩ := ElementIndex.internAll_find? given
  rw [List.getElem?_map] at place
  obtain ⟨i, same, rfl⟩ := Option.map_eq_some_iff.mp place
  obtain ⟨bound, same⟩ := List.getElem?_eq_some_iff.mp same
  rw [List.getElem_range] at same
  obtain ⟨element, stored, justified⟩ := marks.coherent.stored found
  cases justified
  rw [ElementIndex.annotationAt?, stored]
  exact same ▸ marks.grows.annotation? present

theorem annotationLiterals (id : ElementId) (type : TypeName) (field : String) :
    Accepted r ix Prod.snd (Guarded.annotationLiterals id type field ix)
      (PropertyStrategy.annotationLiterals id type field ix) := by
  unfold Guarded.annotationLiterals PropertyStrategy.annotationLiterals
  simp only
  cases found : (ix.annotationEntries id).findIdx? (·.typeName? == some type) with
  | none => exact .nothing h _ _ rfl
  | some position =>
    have marks := Accepted.annotations h id
    refine marks.bind ?_
    simp only
    cases given : (ix.annotations id).1[position]? with
    | none => exact .nothing marks.coherent _ _ rfl
    | some owner =>
      obtain ⟨entry, present⟩ : ∃ entry, (ix.annotationEntries id)[position]? = some entry :=
        ⟨_, List.getElem?_eq_getElem (List.findIdx?_eq_some_iff_getElem.mp found).1⟩
      have stands := annotationAt?_annotations h present given
      refine (Accepted.internLiterals marks.coherent fun {j literal} part => ?_).map (fun ix => (_, ix)) _ rfl
      rw [present, Option.bind_some] at part
      rw [Nat.zero_add]
      cases named : entry.value? field with
      | none =>
        rw [named] at part
        cases part
      | some value =>
        rw [named] at part
        exact .value stands named part

omit h in
theorem ofClasses (classes : List ClassDeclaration) :
    Accepted {} { classes := classes, given := classes.length } (fun ix => ix) (Guarded.ofClasses classes)
      (.ofClasses classes) :=
  .discoverAll (.empty classes) (List.range classes.length)

end Accepted

end ClassAtlas
