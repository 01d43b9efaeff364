import ClassAtlas.Proofs.EntityIntegrity
import ClassAtlas.Proofs.Relations

/-! # Scopes hold what their kinds say

A scope that says it holds methods holds methods, each once and all of them elements of the index. The
actions only check what a scope says, so this has to hold of every scope that any of them gets or gives.
It rests on the keys: an action finds its elements by keys, and what is interned under a key has the
key's kind. Entities are the other way into a scope; what a type's entities stand for has the kind that
the type was first given to.
-/

namespace ClassAtlas

/-! ## Elements found by their keys -/

namespace ElementIndex

variable {a b ix : ElementIndex} {kind : ElementKind} {id : ElementId}

theorem Grows.kind? (h : Grows a b) (known : a.kind? id = some kind) : b.kind? id = some kind := by
  obtain ⟨element, found, rfl⟩ := Option.map_eq_some_iff.mp known
  exact Option.map_eq_some_iff.mpr ⟨element, h.get? found, rfl⟩

/-- An element is interned under a key for elements of this kind. -/
def Finds (ix : ElementIndex) (kind : ElementKind) (id : ElementId) : Prop :=
  ∃ key, key.kind = kind ∧ ix.find? key = some id

theorem Finds.grows (found : a.Finds kind id) (h : Grows a b) : b.Finds kind id := by
  obtain ⟨key, same, found⟩ := found
  exact ⟨key, same, h.keys found⟩

theorem Finds.kind? (found : ix.Finds kind id) (keyed : ix.Keyed) : ix.kind? id = some kind := by
  obtain ⟨key, rfl, found⟩ := found
  obtain ⟨element, stored, entry⟩ := get?_of_find? found
  rw [ElementIndex.kind?, stored]
  exact congrArg some (keyed _ entry).kind

/-- What a function of the index gives is found in the index that it leaves. -/
def Gives (kind : ElementKind) (f : ElementIndex → List ElementId × ElementIndex) : Prop :=
  ∀ ix, ∀ id ∈ (f ix).1, (f ix).2.Finds kind id

theorem forall_finds_cons {ids : List ElementId} (first : a.Finds kind id) (h : Grows a b)
    (rest : ∀ id ∈ ids, b.Finds kind id) : ∀ i ∈ id :: ids, b.Finds kind i :=
  List.forall_mem_cons.mpr ⟨first.grows h, rest⟩

theorem intern_finds (key : ElementKey) (element : Element) (ix : ElementIndex) :
    (ix.intern key element).2.Finds key.kind (ix.intern key element).1 :=
  ⟨key, rfl, find?_intern key element ix⟩

theorem internAll_gives {entries : List (ElementKey × Element)}
    (described : ∀ entry ∈ entries, entry.1.kind = kind ∧ entry.1.Describes entry.2) :
    Gives kind (internAll entries) := by
  induction entries with
  | nil =>
    intro ix id member
    cases member
  | cons entry rest ih =>
    intro ix
    obtain ⟨same, -⟩ := described entry (by simp)
    have later : ∀ entry ∈ rest, entry.1.kind = kind ∧ entry.1.Describes entry.2 :=
      fun entry member => described entry (by simp [member])
    have grows := (internAll_fills (fun entry member => (later entry member).2)
      (ix.intern entry.1 entry.2).2).toGrows
    exact forall_finds_cons (same ▸ intern_finds entry.1 entry.2 ix) grows (ih later _)

theorem annotations_gives (owner : ElementId) : Gives .annotationUse (annotations owner) := by
  intro ix
  refine internAll_gives (fun entry member => ?_) ix
  obtain ⟨i, -, rfl⟩ := List.mem_map.mp member
  exact ⟨rfl, .annotationUse⟩

theorem parameters_gives (method : ElementId) : Gives .parameter (parameters method) := by
  intro ix
  refine internAll_gives (fun entry member => ?_) ix
  obtain ⟨i, -, rfl⟩ := List.mem_map.mp member
  exact ⟨rfl, .parameter⟩

theorem member_finds (kind : MemberKind) (declaring position seenFrom : Nat) (ix : ElementIndex) :
    (ix.member kind declaring position seenFrom).2.Finds kind.elementKind
      (ix.member kind declaring position seenFrom).1 := by
  unfold member
  split
  · exact intern_finds (.member kind declaring position declaring) _ _
  · exact intern_finds (.member kind declaring position seenFrom) _ _

theorem members_gives (kind : MemberKind) (seenFrom : Nat) (places : List (Nat × Nat)) :
    Gives kind.elementKind (members kind seenFrom places) := by
  induction places with
  | nil =>
    intro ix id member
    cases member
  | cons place rest ih =>
    intro ix
    exact forall_finds_cons (member_finds kind place.1 place.2 seenFrom ix)
      (members_fills kind seenFrom rest _).toGrows (ih _)

theorem membersOf_gives (kind : MemberKind) (id : ElementId) (inherited : Bool) :
    Gives kind.elementKind (membersOf kind id inherited) := by
  intro ix
  unfold membersOf
  split
  · intro id member
    cases member
  · exact members_gives kind _ _ ix

theorem classIds_finds (ix : ElementIndex) : ∀ id ∈ ix.classIds, ix.Finds .classDef id := by
  intro id member
  obtain ⟨c, -, found⟩ := List.mem_filterMap.mp member
  exact ⟨.classDef c, rfl, found⟩

theorem classByName?_finds {t : TypeName} (named : ix.classByName? t = some id) :
    ix.Finds .classDef id := by
  obtain ⟨c, -, found⟩ := Option.bind_eq_some_iff.mp named
  exact ⟨.classDef c, rfl, found⟩

theorem synthesizeClass_finds (t : TypeName) (methods : List String) (ix : ElementIndex) :
    (ix.synthesizeClass t methods).2.Finds .classDef (ix.synthesizeClass t methods).1 := by
  unfold synthesizeClass
  split
  · next named => exact classByName?_finds named
  · exact intern_finds (.classDef ix.classes.length) _ _

end ElementIndex

namespace Step

open ElementIndex (Gives)

variable {kind : ElementKind} {f : ElementId → ElementIndex → List ElementId × ElementIndex}

theorem gather_forall {Q : ElementIndex → ElementId → Prop}
    (lasts : ∀ {ix ix' e}, ElementIndex.Grows ix ix' → Q ix e → Q ix' e)
    (fills : ∀ id ix, ElementIndex.Fills ix (f id ix).2) {ids : List ElementId}
    (gives : ∀ id ∈ ids, ∀ ix, ∀ e ∈ (f id ix).1, Q (f id ix).2 e) (ix : ElementIndex) :
    ∀ e ∈ (gather f ids ix).1, Q (gather f ids ix).2 e := by
  induction ids generalizing ix with
  | nil =>
    intro e member
    cases member
  | cons id rest ih =>
    obtain ⟨own, others⟩ := List.forall_mem_cons.mp gives
    intro e member
    rcases List.mem_append.mp member with first | later
    · exact lasts (gather_fills fills rest _).toGrows (own ix e first)
    · exact ih others _ e later

theorem gather_gives (gives : ∀ id, Gives kind (f id)) (fills : ∀ id ix, ElementIndex.Fills ix (f id ix).2)
    (ids : List ElementId) : Gives kind (gather f ids) :=
  gather_forall (Q := fun ix e => ix.Finds kind e) (fun grows found => found.grows grows) fills fun id _ => gives id

theorem annotationsOfType_gives (type : Option TypeName) (id : ElementId) :
    Gives .annotationUse (annotationsOfType type id) := by
  intro ix found member
  cases type with
  | none => exact ElementIndex.annotations_gives id ix found member
  | some t => exact ElementIndex.annotations_gives id ix found (List.mem_of_mem_filter member)

theorem internArguments_gives (owner : ElementId) (i : Nat) (args : List TypeSignature) :
    Gives .signature (internArguments owner i args) := by
  induction args generalizing i with
  | nil =>
    intro ix id member
    cases member
  | cons s rest ih =>
    intro ix
    exact ElementIndex.forall_finds_cons (ElementIndex.intern_finds (.signature owner (.argument i)) _ ix)
      (internArguments_fills owner (i + 1) rest _).toGrows (ih (i + 1) _)

theorem argumentsOf_gives (id : ElementId) : Gives .signature (argumentsOf id) := by
  intro ix
  unfold argumentsOf
  split
  · exact internArguments_gives id 0 _ ix
  · intro id member
    cases member

theorem classNamed_finds {create : Bool} {t : TypeName} {ix : ElementIndex} {id : ElementId}
    (named : (classNamed create t ix).1 = some id) : (classNamed create t ix).2.Finds .classDef id := by
  unfold classNamed at named ⊢
  cases known : ix.classByName? t with
  | some c =>
    rw [known] at named
    cases named
    exact ElementIndex.classByName?_finds known
  | none =>
    simp only [known] at named ⊢
    split at named
    · next made =>
        cases named
        rw [if_pos made]
        exact ElementIndex.synthesizeClass_finds t [] ix
    · cases named

theorem synthesizeAll_gives (targets : List SynthesisTarget) : Gives .classDef (synthesizeAll targets) := by
  induction targets with
  | nil =>
    intro ix id member
    cases member
  | cons target rest ih =>
    intro ix
    exact ElementIndex.forall_finds_cons (ElementIndex.synthesizeClass_finds target.type target.methods ix)
      (synthesizeAll_develops rest _).toGrows (ih _)

end Step

/-! ## Entities of one kind -/

/-- Every entity stands for an element of the index, of the kind that the entity's type is given to. -/
def EntityStore.KindedIn (ix : ElementIndex) (s : EntityStore) : Prop :=
  ∀ e ∈ s.entities, ∃ kind, ix.kind? e.element = some kind ∧ s.kindOf? e.type = some kind

namespace EntityStore.KindedIn

variable {ix ix' : ElementIndex} {s s' : EntityStore}

theorem empty (ix : ElementIndex) : KindedIn ix {} := by
  intro e member
  cases member

theorem grows (h : s.KindedIn ix) (grown : ix.Grows ix') : s.KindedIn ix' := by
  intro e member
  obtain ⟨kind, known, given⟩ := h e member
  exact ⟨kind, grown.kind? known, given⟩

theorem sameIdentities (h : s.KindedIn ix)
    (identities : s'.entities.map Entity.identity = s.entities.map Entity.identity)
    (kinds : s'.typeKinds = s.typeKinds) : s'.KindedIn ix := by
  intro e member
  have kept : e.identity ∈ s.entities.map Entity.identity := identities ▸ List.mem_map_of_mem member
  obtain ⟨e', member', same⟩ := List.mem_map.mp kept
  simp only [Entity.identity, Prod.mk.injEq] at same
  obtain ⟨-, type, element⟩ := same
  obtain ⟨kind, known, given⟩ := h e' member'
  refine ⟨kind, element ▸ known, ?_⟩
  rw [kindOf?, kinds, ← type]
  exact given

theorem relinked (h : s.KindedIn ix) (same : s.Relinked s') : s'.KindedIn ix :=
  h.sameIdentities (congrArg _ same.entities) same.typeKinds

theorem update (h : s.KindedIn ix) (id : EntityId) (label : Option String) (properties : Properties) :
    (s.update id label properties).2.KindedIn ix := by
  refine h.sameIdentities (update_identities s id label properties) ?_
  obtain ⟨same, -⟩ | extended := update_cases s id label properties
  · rw [same]
  · rw [extended, extend]

theorem register (h : s.KindedIn ix) {type : EntityType} {element : ElementId} {kind : ElementKind}
    {label : Option String} {properties : Properties} {id : EntityId}
    (known : ix.kind? element = some kind)
    (done : s.register type element kind label properties = .ok (id, s')) : s'.KindedIn ix := by
  obtain ⟨e, -, -, -, rfl⟩ | ⟨-, first, -, rfl⟩ := register_cases done
  · exact h.sameIdentities (extend_identities s e.id label properties) rfl
  · intro e member
    rw [kindOf?_create]
    rcases List.mem_append.mp member with old | last
    · obtain ⟨kind', known', given⟩ := h e old
      refine ⟨kind', known', ?_⟩
      split
      · next same => rw [first kind' (same ▸ given)]
      · exact given
    · obtain rfl := List.mem_singleton.mp last
      exact ⟨kind, known, if_pos rfl⟩

end EntityStore.KindedIn

/-- What scopes rely on. -/
structure Model.Sound (m : Model) : Prop where
  keyed : m.index.Keyed
  entities : m.entities.KindedIn m.index

theorem Model.ofClasses_sound (settings : Settings) (classes : List ClassDeclaration) :
    (Model.ofClasses settings classes).Sound :=
  ⟨ElementIndex.ofClasses_keyed classes, .empty _⟩

/-- The index grows, and what scopes rely on stays. -/
structure Model.GrowsSoundly (m m' : Model) : Prop where
  index : m.index.Grows m'.index
  sound : m.Sound → m'.Sound

namespace Model.GrowsSoundly

theorem change : Change Model.GrowsSoundly where
  refl _ := ⟨.refl _, id⟩
  trans h h' := ⟨h.index.trans h'.index, fun sound => h'.sound (h.sound sound)⟩

theorem selection : Step.Selection Model.GrowsSoundly where
  toChange := change
  index _ _ develops := ⟨develops.toGrows, fun sound =>
    ⟨develops.keyed sound.keyed, sound.entities.grows develops.toGrows⟩⟩
  caches _ _ _ := ⟨.refl _, fun sound => ⟨sound.keyed, sound.entities⟩⟩
  provenance _ _ := ⟨.refl _, fun sound => ⟨sound.keyed, sound.entities⟩⟩

theorem ofAdvances {m m' : Model} (advances : m.Advances m')
    (entities : m.Sound → m'.entities.KindedIn m.index) : m.GrowsSoundly m' :=
  ⟨advances.index.toGrows, fun sound =>
    ⟨advances.index.keyed sound.keyed, (entities sound).grows advances.index.toGrows⟩⟩

end Model.GrowsSoundly

namespace Step

open Model (GrowsSoundly)

theorem registerAs_growsSoundly (type : EntityType) (template : Option String)
    (specs : List PropertySpec) (id : ElementId) :
    Keeps GrowsSoundly (registerAs type template specs id) := by
  intro m
  refine .ofAdvances (registerAs_advances type template specs id m) fun sound => ?_
  obtain ⟨e, m', failed, same⟩ | ⟨kind, label, n, m', ran, known, done⟩ :=
    registerAs_cases type template specs id m
  · rw [failed, same]
    exact sound.entities
  · rw [ran]
    exact sound.entities.register known done

theorem updateFrom_growsSoundly (type : EntityType) (template : Option String)
    (specs : List PropertySpec) (id : ElementId) :
    Keeps GrowsSoundly (updateFrom type template specs id) := by
  intro m
  refine .ofAdvances (updateFrom_advances type template specs id m) fun sound => ?_
  obtain ⟨e, failed, -⟩ | ⟨target, label, m', ran, -, done⟩ := updateFrom_cases type template specs id m
  · rw [failed]
    exact sound.entities
  · rw [ran, done]
    exact sound.entities.update target.id label _

theorem associateAt_growsSoundly (parent : EntityType) (key : String) (child : EntityType)
    (id : ElementId) : Keeps GrowsSoundly (associateAt parent key child id) := by
  intro m
  exact .ofAdvances (associateAt_advances parent key child id m) fun sound =>
    sound.entities.relinked (associateAt_relinked parent key child id m)

theorem apply_growsSoundly (s : Step) (scope : Scope) : Keeps GrowsSoundly (s.apply scope) := by
  have change := GrowsSoundly.change
  cases s with
  | registerEntity type label properties =>
    exact .checked change (onEach_keeps change (registerAs_growsSoundly type label properties))
  | updateEntity type label properties =>
    exact .checked change (onEach_keeps change (updateFrom_growsSoundly type label properties))
  | associate parent key child =>
    exact .checked change (onEach_keeps change (associateAt_growsSoundly parent key child))
  | relate kind source target key backtrack =>
    refine .bind change (.update fun m => ⟨.refl _, fun sound => ⟨sound.keyed, ?_⟩⟩) fun _ =>
      .pure change _
    exact sound.entities.relinked (CallScanner.relate_relinked _ _ _ _ _ _ _ _)
  | _ => exact selecting_keeps GrowsSoundly.selection scope rfl

end Step

/-! ## Scopes -/

/-- An element of the index that may be in a scope of a kind: of that kind, if it is one of elements. -/
def ScopeKind.Fits (ix : ElementIndex) (id : ElementId) : ScopeKind → Prop
  | .elements kind => ix.kind? id = some kind
  | .template | .unresolved => (ix.kind? id).isSome

namespace ScopeKind.Fits

variable {ix ix' : ElementIndex} {id : ElementId} {kind : ScopeKind}

theorem isSome (fits : kind.Fits ix id) : (ix.kind? id).isSome := by
  cases kind with
  | elements kind => exact Option.isSome_iff_exists.mpr ⟨kind, fits⟩
  | template | unresolved => exact fits

theorem grows (fits : kind.Fits ix id) (h : ix.Grows ix') : kind.Fits ix' id := by
  obtain ⟨own, known⟩ := Option.isSome_iff_exists.mp fits.isSome
  have later := h.kind? known
  cases kind with
  | elements kind => exact h.kind? fits
  | template | unresolved => exact Option.isSome_iff_exists.mpr ⟨own, later⟩

end ScopeKind.Fits

/-- A scope holds elements of the index without repetition, each fitting the scope's kind. -/
structure Scope.WellKinded (ix : ElementIndex) (scope : Scope) : Prop where
  distinct : scope.ids.Nodup
  fits : ∀ id ∈ scope.ids, scope.kind.Fits ix id

namespace Scope

variable {ix ix' : ElementIndex}

theorem mem_ofIds {kind : ScopeKind} {ids : List ElementId} {id : ElementId} :
    id ∈ (ofIds kind ids).ids ↔ id ∈ ids := by
  simp [ofIds, Scope.ids, Search.mem_fresh]

namespace WellKinded

variable {ids : List ElementId}

theorem template (ix : ElementIndex) : WellKinded ix .template :=
  ⟨List.nodup_nil, by simp [Scope.ids]⟩

theorem grows {scope : Scope} (well : scope.WellKinded ix) (h : ix.Grows ix') : scope.WellKinded ix' :=
  ⟨well.distinct, fun id member => (well.fits id member).grows h⟩

theorem ofIds {kind : ScopeKind} (fits : ∀ id ∈ ids, kind.Fits ix id) : (Scope.ofIds kind ids).WellKinded ix :=
  ⟨Search.fresh_nodup [] ids, fun id member => fits id (mem_ofIds.mp member)⟩

theorem ofKind {kind : ElementKind} (finds : ∀ id ∈ ids, ix.Finds kind id) (keyed : ix.Keyed) :
    (Scope.ofKind kind ids).WellKinded ix :=
  .ofIds fun id member => (finds id member).kind? keyed

theorem part {scope : Scope} (well : scope.WellKinded ix) (part : ids ⊆ scope.ids) :
    (Scope.ofIds scope.kind ids).WellKinded ix :=
  .ofIds fun id member => well.fits id (part member)

theorem union {left right : Scope} (hl : left.WellKinded ix) (hr : right.WellKinded ix) :
    (left.union right).WellKinded ix := by
  cases left with
  | template => exact hr
  | elements a ls =>
    cases right with
    | template => exact hl
    | elements b rs =>
      refine .ofIds fun id member => ?_
      have inLeft : id ∈ ls → a.Fits ix id := hl.fits id
      have inRight : id ∈ rs → b.Fits ix id := hr.fits id
      rw [List.mem_append] at member
      unfold unionKind
      split
      · next empty =>
          obtain rfl := List.isEmpty_iff.mp empty
          exact inRight (by simpa using member)
      · split
        · next empty =>
            obtain rfl := List.isEmpty_iff.mp empty
            exact inLeft (by simpa using member)
        · split
          · next same =>
              subst same
              exact member.elim inLeft inRight
          · exact member.elim (fun m => (inLeft m).isSome) fun m => (inRight m).isSome

end WellKinded

theorem union_eq_template {left right : Scope} :
    left.union right = .template ↔ left = .template ∧ right = .template := by
  cases left <;> cases right <;> simp [union, ofIds]

end Scope

/-- A scope that comes of another: elements do not give the template back. -/
structure Scope.ComesOf (before : Scope) (ix : ElementIndex) (after : Scope) : Prop
    extends WellKinded ix after where
  template : after = .template → before = .template

/-! ## Steps -/

theorem Predicate.split_subset (ix : ElementIndex) (entities : EntityStore) (p : Predicate)
    (ids : List ElementId) :
    Yields (fun _ => True) (p.split ix entities ids) fun parts _ => parts.1 ⊆ ids ∧ parts.2 ⊆ ids := by
  induction ids with
  | nil => exact .pure fun _ _ => ⟨List.Subset.refl _, List.Subset.refl _⟩
  | cons id rest ih =>
    refine .bind .any fun passes => .bind ih fun parts => ?_
    refine .pure fun _ within => ?_
    obtain ⟨yes, no⟩ := parts
    obtain ⟨hy, hn⟩ := within
    cases passes with
    | true => exact ⟨List.cons_subset_cons id hy, List.subset_cons_of_subset id hn⟩
    | false => exact ⟨List.subset_cons_of_subset id hy, List.cons_subset_cons id hn⟩

theorem Predicate.splitIn_subset (p : Predicate) (ids : List ElementId) :
    Yields (fun _ => True) (p.splitIn ids) fun parts _ => parts.1 ⊆ ids ∧ parts.2 ⊆ ids := by
  intro m _ parts given
  exact split_subset m.index m.entities p ids m.caches trivial parts given

namespace Step

open Model (GrowsSoundly)

variable {kind : ElementKind} {f : ElementId → ModelM (List ElementId)} (before : Scope)

theorem collect_forall {Q : Model → ElementId → Prop} (lasts : ∀ {m m' e}, GrowsSoundly m m' → Q m e → Q m' e)
    (keeps : ∀ id, Keeps GrowsSoundly (f id)) {ids : List ElementId}
    (gives : ∀ id ∈ ids, Yields (fun _ => True) (f id) fun found m => ∀ e ∈ found, Q m e) :
    Yields (fun _ => True) (collect f ids) fun found m => ∀ e ∈ found, Q m e := by
  induction ids with
  | nil =>
    refine .pure fun m _ e member => ?_
    cases member
  | cons id rest ih =>
    obtain ⟨own, others⟩ := List.forall_mem_cons.mp gives
    refine .bind own fun found => ?_
    have framed := (ih others).frame (collect_keeps GrowsSoundly.change keeps rest)
      (F := fun m => ∀ e ∈ found, Q m e) fun grown earlier e member => lasts grown (earlier e member)
    refine .bind (framed.weaken (fun _ earlier => ⟨trivial, earlier⟩) fun _ _ h => h) fun others => ?_
    refine .pure fun m both e member => ?_
    exact (List.mem_append.mp member).elim (both.2 e) (both.1 e)

theorem collect_finds (keeps : ∀ id, Keeps GrowsSoundly (f id))
    (finds : ∀ id, Yields (fun _ => True) (f id) fun found m => ∀ e ∈ found, m.index.Finds kind e)
    (ids : List ElementId) :
    Yields (fun _ => True) (collect f ids) fun found m => ∀ e ∈ found, m.index.Finds kind e :=
  collect_forall (Q := fun m e => m.index.Finds kind e) (fun grown found => found.grows grown.index) keeps
    fun id _ => finds id

theorem declaredSignature_finds (id : ElementId) :
    Yields (fun _ => True) (declaredSignature id) fun found m => ∀ e ∈ found, m.index.Finds .signature e := by
  refine .bind .any fun declared => ?_
  cases declared with
  | none =>
    refine .pure fun m _ e member => ?_
    cases member
  | some s =>
    refine .bind (Q := fun found m => m.index.Finds .signature found) ?_ fun found => ?_
    · intro m _ found given
      cases given
      exact ElementIndex.intern_finds (.signature id .declared) _ m.index
    · exact .pure fun m here e member => List.mem_singleton.mp member ▸ here

theorem explode_finds (create : Bool) (id : ElementId) :
    Yields (fun _ => True) (explode create id) fun found m => ∀ e ∈ found, m.index.Finds .classDef e := by
  refine .bind .any fun declared => ?_
  cases declared with
  | none =>
    refine .pure fun m _ e member => ?_
    cases member
  | some s =>
    refine .bind .any fun erased => ?_
    cases erased with
    | error e => exact .throw
    | ok t =>
      refine .bind (Q := fun named m => ∀ c, named = some c → m.index.Finds .classDef c) ?_
        fun named => ?_
      · intro m _ named given c same
        cases given
        exact classNamed_finds same
      · cases named with
        | none =>
          refine .pure fun m _ e member => ?_
          cases member
        | some c =>
          refine .bind (Q := fun _ m => m.index.Finds .classDef c) ?_ fun _ => ?_
          · exact .update fun m here => here c rfl
          · exact .pure fun m here e member => List.mem_singleton.mp member ▸ here

theorem found_comesOf {f : ModelM (List ElementId)} (keeps : Keeps GrowsSoundly f)
    (finds : Yields (fun _ => True) f fun found m => ∀ id ∈ found, m.index.Finds kind id) :
    Yields Model.Sound (f >>= fun found => pure (.ofKind kind found) : ModelM Scope)
      fun out m => before.ComesOf m.index out := by
  have framed := finds.frame keeps (F := Model.Sound) fun grown sound => grown.sound sound
  refine .bind (framed.weaken (fun _ sound => ⟨trivial, sound⟩) fun _ _ h => h) fun found => ?_
  exact .pure fun m both => ⟨.ofKind both.1 both.2.keyed, nofun⟩

theorem onIndex_comesOf {f : ElementIndex → List ElementId × ElementIndex}
    (develops : ∀ ix, ElementIndex.Develops ix (f ix).2) (gives : ElementIndex.Gives kind f) :
    Yields Model.Sound (Model.onIndex f >>= fun found => pure (.ofKind kind found) : ModelM Scope)
      fun out m => before.ComesOf m.index out := by
  refine found_comesOf before (GrowsSoundly.selection.onIndex develops) ?_
  intro m _ found given
  cases given
  exact gives m.index

theorem gather_comesOf {f : ElementId → ElementIndex → List ElementId × ElementIndex}
    (fills : ∀ id ix, ElementIndex.Fills ix (f id ix).2) (gives : ∀ id, ElementIndex.Gives kind (f id))
    (ids : List ElementId) :
    Yields Model.Sound (Model.onIndex (gather f ids) >>= fun found => pure (.ofKind kind found) : ModelM Scope)
      fun out m => before.ComesOf m.index out :=
  onIndex_comesOf before (fun ix => (gather_fills fills ids ix).develops) (gather_gives gives fills ids)

theorem back_comesOf {scope : Scope} {f : ModelM Scope} (keeps : Keeps GrowsSoundly f)
    (back : Yields (fun _ => True) f fun out _ => out = scope) :
    Yields (fun m => m.Sound ∧ scope.WellKinded m.index) f fun out m => scope.ComesOf m.index out := by
  intro m ⟨_, well⟩ out given
  obtain rfl := back m trivial out given
  exact ⟨well.grows (keeps m).index, id⟩

theorem ids_of_expectElements {scope : Scope} {ids : List ElementId}
    (elements : scope.expectElements = .ok ids) : ids = scope.ids := by
  cases scope with
  | template => cases elements
  | elements kind own =>
    cases elements
    rfl

theorem ascendFrom_fits (m : Model) (kind : ScopeKind) (ids : List ElementId) :
    ∀ id ∈ ascendFrom m kind ids, kind.Fits m.index id := by
  intro id member
  obtain ⟨start, -, found⟩ := List.mem_filterMap.mp member
  have same : (m.index.kind? id).map ScopeKind.elements = some kind := by
    simpa using List.find?_some found
  obtain ⟨own, known, rfl⟩ := Option.map_eq_some_iff.mp same
  exact known

theorem elementsOf_fits {m : Model} (sound : m.Sound) (type : EntityType) :
    ∀ id ∈ (m.entities.ofType type).map (·.element),
      (((m.entities.kindOf? type).map ScopeKind.elements).getD .unresolved).Fits m.index id := by
  intro id member
  obtain ⟨e, ofType, rfl⟩ := List.mem_map.mp member
  obtain ⟨stored, same⟩ := List.mem_filter.mp ofType
  obtain ⟨kind, known, given⟩ := sound.entities e stored
  have same : e.type = type := by simpa using same
  rw [← same, given]
  exact known

theorem apply_comesOf (s : Step) (scope : Scope) :
    Yields (fun m => m.Sound ∧ scope.WellKinded m.index) (s.apply scope)
      fun out m => scope.ComesOf m.index out := by
  have sound : ∀ m : Model, m.Sound ∧ scope.WellKinded m.index → m.Sound := fun _ h => h.1
  have change := GrowsSoundly.change
  cases s with
  | identity => exact .pure fun m h => ⟨h.2, id⟩
  | classes =>
    refine .liftBind fun _ _ => .getBind fun seen => .pure ?_
    rintro m ⟨rfl, h⟩
    exact ⟨.ofKind m.index.classIds_finds h.1.keyed, nofun⟩
  | elementsOf type =>
    refine .getBind fun seen => .pure ?_
    rintro m ⟨rfl, h⟩
    exact ⟨.ofIds (elementsOf_fits h.1 type), nofun⟩
  | methods inherited =>
    exact .liftBind fun ids _ => (gather_comesOf scope
      (fun id => ElementIndex.membersOf_fills .method id inherited)
      (fun id => ElementIndex.membersOf_gives .method id inherited) ids).weaken sound fun _ _ h => h
  | fields inherited =>
    exact .liftBind fun ids _ => (gather_comesOf scope
      (fun id => ElementIndex.membersOf_fills .field id inherited)
      (fun id => ElementIndex.membersOf_gives .field id inherited) ids).weaken sound fun _ _ h => h
  | parameters =>
    exact .liftBind fun ids _ => (gather_comesOf scope ElementIndex.parameters_fills
      ElementIndex.parameters_gives ids).weaken sound fun _ _ h => h
  | annotations type =>
    exact .liftBind fun ids _ => (gather_comesOf scope (annotationsOfType_fills type)
      (annotationsOfType_gives type) ids).weaken sound fun _ _ h => h
  | signature =>
    have keeps := GrowsSoundly.selection.looking.declaredSignature
    exact .liftBind fun ids _ => (found_comesOf scope (collect_keeps change keeps ids)
      (collect_finds keeps declaredSignature_finds ids)).weaken sound fun _ _ h => h
  | typeArguments =>
    exact .liftBind fun ids _ => (gather_comesOf scope argumentsOf_fills argumentsOf_gives ids).weaken
      sound fun _ _ h => h
  | explodeType create =>
    have keeps := explode_keeps GrowsSoundly.selection create
    exact .liftBind fun ids _ => (found_comesOf scope (collect_keeps change keeps ids)
      (collect_finds keeps (explode_finds create) ids)).weaken sound fun _ _ h => h
  | ascend kind =>
    refine .liftBind fun ids _ => .getBind fun seen => .pure ?_
    rintro m ⟨rfl, -⟩
    exact ⟨.ofIds (ascendFrom_fits m kind ids), nofun⟩
  | filter predicate =>
    refine .liftBind fun ids elements => ?_
    obtain rfl := ids_of_expectElements elements
    have framed := (Predicate.splitIn_subset predicate scope.ids).frame
      (splitIn_keeps GrowsSoundly.selection predicate scope.ids) (F := fun m => scope.WellKinded m.index)
      fun grown well => well.grows grown.index
    refine .bind (framed.weaken (fun m h => ⟨trivial, h.2⟩) fun _ _ h => h) fun parts => ?_
    exact .pure fun m both => ⟨both.2.part both.1.1, nofun⟩
  | synthesize targets =>
    exact .liftBind fun _ _ => (onIndex_comesOf scope (synthesizeAll_develops targets)
      (synthesizeAll_gives targets)).weaken sound fun _ _ h => h
  | registerEntity | updateEntity | associate =>
    exact back_comesOf (apply_growsSoundly _ scope) (.liftBind fun _ _ => .bind .any fun _ => .pure fun _ _ => rfl)
  | relate =>
    exact back_comesOf (apply_growsSoundly _ scope) (.bind .any fun _ => .pure fun _ _ => rfl)

end Step

/-! ## Actions -/

/-- An action may start with a scope in a state. -/
structure Scope.Ready (scope : Scope) (e : Execution) : Prop where
  sound : e.model.Sound
  well : scope.WellKinded e.model.index

/-- What an action that started with one scope may end with. -/
structure Scope.Ends (before after : Scope) (e : Execution) : Prop where
  sound : e.model.Sound
  comes : before.ComesOf e.model.index after

namespace Scope

variable {before after scope : Scope} {e e' : Execution}

theorem Ends.ready (h : before.Ends after e) : after.Ready e := ⟨h.sound, h.comes.toWellKinded⟩

theorem Ready.ends (h : scope.Ready e) : scope.Ends scope e := ⟨h.sound, h.well, id⟩

theorem Ready.grows (h : scope.Ready e) (grown : e.model.GrowsSoundly e'.model) : scope.Ready e' :=
  ⟨grown.sound h.sound, h.well.grows grown.index⟩

theorem Ends.trans {middle : Scope} {e' : Execution} (first : before.Ends middle e)
    (second : middle.Ends after e') : before.Ends after e' :=
  ⟨second.sound, second.comes.toWellKinded, fun same => first.comes.template (second.comes.template same)⟩

theorem Ends.grows (h : before.Ends after e) (grown : e.model.GrowsSoundly e'.model) :
    before.Ends after e' :=
  ⟨grown.sound h.sound, h.comes.toWellKinded.grows grown.index, h.comes.template⟩

theorem Ends.union {left right : Scope} (hl : before.Ends left e)
    (hr : right.WellKinded e.model.index) : before.Ends (left.union right) e :=
  ⟨hl.sound, hl.comes.toWellKinded.union hr, fun same => hl.comes.template (union_eq_template.mp same).1⟩

theorem Ready.nothing (h : scope.Ready e) : scope.Ends (.elements scope.kind []) e :=
  ⟨h.sound, ⟨List.nodup_nil, by simp [ids]⟩, nofun⟩

theorem Ready.part (h : scope.Ready e) {ids : List ElementId} (part : ids ⊆ scope.ids) :
    (ofIds scope.kind ids).Ready e :=
  ⟨h.sound, h.well.part part⟩

end Scope

namespace Execution

theorem noted_ends (description : String) (scope : Scope) {body : ExecutionM Scope}
    (yields : Yields scope.Ready body scope.Ends) :
    Yields scope.Ready (noted description scope body) scope.Ends := by
  refine .bind (Q := fun _ => scope.Ready) (.update fun e ready => ⟨ready.sound, ready.well⟩) fun _ => ?_
  refine .bind yields fun out => .bind (Q := fun _ => scope.Ends out) ?_ fun _ => ?_
  · exact .update fun e ends => ⟨ends.sound, ends.comes⟩
  · exact .pure fun e ends => ends

end Execution

theorem Model.GrowsSoundly.running : Running Model.GrowsSoundly :=
  ⟨change, Step.apply_growsSoundly, Step.splitIn_keeps selection⟩

namespace Action

open Model (GrowsSoundly)
open Execution (OnModel)

theorem execute_growsSoundly (a : Action) (scope : Scope) : Keeps (OnModel GrowsSoundly) (a.execute scope) :=
  execute_keeps GrowsSoundly.running a scope

theorem executeOption_growsSoundly (a : Option Action) (scope : Scope) :
    Keeps (OnModel GrowsSoundly) (executeOption a scope) :=
  executeOption_keeps GrowsSoundly.running a scope

theorem onModel_ends (s : Step) (scope : Scope) :
    Yields scope.Ready (Execution.onModel (s.apply scope)) scope.Ends := by
  intro e ready out given
  exact ⟨(Step.apply_growsSoundly s scope e.model).sound ready.sound,
    Step.apply_comesOf s scope e.model ⟨ready.sound, ready.well⟩ out given⟩

theorem splitIn_parts (p : Predicate) (scope : Scope) :
    Yields scope.Ready (Execution.onModel (p.splitIn scope.ids))
      fun parts e => (parts.1 ⊆ scope.ids ∧ parts.2 ⊆ scope.ids) ∧ scope.Ready e := by
  intro e ready parts given
  exact ⟨Predicate.splitIn_subset p scope.ids e.model trivial parts given,
    ready.grows (Step.splitIn_keeps GrowsSoundly.selection p scope.ids e.model)⟩

theorem unitedWith_ends {scope : Scope} {ids : List ElementId} (part : ids ⊆ scope.ids) (out : Scope)
    {run : Scope → ExecutionM Scope} (keeps : ∀ s, Keeps (OnModel GrowsSoundly) (run s))
    (yields : ∀ s : Scope, Yields s.Ready (run s) s.Ends) :
    Yields (fun e => scope.Ready e ∧ scope.Ends out e) (unitedWith out scope.kind ids run)
      fun out' e => scope.Ready e ∧ scope.Ends out' e := by
  unfold unitedWith
  split
  · exact .pure fun e both => both
  · have framed := (yields (.ofIds scope.kind ids)).frame (keeps _)
      (F := fun e => scope.Ready e ∧ scope.Ends out e)
      fun grown both => ⟨both.1.grows grown, both.2.grows grown⟩
    refine .bind (framed.weaken (fun e both => ⟨both.1.part part, both⟩) fun _ _ h => h) fun more => ?_
    exact .pure fun e ⟨ran, ready, ends⟩ => ⟨ready, ends.union ran.ready.well⟩

theorem back_ends {scope : Scope} {body : ExecutionM Scope} (keeps : Keeps (OnModel GrowsSoundly) body)
    (back : Yields (fun _ => True) body fun out _ => out = scope) :
    Yields scope.Ready body scope.Ends := by
  intro e ready out given
  obtain rfl := back e trivial out given
  exact (ready.grows (keeps e)).ends

mutual
theorem execute_ends (a : Action) (scope : Scope) : Yields scope.Ready (a.execute scope) scope.Ends := by
  have change := OnModel.change GrowsSoundly.change
  match a with
  | .step s => exact Execution.noted_ends _ scope (onModel_ends s scope)
  | .chain actions => exact Execution.noted_ends _ scope (executeAll_ends actions scope)
  | .compose first second =>
    refine Execution.noted_ends _ scope ?_
    have framed := (execute_ends first scope).frame (execute_growsSoundly first scope)
      (F := scope.Ready) fun grown ready => ready.grows grown
    refine .bind (framed.weaken (fun e ready => ⟨ready, ready⟩) fun _ _ h => h) fun left => ?_
    have framed := (execute_ends second scope).frame (execute_growsSoundly second scope)
      (F := scope.Ends left) fun grown ends => ends.grows grown
    refine .bind (framed.weaken (fun e h => ⟨h.2, h.1⟩) fun _ _ h => h) fun right => ?_
    exact .pure fun e ⟨ends, earlier⟩ => earlier.union ends.ready.well
  | .fork predicate onMatch otherwise =>
    refine Execution.noted_ends _ scope (.liftBind fun ids elements => ?_)
    obtain rfl := Step.ids_of_expectElements elements
    refine .bind (splitIn_parts predicate scope) fun parts e ⟨⟨matching, remaining⟩, ready⟩ => ?_
    have nothing := ready.nothing
    have branches := (unitedWith_ends matching (.elements scope.kind []) (execute_growsSoundly onMatch)
      (execute_ends onMatch)).bind fun out =>
        unitedWith_ends remaining out (executeOption_growsSoundly otherwise) (executeOption_ends otherwise)
    exact fun out given => (branches e ⟨ready, nothing⟩ out given).2
  | .nested body =>
    refine Execution.noted_ends _ scope (back_ends ?_ (.bind .any fun _ => .pure fun _ _ => rfl))
    exact .bind change (execute_growsSoundly body scope) fun _ => .pure change _
  | .outerScope kind body =>
    refine Execution.noted_ends _ scope
      (back_ends ?_ (.bind .any fun _ => .bind .any fun _ => .pure fun _ _ => rfl))
    exact .bind change (Execution.onModel_keeps (Step.apply_growsSoundly (.ascend kind) scope))
      fun outer => .bind change (execute_growsSoundly body outer) fun _ => .pure change _
termination_by structural a

theorem executeAll_ends (actions : List Action) (scope : Scope) :
    Yields scope.Ready (executeAll actions scope) scope.Ends := by
  match actions with
  | [] => exact .pure fun e ready => ready.ends
  | a :: rest =>
    refine .bind (execute_ends a scope) fun out e first => ?_
    exact fun final given => first.trans (executeAll_ends rest out e first.ready final given)
termination_by structural actions

theorem executeOption_ends (a : Option Action) (scope : Scope) :
    Yields scope.Ready (executeOption a scope) scope.Ends := by
  match a with
  | none => exact .pure fun e ready => ready.ends
  | some a => exact execute_ends a scope
termination_by structural a
end

end Action

/-! ## All actions of a run -/

namespace ActionCall

def finish (c : ActionCall) : Execution := (c.action.execute c.scope c.start).2

theorem InSequence.ready {actions : List Action} {scope : Scope} {e : Execution} {c : ActionCall}
    (inside : InSequence actions scope e c) (ready : scope.Ready e) : c.scope.Ready c.start := by
  induction inside with
  | head => exact ready
  | tail ran _ ih => exact ih ((Action.execute_ends _ _).ran ready ran).ready

theorem Makes.ready {c c' : ActionCall} (made : Makes c c') (ready : c.scope.Ready c.start) :
    c'.scope.Ready c'.start := by
  have entered (description : String) : c.scope.Ready (c.start.enter description c.scope) :=
    ⟨ready.sound, ready.well⟩
  cases made with
  | chain inside => exact inside.ready (entered _)
  | first | nested => exact entered _
  | second ran =>
    have grown := keeps_ran (Action.execute_growsSoundly _ _) ran
    exact (entered _).grows grown
  | matching elements split _ =>
    obtain rfl := Step.ids_of_expectElements elements
    obtain ⟨⟨matching, -⟩, ready⟩ := (Action.splitIn_parts _ _).ran (entered _) split
    exact ready.part matching
  | remaining elements split ran _ =>
    obtain rfl := Step.ids_of_expectElements elements
    obtain ⟨⟨matching, remaining⟩, ready⟩ := (Action.splitIn_parts _ _).ran (entered _) split
    have united := (Action.unitedWith_ends matching _ (Action.execute_growsSoundly _)
      (Action.execute_ends _)).ran ⟨ready, ready.nothing⟩ ran
    exact united.1.part remaining
  | outerScope ran => exact ((Action.onModel_ends _ _).ran (entered _) ran).ready

theorem Reaches.ready {c c' : ActionCall} (reached : Reaches c c') (ready : c.scope.Ready c.start) :
    c'.scope.Ready c'.start := by
  induction reached with
  | refl => exact ready
  | tail _ made ih => exact made.ready ih

end ActionCall

/-- Every action that a run of a pipeline comes to gets a well kinded scope, and gives one unless it
    fails; elements never give the template back. Before and after, also when the action fails, every
    entity stands for an element of its type's kind. -/
theorem Pipeline.calls_wellKinded (settings : Settings) (classes : List ClassDeclaration) (p : Pipeline)
    {c : ActionCall} (reached : ActionCall.Reaches ⟨p.action, .template, .ofClasses settings classes⟩ c) :
    c.scope.WellKinded c.start.model.index ∧
      c.start.model.entities.KindedIn c.start.model.index ∧
      c.finish.model.entities.KindedIn c.finish.model.index ∧
      ∀ out, (c.action.execute c.scope c.start).1 = .ok out →
        out.WellKinded c.finish.model.index ∧ (out = .template → c.scope = .template) := by
  have begin : Scope.template.Ready (.ofClasses settings classes) :=
    ⟨Model.ofClasses_sound settings classes, .template _⟩
  have ready := reached.ready begin
  refine ⟨ready.well, ready.sound.entities, ?_, fun out given => ?_⟩
  · exact ((Action.execute_growsSoundly c.action c.scope c.start).sound ready.sound).entities
  · obtain ⟨well, template⟩ := (Action.execute_ends c.action c.scope c.start ready out given).comes
    exact ⟨well, template⟩

/-! ## A scope of a class and a method -/

namespace MixedScope

def classes : List ClassDeclaration := [{ name := "a/A", methods := [{ name := "m", desc := "()V" }] }]

/-- Selects the classes together with their methods and tests all of them. -/
def actions : List Action :=
  [.compose (.step .classes) (.chain [.step .classes, .step (.methods false)]),
    .step (.filter (.negation .synthetic))]

def pipeline : Pipeline := { name := "mixed", action := .chain actions }

/-- The test gets elements of two kinds, so it gets them as unresolved. -/
def test : ActionCall where
  action := .step (.filter (.negation .synthetic))
  scope := .elements .unresolved [⟨1⟩, ⟨2⟩]
  start := (Action.executeAll (actions.take 1) .template
    ((Execution.ofClasses {} classes).enter (Action.chain actions).describe .template)).2

theorem test_wellKinded :
    ActionCall.Reaches ⟨pipeline.action, .template, .ofClasses {} classes⟩ test ∧
      test.scope.WellKinded test.start.model.index ∧
      (Scope.elements .unresolved [⟨1⟩, ⟨2⟩]).WellKinded test.finish.model.index := by
  have done : (Action.executeAll (actions.take 1) .template
      ((Execution.ofClasses {} classes).enter (Action.chain actions).describe .template)).1 =
        .ok test.scope := by decide +kernel
  have reached : ActionCall.Reaches ⟨pipeline.action, .template, .ofClasses {} classes⟩ test :=
    .single (.chain (.after done))
  have passed : (test.action.execute test.scope test.start).1 =
      .ok (.elements .unresolved [⟨1⟩, ⟨2⟩]) := by decide +kernel
  obtain ⟨well, -, -, gives⟩ := Pipeline.calls_wellKinded {} classes pipeline reached
  exact ⟨reached, well, (gives _ passed).1⟩

end MixedScope

end ClassAtlas
