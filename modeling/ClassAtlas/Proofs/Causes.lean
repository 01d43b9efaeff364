import ClassAtlas.Proofs.ClassRequests
import ClassAtlas.Proofs.Confinement
import ClassAtlas.Proofs.SlashlessTypes

/-! # Causes of classes

Taking the type of an element makes the element a cause of the class that the type names. A cause is recorded once
and never looked at again, while classes are made up and types are found out. It stays right nevertheless: the
declared type of the element, the class that it erases to and the element that has the name of this class are all
settled from then on.
-/

namespace ClassAtlas

/-! ## Recording -/

namespace Provenance

variable {p : Provenance} {x y cause : ElementId}

theorem causes_record (p : Provenance) (x cause y : ElementId) :
    (p.record x cause).causes y =
      if y = x ∧ x ≠ cause ∧ cause ∉ p.causes x then p.causes x ++ [cause] else p.causes y := by
  by_cases self : x = cause
  · simp [record, self]
  · by_cases known : cause ∈ p.causes x
    · simp [record, known]
    · have put : p.record x cause = ⟨Ordered.put x (p.causes x ++ [cause]) p.causeLists⟩ := by
        simp [record, self, known]
      rw [put]
      by_cases same : y = x
      · rw [if_pos ⟨same, self, known⟩, same, causes, Ordered.get?_put_self]
        rfl
      · rw [if_neg fun h => same h.1, causes, Ordered.get?_put_ne same]
        rfl

theorem causes_subset_record (p : Provenance) (x cause y : ElementId) : p.causes y ⊆ (p.record x cause).causes y := by
  intro c member
  rw [causes_record]
  split
  · next h =>
      rw [h.1] at member
      exact List.mem_append_left _ member
  · exact member

theorem mem_causes_of_record {c : ElementId} (member : c ∈ (p.record x cause).causes y) :
    c ∈ p.causes y ∨ y = x ∧ c = cause ∧ x ≠ cause := by
  rw [causes_record] at member
  split at member
  · next h =>
      obtain ⟨rfl, other, -⟩ := h
      exact (List.mem_append.mp member).imp id fun last => ⟨rfl, List.mem_singleton.mp last, other⟩
  · exact .inl member

theorem mem_record (other : x ≠ cause) : cause ∈ (p.record x cause).causes x := by
  rw [causes_record]
  split
  · exact List.mem_append_right _ (List.mem_singleton_self cause)
  · next h => simpa [other] using h

theorem record_nodup (distinct : (p.causes y).Nodup) : ((p.record x cause).causes y).Nodup := by
  rw [causes_record]
  split
  · next h =>
      obtain ⟨rfl, -, new⟩ := h
      exact distinct.append (List.nodup_singleton cause) (by simpa using new)
  · exact distinct

end Provenance

/-! ## Later states -/

namespace IndexState

/-- A state in which elements and types can be relied on. -/
structure Orderly (s : IndexState) : Prop where
  coherent : s.index.Coherent s.resolver
  listed : s.index.Listed
  tidy : s.resolver.Tidy s.index.classes

/-- A later state has all elements and knows all types that were known, and the classes that it has in addition
    were made up. -/
structure Precedes (s s' : IndexState) : Prop where
  index : s.index.Grows s'.index
  resolver : s.resolver.Extends s'.resolver
  classes : s.index.classes.MadeUpAfter s'.index.classes

theorem Precedes.refl (s : IndexState) : s.Precedes s := ⟨.refl _, .refl _, .refl _⟩

theorem Precedes.trans {a b c : IndexState} (h : a.Precedes b) (h' : b.Precedes c) : a.Precedes c :=
  ⟨h.index.trans h'.index, h.resolver.trans h'.resolver, h.classes.trans h'.classes⟩

end IndexState

theorem IndexOperation.perform_orderly (op : IndexOperation) {s : IndexState} (h : s.Orderly) :
    (op.perform s).Orderly ∧ s.Precedes (op.perform s) := by
  obtain ⟨-, coherent, grows⟩ := op.perform_accepted h.coherent
  have listed := op.perform_listed h.listed
  suffices step : s.resolver.Extends (op.perform s).resolver ∧
      s.index.classes.MadeUpAfter (op.perform s).index.classes ∧ (op.perform s).resolver.Tidy s.index.classes from
    ⟨⟨coherent, listed, step.2.2.later step.2.1⟩, grows, step.1, step.2.1⟩
  rcases op.perform_cases s with ⟨type, methods, rfl⟩ | ⟨fills, kept | ⟨id, asked⟩ | ⟨type, asked⟩⟩
  · have made := ElementIndex.synthesizeClass_classes h.listed.complete type methods
    simp only [perform, made]
    exact ⟨.refl _, (ClassPool.MadeUpAfter.refl _).withClass _, h.tidy⟩
  · rw [fills.sameClasses, kept]
    exact ⟨.refl _, .refl _, h.tidy⟩
  · rw [fills.sameClasses, asked]
    exact ⟨SignatureResolver.declaredType_extends s.index id s.resolver, .refl _,
      (SignatureResolver.declaredType_tells s.index id s.resolver h.tidy).2⟩
  · rw [fills.sameClasses, asked]
    exact ⟨SignatureResolver.erasure_extends s.index.classes type s.resolver, .refl _,
      SignatureResolver.erasure_tidy h.tidy type⟩

namespace IndexState

theorem Leads.orderly {s s' : IndexState} (leads : s.Leads s') (h : s.Orderly) : s'.Orderly ∧ s.Precedes s' := by
  obtain ⟨ops, rfl⟩ := leads
  induction ops generalizing s with
  | nil => exact ⟨h, .refl s⟩
  | cons op rest ih =>
    obtain ⟨first, precedes⟩ := op.perform_orderly h
    obtain ⟨last, precedes'⟩ := ih first
    exact ⟨last, precedes.trans precedes'⟩

theorem orderly_ofClasses (classes : List ClassDeclaration) : Orderly { index := .ofClasses classes } :=
  ⟨(after_accepted classes []).2.1, ElementIndex.ofClasses_listed classes, .initial _⟩

end IndexState

theorem ElementIndex.classByName?_later {ix ix' : ElementIndex} (grows : ix.Grows ix')
    (later : ix.classes.MadeUpAfter ix'.classes) {t : TypeName} {x : ElementId} (named : ix.classByName? t = some x) :
    ix'.classByName? t = some x := by
  obtain ⟨c, position, found⟩ := Option.bind_eq_some_iff.mp named
  rcases later.indexOf? t with same | ⟨unknown, -⟩
  · rw [classByName?, same, position]
    exact grows.keys found
  · rw [position] at unknown
    cases unknown

/-! ## Elements whose types name classes -/

namespace Model

/-- The declared type of one element is known for good, and it is that of a class, which is the other element. -/
structure Names (m : Model) (cause x : ElementId) : Prop where
  valueless : m.index.Valueless cause
  other : cause ≠ x
  type : ∃ s t, SignatureResolver.Settled m.index m.caches.resolver cause s ∧
    SignatureResolver.Erased m.index.classes m.caches.resolver s t ∧ m.index.classByName? t = some x

theorem Names.later {m m' : Model} {cause x : ElementId} (h : m.Names cause x)
    (precedes : m.indexState.Precedes m'.indexState) : m'.Names cause x := by
  obtain ⟨s, t, settled, erased, named⟩ := h.type
  refine ⟨h.valueless.grows precedes.index, h.other, s, t, ?_, ?_, ?_⟩
  · exact settled.later precedes.index precedes.resolver
  · exact erased.later precedes.classes precedes.resolver
  · exact ElementIndex.classByName?_later precedes.index precedes.classes named

theorem Names.declaredClass? {m : Model} {cause x : ElementId} (h : m.Names cause x) (orderly : m.indexState.Orderly) :
    ∃ t, (m.caches.declaredClass? m.index cause).1 = some t ∧ m.index.classByName? t = some x := by
  obtain ⟨s, t, settled, erased, named⟩ := h.type
  refine ⟨t, ?_, named⟩
  have declared := settled m.index m.caches.resolver (.refl _) (.refl _)
  have extension := SignatureResolver.declaredType_extends m.index cause m.caches.resolver
  have tidy := (SignatureResolver.declaredType_tells m.index cause m.caches.resolver orderly.tidy).2
  have erasure := erased m.index.classes _ (.refl _) extension tidy
  simp only [Caches.declaredClass?, Caches.resolve]
  generalize m.caches.resolver.declaredType m.index cause = answer at declared erasure
  obtain ⟨type, r⟩ := answer
  cases declared
  exact congrArg some erasure

/-- All causes are elements whose types name what they cause. Values are kept out of scopes, so entities do not stand
    for values. -/
structure Grounded (m : Model) : Prop where
  orderly : m.indexState.Orderly
  entities : ∀ e ∈ m.entities.entities, m.index.Valueless e.element
  causes : ∀ x cause, cause ∈ m.provenance.causes x → m.Names cause x
  once : ∀ x, (m.provenance.causes x).Nodup

theorem grounded_ofClasses (settings : Settings) (classes : List ClassDeclaration) :
    (Model.ofClasses settings classes).Grounded :=
  ⟨IndexState.orderly_ofClasses classes, nofun, nofun, fun _ => List.nodup_nil⟩

namespace Grounded

variable {m m' : Model} {id x : ElementId}

theorem operated (h : m.Grounded) (operates : m.Operates m')
    (entities : ∀ e ∈ m'.entities.entities, m.index.Valueless e.element) (same : m'.provenance = m.provenance) :
    m'.Grounded := by
  obtain ⟨orderly, precedes⟩ := operates.orderly h.orderly
  refine ⟨orderly, fun e member => (entities e member).grows precedes.index, ?_, ?_⟩
  · rw [same]
    intro x cause member
    exact (h.causes x cause member).later precedes
  · rw [same]
    exact h.once

theorem record (h : m.Grounded) (names : x ≠ id → m.Names id x) :
    Grounded { m with provenance := m.provenance.record x id } := by
  refine ⟨h.orderly, h.entities, fun y cause member => ?_, fun y => Provenance.record_nodup (h.once y)⟩
  rcases Provenance.mem_causes_of_record member with old | ⟨rfl, rfl, other⟩
  · have earlier := h.causes y cause old
    exact ⟨earlier.valueless, earlier.other, earlier.type⟩
  · have now := names other
    exact ⟨now.valueless, now.other, now.type⟩

theorem ancestor (h : m.Grounded) (valueless : m.index.Valueless id) {a : ElementId} (above : a ∈ m.ancestors id) :
    m.index.Valueless a := by
  obtain ⟨-, n, comes⟩ := mem_ancestors.mp above
  generalize n + 1 = steps at comes
  clear above
  induction comes with
  | self => exact valueless
  | part _ parent ih => exact ih.parent parent
  | cause _ listed _ => exact (h.causes _ _ listed).valueless

end Grounded

end Model

/-! ## Taking types -/

namespace Step

open Model (Operates Grounded)

variable {id : ElementId} (create : Bool)

theorem classNamed_none {create : Bool} {t : TypeName} {ix : ElementIndex}
    (unnamed : (classNamed create t ix).1 = none) : (classNamed create t ix).2 = ix := by
  cases known : ix.classByName? t with
  | some id => simp [classNamed, known] at unnamed
  | none =>
    simp only [classNamed, known] at unnamed ⊢
    split at unnamed
    · cases unnamed
    · next refused => rw [if_neg refused]

/-- Taking a type fails or gives nothing and changes no more than the resolver, or it gives the class of the type. -/
theorem explode_cases (id : ElementId) (m : Model) :
    (∃ result r, explode create id m = (result, { m with caches := { m.caches with resolver := r } })) ∨
      ∃ s x, (m.caches.resolver.declaredType m.index id).1 = some s ∧ s.methodVariable? = none ∧
        let erased := (m.caches.resolver.declaredType m.index id).2.erasure m.index.classes s
        (classNamed create erased.1 m.index).1 = some x ∧
          explode create id m = (.ok [x],
            { m with
              index := (classNamed create erased.1 m.index).2
              caches := { m.caches with resolver := erased.2 }
              provenance := m.provenance.record x id }) := by
  cases typed : (m.caches.resolver.declaredType m.index id).1 with
  | none =>
    refine .inl ⟨.ok [], (m.caches.resolver.declaredType m.index id).2, ?_⟩
    simp only [explode, Operation.bind_apply, Model.onResolver, Caches.resolve, typed, Operation.pure_apply]
  | some s =>
    cases concrete : s.methodVariable? with
    | some v =>
      refine .inl ⟨.error (.signature (.callSiteResolution v.name v.owner.text)),
        (m.caches.resolver.declaredType m.index id).2, ?_⟩
      simp only [explode, Operation.bind_apply, Model.onResolver, Caches.resolve, typed,
        SignatureResolver.concreteClass, concrete, Operation.throw_apply]
    | none =>
      cases named : (classNamed create ((m.caches.resolver.declaredType m.index id).2.erasure
          m.index.classes s).1 m.index).1 with
      | none =>
        refine .inl ⟨.ok [], ((m.caches.resolver.declaredType m.index id).2.erasure m.index.classes s).2, ?_⟩
        simp only [explode, Operation.bind_apply, Model.onResolver, Caches.resolve, typed,
          SignatureResolver.concreteClass, concrete, Model.onIndex, named, classNamed_none named,
          Operation.pure_apply]
      | some x =>
        refine .inr ⟨s, x, rfl, concrete, named, ?_⟩
        simp only [explode, Operation.bind_apply, Model.onResolver, Caches.resolve, typed,
          SignatureResolver.concreteClass, concrete, Model.onIndex, named, Operation.modify_apply,
          Operation.pure_apply]

theorem classNamed_found {create : Bool} {t : TypeName} {ix : ElementIndex} {x : ElementId} (complete : ix.Complete)
    (slashless : '/' ∉ t.text.toList) (named : (classNamed create t ix).1 = some x) :
    (classNamed create t ix).2.classByName? t = some x := by
  cases known : ix.classByName? t with
  | some id =>
    simp only [classNamed, known] at named ⊢
    exact named
  | none =>
    simp only [classNamed, known] at named ⊢
    split at named
    · next wanted =>
        rw [if_pos wanted, ← named]
        exact ElementIndex.synthesizeClass_found complete slashless []
    · cases named

theorem explode_grounded {m : Model} (h : m.Grounded) (valueless : m.index.Valueless id) :
    (explode create id m).2.Grounded := by
  have operates := explode_operates create id m
  obtain ⟨result, r, done⟩ | ⟨s, x, typed, concrete, named, done⟩ := explode_cases create id m
  · rw [done] at operates ⊢
    exact h.operated operates h.entities rfl
  · rw [done] at operates ⊢
    -- The type is settled once it was asked for, what it erases to once it was erased, and the name once it was found.
    have coherent : m.index.Coherent m.caches.resolver := h.orderly.coherent
    have tidy := (SignatureResolver.declaredType_tells m.index id m.caches.resolver h.orderly.tidy).2
    have settled := SignatureResolver.declaredType_settled coherent.owned typed
    have slashless := coherent.valueless_type h.orderly.tidy valueless s typed
    generalize m.caches.resolver.declaredType m.index id = answer at *
    obtain ⟨declared, r⟩ := answer
    have erased := SignatureResolver.erasure_lasts concrete m.index.classes r
    have extension := SignatureResolver.erasure_extends m.index.classes s r
    have plain := SignatureResolver.erasure_slashless tidy slashless
    have found := classNamed_found h.orderly.listed.complete plain named
    obtain ⟨-, precedes⟩ := operates.orderly h.orderly
    have before : Grounded { m with
        index := (classNamed create (r.erasure m.index.classes s).1 m.index).2
        caches := { m.caches with resolver := (r.erasure m.index.classes s).2 } } :=
      h.operated operates h.entities rfl
    refine before.record fun other => ⟨valueless.grows precedes.index, other.symm, s, _, ?_, ?_, found⟩
    · exact settled.later precedes.index extension
    · exact erased.later precedes.classes (.refl _)

/-! ## Elements with entities -/

/-- The elements that have entities had some before or are among these. -/
def Enlists (ids : List ElementId) (m m' : Model) : Prop :=
  ∀ e ∈ m'.entities.entities, e.element ∈ ids ∨ ∃ e' ∈ m.entities.entities, e'.element = e.element

namespace Enlists

variable {ids : List ElementId} {m m' : Model}

theorem change (ids : List ElementId) : Change (Enlists ids) where
  refl _ e member := .inr ⟨e, member, rfl⟩
  trans first second e member := by
    rcases second e member with new | ⟨e', old, same⟩
    · exact .inl new
    · exact same ▸ first e' old

theorem of_identities (same : m'.entities.entities.map Entity.identity = m.entities.entities.map Entity.identity) :
    Enlists ids m m' := by
  intro e member
  have kept : e.identity ∈ m.entities.entities.map Entity.identity := same ▸ List.mem_map_of_mem member
  obtain ⟨e', old, alike⟩ := List.mem_map.mp kept
  simp only [Entity.identity, Prod.mk.injEq] at alike
  exact .inr ⟨e', old, alike.2.2⟩

theorem relinked (same : m.entities.Relinked m'.entities) : Enlists ids m m' :=
  of_identities (congrArg (List.map Entity.identity) same.entities)

end Enlists

theorem registerAs_enlists (type : EntityType) (template : Option String) (specs : List PropertySpec)
    {ids : List ElementId} (member : id ∈ ids) : Keeps (Enlists ids) (registerAs type template specs id) := by
  intro m
  obtain ⟨e, m', failed, same⟩ | ⟨kind, label, n, m', ran, known, done⟩ := registerAs_cases type template specs id m
  · rw [failed]
    exact .of_identities (by rw [same])
  · rw [ran]
    obtain ⟨e, -, -, -, stored⟩ | ⟨-, -, -, stored⟩ := EntityStore.register_cases done
    · refine .of_identities ?_
      rw [stored]
      exact EntityStore.extend_identities m.entities e.id label _
    · intro e inside
      rw [stored] at inside
      rcases List.mem_append.mp inside with old | new
      · exact .inr ⟨e, old, rfl⟩
      · rw [List.mem_singleton.mp new]
        exact .inl member

theorem updateFrom_enlists (type : EntityType) (template : Option String) (specs : List PropertySpec)
    (ids : List ElementId) (id : ElementId) : Keeps (Enlists ids) (updateFrom type template specs id) := by
  intro m
  obtain ⟨e, failed, -⟩ | ⟨target, label, m', ran, -, done⟩ := updateFrom_cases type template specs id m
  · rw [failed]
    exact (Enlists.change ids).refl m
  · rw [ran]
    refine .of_identities ?_
    rw [done]
    exact EntityStore.update_identities m.entities target.id label _

theorem apply_enlists (s : Step) (scope : Scope) : Keeps (Enlists scope.ids) (s.apply scope) := by
  have change := Enlists.change scope.ids
  cases s with
  | registerEntity type label properties =>
    refine .liftBind change fun ids elements => ?_
    rw [ids_of_expectElements elements]
    exact .bind change (onEach_keepsEach change fun _ => registerAs_enlists type label properties) fun _ =>
      .pure change _
  | updateEntity type label properties =>
    exact .checked change (onEach_keeps change (updateFrom_enlists type label properties scope.ids))
  | associate parent key child =>
    exact .checked change (onEach_keeps change (fun id m => .relinked (associateAt_relinked parent key child id m)))
  | relate kind source target key backtrack =>
    exact .bind change (.update fun m => .relinked (CallScanner.relate_relinked _ _ _ _ _ _ _ _)) fun _ =>
      .pure change _
  | _ =>
    intro m
    refine .of_identities ?_
    rw [selecting_keeps selection_entities scope rfl m]

/-! ## Steps -/

theorem quiet_provenance : Quiet fun m m' => m'.provenance = m.provenance where
  refl _ := rfl
  trans first second := second.trans first
  fills _ _ _ := rfl
  caches _ _ _ := rfl
  entities _ _ _ := rfl

theorem apply_provenance (s : Step) (scope : Scope) (m : Model) (untyped : ∀ create, s ≠ .explodeType create) :
    (s.apply scope m).2.provenance = m.provenance := by
  cases s with
  | synthesize targets => cases scope <;> rfl
  | explodeType create => exact absurd rfl (untyped create)
  | _ => exact quiet_provenance.step scope _ (by simp) (by simp) m

/-- A grounded model stays so, and elements that are no values stay elements. -/
def Grounds (ids : List ElementId) (m m' : Model) : Prop :=
  (m.Grounded ∧ ∀ id ∈ ids, m.index.Valueless id) → m'.Grounded ∧ ∀ id ∈ ids, m'.index.Valueless id

theorem Grounds.change (ids : List ElementId) : Change (Grounds ids) :=
  ⟨fun _ h => h, fun first second h => second (first h)⟩

theorem explode_grounds {ids : List ElementId} (member : id ∈ ids) : Keeps (Grounds ids) (explode create id) := by
  intro m ⟨h, all⟩
  obtain ⟨-, precedes⟩ := (explode_operates create id m).orderly h.orderly
  exact ⟨explode_grounded create h (all id member), fun id' inside => (all id' inside).grows precedes.index⟩

theorem apply_grounded (s : Step) (scope : Scope) {m : Model} (h : m.Grounded)
    (all : ∀ id ∈ scope.ids, m.index.Valueless id) : (s.apply scope m).2.Grounded := by
  by_cases typed : ∃ create, s = .explodeType create
  · obtain ⟨create, rfl⟩ := typed
    have change := Grounds.change scope.ids
    have whole : Keeps (Grounds scope.ids) ((Step.explodeType create).apply scope) := by
      refine .liftBind change fun ids elements => ?_
      rw [ids_of_expect elements]
      exact .bind change (collect_keepsEach change fun _ => explode_grounds create) fun _ => .pure change _
    exact (whole m ⟨h, all⟩).1
  · have enlists := s.apply_enlists scope m
    refine h.operated (s.apply_operates scope m) (fun e member => ?_)
      (s.apply_provenance scope m fun create same => typed ⟨create, same⟩)
    rcases enlists e member with new | ⟨e', old, same⟩
    · exact all _ new
    · exact same ▸ h.entities e' old

end Step

/-! ## Scopes without values -/

namespace Model

theorem Grounded.stems {m : Model} {ids : List ElementId} {e : ElementId} (h : m.Grounded)
    (all : ∀ id ∈ ids, m.index.Valueless id) (stems : m.index.Stems ids e) : m.index.Valueless e := by
  obtain ⟨key, found, plain, owned⟩ := stems
  obtain ⟨element, stored, justified⟩ := h.orderly.coherent.stored found
  have home {c : Nat} {owner : ElementId} (found : m.index.find? (.classDef c) = some owner) :
      m.index.Valueless owner :=
    .intro (h.orderly.coherent.get?_classDef.mpr found) nofun nofun
  cases justified with
  | classDef => exact .intro stored nofun nofun
  | declaredMember cls | inheritedMember _ cls _ =>
    refine .intro stored plain fun p part => ?_
    cases part
    exact home cls
  | parameter | annotationUse | declaredType | typeArgument =>
    refine .intro stored nofun fun p part => ?_
    cases part
    exact all _ (owned _ rfl)
  | value => exact absurd rfl plain

theorem Grounded.provides {m : Model} {ids : List ElementId} {e : ElementId} (h : m.Grounded)
    (all : ∀ id ∈ ids, m.index.Valueless id) (provided : m.Provides ids e) : m.index.Valueless e := by
  cases provided with
  | kept member => exact all e member
  | keyed stems => exact h.stems all stems
  | origin member above => exact h.ancestor (all _ member) above
  | entity member element => exact element ▸ h.entities _ member

theorem grounded_confining : Confining Grounded fun m id => m.index.Valueless id where
  step s scope m h all := by
    have after := s.apply_grounded scope h all
    obtain ⟨-, precedes⟩ := (s.apply_operates scope m).orderly h.orderly
    refine ⟨after, fun id valueless => valueless.grows precedes.index, fun out given e member => ?_⟩
    have still : ∀ id ∈ scope.ids, (s.apply scope m).2.index.Valueless id :=
      fun id inside => (all id inside).grows precedes.index
    exact after.provides still (s.apply_provides scope m trivial out given e member)
  test p ids m h := by
    have operates := p.splitIn_operates ids m
    obtain ⟨-, precedes⟩ := operates.orderly h.orderly
    exact ⟨h.operated operates h.entities rfl, fun id valueless => valueless.grows precedes.index,
      fun _ _ _ member => absurd member List.not_mem_nil⟩

end Model

end ClassAtlas
