import ClassAtlas.Proofs.InheritedCalls
import ClassAtlas.Proofs.StepCalls

/-! # Classes that are made up

A class is made up when it is asked for under a name that no class has, with the methods that this request
names. Later requests for it get the class as it is. A made-up class goes by the dotted form of the name, so
a name with a slash in it is never found and is made up again each time it is asked for.
-/

namespace ClassAtlas

/-! ## Names with slashes -/

namespace TypeName

def dotted (t : TypeName) : TypeName := .ofInternal t.text

theorem slash_not_mem_ofInternal (s : String) : '/' ∉ (ofInternal s).text.toList := by
  simp only [ofInternal, exchange, String.toList_ofList, List.mem_map, not_exists, not_and]
  intro c _
  split
  · simp
  · next other => exact other

theorem dotted_eq_self_iff {t : TypeName} : t.dotted = t ↔ '/' ∉ t.text.toList := by
  constructor
  · intro same
    rw [← same]
    exact slash_not_mem_ofInternal t.text
  · intro slashless
    have kept : ∀ c ∈ t.text.toList, (if c = '/' then '.' else c) = c := by
      intro c member
      have other : c ≠ '/' := fun same => slashless (same ▸ member)
      exact if_neg other
    rw [dotted, ofInternal, exchange, List.map_congr_left kept, List.map_id', String.ofList_toList]

theorem ofInternal_toInternal (t : TypeName) : ofInternal t.toInternal = t.dotted := by
  simp only [dotted, ofInternal, toInternal, exchange, String.toList_ofList, List.map_map, mk.injEq]
  congr 2
  funext c
  by_cases dot : c = '.' <;> simp [dot]

end TypeName

theorem ElementIndex.typeName_stub (t : TypeName) (methods : List String) : (stub t methods).typeName = t.dotted :=
  t.ofInternal_toInternal

namespace ClassPool

variable {pool : ClassPool} {t : TypeName} (requests : List SynthesisTarget)

theorem indexOf?_eq_none_iff : pool.indexOf? t = none ↔ ∀ d ∈ pool, d.typeName ≠ t := by
  simp [indexOf?]

theorem indexOf?_of_find? {d : ClassDeclaration} (found : pool.find? (·.typeName == t) = some d) :
    ∃ c, pool.indexOf? t = some c ∧ pool[c]? = some d := by
  obtain ⟨named, c, inside, rfl, earlier⟩ := List.find?_eq_some_iff_getElem.mp found
  refine ⟨c, List.findIdx?_eq_some_iff_getElem.mpr ⟨inside, named, fun j less => ?_⟩,
    List.getElem?_eq_getElem inside⟩
  simpa using earlier j less

theorem indexOf?_of_slash (slash : '/' ∈ t.text.toList) : pool.indexOf? t = none := by
  refine indexOf?_eq_none_iff.mpr fun d _ same => ?_
  rw [← same] at slash
  exact TypeName.slash_not_mem_ofInternal d.name slash

/-! ## What requests make of a pool -/

def withClass (pool : ClassPool) (request : SynthesisTarget) : ClassPool :=
  if (pool.indexOf? request.type).isSome then pool
  else pool ++ [ElementIndex.stub request.type request.methods]

theorem withClass_known (request : SynthesisTarget) {c : Nat} (known : pool.indexOf? request.type = some c) :
    pool.withClass request = pool := by
  rw [withClass, if_pos (by rw [known]; rfl)]

theorem withClass_unknown (request : SynthesisTarget) (unknown : pool.indexOf? request.type = none) :
    pool.withClass request = pool ++ [ElementIndex.stub request.type request.methods] := by
  rw [withClass, if_neg (by simp [unknown])]

theorem begins_withClasses (pool : ClassPool) : pool <+: requests.foldl withClass pool := by
  induction requests generalizing pool with
  | nil => exact List.prefix_rfl
  | cons request rest ih =>
    refine .trans ?_ (ih _)
    cases known : pool.indexOf? request.type with
    | some c => rw [withClass_known request known]
    | none =>
      rw [withClass_unknown request known]
      exact List.prefix_append _ _

theorem find?_withClasses (unknown : pool.indexOf? t = none) :
    (requests.foldl withClass pool).find? (·.typeName == t) =
      (requests.find? (·.type.dotted == t)).map fun r => ElementIndex.stub r.type r.methods := by
  have absent {pool : ClassPool} (unknown : pool.indexOf? t = none) : pool.find? (·.typeName == t) = none := by
    simpa [indexOf?_eq_none_iff] using unknown
  induction requests generalizing pool with
  | nil => exact absent unknown
  | cons request rest ih =>
    rw [List.foldl_cons, List.find?_cons]
    by_cases same : request.type.dotted = t
    · -- Under either spelling there is no such class yet.
      have new : pool.indexOf? request.type = none := by
        by_cases slash : '/' ∈ request.type.text.toList
        · exact indexOf?_of_slash slash
        · rw [← TypeName.dotted_eq_self_iff.mpr slash, same]
          exact unknown
      obtain ⟨more, grown⟩ := begins_withClasses rest (pool.withClass request)
      have named : (ElementIndex.stub request.type request.methods).typeName = t :=
        (ElementIndex.typeName_stub _ _).trans same
      rw [← grown, withClass_unknown request new, List.find?_append, List.find?_append, absent unknown]
      simp [named, same]
    · have still : (pool.withClass request).indexOf? t = none := by
        rw [withClass]
        split
        · exact unknown
        · rw [indexOf?_eq_none_iff] at unknown ⊢
          intro d member
          rcases List.mem_append.mp member with old | new
          · exact unknown d old
          · rw [List.mem_singleton.mp new, ElementIndex.typeName_stub]
            exact same
      rw [ih still, beq_false_of_ne same]

end ClassPool

/-! ## Asking for a class -/

namespace ElementIndex

variable {ix : ElementIndex} {t : TypeName}

theorem Listed.complete (h : ix.Listed) : ix.Complete := by
  intro c inside
  obtain ⟨d, source, others, methods, declared, found, -, -, each⟩ := h.each c inside
  refine ⟨by rw [found]; rfl, fun {d'} declared' i less => ?_⟩
  cases Option.some.inj (declared.symm.trans declared')
  obtain ⟨id, -, key⟩ := each.all i (List.mem_range.mpr less)
  rw [key]
  rfl

theorem Complete.classByName? (complete : ix.Complete) {c : Nat} (position : ix.classes.indexOf? t = some c) :
    ∃ id, ix.find? (.classDef c) = some id ∧ ix.classByName? t = some id := by
  have inside : c < ix.classes.length := ClassPool.indexOf?_lt position
  obtain ⟨id, found⟩ := Option.isSome_iff_exists.mp (complete c inside).cls
  refine ⟨id, found, ?_⟩
  rw [ElementIndex.classByName?, position]
  exact found

theorem synthesizeClass_known {id : ElementId} (found : ix.classByName? t = some id) (methods : List String) :
    ix.synthesizeClass t methods = (id, ix) := by
  simp only [synthesizeClass, found]

theorem synthesizeClass_unknown (unknown : ix.classes.indexOf? t = none) (methods : List String) :
    (ix.synthesizeClass t methods).2.classes = ix.classes ++ [stub t methods] ∧
      (ix.synthesizeClass t methods).2.find? (.classDef ix.classes.length) =
        some (ix.synthesizeClass t methods).1 := by
  have absent : ix.classByName? t = none := by
    rw [classByName?, unknown]
    rfl
  have fills := (discoverClass_fills ix.classes.length
    { ix with classes := ix.classes ++ [stub t methods] }).trans (intern_fills (.classDef (c := ix.classes.length)) _)
  simp only [synthesizeClass, absent]
  exact ⟨fills.sameClasses, find?_intern _ _ _⟩

theorem synthesizeClass_classes (complete : ix.Complete) (t : TypeName) (methods : List String) :
    (ix.synthesizeClass t methods).2.classes = ix.classes.withClass ⟨t, methods⟩ := by
  cases position : ix.classes.indexOf? t with
  | some c =>
    obtain ⟨id, -, found⟩ := complete.classByName? position
    rw [synthesizeClass_known found, ClassPool.withClass_known ⟨t, methods⟩ position]
  | none => rw [(synthesizeClass_unknown position methods).1, ClassPool.withClass_unknown ⟨t, methods⟩ position]

theorem synthesizeClass_found (complete : ix.Complete) (slashless : '/' ∉ t.text.toList) (methods : List String) :
    (ix.synthesizeClass t methods).2.classByName? t = some (ix.synthesizeClass t methods).1 := by
  cases position : ix.classes.indexOf? t with
  | some c =>
    obtain ⟨id, -, found⟩ := complete.classByName? position
    rw [synthesizeClass_known found]
    exact found
  | none =>
    obtain ⟨classes, found⟩ := synthesizeClass_unknown position methods
    have named : (stub t methods).typeName = t :=
      (typeName_stub t methods).trans (TypeName.dotted_eq_self_iff.mpr slashless)
    have last : (ix.synthesizeClass t methods).2.classes.indexOf? t = some ix.classes.length := by
      rw [ClassPool.indexOf?] at position ⊢
      simp [classes, List.findIdx?_append, position, named]
    rw [classByName?, last]
    exact found

theorem synthesizeClass_lost (slash : '/' ∈ t.text.toList) (methods : List String) :
    let once := ix.synthesizeClass t methods
    let twice := once.2.synthesizeClass t methods
    once.2.classByName? t = none ∧ twice.1 ≠ once.1 ∧ twice.2.classes = once.2.classes ++ [stub t methods] := by
  intro once twice
  obtain ⟨classes, found⟩ := ix.synthesizeClass_unknown (ClassPool.indexOf?_of_slash slash) methods
  obtain ⟨classes', found'⟩ := once.2.synthesizeClass_unknown (ClassPool.indexOf?_of_slash slash) methods
  refine ⟨?_, fun same => ?_, classes'⟩
  · rw [classByName?, ClassPool.indexOf?_of_slash slash]
    rfl
  · have still : twice.2.find? (.classDef ix.classes.length) = some once.1 :=
      (synthesizeClass_develops t methods once.2).keys found
    have key := find?_inj still (found'.trans (congrArg some same))
    have size : once.2.classes.length = ix.classes.length + 1 := by
      rw [show once.2.classes = _ from classes, List.length_append, List.length_singleton]
    rw [ElementKey.classDef.injEq] at key
    omega

end ElementIndex

/-- In any state of an index, a class that was asked for is found by its name and asking again changes nothing if
    and only if there is no slash in the name. A name with a slash is not found, and every further request makes
    up one class more. There are no other states in runs of pipelines. -/
theorem synthesize_again_iff (classes : List ClassDeclaration) :
    (∀ ops (t : TypeName) methods,
      let ix := (IndexState.after classes ops).index
      let once := ix.synthesizeClass t methods
      let twice := once.2.synthesizeClass t methods
      (once.2.classByName? t = some once.1 ∧ twice = once ↔ '/' ∉ t.text.toList) ∧
        ('/' ∈ t.text.toList → once.2.classByName? t = none ∧ twice.1 ≠ once.1 ∧
          twice.2.classes = once.2.classes ++ [ElementIndex.stub t methods])) ∧
      ∀ settings (p : Pipeline) c, ActionCall.Reaches ⟨p.action, .template, .ofClasses settings classes⟩ c →
        (∃ ops, c.start.model.indexState = .after classes ops) ∧
          ∃ ops, (c.action.execute c.scope c.start).2.model.indexState = .after classes ops := by
  refine ⟨fun ops t methods => ⟨⟨fun ⟨found, _⟩ slash => ?_, fun slashless => ?_⟩,
    fun slash => ElementIndex.synthesizeClass_lost slash methods⟩, fun settings p c reached => reached.operated⟩
  · rw [(ElementIndex.synthesizeClass_lost slash methods).1] at found
    cases found
  · have complete := (IndexState.after_listed classes ops).complete
    have found := ElementIndex.synthesizeClass_found complete slashless methods
    exact ⟨found, ElementIndex.synthesizeClass_known found methods⟩

/-- Asking twice for a name with a slash gives two classes. -/
theorem SlashName.made_up_twice :
    let once := (IndexState.after [] []).index.synthesizeClass ⟨"a/B"⟩ []
    '/' ∈ "a/B".toList ∧ once.2.classByName? ⟨"a/B"⟩ = none ∧
      (once.2.synthesizeClass ⟨"a/B"⟩ []).1 ≠ once.1 := by
  have slash : '/' ∈ "a/B".toList := by simp
  obtain ⟨unknown, another, -⟩ := ((synthesize_again_iff []).1 [] ⟨"a/B"⟩ []).2 slash
  exact ⟨slash, unknown, another⟩

end ClassAtlas
