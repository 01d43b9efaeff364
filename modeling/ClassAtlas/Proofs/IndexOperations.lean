import ClassAtlas.Proofs.Runs

/-! # What runs do to the index

A run reaches the index and the resolver through a few operations only. Any state of the two that occurs
in a run, also in one that fails, comes from the first one by operations in a row.
-/

namespace ClassAtlas

/-! ## Operations -/

/-- The elements, and what has been found out about types. -/
structure IndexState where
  index : ElementIndex
  resolver : SignatureResolver := {}

/-- What steps and tests ask of the index and of the resolver. -/
inductive IndexOperation where
  | annotations (id : ElementId)
  | parameters (id : ElementId)
  | members (kind : MemberKind) (id : ElementId) (inherited : Bool)
  | signature (id : ElementId)
  | typeArguments (id : ElementId)
  | values (id : ElementId) (type : TypeName) (field : String)
  | synthesize (type : TypeName) (methods : List String)
  | declaredType (id : ElementId)
  | erasure (type : TypeSignature)

namespace IndexOperation

def perform : IndexOperation → IndexState → IndexState
  | .annotations id, s => { s with index := (s.index.annotations id).2 }
  | .parameters id, s => { s with index := (s.index.parameters id).2 }
  | .members kind id inherited, s => { s with index := (s.index.membersOf kind id inherited).2 }
  | .signature id, s =>
    match s.resolver.declaredType s.index id with
    | (none, r) => { s with resolver := r }
    | (some type, r) => ⟨(s.index.internSignature id .declared type).2, r⟩
  | .typeArguments id, s => { s with index := (Step.argumentsOf id s.index).2 }
  | .values id type field, s => { s with index := (PropertyStrategy.annotationLiterals id type field s.index).2 }
  | .synthesize type methods, s => { s with index := (s.index.synthesizeClass type methods).2 }
  | .declaredType id, s => { s with resolver := (s.resolver.declaredType s.index id).2 }
  | .erasure type, s => { s with resolver := (s.resolver.erasure s.index.classes type).2 }

theorem perform_cases (op : IndexOperation) (s : IndexState) :
    (∃ type methods, op = .synthesize type methods) ∨
      s.index.Fills (op.perform s).index ∧ ((op.perform s).resolver = s.resolver ∨
        (∃ id, (op.perform s).resolver = (s.resolver.declaredType s.index id).2) ∨
        ∃ type, (op.perform s).resolver = (s.resolver.erasure s.index.classes type).2) := by
  cases op with
  | annotations id => exact .inr ⟨ElementIndex.annotations_fills id _, .inl rfl⟩
  | parameters id => exact .inr ⟨ElementIndex.parameters_fills id _, .inl rfl⟩
  | members kind id inherited => exact .inr ⟨ElementIndex.membersOf_fills kind id inherited _, .inl rfl⟩
  | signature id =>
    refine .inr ⟨?_, .inr (.inl ⟨id, ?_⟩)⟩
    all_goals
      simp only [perform]
      generalize s.resolver.declaredType s.index id = answer
      obtain ⟨declared, r⟩ := answer
      cases declared
    · exact .refl _
    · exact ElementIndex.intern_fills .signature _
    · rfl
    · rfl
  | typeArguments id => exact .inr ⟨Step.argumentsOf_fills id _, .inl rfl⟩
  | values id type field => exact .inr ⟨PropertyStrategy.annotationLiterals_fills id type field _, .inl rfl⟩
  | synthesize type methods => exact .inl ⟨type, methods, rfl⟩
  | declaredType id => exact .inr ⟨.refl _, .inr (.inl ⟨id, rfl⟩)⟩
  | erasure type => exact .inr ⟨.refl _, .inr (.inr ⟨type, rfl⟩)⟩

end IndexOperation

namespace IndexState

def performAll (ops : List IndexOperation) (s : IndexState) : IndexState := ops.foldl (fun s op => op.perform s) s

def after (classes : List ClassDeclaration) (ops : List IndexOperation) : IndexState :=
  performAll ops { index := .ofClasses classes }

theorem after_append (classes : List ClassDeclaration) (ops more : List IndexOperation) :
    after classes (ops ++ more) = performAll more (after classes ops) :=
  List.foldl_append

def Leads (s s' : IndexState) : Prop := ∃ ops, s' = s.performAll ops

theorem Leads.change : Change Leads where
  refl s := ⟨[], rfl⟩
  trans := by
    rintro s s' s'' ⟨ops, rfl⟩ ⟨ops', rfl⟩
    exact ⟨ops ++ ops', List.foldl_append.symm⟩

theorem Leads.of (s : IndexState) (op : IndexOperation) : s.Leads (op.perform s) := ⟨[op], rfl⟩

end IndexState

namespace Model

def indexState (m : Model) : IndexState := ⟨m.index, m.caches.resolver⟩

/-- Operations lead from one model's index and resolver to the other's. -/
def Operates (m m' : Model) : Prop := m.indexState.Leads m'.indexState

namespace Operates

theorem change : Change Operates := ⟨fun m => IndexState.Leads.change.refl m.indexState, IndexState.Leads.change.trans⟩

theorem onIndex {α : Type} {f : ElementIndex → α × ElementIndex}
    (leads : ∀ s : IndexState, s.Leads { s with index := (f s.index).2 }) : Keeps Operates (Model.onIndex f) :=
  fun m => leads m.indexState

theorem onResolver {α : Type} {f : ElementIndex → SignatureResolver → α × SignatureResolver}
    (leads : ∀ s : IndexState, s.Leads { s with resolver := (f s.index s.resolver).2 }) :
    Keeps Operates (Model.onResolver f) :=
  fun m => leads m.indexState

end Operates

end Model

/-! ## Elements -/

namespace Step

open IndexState (Leads)
open Model (Operates)

theorem gather_leads {f : ElementId → ElementIndex → List ElementId × ElementIndex}
    (each : ∀ id (s : IndexState), s.Leads { s with index := (f id s.index).2 }) (ids : List ElementId)
    (s : IndexState) : s.Leads { s with index := (gather f ids s.index).2 } := by
  induction ids generalizing s with
  | nil => exact Leads.change.refl s
  | cons id rest ih => exact Leads.change.trans (each id s) (ih _)

theorem annotationsOfType_leads (type : Option TypeName) (id : ElementId) (s : IndexState) :
    s.Leads { s with index := (annotationsOfType type id s.index).2 } := by
  cases type <;> exact Leads.of s (.annotations id)

theorem classNamed_leads (create : Bool) (t : TypeName) (s : IndexState) :
    s.Leads { s with index := (classNamed create t s.index).2 } := by
  unfold classNamed
  split
  · exact Leads.change.refl s
  · split
    · exact Leads.of s (.synthesize t [])
    · exact Leads.change.refl s

theorem synthesizeAll_leads (targets : List SynthesisTarget) (s : IndexState) :
    s.Leads { s with index := (synthesizeAll targets s.index).2 } := by
  induction targets generalizing s with
  | nil => exact Leads.change.refl s
  | cons t rest ih => exact Leads.change.trans (Leads.of s (.synthesize t.type t.methods)) (ih _)

theorem concreteClass_leads (type : TypeSignature) (s : IndexState) :
    s.Leads { s with resolver := (s.resolver.concreteClass s.index.classes type).2 } := by
  unfold SignatureResolver.concreteClass
  split
  · exact Leads.change.refl s
  · exact Leads.of s (.erasure type)

theorem declaredSignature_operates (id : ElementId) : Keeps Operates (declaredSignature id) := by
  intro m
  have whole : (declaredSignature id m).2.indexState = IndexOperation.perform (.signature id) m.indexState := by
    unfold declaredSignature
    rw [Operation.bind_apply]
    simp only [Model.onResolver, Caches.resolve, IndexOperation.perform, Model.indexState]
    generalize m.caches.resolver.declaredType m.index id = answer
    obtain ⟨declared, r⟩ := answer
    cases declared <;> rfl
  exact ⟨[.signature id], whole⟩

theorem explode_operates (create : Bool) (id : ElementId) : Keeps Operates (explode create id) :=
  explode_keepsParts Operates.change (Operates.onResolver fun s => Leads.of s (.declaredType id))
    (fun type => Operates.onResolver (concreteClass_leads type)) (fun t => Operates.onIndex (classNamed_leads create t))
    fun m _ => Operates.change.refl m

end Step

/-! ## Properties and tests -/

namespace PropertyStrategy

open IndexState (Leads)

theorem read_leads (id : ElementId) (strategy : PropertyStrategy) (s : IndexState) :
    s.Leads ⟨(strategy.read id s.index s.resolver).2.1, (strategy.read id s.index s.resolver).2.2⟩ := by
  cases strategy with
  | name | label | literal => exact Leads.change.refl s
  | annotationValue type field => exact Leads.of s (.values id type field)
  | resolvedType => exact Leads.of s (.declaredType id)
  | erasedType =>
    have first := Leads.of s (.declaredType id)
    simp only [read]
    simp only [IndexOperation.perform] at first
    generalize s.resolver.declaredType s.index id = answer at first
    obtain ⟨declared, r⟩ := answer
    cases declared with
    | none => exact first
    | some type => exact Leads.change.trans first (Leads.of _ (.erasure type))

end PropertyStrategy

theorem PropertySpec.readAll_leads (id : ElementId) (specs : List PropertySpec) (s : IndexState) :
    s.Leads ⟨(readAll id specs s.index s.resolver).2.1, (readAll id specs s.index s.resolver).2.2⟩ := by
  induction specs generalizing s with
  | nil => exact IndexState.Leads.change.refl s
  | cons spec rest ih => exact IndexState.Leads.change.trans (spec.value.read_leads id s) (ih _)

theorem PropertySpec.evaluate_operates (specs : List PropertySpec) (id : ElementId) :
    Keeps Model.Operates (evaluate specs id) :=
  fun m => readAll_leads id specs m.indexState

namespace Predicate

open IndexState (Leads)

variable (ix : ElementIndex)

/-- Remembered work that operations lead to. -/
def Asks (ix : ElementIndex) (c c' : Caches) : Prop := Leads ⟨ix, c.resolver⟩ ⟨ix, c'.resolver⟩

theorem Asks.change : Change (Asks ix) :=
  ⟨fun _ => Leads.change.refl _, Leads.change.trans⟩

theorem declaredClass?_asks (id : ElementId) (c : Caches) : Asks ix c (c.declaredClass? ix id).2 := by
  have first := Leads.of ⟨ix, c.resolver⟩ (.declaredType id)
  simp only [Asks, Caches.declaredClass?, Caches.resolve]
  simp only [IndexOperation.perform] at first
  generalize c.resolver.declaredType ix id = answer at first
  obtain ⟨declared, r⟩ := answer
  cases declared with
  | none => exact first
  | some type => exact Leads.change.trans first (Leads.of _ (.erasure type))

theorem pattern_asks (text : String) (c : Caches) : Asks ix c (c.pattern text).2 := by
  rw [Asks, c.pattern_resolver]
  exact Leads.change.refl _

theorem splitIn_operates (p : Predicate) (ids : List ElementId) : Keeps Model.Operates (p.splitIn ids) :=
  fun m => split_keeps (Asks.change m.index) (declaredClass?_asks m.index) (pattern_asks m.index) m.entities p ids
    m.caches

end Predicate

/-! ## Runs -/

namespace Step

open Model (Operates)

theorem apply_operates (s : Step) (scope : Scope) : Keeps Operates (s.apply scope) := by
  have change := Operates.change
  cases s with
  | identity => exact .pure change _
  | classes => exact .checked change fun _ => .get change
  | elementsOf type => exact .bind change (.get change) fun _ => .pure change _
  | methods inherited =>
    exact .checked change fun ids => Operates.onIndex
      (gather_leads (fun id s => .of s (.members .method id inherited)) ids)
  | fields inherited =>
    exact .checked change fun ids => Operates.onIndex
      (gather_leads (fun id s => .of s (.members .field id inherited)) ids)
  | parameters => exact .checked change fun ids => Operates.onIndex (gather_leads (fun id s => .of s (.parameters id)) ids)
  | annotations type => exact .checked change fun ids => Operates.onIndex (gather_leads (annotationsOfType_leads type) ids)
  | signature => exact .checked change (collect_keeps change declaredSignature_operates)
  | typeArguments =>
    exact .checked change fun ids => Operates.onIndex (gather_leads (fun id s => .of s (.typeArguments id)) ids)
  | explodeType create => exact .checked change (collect_keeps change (explode_operates create))
  | ascend kind => exact .checked change fun _ => .get change
  | filter predicate => exact .checked change predicate.splitIn_operates
  | registerEntity type label properties =>
    exact .checked change (onEach_keeps change fun id =>
      registerAs_keeps change (PropertySpec.evaluate_operates properties id) fun _ => change.refl _)
  | updateEntity type label properties =>
    exact .checked change (onEach_keeps change fun id =>
      updateFrom_keeps change (PropertySpec.evaluate_operates properties id) fun m _ _ _ => change.refl m)
  | associate parent key child =>
    exact .checked change (onEach_keeps change fun _ => associateAt_keeps change fun m _ => change.refl m)
  | synthesize targets =>
    exact .checked change fun _ => Operates.onIndex (synthesizeAll_leads targets)
  | relate kind source target key backtrack =>
    exact .bind change (.update fun m => change.refl m) fun _ => .pure change _

end Step

theorem Model.Operates.running : Running Model.Operates :=
  ⟨change, Step.apply_operates, Predicate.splitIn_operates⟩

theorem ActionCall.Reaches.operated {settings : Settings} {classes : List ClassDeclaration} {a : Action}
    {c : ActionCall} (reached : Reaches ⟨a, .template, .ofClasses settings classes⟩ c) :
    (∃ ops, c.start.model.indexState = .after classes ops) ∧
      ∃ ops, (c.action.execute c.scope c.start).2.model.indexState = .after classes ops := by
  have start := reached.keeps Model.Operates.running
  have run := c.action.execute_keeps Model.Operates.running c.scope c.start
  exact ⟨start, Model.Operates.change.trans start run⟩

end ClassAtlas
