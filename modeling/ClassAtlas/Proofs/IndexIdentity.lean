import ClassAtlas.Proofs.Coherence
import ClassAtlas.Proofs.IndexOperations

/-! # The identity of elements

Keys and numbers of elements belong to each other one to one, and what a number stands for never changes,
whatever operations come first and whatever operations follow.
-/

namespace ClassAtlas

/-! ## Operations behind the guard -/

/-- An operation with a guard before every element that is interned. -/
def IndexOperation.performGuarded : IndexOperation → IndexState → Option IndexState
  | .annotations id, s => do
      let (_, ix) ← Guarded.annotations id s.index
      return { s with index := ix }
  | .parameters id, s => do
      let (_, ix) ← Guarded.parameters id s.index
      return { s with index := ix }
  | .members kind id inherited, s => do
      let (_, ix) ← Guarded.membersOf kind id inherited s.index
      return { s with index := ix }
  | .signature id, s =>
    match s.resolver.declaredType s.index id with
    | (none, r) => return { s with resolver := r }
    | (some type, r) => do
        let (_, ix) ← Guarded.intern (.signature id .declared) (.signature id type) s.index
        return ⟨ix, r⟩
  | .typeArguments id, s => do
      let (_, ix) ← Guarded.argumentsOf id s.index
      return { s with index := ix }
  | .values id type field, s => do
      let (_, ix) ← Guarded.annotationLiterals id type field s.index
      return { s with index := ix }
  | .synthesize type methods, s => do
      let (_, ix) ← Guarded.synthesizeClass type methods s.index
      return { s with index := ix }
  | .declaredType id, s => return { s with resolver := (s.resolver.declaredType s.index id).2 }
  | .erasure type, s => return { s with resolver := (s.resolver.erasure s.index.classes type).2 }

namespace IndexState

def performAllGuarded (ops : List IndexOperation) (s : IndexState) : Option IndexState :=
  ops.foldlM (fun s op => op.performGuarded s) s

def afterGuarded (classes : List ClassDeclaration) (ops : List IndexOperation) : Option IndexState := do
  let ix ← Guarded.ofClasses classes
  performAllGuarded ops { index := ix }

def Coherent (s : IndexState) : Prop := s.index.Coherent s.resolver

end IndexState

theorem IndexOperation.perform_accepted {s : IndexState} (h : s.Coherent) (op : IndexOperation) :
    op.performGuarded s = some (op.perform s) ∧ (op.perform s).Coherent ∧ s.index.Grows (op.perform s).index := by
  have interned {α : Type} {attempt : Option (α × ElementIndex)} {outcome : α × ElementIndex}
      (accepted : Accepted s.resolver s.index Prod.snd attempt outcome) :
      (attempt >>= fun out => some { s with index := out.2 }) = some { s with index := outcome.2 } ∧
        outcome.2.Coherent s.resolver ∧ s.index.Grows outcome.2 := by
    refine ⟨?_, accepted.coherent, accepted.grows⟩
    rw [accepted.passes]
    rfl
  have asked {r : SignatureResolver} (extension : s.resolver.Extends r) : s.index.Coherent r :=
    h.later (.refl _) rfl rfl extension
  cases op with
  | annotations id => exact interned (.annotations h id)
  | parameters id => exact interned (.parameters h id)
  | members kind id inherited => exact interned (.membersOf h kind id inherited)
  | signature id =>
    have extension := SignatureResolver.declaredType_extends s.index id s.resolver
    -- The answer is kept by every later index and resolver, so the element is the one of its key.
    have settled {type : TypeSignature} (given : (s.resolver.declaredType s.index id).1 = some type) :
        SignatureResolver.Settled s.index (s.resolver.declaredType s.index id).2 id type :=
      SignatureResolver.declaredType_settled h.owned given
    simp only [performGuarded, perform]
    generalize s.resolver.declaredType s.index id = answer at extension settled
    obtain ⟨declared, r⟩ := answer
    cases declared with
    | none => exact ⟨rfl, asked extension, .refl _⟩
    | some type =>
      have accepted := Accepted.intern (asked extension) (.declaredType (settled rfl))
      refine ⟨?_, accepted.coherent, accepted.grows⟩
      simp only [accepted.passes]
      rfl
  | typeArguments id => exact interned (.argumentsOf h id)
  | values id type field => exact interned (.annotationLiterals h id type field)
  | synthesize type methods => exact interned (.synthesizeClass h type methods)
  | declaredType id =>
    exact ⟨rfl, asked (SignatureResolver.declaredType_extends s.index id s.resolver), .refl _⟩
  | erasure type =>
    exact ⟨rfl, asked (SignatureResolver.erasure_extends s.index.classes type s.resolver), .refl _⟩

theorem IndexState.performAll_accepted {s : IndexState} (h : s.Coherent) (ops : List IndexOperation) :
    performAllGuarded ops s = some (performAll ops s) ∧ (performAll ops s).Coherent ∧
      s.index.Grows (performAll ops s).index := by
  induction ops generalizing s with
  | nil => exact ⟨rfl, h, .refl _⟩
  | cons op rest ih =>
    obtain ⟨passes, coherent, grows⟩ := op.perform_accepted h
    obtain ⟨passes', coherent', grows'⟩ := ih coherent
    refine ⟨?_, coherent', grows.trans grows'⟩
    rw [performAllGuarded, List.foldlM_cons, passes]
    exact passes'

theorem IndexState.after_accepted (classes : List ClassDeclaration) (ops : List IndexOperation) :
    afterGuarded classes ops = some (after classes ops) ∧ (after classes ops).Coherent ∧
      (ElementIndex.ofClasses classes).Grows (after classes ops).index := by
  have start := Accepted.ofClasses classes
  have coherent : IndexState.Coherent { index := .ofClasses classes } := start.coherent
  obtain ⟨passes, rest⟩ := performAll_accepted coherent ops
  refine ⟨?_, rest⟩
  rw [afterGuarded, start.passes]
  exact passes

/-! ## What coherence says of numbers, parents and origins -/

def Element.home? : Element → Option Nat
  | .classDef c => some c
  | .member _ declaring _ _ _ => some declaring
  | _ => none

namespace ElementIndex

/-- The identities of elements when the first `given` classes were given. -/
structure Identified (given : Nat) (ix : ElementIndex) : Prop where
  injective : ∀ {key key' id}, ix.find? key = some id → ix.find? key' = some id → key = key'
  numbers : ∀ id, (∃ key, ix.find? key = some id) ↔
    1 ≤ id.val ∧ id.val ≤ ix.discovered.length ∨ -(ix.synthetic.length : Int) < id.val ∧ id.val ≤ 0
  stored : ∀ id, (∃ key, ix.find? key = some id) ↔ ∃ element, ix.get? id = some element
  parents : ∀ {id element}, ix.get? id = some element →
    (∃ c, element = .classDef c) ∨ ∃ p parent, element.parent? = some p ∧ ix.get? p = some parent ∧
      (0 < id.val → p.val < id.val) ∧ (id.val ≤ 0 → id.val < p.val)
  signs : ∀ {id element}, ix.get? id = some element →
    (id.val ≤ 0 ↔ (∃ c, element.home? = some c ∧ given ≤ c) ∨ ∃ p, element.parent? = some p ∧ p.val ≤ 0)
  members : ∀ {id kind declaring position owner origin},
    ix.get? id = some (.member kind declaring position owner origin) →
    ∃ seenFrom, ix.get? owner = some (.classDef seenFrom) ∧ (origin.isSome ↔ seenFrom ≠ declaring) ∧
      ∀ o ∈ origin, ix.find? (.member kind declaring position declaring) = some o ∧
        ∃ home, ix.get? o = some (.member kind declaring position home none) ∧
          ix.get? home = some (.classDef declaring)

theorem derivesSynthetic_iff (ix : ElementIndex) (element : Element) :
    ix.derivesSynthetic element = true ↔
      (∃ c, element.home? = some c ∧ ix.given ≤ c) ∨ ∃ p, element.parent? = some p ∧ p.val ≤ 0 := by
  cases element <;> simp [derivesSynthetic, Element.home?, Element.parent?, ElementId.isSynthetic]

theorem Coherent.identified {ix : ElementIndex} {r : SignatureResolver} (h : ix.Coherent r) :
    ix.Identified ix.given := by
  have stored (id : ElementId) : (∃ key, ix.find? key = some id) ↔ ∃ element, ix.get? id = some element := by
    constructor
    · rintro ⟨key, found⟩
      obtain ⟨element, stored, -⟩ := h.stored found
      exact ⟨element, stored⟩
    · rintro ⟨element, stored⟩
      obtain ⟨key, found, -⟩ := h.keyed stored
      exact ⟨key, found⟩
  refine ⟨find?_inj, fun id => (stored id).trans (ix.exists_get?_iff id), stored, ?_, ?_, ?_⟩
  · intro id element here
    obtain ⟨key, -, justified⟩ := h.keyed here
    have below {p : ElementId} (parent : element.parent? = some p) : ∃ p parent, element.parent? = some p ∧
        ix.get? p = some parent ∧ (0 < id.val → p.val < id.val) ∧ (id.val ≤ 0 → id.val < p.val) := by
      obtain ⟨e, stored⟩ := justified.parent parent
      rw [get?_eq_row?] at here
      obtain ⟨entry, place, rfl⟩ := Option.map_eq_some_iff.mp here
      exact ⟨p, e, parent, stored, h.earlier place parent⟩
    cases element with
    | classDef c => exact .inl ⟨c, rfl⟩
    | member | parameter | annotationUse | signature | value => exact .inr (below rfl)
  · -- The sign of a number tells which of the two lists it counts in.
    intro id element here
    rw [← derivesSynthetic_iff]
    rw [get?_eq_row?] at here
    obtain ⟨entry, place, rfl⟩ := Option.map_eq_some_iff.mp here
    unfold row? at place
    split at place
    · have given := h.discovered entry (List.mem_of_getElem? place)
      rw [given]
      constructor
      · omega
      · exact fun madeUp => nomatch madeUp
    · have madeUp := h.synthetic entry (List.mem_of_getElem? place)
      rw [madeUp]
      constructor
      · exact fun _ => rfl
      · omega
  · intro id kind declaring position owner origin here
    obtain ⟨key, -, justified⟩ := h.keyed here
    have class? {c owner} (home : ix.find? (.classDef c) = some owner) : ix.get? owner = some (.classDef c) := by
      obtain ⟨element, stored, justified⟩ := h.stored home
      cases justified
      exact stored
    cases justified with
    | declaredMember home => exact ⟨declaring, class? home, by simp, by simp⟩
    | @inheritedMember _ _ _ seenFrom _ origin elsewhere home declared =>
      refine ⟨seenFrom, class? home, by simp [elsewhere], ?_⟩
      rintro o ⟨⟩
      refine ⟨declared, ?_⟩
      obtain ⟨element, stored, justified⟩ := h.stored declared
      cases justified with
      | @declaredMember _ _ _ owner home => exact ⟨owner, stored, class? home⟩
      | inheritedMember elsewhere => exact absurd rfl elsewhere

end ElementIndex

end ClassAtlas
