import ClassAtlas.Proofs.ParseJournals

/-! # Every signature is parsed once

Between lookups a resolver remembers, with each declaration, the classes around it. So a lookup adds just
what it is for. Calls of a resolver come down to lookups, and from the journals of these it follows that
every declaration that calls reach is parsed once, and that what is remembered is what the parses gave.
-/

namespace ClassAtlas

namespace SignatureResolver

variable {pool : ClassPool} {c x : Nat} {r r' : SignatureResolver}

/-- What a lookup is for: classes with those around them, a member with the classes around it, or the classes
    on the way to a supertype with those around them. -/
def Lookup.Reaches (pool : ClassPool) : Lookup → Declaration → Prop
  | .classes cs, d => ∃ c ∈ cs, ∃ x, pool.Around c x ∧ d = .ofClass x
  | .member kind c position, d => d = .ofMember kind c position ∨ ∃ x, pool.Around c x ∧ d = .ofClass x
  | .bindings low high, d => ∃ c ∈ stepClasses pool low high, ∃ x, pool.Around c x ∧ d = .ofClass x

/-! ## What is remembered -/

theorem parseClass_bindings (c : Nat) (scope : TypeScope) (r : SignatureResolver) :
    (parseClass pool c scope r).2.bindings = r.bindings := by
  rw [parseClass_eq, countIf]
  split <;> rfl

theorem pushClasses_bindings {resolve : Nat → SignatureResolver → ClassSignature × SignatureResolver}
    (each : ∀ c r, (resolve c r).2.bindings = r.bindings) (cs : List Nat) (scope : TypeScope)
    (r : SignatureResolver) : (pushClasses pool resolve cs scope r).2.bindings = r.bindings := by
  induction cs generalizing scope r with
  | nil => rfl
  | cons c rest ih => exact (ih _ _).trans (each c r)

theorem resolveClass_bindings (fuel c : Nat) (r : SignatureResolver) :
    (resolveClass pool fuel c r).2.bindings = r.bindings := by
  induction fuel generalizing c r with
  | zero => rfl
  | succ fuel ih =>
    rw [resolveClass]
    cases Ordered.get? c r.classes with
    | some s => rfl
    | none => exact (parseClass_bindings c _ _).trans (pushClasses_bindings ih _ _ _)

theorem settleAll_bindings (cs : List Nat) (r : SignatureResolver) :
    (settleAll pool cs r).bindings = r.bindings := by
  induction cs generalizing r with
  | nil => rfl
  | cons c cs ih => exact (ih _).trans (resolveClass_bindings _ c r)

def Declaration.home : Declaration → Nat
  | .ofClass c => c
  | .ofMember _ c _ => c

/-- Between lookups, with a declaration the classes around it are remembered, and with bindings the classes
    that they go along. -/
structure Kept (pool : ClassPool) (r : SignatureResolver) : Prop where
  around : ∀ d x, (r.replyOf d).isSome → pool.Around d.home x → (r.replyOf (.ofClass x)).isSome
  steps : ∀ low high, (Ordered.get? (low, high) r.bindings).isSome →
    ∀ c ∈ stepClasses pool low high, (r.replyOf (.ofClass c)).isSome

theorem Kept.initial (pool : ClassPool) : Kept pool {} where
  around d x there := by rcases d with _ | ⟨_ | _, _, _⟩ <;> cases there
  steps _ _ there := by cases there

theorem replyOf_ofClass_isSome : (r.replyOf (.ofClass c)).isSome = (r.known c).isSome := by
  rw [replyOf, Option.isSome_map]

theorem Kept.change {reached : Declaration → Prop} (kept : Kept pool r)
    (remembers : ∀ d, (r'.replyOf d).isSome ↔ (r.replyOf d).isSome ∨ reached d)
    (closed : ∀ d x, reached d → pool.Around d.home x → reached (.ofClass x))
    (steps : ∀ low high, (Ordered.get? (low, high) r'.bindings).isSome →
      (Ordered.get? (low, high) r.bindings).isSome ∨ ∀ c ∈ stepClasses pool low high, reached (.ofClass c)) :
    Kept pool r' := by
  constructor
  · intro d x there around
    rw [remembers] at there ⊢
    exact there.imp (kept.around d x · around) (closed d x · around)
  · intro low high there c member
    rw [remembers]
    exact (steps low high there).imp (kept.steps low high · c member) (· c member)

theorem Kept.replyOf_settle (kept : Kept pool r) (c : Nat) (d : Declaration) :
    ((settle pool c r).replyOf d).isSome ↔ (r.replyOf d).isSome ∨ ∃ x, pool.Around c x ∧ d = .ofClass x := by
  by_cases isClass : ∃ y, d = .ofClass y
  · obtain ⟨y, rfl⟩ := isClass
    simp only [replyOf_ofClass_isSome, Declaration.ofClass.injEq, exists_eq_right']
    cases found : r.known c with
    | some s =>
      have begun : (r.replyOf (.ofClass c)).isSome := by
        rw [replyOf_ofClass_isSome, found]
        rfl
      have around : pool.Around c y → (r.known y).isSome := fun around =>
        replyOf_ofClass_isSome ▸ kept.around _ y begun around
      rw [settle_of_known found]
      exact (or_iff_left_of_imp around).symm
    | none =>
      by_cases around : pool.Around c y
      · simp [around, settle_around found around]
      · rw [settle, (classSignature_actsOn pool c).frame r y around]
        simp [around]
  · have noClass : ∀ x, d ≠ .ofClass x := fun x same => isClass ⟨x, same⟩
    have same : (settle pool c r).replyOf d = r.replyOf d := replyOf_settleAll noClass [c] r
    simp [same, noClass]

theorem Kept.settleAll (kept : Kept pool r) (cs : List Nat) : Kept pool (settleAll pool cs r) ∧
    ∀ d, ((settleAll pool cs r).replyOf d).isSome ↔ (r.replyOf d).isSome ∨ (Lookup.classes cs).Reaches pool d := by
  induction cs generalizing r with
  | nil => exact ⟨kept, fun d => by simp [SignatureResolver.settleAll, Lookup.Reaches]⟩
  | cons c cs ih =>
    have first : Kept pool (settle pool c r) := by
      refine kept.change (kept.replyOf_settle c) ?_ ?_
      · rintro _ x ⟨y, around, rfl⟩ further
        exact ⟨x, around.trans further, rfl⟩
      · intro low high there
        have same : (settle pool c r).bindings = r.bindings := settleAll_bindings [c] r
        exact .inl (same ▸ there)
    obtain ⟨rest, remembers⟩ := ih first
    refine ⟨rest, fun d => ?_⟩
    rw [SignatureResolver.settleAll, remembers, kept.replyOf_settle, or_assoc]
    simp [Lookup.Reaches]

theorem reaches_scope (pool : ClassPool) (c : Nat) (d : Declaration) :
    (Lookup.classes (pool.outerChain c ++ [c])).Reaches pool d ↔ ∃ x, pool.Around c x ∧ d = .ofClass x := by
  constructor
  · rintro ⟨y, member, x, further, rfl⟩
    rcases List.mem_append.mp member with outer | inner
    · exact ⟨x, (ClassPool.Around.of_mem outer).trans further, rfl⟩
    · exact ⟨x, List.mem_singleton.mp inner ▸ further, rfl⟩
  · rintro ⟨x, around, rfl⟩
    exact ⟨c, List.mem_append_right _ (List.mem_singleton_self c), x, around, rfl⟩

theorem Kept.store {p : Parse} (kept : Kept pool r)
    (stores : Stores pool p (SignatureResolver.settleAll pool (pool.outerChain c ++ [c]) r) r') (d : Declaration) :
    (r'.replyOf d).isSome ↔
      (r.replyOf d).isSome ∨ d = p.declaration ∨ ∃ x, pool.Around c x ∧ d = .ofClass x := by
  by_cases same : d = p.declaration
  · rw [same, stores.self]
    simp
  · rw [stores.others d same, (kept.settleAll _).2 d, reaches_scope]
    simp [same]

theorem Lookup.Reaches.around {l : Lookup} {d : Declaration} (h : l.Reaches pool d) (around : pool.Around d.home x) :
    l.Reaches pool (.ofClass x) := by
  cases l with
  | classes cs =>
    obtain ⟨c, member, y, near, rfl⟩ := h
    exact ⟨c, member, x, near.trans around, rfl⟩
  | member kind c position =>
    rcases h with rfl | ⟨y, near, rfl⟩
    · exact .inr ⟨x, around, rfl⟩
    · exact .inr ⟨x, near.trans around, rfl⟩
  | bindings low high =>
    obtain ⟨c, member, y, near, rfl⟩ := h
    exact ⟨c, member, x, near.trans around, rfl⟩

theorem Kept.replyOf_perform (kept : Kept pool r) (l : Lookup) (d : Declaration) :
    ((l.perform pool r).replyOf d).isSome ↔ (r.replyOf d).isSome ∨ l.Reaches pool d := by
  cases l with
  | classes cs => exact (kept.settleAll cs).2 d
  | member kind c position =>
    rw [member_settles]
    split
    · next there =>
        refine (or_iff_left_of_imp ?_).symm
        rintro (rfl | ⟨x, around, rfl⟩)
        · exact there
        · exact kept.around _ x there around
    · exact kept.store (declareMember_stores kind c position _ _) d
  | bindings low high =>
    rw [Lookup.perform, bindingsFor_settles]
    split
    · next found =>
        refine (or_iff_left_of_imp ?_).symm
        rintro ⟨c, member, x, around, rfl⟩
        exact kept.around _ x (kept.steps low high found c member) around
    · have settled := (kept.settleAll (stepClasses pool low high)).2 d
      rcases d with _ | ⟨_ | _, _, _⟩ <;> exact settled

theorem declareMember_bindings (kind : MemberKind) (c position : Nat) (scope : TypeScope) (r : SignatureResolver) :
    (declareMember pool kind c position scope r).bindings = r.bindings := by
  cases kind with
  | method =>
    simp only [declareMember, declareMethod, countIf]
    rcases methodIn pool c position scope with ⟨s, _ | _⟩ <;> rfl
  | field =>
    simp only [declareMember, declareField, countIf]
    rcases fieldIn pool c position scope with ⟨s, _ | _⟩ <;> rfl

theorem Lookup.perform_bindings {low high : Nat} (l : Lookup) (r : SignatureResolver)
    (there : (Ordered.get? (low, high) (l.perform pool r).bindings).isSome) :
    (Ordered.get? (low, high) r.bindings).isSome ∨ l = .bindings low high := by
  cases l with
  | classes cs =>
    rw [perform, settleAll_bindings] at there
    exact .inl there
  | member kind c position =>
    rw [member_settles] at there
    split at there
    · exact .inl there
    · rw [declareMember_bindings, settleAll_bindings] at there
      exact .inl there
  | bindings low' high' =>
    rw [perform, bindingsFor_settles] at there
    split at there
    · exact .inl there
    · by_cases same : (low, high) = (low', high')
      · cases same
        exact .inr rfl
      · simp only [settleAll_bindings, Ordered.get?_put_ne same] at there
        exact .inl there

theorem Kept.perform (kept : Kept pool r) (l : Lookup) : Kept pool (l.perform pool r) := by
  refine kept.change (kept.replyOf_perform l) (fun d x reached around => reached.around around) ?_
  intro low high there
  refine (l.perform_bindings r there).imp_right ?_
  rintro rfl c member
  exact ⟨c, member, c, .refl, rfl⟩

/-! ## Lists of lookups -/

namespace Lookup

def performAll (pool : ClassPool) : List Lookup → SignatureResolver → SignatureResolver
  | [], r => r
  | l :: ls, r => performAll pool ls (l.perform pool r)

end Lookup

/-! ## Calls -/

/-- A call of a resolver. -/
inductive Call where
  | ask (q : Query)
  | classScope (c : Nat)
  | erasure (s : TypeSignature)
  | concreteClass (s : TypeSignature)

namespace Call

def perform (ix : ElementIndex) : Call → SignatureResolver → SignatureResolver
  | .ask q, r => (SignatureResolver.ask ix q r).2
  | .classScope c, r => (SignatureResolver.classScope ix.classes c r).2
  | .erasure s, r => (SignatureResolver.erasure ix.classes s r).2
  | .concreteClass s, r => (SignatureResolver.concreteClass ix.classes s r).2

def performAll (ix : ElementIndex) : List Call → SignatureResolver → SignatureResolver
  | [], r => r
  | call :: calls, r => performAll ix calls (call.perform ix r)

end Call

namespace Call

end Call

end SignatureResolver

end ClassAtlas
