import ClassAtlas.Proofs.QueryOrder
import ClassAtlas.Proofs.Supertypes

/-! # Journals of parses

A resolver looks up classes, members and bindings, and it parses what is not yet remembered. Here every parse
is noted with the scope in which it is made. The notes account for all that is remembered and for the count
of refused signatures, also where classes enclose each other: a class that is begun is remembered by a
placeholder, so it is not begun again, and its own signature takes the place of the placeholder when the
classes around it are done.
-/

namespace ClassAtlas

namespace SignatureResolver

variable {pool : ClassPool} {c x : Nat} {r r' r'' : SignatureResolver}

/-! ## Parses and what is remembered of them -/

/-- What has a signature of its own. -/
inductive Declaration where
  | ofClass (c : Nat)
  | ofMember (kind : MemberKind) (c position : Nat)
  deriving DecidableEq

/-- The signature of a declaration, if it has one, is parsed in a scope. -/
structure Parse where
  declaration : Declaration
  scope : TypeScope

/-- The signature of a method in a scope, and whether its declared signature is refused. -/
def methodIn (pool : ClassPool) (c m : Nat) (scope : TypeScope) : Option MethodSignature × Bool :=
  match pool[c]?.bind fun d => d.methods[m]?.map (d, ·) with
  | none => (none, false)
  | some (d, method) =>
    parseDeclared (Signature.parseMethod scope (.ofMethod d.typeName method.name method.desc))
      method.signature method.desc

namespace Parse

def result (pool : ClassPool) (p : Parse) : Reply :=
  match p.declaration with
  | .ofClass c => .classSignature (pool.classIn p.scope c)
  | .ofMember .method c m => .methodSignature (methodIn pool c m p.scope).1
  | .ofMember .field c f => .fieldSignature (fieldIn pool c f p.scope).1

def refused (pool : ClassPool) (p : Parse) : Bool :=
  match p.declaration with
  | .ofClass c => pool[c]?.any fun d => d.signature.any fun text =>
    (Signature.parseClass p.scope d.typeName text).toOption.isNone
  | .ofMember .method c m => pool[c]?.any fun d => d.methods[m]?.any fun method => method.signature.any fun text =>
    (Signature.parseMethod p.scope (.ofMethod d.typeName method.name method.desc) text).toOption.isNone
  | .ofMember .field c f => pool[c]?.any fun d => d.fields[f]?.any fun field => field.signature.any fun text =>
    (Signature.parseField p.scope text).toOption.isNone

end Parse

def replyOf (r : SignatureResolver) : Declaration → Option Reply
  | .ofClass c => (r.known c).map .classSignature
  | .ofMember .method c m => (Ordered.get? (c, m) r.methods).map .methodSignature
  | .ofMember .field c f => (Ordered.get? (c, f) r.fields).map .fieldSignature

/-- One parse has been made and its result is remembered. -/
structure Stores (pool : ClassPool) (p : Parse) (r r' : SignatureResolver) : Prop where
  self : r'.replyOf p.declaration = some (p.result pool)
  others : ∀ d, d ≠ p.declaration → r'.replyOf d = r.replyOf d
  counted : r'.fallbacks = r.fallbacks + (p.refused pool).toNat

theorem replyOf_setClass_ne {d : Declaration} (other : d ≠ .ofClass c) (s : ClassSignature) (r : SignatureResolver) :
    (r.setClass c s).replyOf d = r.replyOf d := by
  cases d with
  | ofClass x =>
    have different : x ≠ c := fun same => other (same ▸ rfl)
    rw [replyOf, replyOf, known_setClass_ne different]
  | ofMember kind => cases kind <;> rfl

theorem parseClass_eq (pool : ClassPool) (c : Nat) (scope : TypeScope) (r : SignatureResolver) :
    parseClass pool c scope r = (pool.classIn scope c, r.countIf (Parse.refused pool ⟨.ofClass c, scope⟩)) := by
  simp only [parseClass, ClassPool.classIn, Parse.refused]
  cases pool[c]? with
  | none => rfl
  | some d =>
    cases given : d.signature with
    | none => simp [given, countIf]
    | some text =>
      cases parsed : Signature.parseClass scope d.typeName text <;>
        simp [given, parsed, Except.toOption, countIf]

theorem replyOf_countIf (refused : Bool) (r : SignatureResolver) (d : Declaration) :
    (r.countIf refused).replyOf d = r.replyOf d := by
  rcases d with _ | ⟨_ | _, _, _⟩ <;> cases refused <;> rfl

theorem fallbacks_countIf (refused : Bool) (r : SignatureResolver) :
    (r.countIf refused).fallbacks = r.fallbacks + refused.toNat := by
  cases refused <;> rfl

theorem declareClass_stores (c : Nat) (scope : TypeScope) (r : SignatureResolver) :
    Stores pool ⟨.ofClass c, scope⟩ r (declareClass pool c scope r) := by
  rw [declareClass, parseClass_eq]
  constructor
  · rw [replyOf, known_setClass_self]
    rfl
  · intro d other
    rw [replyOf_setClass_ne other, replyOf_countIf]
  · exact fallbacks_countIf _ r

theorem parseDeclared_snd {α : Type} (parse : String → Except SignatureError α) (signature : Option String)
    (desc : String) :
    (parseDeclared parse signature desc).2 = signature.any fun text => (parse text).toOption.isNone := by
  cases signature with
  | none => rfl
  | some text =>
    rw [parseDeclared, Option.any_some]
    cases parse text <;> rfl

def declareMethod (pool : ClassPool) (c m : Nat) (scope : TypeScope) (r : SignatureResolver) : SignatureResolver :=
  let (s, refused) := methodIn pool c m scope
  let r := r.countIf refused
  { r with methods := Ordered.put (c, m) s r.methods }

theorem methodIn_refused (pool : ClassPool) (c m : Nat) (scope : TypeScope) :
    (methodIn pool c m scope).2 = Parse.refused pool ⟨.ofMember .method c m, scope⟩ := by
  simp only [methodIn, Parse.refused]
  cases pool[c]? with
  | none => rfl
  | some d => cases found : d.methods[m]? <;> simp [found, parseDeclared_snd]

theorem fieldIn_refused (pool : ClassPool) (c f : Nat) (scope : TypeScope) :
    (fieldIn pool c f scope).2 = Parse.refused pool ⟨.ofMember .field c f, scope⟩ := by
  simp only [fieldIn, Parse.refused]
  cases pool[c]? with
  | none => rfl
  | some d => cases found : d.fields[f]? <;> simp [found, parseDeclared_snd]

def declareMember (pool : ClassPool) : MemberKind → Nat → Nat → TypeScope → SignatureResolver → SignatureResolver
  | .method => declareMethod pool
  | .field => declareField pool

theorem declareMember_stores (kind : MemberKind) (c position : Nat) (scope : TypeScope) (r : SignatureResolver) :
    Stores pool ⟨.ofMember kind c position, scope⟩ r (declareMember pool kind c position scope r) := by
  cases kind with
  | method =>
    constructor
    · simp [declareMember, declareMethod, replyOf, Ordered.get?_put_self, Parse.result]
    · intro d other
      refine Eq.trans ?_ (replyOf_countIf (methodIn pool c position scope).2 r d)
      match d with
      | .ofClass _ => rfl
      | .ofMember .field _ _ => rfl
      | .ofMember .method c' m =>
        have different : (c', m) ≠ (c, position) := fun same => other (by cases same; rfl)
        simp only [declareMember, declareMethod, replyOf, Ordered.get?_put_ne different]
    · rw [← methodIn_refused, ← fallbacks_countIf]
      rfl
  | field =>
    constructor
    · simp [declareMember, declareField, replyOf, Ordered.get?_put_self, Parse.result]
    · intro d other
      refine Eq.trans ?_ (replyOf_countIf (fieldIn pool c position scope).2 r d)
      match d with
      | .ofClass _ => rfl
      | .ofMember .method _ _ => rfl
      | .ofMember .field c' f =>
        have different : (c', f) ≠ (c, position) := fun same => other (by cases same; rfl)
        simp only [declareMember, declareField, replyOf, Ordered.get?_put_ne different]
    · rw [← fieldIn_refused, ← fallbacks_countIf]
      rfl

/-! ## Journals -/

/-- A list of parses accounts for all that has come to be remembered, and for the signatures that have been
    counted as refused. Nothing in it was remembered before, and nothing stands in it twice. -/
structure Journals (pool : ClassPool) (r : SignatureResolver) (parses : List Parse) (r' : SignatureResolver) :
    Prop where
  distinct : (parses.map (·.declaration)).Nodup
  new : ∀ p ∈ parses, r.replyOf p.declaration = none
  kept : ∀ d, d ∉ parses.map (·.declaration) → r'.replyOf d = r.replyOf d
  held : ∀ p ∈ parses, r'.replyOf p.declaration = some (p.result pool)
  counted : r'.fallbacks = r.fallbacks + parses.countP (·.refused pool)

namespace Journals

variable {parses parses' : List Parse}

theorem refl (pool : ClassPool) (r : SignatureResolver) : Journals pool r [] r where
  distinct := List.nodup_nil
  new _ member := nomatch member
  kept _ _ := rfl
  held _ member := nomatch member
  counted := rfl

theorem single {p : Parse} (absent : r.replyOf p.declaration = none) (stores : Stores pool p r r') :
    Journals pool r [p] r' where
  distinct := List.nodup_singleton _
  new q member := by rw [List.mem_singleton.mp member, absent]
  kept d other := stores.others d fun same => other (same ▸ List.mem_singleton_self _)
  held q member := by rw [List.mem_singleton.mp member, stores.self]
  counted := by
    rw [stores.counted]
    cases refused : p.refused pool <;> simp [refused]

theorem trans (h : Journals pool r parses r') (h' : Journals pool r' parses' r'') :
    Journals pool r (parses ++ parses') r'' := by
  -- What the first journal holds is remembered when the second begins.
  have apart : ∀ p ∈ parses', p.declaration ∉ parses.map (·.declaration) := by
    intro p member before
    obtain ⟨q, there, same⟩ := List.mem_map.mp before
    have absent := h'.new p member
    rw [← same, h.held q there] at absent
    cases absent
  constructor
  · rw [List.map_append]
    refine List.nodup_append.mpr ⟨h.distinct, h'.distinct, ?_⟩
    rintro d before d' after rfl
    obtain ⟨p, member, rfl⟩ := List.mem_map.mp after
    exact apart p member before
  · intro p member
    rcases List.mem_append.mp member with before | after
    · exact h.new p before
    · rw [← h.kept _ (apart p after)]
      exact h'.new p after
  · intro d outside
    rw [List.map_append, List.mem_append, not_or] at outside
    rw [h'.kept d outside.2, h.kept d outside.1]
  · intro p member
    rcases List.mem_append.mp member with before | after
    · rw [h'.kept _ fun again => ?_, h.held p before]
      obtain ⟨q, there, same⟩ := List.mem_map.mp again
      exact apart q there (same ▸ List.mem_map_of_mem before)
    · exact h'.held p after
  · rw [h'.counted, h.counted, List.countP_append, Nat.add_assoc]

/-- A class is begun, others are resolved while its placeholder stands, and then it is parsed. -/
theorem around {scope : TypeScope} {placeholder : ClassSignature} (absent : r.known c = none)
    (inner : Journals pool (r.setClass c placeholder) parses r')
    (stores : Stores pool ⟨.ofClass c, scope⟩ r' r'') :
    Journals pool r (parses ++ [⟨.ofClass c, scope⟩]) r'' := by
  -- The placeholder keeps the class out of the inner journal.
  have apart : ∀ p ∈ parses, p.declaration ≠ .ofClass c := by
    intro p member same
    have new := inner.new p member
    rw [same, replyOf, known_setClass_self] at new
    cases new
  have begun {d : Declaration} (other : d ≠ .ofClass c) : (r.setClass c placeholder).replyOf d = r.replyOf d :=
    replyOf_setClass_ne other placeholder r
  constructor
  · rw [List.map_append]
    refine List.nodup_append.mpr ⟨inner.distinct, List.nodup_singleton _, ?_⟩
    rintro d before d' after rfl
    obtain ⟨p, member, rfl⟩ := List.mem_map.mp before
    exact apart p member (List.mem_singleton.mp after)
  · intro p member
    rcases List.mem_append.mp member with before | last
    · rw [← begun (apart p before)]
      exact inner.new p before
    · rw [List.mem_singleton.mp last, replyOf, absent]
      rfl
  · intro d outside
    rw [List.map_append, List.mem_append, not_or] at outside
    have other : d ≠ .ofClass c := fun same => outside.2 (same ▸ List.mem_singleton_self _)
    rw [stores.others d other, inner.kept d outside.1, begun other]
  · intro p member
    rcases List.mem_append.mp member with before | last
    · rw [stores.others _ (apart p before), inner.held p before]
    · rw [List.mem_singleton.mp last, stores.self]
  · rw [stores.counted, inner.counted, List.countP_append]
    cases refused : Parse.refused pool ⟨.ofClass c, scope⟩ <;> simp [refused, setClass, Nat.add_assoc]

end Journals

/-! ## The parses of classes -/

def eachParses (resolve : Nat → SignatureResolver → ClassSignature × SignatureResolver)
    (parses : Nat → SignatureResolver → List Parse) : List Nat → SignatureResolver → List Parse
  | [], _ => []
  | c :: rest, r => parses c r ++ eachParses resolve parses rest (resolve c r).2

/-- The parses made when a class is resolved: none if it is remembered, or else those of the classes around it
    and then its own. -/
def resolveParses (pool : ClassPool) : (fuel : Nat) → (c : Nat) → SignatureResolver → List Parse
  | 0, _, _ => []
  | fuel + 1, c, r =>
    match r.known c with
    | some _ => []
    | none =>
      let begun := r.setClass c (erasedClass pool c)
      eachParses (resolveClass pool fuel) (resolveParses pool fuel) (pool.outerChain c) begun ++
        [⟨.ofClass c, (pushClasses pool (resolveClass pool fuel) (pool.outerChain c) .empty begun).1⟩]

def classParses (pool : ClassPool) (cs : List Nat) (r : SignatureResolver) : List Parse :=
  eachParses (classSignature pool) (resolveParses pool (pool.length + 1)) cs r

theorem pushClasses_journals {resolve : Nat → SignatureResolver → ClassSignature × SignatureResolver}
    {parses : Nat → SignatureResolver → List Parse}
    (each : ∀ c r, Journals pool r (parses c r) (resolve c r).2) (cs : List Nat) (scope : TypeScope)
    (r : SignatureResolver) :
    Journals pool r (eachParses resolve parses cs r) (pushClasses pool resolve cs scope r).2 := by
  induction cs generalizing scope r with
  | nil => exact .refl pool r
  | cons c rest ih => exact (each c r).trans (ih _ _)

theorem resolveClass_journals (pool : ClassPool) (fuel c : Nat) (r : SignatureResolver) :
    Journals pool r (resolveParses pool fuel c r) (resolveClass pool fuel c r).2 := by
  induction fuel generalizing c r with
  | zero => exact .refl pool r
  | succ fuel ih =>
    rw [resolveParses, resolveClass]
    cases found : r.known c with
    | some s =>
      have there : Ordered.get? c r.classes = some s := found
      rw [there]
      exact .refl pool r
    | none =>
      have absent : Ordered.get? c r.classes = none := found
      rw [absent]
      exact .around found (pushClasses_journals ih (pool.outerChain c) .empty _) (declareClass_stores c _ _)

theorem settleAll_journals (pool : ClassPool) (cs : List Nat) (r : SignatureResolver) :
    Journals pool r (classParses pool cs r) (settleAll pool cs r) := by
  have each : ∀ c r, Journals pool r (resolveParses pool (pool.length + 1) c r) (classSignature pool c r).2 :=
    fun c r => resolveClass_journals pool _ c r
  have pushed := pushClasses_journals each cs .empty r
  rwa [pushClasses_eq] at pushed

theorem eachParses_ofClass {resolve : Nat → SignatureResolver → ClassSignature × SignatureResolver}
    {parses : Nat → SignatureResolver → List Parse}
    (each : ∀ c r, ∀ p ∈ parses c r, ∃ x, p.declaration = .ofClass x) (cs : List Nat) (r : SignatureResolver) :
    ∀ p ∈ eachParses resolve parses cs r, ∃ x, p.declaration = .ofClass x := by
  induction cs generalizing r with
  | nil => exact fun p member => nomatch member
  | cons c rest ih => exact List.forall_mem_append.mpr ⟨each c r, ih _⟩

theorem resolveParses_ofClass (pool : ClassPool) (fuel c : Nat) (r : SignatureResolver) :
    ∀ p ∈ resolveParses pool fuel c r, ∃ x, p.declaration = .ofClass x := by
  induction fuel generalizing c r with
  | zero => exact fun p member => nomatch member
  | succ fuel ih =>
    rw [resolveParses]
    cases r.known c with
    | some s => exact fun p member => nomatch member
    | none =>
      refine List.forall_mem_append.mpr ⟨eachParses_ofClass ih _ _, fun p member => ⟨c, ?_⟩⟩
      rw [List.mem_singleton.mp member]

theorem replyOf_settleAll {d : Declaration} (noClass : ∀ x, d ≠ .ofClass x) (cs : List Nat) (r : SignatureResolver) :
    (settleAll pool cs r).replyOf d = r.replyOf d := by
  refine (settleAll_journals pool cs r).kept d fun listed => ?_
  obtain ⟨p, member, rfl⟩ := List.mem_map.mp listed
  obtain ⟨x, isClass⟩ := eachParses_ofClass (resolveParses_ofClass pool _) cs r p member
  exact noClass x isClass

/-! ## Lookups -/

/-- What a resolver looks up, and remembers. -/
inductive Lookup where
  | classes (cs : List Nat)
  | member (kind : MemberKind) (c position : Nat)
  | bindings (low high : Nat)

/-- The classes on the way from a class to a supertype, unless there is no step to take. -/
def stepClasses (pool : ClassPool) (low high : Nat) : List Nat :=
  match pool.supertypePath? low high with
  | some (first :: second :: rest) => first :: second :: rest
  | _ => []

namespace Lookup

def perform (pool : ClassPool) : Lookup → SignatureResolver → SignatureResolver
  | .classes cs, r => settleAll pool cs r
  | .member .method c m, r => (methodSignature pool c m r).2
  | .member .field c f, r => (fieldSignature pool c f r).2
  | .bindings low high, r => (bindingsFor pool low high r).2

def parses (pool : ClassPool) : Lookup → SignatureResolver → List Parse
  | .classes cs, r => classParses pool cs r
  | .member kind c position, r =>
    if (r.replyOf (.ofMember kind c position)).isSome then []
    else
      classParses pool (pool.outerChain c ++ [c]) r ++ [⟨.ofMember kind c position, (classScope pool c r).1⟩]
  | .bindings low high, r =>
    if (Ordered.get? (low, high) r.bindings).isSome then [] else classParses pool (stepClasses pool low high) r

end Lookup

theorem member_settles (pool : ClassPool) (kind : MemberKind) (c position : Nat) (r : SignatureResolver) :
    (Lookup.member kind c position).perform pool r =
      if (r.replyOf (.ofMember kind c position)).isSome then r
      else declareMember pool kind c position (classScope pool c r).1
        (settleAll pool (pool.outerChain c ++ [c]) r) := by
  cases kind with
  | method =>
    rw [Lookup.perform, replyOf, Option.isSome_map, methodSignature]
    cases Ordered.get? (c, position) r.methods with
    | some s => rfl
    | none =>
      simp only [classScope, pushClasses_eq]
      rfl
  | field =>
    rw [Lookup.perform, replyOf, Option.isSome_map, fieldSignature]
    cases Ordered.get? (c, position) r.fields with
    | some s => rfl
    | none =>
      simp only [classScope, pushClasses_eq]
      rfl

theorem extends_chain_lt {first : Nat} {rest : List Nat} (linked : (first :: rest).IsChain pool.Extends) :
    ∀ c ∈ rest, c < pool.length := by
  induction rest generalizing first with
  | nil => exact fun c member => nomatch member
  | cons next rest ih =>
    rw [List.isChain_cons_cons] at linked
    obtain ⟨⟨t, -, known⟩, onward⟩ := linked
    exact List.forall_mem_cons.mpr ⟨ClassPool.indexOf?_lt known, ih onward⟩

theorem pathBindings_settles {low high : Nat} {rest : List Nat} (inside : ∀ c ∈ high :: rest, c < pool.length)
    (current : TypeBindings) (r : SignatureResolver) :
    (pathBindings pool (low :: high :: rest) current r).2 = settleAll pool (low :: high :: rest) r := by
  induction rest generalizing low high current r with
  | nil =>
    obtain ⟨d, there⟩ : ∃ d, pool[high]? = some d :=
      ⟨_, List.getElem?_eq_getElem (inside high List.mem_cons_self)⟩
    rw [pathBindings, stepBindings, there]
    rfl
  | cons next rest ih =>
    obtain ⟨d, there⟩ : ∃ d, pool[high]? = some d :=
      ⟨_, List.getElem?_eq_getElem (inside high List.mem_cons_self)⟩
    have step : (stepBindings pool low high current r).2 = settle pool high (settle pool low r) := by
      rw [stepBindings, there]
      rfl
    have onward : (pathBindings pool (low :: high :: next :: rest) current r).2 =
        (pathBindings pool (high :: next :: rest) (stepBindings pool low high current r).1
          (stepBindings pool low high current r).2).2 := rfl
    -- The class in the middle has been asked for already.
    have again : settle pool high (settle pool high (settle pool low r)) =
        settle pool high (settle pool low r) := settle_of_known (known_settle pool high _)
    rw [onward, ih fun c member => inside c (List.mem_cons_of_mem _ member), step]
    simp only [settleAll, again]

theorem bindingsFor_settles (pool : ClassPool) (low high : Nat) (r : SignatureResolver) :
    (bindingsFor pool low high r).2 = if (Ordered.get? (low, high) r.bindings).isSome then r
      else
        let settled := settleAll pool (stepClasses pool low high) r
        { settled with bindings := Ordered.put (low, high) (bindingsFor pool low high r).1 settled.bindings } := by
  rw [bindingsFor]
  cases Ordered.get? (low, high) r.bindings with
  | some b => rfl
  | none =>
    obtain ⟨path, route, chain, -⟩ | ⟨missing, -⟩ := pool.supertypePath?_cases low high
    · cases path with
      | nil => simp [stepClasses, route, pathBindings, settleAll]
      | cons first rest =>
        cases rest with
        | nil => simp [stepClasses, route, pathBindings, settleAll]
        | cons second rest => simp [stepClasses, route, pathBindings_settles (extends_chain_lt chain.linked)]
    · simp [stepClasses, missing, settleAll]

end SignatureResolver

end ClassAtlas
