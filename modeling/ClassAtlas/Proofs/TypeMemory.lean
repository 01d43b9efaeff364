import ClassAtlas.Proofs.Discovery
import ClassAtlas.Proofs.MadeUpClasses

/-! # What is remembered of types

In any state that operations lead to, the types of classes, methods and fields are remembered as they are,
although classes may have been made up since. Bindings are remembered as they were when they were first
asked for.
-/

namespace ClassAtlas

variable {classes : List ClassDeclaration}

/-! ## Erasing without a memory -/

namespace SignatureResolver

/-- The bindings of a pool where no others are remembered. -/
def boundIn (pool : ClassPool) (r : SignatureResolver) (low high : Nat) : TypeBindings :=
  (Ordered.get? (low, high) r.bindings).getD (pool.bindingsOf low high)

/-- All that is remembered is about classes that are there, and right. Bindings were right in some state since
    the first classes were given. -/
structure Remembers (classes pool : ClassPool) (r : SignatureResolver) : Prop where
  faithful : Faithful pool (r.boundIn pool) (pool.length ≤ ·) r
  untouched : Spares (pool.length ≤ ·) {} r
  past : ∀ low high b, Ordered.get? (low, high) r.bindings = some b →
    ∃ past : ClassPool, classes <+: past ∧ past <+: pool ∧ b = past.bindingsOf low high

namespace Remembers

variable {classes pool : ClassPool} {r : SignatureResolver}

theorem initial (classes : ClassPool) : Remembers classes classes {} where
  faithful := { Faithful.initial classes with classes := fun _ _ _ found => nomatch found }
  untouched := .refl _ _
  past _ _ _ found := nomatch found

theorem ask {α : Type} {query : SignatureResolver → α × SignatureResolver} {a : α} (h : Remembers classes pool r)
    (first : classes <+: pool) (answers : Answers pool (r.boundIn pool) (pool.length ≤ ·) query a) :
    Remembers classes pool (query r).2 := by
  obtain ⟨-, faithful, spares⟩ := answers r h.faithful
  have same : (query r).2.boundIn pool = r.boundIn pool := by
    funext low high
    exact faithful.bindings low high
  refine ⟨same ▸ faithful, h.untouched.trans spares, fun low high b found => ?_⟩
  have given := faithful.bindings low high
  rw [found, Option.getD_some] at given
  unfold boundIn at given
  cases before : Ordered.get? (low, high) r.bindings with
  | some b' =>
    rw [before, Option.getD_some] at given
    exact h.past low high b (given ▸ before)
  | none =>
    rw [before] at given
    exact ⟨pool, first, List.prefix_rfl, given⟩

theorem later {pool' : ClassPool} (h : Remembers classes pool r) (acyclic : pool.Acyclic)
    (later : pool.MadeUpAfter pool') : Remembers classes pool' r := by
  have known {α : Type} {c : Nat} {entry : Option α} (blank : pool.length ≤ c → entry = none) {s : α}
      (found : entry = some s) : c < pool.length := by
    by_contra beyond
    cases (blank (Nat.le_of_not_lt beyond)).symm.trans found
  refine ⟨⟨?_, ?_, ?_, fun _ _ => rfl⟩, ?_, ?_⟩
  · intro c s _ found
    have there := known (h.untouched.classes c) found
    exact (h.faithful.classes c s (Nat.not_le.mpr there) found).trans (later.classType acyclic there).symm
  · intro (c, i) s free found
    exact (h.faithful.methods (c, i) s free found).trans (later.methodType acyclic (known (h.untouched.methods c i) found) i).symm
  · intro (c, i) s free found
    exact (h.faithful.fields (c, i) s free found).trans (later.fieldType acyclic (known (h.untouched.fields c i) found) i).symm
  · exact h.untouched.mono fun c away => Nat.le_trans later.begins.length_le away
  · intro low high b found
    obtain ⟨past, before, after, same⟩ := h.past low high b found
    exact ⟨past, before, after.trans later.begins, same⟩

end Remembers

end SignatureResolver

/-! ## Operations -/

theorem ElementIndex.Coherent.declaring_lt {ix : ElementIndex} {r : SignatureResolver} (h : ix.Coherent r)
    {id owner : ElementId} {kind : MemberKind} {declaring position : Nat} {origin : Option ElementId}
    (stored : ix.get? id = some (.member kind declaring position owner origin)) : declaring < ix.classes.length := by
  obtain ⟨key, -, justified⟩ := h.keyed stored
  cases justified with
  | declaredMember home => exact h.class_lt home
  | inheritedMember _ _ declared =>
    obtain ⟨element, -, justified⟩ := h.stored declared
    cases justified with
    | declaredMember home => exact h.class_lt home
    | inheritedMember elsewhere => exact absurd rfl elsewhere

namespace IndexState

open SignatureResolver

/-- The classes are the given ones and others that were made up, and what is remembered of types is about
    them. -/
structure Informed (classes : ClassPool) (s : IndexState) : Prop where
  coherent : s.Coherent
  listed : s.index.Listed
  later : classes.MadeUpAfter s.index.classes
  remembers : Remembers classes s.index.classes s.resolver

namespace Informed

variable {classes : ClassPool} {s : IndexState}

theorem initial (classes : List ClassDeclaration) : Informed classes { index := .ofClasses classes } := by
  have same : (ElementIndex.ofClasses classes).classes = classes :=
    (ElementIndex.discoverAll_fills (List.range classes.length) _).sameClasses
  refine ⟨(after_accepted classes []).2.1, ElementIndex.ofClasses_listed classes, ?_, ?_⟩
  · rw [same]
    exact .refl classes
  · rw [same]
    exact .initial classes

theorem declaredType_answers (h : s.Informed classes) (acyclic : ClassPool.Acyclic classes)
    (bound : Nat → Nat → TypeBindings) (id : ElementId) :
    ∃ type, Answers s.index.classes bound (s.index.classes.length ≤ ·) (declaredType s.index id) type ∧
      (bound = s.index.classes.bindingsOf → type = s.index.typeOf id) :=
  SignatureResolver.declaredType_answers (h.later.acyclic acyclic) (fun _ there => Nat.not_le.mpr there)
    (fun known => Nat.not_le.mpr (h.coherent.classIndex?_lt known))
    (fun stored => Nat.not_le.mpr (h.coherent.declaring_lt stored)) id

end Informed

end IndexState

end ClassAtlas
