import ClassAtlas.Signature.Bindings

/-! # Specialising twice

Bindings replace all variables at once: what they put in is not looked at again. So types that were
specialised may be specialised by further bindings, and one set of bindings does the work of both, at every
depth of a type. The brackets of all occurrences on the way add up, and of their wildcard marks the
outermost counts.
-/

namespace ClassAtlas

namespace TypeBindings

/-- One set of bindings does what two do in turn: it binds what the first binds, specialised by the second,
    and leaves the rest to the second. -/
def Composes (both first second : TypeBindings) : Prop :=
  ∀ v, both.find? v = ((first.find? v).map (·.specialize second)).or (second.find? v)

end TypeBindings

namespace TypeSignature

open TypeBindings (Composes)

theorem replace_replace (s : TypeSignature) (variance variance' : Variance) (depth depth' : UInt32) :
    (s.replace variance' depth').replace variance depth =
      s.replace (if variance = .invariant then variance' else variance) (depth' + depth) := by
  unfold replace
  simp only [UInt32.add_assoc]
  by_cases inner : variance = .invariant <;> simp [inner]

/-- The marks of an occurrence stay outside, whatever is put in later. -/
theorem specialize_replace (b : TypeBindings) (s : TypeSignature) (variance : Variance) (depth : UInt32) :
    (s.replace variance depth).specialize b = (s.specialize b).replace variance depth := by
  obtain ⟨head, variance', depth', args⟩ := s
  cases head with
  | named t => rfl
  | var v =>
    simp only [replace, specialize]
    cases b.find? v with
    | none => rfl
    | some t => exact (t.replace_replace variance variance' depth depth').symm

section Composing

variable {first second both : TypeBindings}

mutual
theorem specialize_specialize (composed : both.Composes first second) (s : TypeSignature) :
    (s.specialize first).specialize second = s.specialize both := by
  match s with
  | ⟨.named t, variance, depth, args⟩ =>
    simp only [specialize, specializeAll_specializeAll composed args]
  | ⟨.var v, variance, depth, args⟩ =>
    have bound := composed v
    rw [specialize, specialize]
    cases replaced : first.find? v with
    | none =>
      rw [replaced, Option.map_none, Option.none_or] at bound
      rw [bound]
      rfl
    | some t =>
      rw [replaced, Option.map_some, Option.some_or] at bound
      rw [bound]
      exact specialize_replace second t variance depth
termination_by structural s

theorem specializeAll_specializeAll (composed : both.Composes first second) (ss : List TypeSignature) :
    specializeAll second (specializeAll first ss) = specializeAll both ss := by
  match ss with
  | [] => rfl
  | s :: ss =>
    simp only [specializeAll, specialize_specialize composed s, specializeAll_specializeAll composed ss]
termination_by structural ss
end

end Composing

end TypeSignature

theorem MethodSignature.specialize_specialize {first second both : TypeBindings}
    (composed : both.Composes first second) (m : MethodSignature) :
    (m.specialize first).specialize second = m.specialize both := by
  simp only [specialize, TypeSignature.specialize_specialize composed,
    TypeSignature.specializeAll_specializeAll composed]

namespace ThroughTwoClasses

def middleVariable : TypeVariable := ⟨"U", .ofClass ⟨"app.Middle"⟩⟩

/-- The base class's variable is an array of a wildcard over the class in the middle. -/
def first : TypeBindings := .ofClass ⟨"app.Base"⟩ [("T", ⟨.var middleVariable, .covariant, 1, []⟩)]

def second : TypeBindings := .ofClass ⟨"app.Middle"⟩ [("U", ⟨.named .string, .contravariant, 1, []⟩)]

end ThroughTwoClasses

end ClassAtlas
