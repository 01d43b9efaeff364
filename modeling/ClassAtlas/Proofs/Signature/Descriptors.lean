import ClassAtlas.ClassFile.Annotations
import ClassAtlas.Proofs.Signature.Acceptance

/-! # Descriptors and signatures name the same types

A field descriptor is read in two ways: as a signature, which gives a tree, and at once as a type name, with a pair
of brackets for each dimension. A text without type arguments and inner classes that is accepted as a signature
outside all scopes is a row of opening brackets before a primitive letter or a class name, and both readers take it
apart there. The tree counts the brackets in a word and the name spells them all, so the two differ where
the word is too small.
-/

namespace ClassAtlas

namespace TypeName

def arrayOf (t : TypeName) (count : Nat) : TypeName := ⟨String.ofList (t.text.toList ++ brackets count)⟩

def dimensions (s : String) : Nat := (s.toList.takeWhile (· == '[')).length

theorem ofDescriptor?_eq {s : String} {n : Nat} {element : List Char} (text : s.toList = List.replicate n '[' ++ element)
    (starts : element.head? ≠ some '[') :
    dimensions s = n ∧ ofDescriptor? s = (ofElementDescriptor? element).map (·.arrayOf n) := by
  have row : s.toList.takeWhile (· == '[') = List.replicate n '[' := by
    have stop : element.takeWhile (· == '[') = [] := by
      cases element with
      | nil => rfl
      | cons c rest => simpa using starts
    rw [text, List.takeWhile_append_of_pos (by simp), stop, List.append_nil]
  have count : dimensions s = n := by
    rw [dimensions, row, List.length_replicate]
  refine ⟨count, ?_⟩
  change (ofElementDescriptor? (s.toList.drop (dimensions s))).map (·.arrayOf (dimensions s)) = _
  rw [count, text, List.drop_left' (List.length_replicate ..)]

theorem length_arrayOf (t : TypeName) (n : Nat) : (t.arrayOf n).text.length = t.text.length + 2 * n := by
  simp [arrayOf, brackets, Nat.mul_comm]

theorem arrayOf_inj {t : TypeName} {n m : Nat} : t.arrayOf n = t.arrayOf m ↔ n = m := by
  constructor
  · intro same
    have lengths := congrArg (·.text.length) same
    simp only [length_arrayOf] at lengths
    omega
  · exact congrArg t.arrayOf

end TypeName

namespace Signature

/-- The text is a row of brackets and the descriptor of an element type, and the tree is of that array type. -/
structure Spells (text : List Char) (n : Nat) (name : TypeName) (t : TypeSignature) : Prop where
  split : ∃ element, text = List.replicate n '[' ++ element ∧ element.head? ≠ some '[' ∧
    TypeName.ofElementDescriptor? element = some name
  tree : t = ⟨.named name, .invariant, .ofNat n, []⟩

theorem Spells.array {text : List Char} {n : Nat} {name : TypeName} {t : TypeSignature} (h : Spells text n name t) :
    Spells ('[' :: text) (n + 1) name { t with depth := t.depth + 1 } := by
  obtain ⟨⟨element, rfl, starts, read⟩, rfl⟩ := h
  refine ⟨⟨element, by rw [List.replicate_succ, List.cons_append], starts, read⟩, ?_⟩
  rw [UInt32.ofNat_add]
  rfl

theorem BaseType.spells (b : BaseType) : Spells [b.letter] 0 b.type (.ofType b.type) := by
  refine ⟨⟨[b.letter], rfl, ?_, ?_⟩, rfl⟩
  · cases b <;> decide
  · cases b <;> rfl

theorem Name.spells (name : Name classStops) :
    Spells ('L' :: (name.chars ++ [';'])) 0 (.ofInternal name.string) (.ofType (.ofInternal name.string)) := by
  refine ⟨⟨'L' :: (name.chars ++ [';']), rfl, by simp, ?_⟩, rfl⟩
  simp only [TypeName.ofElementDescriptor?, List.getLast?_concat, if_true, List.dropLast_concat]
  rfl

theorem ClassSyntax.eq_done {d : ClassSyntax} (noArguments : '<' ∉ d.text) (noInner : '.' ∉ d.text) :
    d = .done .absent := by
  match d with
  | .done .absent => rfl
  | .done (.given list) => simp [ClassSyntax.text, ArgsSyntax.text] at noArguments
  | .inner args name rest => simp [ClassSyntax.text] at noInner

section

variable (owner : String → TypeVariableOwner)

mutual
theorem TypeSyntax.spells (d : TypeSyntax) (noArguments : '<' ∉ d.text) (noInner : '.' ∉ d.text)
    (closed : d.variableNames = []) : ∃ n name, Spells d.text n name (d.tree owner) := by
  match d with
  | .base b => exact ⟨0, b.type, b.spells⟩
  | .ref r => exact r.spells noArguments noInner closed
termination_by structural d
theorem RefSyntax.spells (d : RefSyntax) (noArguments : '<' ∉ d.text) (noInner : '.' ∉ d.text)
    (closed : d.variableNames = []) : ∃ n name, Spells d.text n name (d.tree owner) := by
  match d with
  | .cls name rest =>
    simp only [RefSyntax.text, List.mem_cons, List.mem_append, not_or] at noArguments noInner
    obtain rfl := ClassSyntax.eq_done noArguments.2.2 noInner.2.2
    exact ⟨0, _, name.spells⟩
  | .var name => cases closed
  | .array element =>
    have inside {c : Char} (absent : c ∉ RefSyntax.text (.array element)) : c ∉ element.text :=
      fun member => absent (List.mem_cons_of_mem _ member)
    obtain ⟨n, name, spelled⟩ := element.spells (inside noArguments) (inside noInner) closed
    exact ⟨n + 1, name, spelled.array⟩
termination_by structural d
end

end

theorem not_declared_empty (name : String) : ¬ Declared .empty [] name := by
  simp [Declared, TypeScope.empty, TypeScope.lookup?]

theorem parseField_spells {s : String} {t : TypeSignature} (accepted : parseField .empty s = .ok t)
    (noArguments : '<' ∉ s.toList) (noInner : '.' ∉ s.toList) : ∃ n name, Spells s.toList n name t := by
  obtain ⟨d, text, declared, rfl⟩ := (parseField_iff .empty s t).mp accepted
  rw [← text] at noArguments noInner ⊢
  apply d.spells _ noArguments noInner
  apply List.eq_nil_iff_forall_not_mem.mpr
  intro name member
  exact not_declared_empty name (declared name member)

/-- Two readers of descriptors agree. If a text without arguments and inner classes is accepted as the signature of
    a field outside all scopes, then it is read as the descriptor of the tree's type with all brackets of the text,
    and these are as many as the tree counts if and only if a word can count them. The types of annotations are read
    in this way. -/
theorem descriptor_readers_agree {s : String} {t : TypeSignature} (accepted : parseField .empty s = .ok t)
    (noArguments : '<' ∉ s.toList) (noInner : '.' ∉ s.toList) :
    ∃ name, t.typeName? = some name ∧ t.args = [] ∧ t.depth = .ofNat (TypeName.dimensions s) ∧
      TypeName.ofDescriptor? s = some (name.arrayOf (TypeName.dimensions s)) ∧
      (TypeName.ofDescriptor? s = some (name.arrayOf t.depth.toNat) ↔ TypeName.dimensions s < UInt32.size) ∧
      (s.length < UInt32.size → TypeName.ofDescriptor? s = some (name.arrayOf t.depth.toNat)) ∧
      ∀ values, AnnotationEntry.typeName? ⟨s, values⟩ = TypeName.ofDescriptor? s ∧
        (AnnotationValue.nested s values).literals = [.type (name.arrayOf (TypeName.dimensions s))] := by
  obtain ⟨n, name, ⟨element, text, starts, read⟩, rfl⟩ := parseField_spells accepted noArguments noInner
  obtain ⟨rfl, described⟩ := TypeName.ofDescriptor?_eq text starts
  rw [read, Option.map_some] at described
  have exact : TypeName.ofDescriptor? s = some (name.arrayOf (UInt32.ofNat (TypeName.dimensions s)).toNat) ↔
      TypeName.dimensions s < UInt32.size := by
    rw [described, Option.some.injEq, TypeName.arrayOf_inj]
    constructor
    · intro same
      rw [same]
      exact UInt32.toNat_lt_size _
    · intro fits
      exact (UInt32.toNat_ofNat_of_lt' fits).symm
  have spelled : TypeName.dimensions s ≤ s.length := by
    rw [← String.length_toList]
    exact (List.takeWhile_prefix _).length_le
  refine ⟨name, rfl, rfl, rfl, described, exact, fun short => exact.mpr (by omega), fun values => ⟨rfl, ?_⟩⟩
  rw [AnnotationValue.literals, described]
  rfl

namespace AccentedArray

def descriptor : String := "[[Lcafé/Menu$Été;"

theorem read_in_both_ways :
    (parseField .empty descriptor = .ok ⟨.named ⟨"café.Menu$Été"⟩, .invariant, 2, []⟩ ∧
      '<' ∉ descriptor.toList ∧ '.' ∉ descriptor.toList) ∧
    TypeName.ofDescriptor? descriptor = some ⟨"café.Menu$Été[][]"⟩ := by
  have accepted : parseField .empty descriptor = .ok ⟨.named ⟨"café.Menu$Été"⟩, .invariant, 2, []⟩ := by decide +kernel
  have noArguments : '<' ∉ descriptor.toList := by decide +kernel
  have noInner : '.' ∉ descriptor.toList := by decide +kernel
  obtain ⟨name, named, -, -, -, -, short, -⟩ := descriptor_readers_agree accepted noArguments noInner
  have described := short (by decide +kernel)
  rw [← Option.some.inj named] at described
  exact ⟨⟨accepted, noArguments, noInner⟩, described.trans (by decide +kernel)⟩

end AccentedArray

end Signature

end ClassAtlas
