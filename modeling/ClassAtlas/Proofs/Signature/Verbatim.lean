import Mathlib.Data.List.Infix
import ClassAtlas.Proofs.Signature.RoundTrip

/-! # Texts that are printed as they were read

Reading drops the dots between outer and inner classes, together with the arguments before them, and
empty brackets. Printing takes a class that is called like a primitive type for that type. A text with
none of these is printed character by character as it was read, as long as its array dimensions can be
counted in a word: a longer row of brackets comes out shorter.
-/

namespace ClassAtlas.Signature

variable (owner : String → TypeVariableOwner)

/-- No dot, no empty brackets, and no class is called like a primitive type. -/
structure Canonical (text : List Char) (classNames : List String) : Prop where
  dotless : '.' ∉ text
  filled : ¬ ['<', '>'] <:+: text
  names : ∀ n ∈ classNames, n ∉ primitiveWords

namespace Canonical

variable {text text' : List Char} {names names' : List String}

theorem part (h : Canonical text names) (inside : text' <:+: text) (fewer : names' ⊆ names) :
    Canonical text' names' where
  dotless member := h.dotless (inside.subset member)
  filled empty := h.filled (empty.trans inside)
  names n member := h.names n (fewer member)

theorem left (h : Canonical (text ++ text') (names ++ names')) : Canonical text names :=
  h.part (List.prefix_append _ _).isInfix (List.subset_append_left _ _)

theorem right (h : Canonical (text ++ text') (names ++ names')) : Canonical text' names' :=
  h.part (List.suffix_append _ _).isInfix (List.subset_append_right _ _)

theorem tail {c : Char} (h : Canonical (c :: text) names) : Canonical text names :=
  h.part (List.suffix_cons _ _).isInfix (List.Subset.refl _)

end Canonical

/-- Every dimension has its bracket in the text. What is printed is no longer than the text, and it is
    the text exactly if all dimensions fit into a word. -/
structure PrintsAs (printed text : List Char) (arrays : List Nat) : Prop where
  spelled : ∀ k ∈ arrays, k ≤ text.length
  short : printed.length ≤ text.length
  exact : printed = text ↔ ∀ k ∈ arrays, k < UInt32.size

namespace PrintsAs

variable {printed printed' text text' : List Char} {arrays arrays' : List Nat}

theorem refl (text : List Char) : PrintsAs text text [] :=
  ⟨by simp, Nat.le_refl _, by simp⟩

theorem append (h : PrintsAs printed text arrays) (h' : PrintsAs printed' text' arrays') :
    PrintsAs (printed ++ printed') (text ++ text') (arrays ++ arrays') where
  spelled k member := by
    rw [List.length_append]
    rcases List.mem_append.mp member with member | member
    · exact Nat.le_add_right_of_le (h.spelled k member)
    · exact Nat.le_add_left_of_le (h'.spelled k member)
  short := by
    rw [List.length_append, List.length_append]
    exact Nat.add_le_add h.short h'.short
  exact := by
    -- Neither part is longer than its text, so equal wholes have equal parts.
    have parts : printed ++ printed' = text ++ text' ↔ printed = text ∧ printed' = text' := by
      refine ⟨fun same => ?_, fun ⟨first, second⟩ => by rw [first, second]⟩
      have total := congrArg List.length same
      rw [List.length_append, List.length_append] at total
      have short := h.short
      have short' := h'.short
      exact List.append_inj same (by omega)
    rw [parts, h.exact, h'.exact, List.forall_mem_append]

theorem cons (c : Char) (h : PrintsAs printed text arrays) : PrintsAs (c :: printed) (c :: text) arrays :=
  (refl [c]).append h

theorem flatMap {α : Type} {print text : α → List Char} {arrays : α → List Nat} {xs : List α}
    (one : ∀ x ∈ xs, PrintsAs (print x) (text x) (arrays x)) :
    PrintsAs (xs.flatMap print) (xs.flatMap text) (xs.flatMap arrays) := by
  induction xs with
  | nil => exact refl []
  | cons x xs ih =>
    simp only [List.flatMap_cons]
    exact (one x List.mem_cons_self).append (ih fun y member => one y (List.mem_cons_of_mem _ member))

theorem of_short (h : PrintsAs printed text arrays) (small : text.length < UInt32.size) : printed = text :=
  h.exact.mpr fun k member => Nat.lt_of_le_of_lt (h.spelled k member) small

theorem encode {s : String} (h : PrintsAs printed text arrays) (derives : text = s.toList) :
    (String.ofList printed = s ↔ ∀ k ∈ arrays, k < UInt32.size) ∧
      (s.length < UInt32.size → String.ofList printed = s) := by
  subst derives
  have same : String.ofList printed = s ↔ printed = s.toList := by
    rw [← String.toList_inj, String.toList_ofList]
  exact ⟨same.trans h.exact, fun small => same.mpr (h.of_short small)⟩

end PrintsAs

/-! ## Types -/

theorem encodeChars_array_wrapped {t : TypeSignature} (plain : t.variance = .invariant)
    (full : UInt32.size ≤ t.depth.toNat + 1) :
    (TypeSignature.encodeChars { t with depth := t.depth + 1 }).length ≤ t.encodeChars.length := by
  obtain ⟨head, variance, depth, args⟩ := t
  obtain rfl : variance = .invariant := plain
  have counted : (depth + 1).toNat = 0 := by
    have bound := depth.toNat_lt_size
    rw [UInt32.toNat_add]
    have last : depth.toNat + UInt32.toNat 1 = UInt32.size := by
      change depth.toNat + 1 = UInt32.size
      change UInt32.size ≤ depth.toNat + 1 at full
      omega
    rw [last]
    exact Nat.mod_self _
  cases head <;> simp [TypeSignature.encodeChars, Variance.mark, counted]

theorem RefSyntax.dimensions_mem (d : RefSyntax) : d.dimensions = 0 ∨ d.dimensions ∈ d.arrays := by
  cases d with
  | cls _ _ => exact .inl rfl
  | var _ => exact .inl rfl
  | array element => exact .inr List.mem_cons_self

theorem TypeSyntax.dimensions_mem (d : TypeSyntax) : d.dimensions = 0 ∨ d.dimensions ∈ d.arrays := by
  cases d with
  | base _ => exact .inl rfl
  | ref r => exact r.dimensions_mem

theorem PrintsAs.array {t : TypeSignature} {text : List Char} {arrays : List Nat} {dimensions : Nat}
    (h : PrintsAs t.encodeChars text arrays) (plain : t.variance = .invariant)
    (depth : t.depth = UInt32.ofNat dimensions) (counted : dimensions = 0 ∨ dimensions ∈ arrays) :
    PrintsAs (TypeSignature.encodeChars { t with depth := t.depth + 1 }) ('[' :: text)
      ((dimensions + 1) :: arrays) := by
  have rest := h.short
  have spelled : ∀ k ∈ (dimensions + 1) :: arrays, k ≤ ('[' :: text).length := by
    refine List.forall_mem_cons.mpr ⟨Nat.succ_le_succ ?_, fun k member => Nat.le_succ_of_le (h.spelled k member)⟩
    exact counted.elim (fun none => none ▸ Nat.zero_le _) (h.spelled dimensions)
  have value : t.depth.toNat = dimensions % UInt32.size := by
    rw [depth]
    exact UInt32.toNat_ofNat'
  by_cases word : t.depth.toNat + 1 < UInt32.size
  · rw [encodeChars_array plain word]
    refine ⟨spelled, Nat.succ_le_succ rest, ?_⟩
    rw [List.cons.injEq, h.exact, List.forall_mem_cons]
    refine ⟨fun ⟨_, fit⟩ => ⟨?_, fit⟩, fun ⟨_, fit⟩ => ⟨rfl, fit⟩⟩
    -- Inside, the dimensions fit, so the word has counted them.
    have small : dimensions < UInt32.size := counted.elim (fun none => none ▸ by decide) (fit dimensions)
    rw [value, Nat.mod_eq_of_lt small] at word
    exact word
  · have short := encodeChars_array_wrapped plain (Nat.le_of_not_lt word)
    refine ⟨spelled, by rw [List.length_cons]; omega, ?_⟩
    refine ⟨fun same => ?_, fun fit => ?_⟩
    · have length := congrArg List.length same
      rw [List.length_cons] at length
      omega
    · have small : dimensions + 1 < UInt32.size := fit _ List.mem_cons_self
      rw [value, Nat.mod_eq_of_lt (Nat.lt_of_succ_lt small)] at word
      exact absurd small word

mutual
theorem TypeSyntax.printsAs (owner : String → TypeVariableOwner) (d : TypeSyntax)
    (h : Canonical d.text d.classNames) : PrintsAs (d.tree owner).encodeChars d.text d.arrays := by
  match d with
  | .base b =>
    rw [TypeSyntax.tree, encodeChars_base]
    exact .refl _
  | .ref r => exact r.printsAs owner h
termination_by structural d
theorem RefSyntax.printsAs (owner : String → TypeVariableOwner) (d : RefSyntax)
    (h : Canonical d.text d.classNames) : PrintsAs (d.tree owner).encodeChars d.text d.arrays := by
  match d with
  | .cls name rest => exact rest.printsAs owner name h
  | .var name =>
    have printed : ((RefSyntax.var name).tree owner).encodeChars = (RefSyntax.var name).text := by
      simp [RefSyntax.text, RefSyntax.tree, TypeSignature.ofVariable, TypeSignature.encodeChars,
        Variance.mark, Name.string]
    rw [printed]
    exact .refl _
  | .array element =>
    have inside := element.printsAs owner h.tail
    exact inside.array (element.tree_variance owner) (element.tree_depth owner) element.dimensions_mem
termination_by structural d
theorem ClassSyntax.printsAs (owner : String → TypeVariableOwner) (d : ClassSyntax) (name : Name classStops)
    (h : Canonical ('L' :: (name.chars ++ d.text)) (d.classNames name.string)) :
    PrintsAs (d.tree owner name.string).encodeChars ('L' :: (name.chars ++ d.text)) d.arrays := by
  match d with
  | .done args =>
    have word : name.string ∉ primitiveWords := h.names _ List.mem_cons_self
    have rest : Canonical args.text args.classNames :=
      h.part ⟨'L' :: name.chars, [';'], by simp [ClassSyntax.text]⟩ (List.subset_cons_self _ _)
    have inside := args.printsAs owner rest
    rw [ClassSyntax.tree, encodeChars_class name.dotless word, Name.string, String.toList_ofList]
    have whole := ((PrintsAs.refl name.chars).append (inside.append (.refl [';']))).cons 'L'
    rwa [List.append_nil, List.nil_append] at whole
  | .inner args inner rest =>
    exact absurd (by simp [ClassSyntax.text]) h.dotless
termination_by structural d
theorem ArgsSyntax.printsAs (owner : String → TypeVariableOwner) (d : ArgsSyntax)
    (h : Canonical d.text d.classNames) :
    PrintsAs (TypeSignature.encodeArgs (d.trees owner)) d.text d.arrays := by
  match d with
  | .absent => exact .refl _
  | .given .close => exact absurd (List.infix_refl _) h.filled
  | .given (.any rest) => exact (ArgList.printsAs owner (.any rest) h.tail).cons '<'
  | .given (.type mark r rest) => exact (ArgList.printsAs owner (.type mark r rest) h.tail).cons '<'
termination_by structural d
theorem ArgList.printsAs (owner : String → TypeVariableOwner) (d : ArgList)
    (h : Canonical d.text d.classNames) :
    PrintsAs (TypeSignature.encodeRest (d.trees owner)) d.text d.arrays := by
  match d with
  | .close => exact .refl _
  | .any rest => exact (rest.printsAs owner h.tail).cons '*'
  | .type mark r rest =>
    have types : Canonical (r.text ++ rest.text) (r.classNames ++ rest.classNames) :=
      h.part (List.suffix_append _ _).isInfix (List.Subset.refl _)
    rw [ArgList.trees, TypeSignature.encodeRest, encodeChars_marked (r.tree_variance owner),
      List.append_assoc]
    exact (PrintsAs.refl mark.chars).append
      ((r.printsAs owner types.left).append (rest.printsAs owner types.right))
termination_by structural d
end

/-! ## Whole signatures -/

theorem Canonical.each {α : Type} {text : α → List Char} {names : α → List String} {xs : List α} {x : α}
    (h : Canonical (xs.flatMap text) (xs.flatMap names)) (member : x ∈ xs) : Canonical (text x) (names x) :=
  h.part (List.infix_of_mem_flatten (List.mem_map_of_mem member)) fun _ inside =>
    List.mem_flatMap.mpr ⟨x, member, inside⟩

theorem FormalSyntax.printsAs (f : FormalSyntax)
    (h : Canonical f.text f.classNames) : PrintsAs (f.tree owner).encodeChars f.text f.arrays := by
  have bounds : Canonical (f.bound.elim [] RefSyntax.text ++ f.interfaceText) f.classNames :=
    h.part ⟨f.name.chars ++ [':'], [], by simp [text]⟩ (List.Subset.refl _)
  have bound : PrintsAs (((f.bound.map (·.tree owner)).map TypeSignature.encodeChars).getD [])
      (f.bound.elim [] RefSyntax.text) (f.bound.elim [] RefSyntax.arrays) := by
    have canonical := bounds.left
    cases given : f.bound with
    | none => exact .refl []
    | some r =>
      rw [given] at canonical
      exact r.printsAs owner canonical
  have interfaces : PrintsAs (f.interfaces.flatMap fun r => ':' :: (r.tree owner).encodeChars)
      f.interfaceText (f.interfaces.flatMap RefSyntax.arrays) :=
    .flatMap fun r member => (r.printsAs owner (bounds.right.each member).tail).cons ':'
  have whole := (PrintsAs.refl f.name.chars).append ((bound.append interfaces).cons ':')
  simpa [FormalParameter.encodeChars, tree, text, arrays, Name.string, List.flatMap_map] using whole

theorem FormalsSyntax.printsAs (formals : Option FormalsSyntax)
    (h : Canonical (formals.elim [] text) (formals.elim [] classNames)) :
    PrintsAs (FormalParameter.encodeList (formals.elim [] (·.trees owner))) (formals.elim [] text)
      (formals.elim [] arrays) := by
  obtain _ | ⟨_ | ⟨f, fs⟩, clear⟩ := formals
  · exact .refl []
  · exact absurd (List.infix_refl _) h.filled
  · have inside : Canonical ((f :: fs).flatMap FormalSyntax.text) ((f :: fs).flatMap FormalSyntax.classNames) :=
      h.part ⟨['<'], ['>'], by simp [text, FormalSyntax.listText_eq]⟩ (List.Subset.refl _)
    have list : PrintsAs ((f :: fs).flatMap fun f => (f.tree owner).encodeChars)
        ((f :: fs).flatMap FormalSyntax.text) ((f :: fs).flatMap FormalSyntax.arrays) :=
      .flatMap fun g member => g.printsAs owner (inside.each member)
    have whole := (list.append (.refl ['>'])).cons '<'
    simpa [FormalParameter.encodeList, trees, text, arrays, FormalSyntax.listText_eq, List.flatMap_map]
      using whole

theorem ClassSigSyntax.printsAs (d : ClassSigSyntax)
    (h : Canonical d.text d.classNames) : PrintsAs (d.tree owner).encodeChars d.text d.arrays := by
  have formals := FormalsSyntax.printsAs owner d.formals h.left
  have superclass := d.superclass.ref.printsAs owner h.right.left
  have interfaces : PrintsAs (d.interfaces.flatMap fun c => (c.ref.tree owner).encodeChars)
      (d.interfaces.flatMap (·.ref.text)) (d.interfaces.flatMap (·.ref.arrays)) :=
    .flatMap fun c member => c.ref.printsAs owner (h.right.right.each member)
  have whole := formals.append (superclass.append interfaces)
  simpa [ClassSignature.encodeChars, ClassSignature.supertypes, tree, text, arrays, List.flatMap_map] using whole

theorem MethodSigSyntax.printsAs (d : MethodSigSyntax)
    (h : Canonical d.text d.classNames) : PrintsAs (d.tree owner).encodeChars d.text d.arrays := by
  have formals := FormalsSyntax.printsAs owner d.formals h.left
  have signature := h.right.tail
  have afterParameters := signature.right.tail
  have parameters : PrintsAs (d.parameters.flatMap fun p => (p.tree owner).encodeChars)
      (d.parameters.flatMap TypeSyntax.text) (d.parameters.flatMap TypeSyntax.arrays) :=
    .flatMap fun p member => p.printsAs owner (signature.left.each member)
  have result : PrintsAs (d.result.elim (.ofType .void) (·.tree owner) : TypeSignature).encodeChars
      (d.result.elim ['V'] TypeSyntax.text) (d.result.elim [] TypeSyntax.arrays) := by
    have canonical := afterParameters.left
    cases given : d.result with
    | none =>
      change PrintsAs (TypeSignature.ofType .void).encodeChars ['V'] []
      rw [encodeChars_void]
      exact .refl _
    | some r =>
      rw [given] at canonical
      exact r.printsAs owner canonical
  have exceptions : PrintsAs (d.exceptions.flatMap fun e => '^' :: (e.ref.tree owner).encodeChars)
      (d.exceptions.flatMap fun e => '^' :: e.ref.text) (d.exceptions.flatMap (·.ref.arrays)) :=
    .flatMap fun e member => (e.ref.printsAs owner (afterParameters.right.each member).tail).cons '^'
  have whole := formals.append ((parameters.append ((result.append exceptions).cons ')')).cons '(')
  simpa [MethodSignature.encodeChars, tree, text, arrays, List.flatMap_map] using whole

/-- A signature that was read from canonical text is printed as that text, unless the text has an array
    type with more dimensions than a word can count. A text shorter than that has none. -/
theorem encode_of_parse (scope : TypeScope) (type : TypeName) (owner : TypeVariableOwner) (s : String) :
    (∀ t, parseField scope s = .ok t → ∃ d : TypeSyntax, d.text = s.toList ∧
      (Canonical s.toList d.classNames →
        (t.encode = s ↔ ∀ k ∈ d.arrays, k < UInt32.size) ∧ (s.length < UInt32.size → t.encode = s))) ∧
    (∀ t, parseClass scope type s = .ok t → ∃ d : ClassSigSyntax, d.text = s.toList ∧
      (Canonical s.toList d.classNames →
        (t.encode = s ↔ ∀ k ∈ d.arrays, k < UInt32.size) ∧ (s.length < UInt32.size → t.encode = s))) ∧
    (∀ t, parseMethod scope owner s = .ok t → ∃ d : MethodSigSyntax, d.text = s.toList ∧
      (Canonical s.toList d.classNames →
        (t.encode = s ↔ ∀ k ∈ d.arrays, k < UInt32.size) ∧ (s.length < UInt32.size → t.encode = s))) := by
  refine ⟨fun t accepted => ?_, fun t accepted => ?_, fun t accepted => ?_⟩
  · obtain ⟨d, derives, _, rfl⟩ := (parseField_iff scope s t).mp accepted
    exact ⟨d, derives, fun canonical => (d.printsAs _ (derives ▸ canonical)).encode derives⟩
  · obtain ⟨d, derives, _, rfl⟩ := (parseClass_iff scope type s t).mp accepted
    exact ⟨d, derives, fun canonical => (d.printsAs _ (derives ▸ canonical)).encode derives⟩
  · obtain ⟨d, derives, _, rfl⟩ := (parseMethod_iff scope owner s t).mp accepted
    exact ⟨d, derives, fun canonical => (d.printsAs _ (derives ▸ canonical)).encode derives⟩

/-- Parameters with interface bounds, wildcards, arrays and type variables come out as they went in. -/
theorem InnerOfGeneric.printed_verbatim :
    (parseField .empty "[[Lo/P;" = .ok fieldTree ∧ fieldTree.encode = "[[Lo/P;") ∧
    (parseClass .empty ⟨"C"⟩ "<T::Lo/P$In<*+[[I-TU;>;U:Lo/P;>Lo/P$In<*+[[I-TU;>;Lo/P;" = .ok typeTree ∧
      typeTree.encode = "<T::Lo/P$In<*+[[I-TU;>;U:Lo/P;>Lo/P$In<*+[[I-TU;>;Lo/P;") ∧
    (parseMethod .empty (.ofMethod ⟨"C"⟩ "m" "()V")
        "<T::Lo/P$In<*+[[I-TU;>;U:Lo/P;>(Lo/P$In<*+[[I-TU;>;[[Lo/P;J)V^TT;" = .ok methodTree ∧
      methodTree.encode = "<T::Lo/P$In<*+[[I-TU;>;U:Lo/P;>(Lo/P$In<*+[[I-TU;>;[[Lo/P;J)V^TT;") := by
  have readField : parseField .empty "[[Lo/P;" = .ok fieldTree := by decide +kernel
  have readType : parseClass .empty ⟨"C"⟩ "<T::Lo/P$In<*+[[I-TU;>;U:Lo/P;>Lo/P$In<*+[[I-TU;>;Lo/P;" =
      .ok typeTree := by decide +kernel
  have readMethod : parseMethod .empty (.ofMethod ⟨"C"⟩ "m" "()V")
      "<T::Lo/P$In<*+[[I-TU;>;U:Lo/P;>(Lo/P$In<*+[[I-TU;>;[[Lo/P;J)V^TT;" = .ok methodTree := by
    decide +kernel
  refine ⟨⟨readField, ?_⟩, ⟨readType, ?_⟩, ⟨readMethod, ?_⟩⟩
  · obtain ⟨d, derives, verbatim⟩ := (encode_of_parse .empty ⟨"C"⟩ (.ofClass ⟨"C"⟩) _).1 _ readField
    obtain rfl : d = field.canonical := TypeSyntax.eq_of_text (derives.trans (by decide +kernel))
    exact (verbatim ⟨by decide +kernel, by decide +kernel, by decide +kernel⟩).2 (by decide +kernel)
  · obtain ⟨d, derives, verbatim⟩ := (encode_of_parse .empty ⟨"C"⟩ (.ofClass ⟨"C"⟩) _).2.1 _ readType
    obtain rfl : d = type.canonical := ClassSigSyntax.unique (derives.trans (by decide +kernel))
    exact (verbatim ⟨by decide +kernel, by decide +kernel, by decide +kernel⟩).2 (by decide +kernel)
  · obtain ⟨d, derives, verbatim⟩ :=
      (encode_of_parse .empty ⟨"C"⟩ (.ofMethod ⟨"C"⟩ "m" "()V") _).2.2 _ readMethod
    obtain rfl : d = method.canonical := MethodSigSyntax.unique (derives.trans (by decide +kernel))
    exact (verbatim ⟨by decide +kernel, by decide +kernel, by decide +kernel⟩).2 (by decide +kernel)

end ClassAtlas.Signature
