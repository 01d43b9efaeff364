import Mathlib.Data.List.Basic
import ClassAtlas.Proofs.Signature.Acceptance
import ClassAtlas.Signature.Printer

/-! # Printing and reading again

The printed form of a tree is the text of a derivation in canonical form: inner classes are joined to
their outer classes, arguments that do not count are gone and so are empty brackets. It has the same
tree, hence reading it gives the tree back. Two things are lost in printing: a class whose name is a
primitive type's word is taken for the primitive type, and an array's dimensions are counted in a word
of 32 bits.
-/

namespace ClassAtlas.Signature

variable {name : String}

def primitiveWords : List String := TypeName.primitives.map (·.2)

/-! ## What printing may lose -/

mutual
def TypeSyntax.classNames : TypeSyntax → List String
  | .base _ => []
  | .ref r => r.classNames
termination_by structural d => d
def RefSyntax.classNames : RefSyntax → List String
  | .cls name rest => rest.classNames name.string
  | .var _ => []
  | .array element => element.classNames
termination_by structural d => d
def ClassSyntax.classNames : ClassSyntax → String → List String
  | .done args, name => name :: args.classNames
  | .inner args inner rest, name => args.classNames ++ rest.classNames (name ++ "$" ++ inner.string)
termination_by structural d => d
def ArgsSyntax.classNames : ArgsSyntax → List String
  | .absent => []
  | .given list => list.classNames
termination_by structural d => d
def ArgList.classNames : ArgList → List String
  | .close => []
  | .any rest => rest.classNames
  | .type _ r rest => r.classNames ++ rest.classNames
termination_by structural d => d
end

mutual
def TypeSyntax.dimensions : TypeSyntax → Nat
  | .base _ => 0
  | .ref r => r.dimensions
termination_by structural d => d
def RefSyntax.dimensions : RefSyntax → Nat
  | .cls _ _ => 0
  | .var _ => 0
  | .array element => element.dimensions + 1
termination_by structural d => d
end

mutual
def TypeSyntax.arrays : TypeSyntax → List Nat
  | .base _ => []
  | .ref r => r.arrays
termination_by structural d => d
def RefSyntax.arrays : RefSyntax → List Nat
  | .cls _ rest => rest.arrays
  | .var _ => []
  | .array element => (element.dimensions + 1) :: element.arrays
termination_by structural d => d
def ClassSyntax.arrays : ClassSyntax → List Nat
  | .done args => args.arrays
  | .inner args _ rest => args.arrays ++ rest.arrays
termination_by structural d => d
def ArgsSyntax.arrays : ArgsSyntax → List Nat
  | .absent => []
  | .given list => list.arrays
termination_by structural d => d
def ArgList.arrays : ArgList → List Nat
  | .close => []
  | .any rest => rest.arrays
  | .type _ r rest => r.arrays ++ rest.arrays
termination_by structural d => d
end

/-- No class is called like a primitive type, and dimensions fit into a word. -/
structure Printable (classNames : List String) (arrays : List Nat) : Prop where
  names : ∀ n ∈ classNames, n ∉ primitiveWords
  words : ∀ k ∈ arrays, k < UInt32.size

namespace Printable

variable {names names' : List String} {arrays arrays' : List Nat}

theorem left (h : Printable (names ++ names') (arrays ++ arrays')) : Printable names arrays :=
  ⟨fun n member => h.names n (List.mem_append_left _ member),
    fun k member => h.words k (List.mem_append_left _ member)⟩

theorem right (h : Printable (names ++ names') (arrays ++ arrays')) : Printable names' arrays' :=
  ⟨fun n member => h.names n (List.mem_append_right _ member),
    fun k member => h.words k (List.mem_append_right _ member)⟩

end Printable

/-! ## Canonical derivations -/

/-- An inner class's name joined to its outer class's. -/
def Name.join (outer inner : Name classStops) : Name classStops where
  chars := outer.chars ++ '$' :: inner.chars
  nonempty := by simp
  clear := by
    intro c member
    rcases List.mem_append.mp member with member | member
    · exact outer.clear c member
    · rcases List.mem_cons.mp member with rfl | member
      · decide
      · exact inner.clear c member

/-- Arguments in brackets, nothing when there are none. -/
def ArgList.shorten : ArgList → ArgsSyntax
  | .close => .absent
  | list => .given list

mutual
/-- The derivation of what is printed for a derivation's tree. -/
def TypeSyntax.canonical : TypeSyntax → TypeSyntax
  | .base b => .base b
  | .ref r => .ref r.canonical
termination_by structural d => d
def RefSyntax.canonical : RefSyntax → RefSyntax
  | .cls name rest => (rest.canonical name).ref
  | .var name => .var name
  | .array element => .array element.canonical
termination_by structural d => d
def ClassSyntax.canonical : ClassSyntax → Name classStops → ClassTypeSyntax
  | .done args, name => ⟨name, .done args.canonical⟩
  | .inner _ inner rest, name => rest.canonical (name.join inner)
termination_by structural d => d
def ArgsSyntax.canonical : ArgsSyntax → ArgsSyntax
  | .absent => .absent
  | .given list => list.canonical.shorten
termination_by structural d => d
def ArgList.canonical : ArgList → ArgList
  | .close => .close
  | .any rest => .any rest.canonical
  | .type mark r rest => .type mark r.canonical rest.canonical
termination_by structural d => d
end

theorem Name.join_string (outer inner : Name classStops) :
    (outer.join inner).string = outer.string ++ "$" ++ inner.string := by
  simp [Name.string, Name.join, String.ofList_append, String.append_assoc]

theorem ArgList.shorten_trees (owner : String → TypeVariableOwner) (d : ArgList) :
    d.shorten.trees owner = d.trees owner := by
  cases d <;> rfl

theorem ArgList.shorten_variableNames (d : ArgList) : d.shorten.variableNames = d.variableNames := by
  cases d <;> rfl

mutual
theorem TypeSyntax.canonical_tree (owner : String → TypeVariableOwner) (d : TypeSyntax) :
    d.canonical.tree owner = d.tree owner := by
  match d with
  | .base _ => rfl
  | .ref r => exact r.canonical_tree owner
termination_by structural d
theorem RefSyntax.canonical_tree (owner : String → TypeVariableOwner) (d : RefSyntax) :
    d.canonical.tree owner = d.tree owner := by
  match d with
  | .cls name rest => exact rest.canonical_tree owner name
  | .var _ => rfl
  | .array element => simp only [RefSyntax.canonical, RefSyntax.tree, element.canonical_tree owner]
termination_by structural d
theorem ClassSyntax.canonical_tree (owner : String → TypeVariableOwner) (d : ClassSyntax)
    (name : Name classStops) : (d.canonical name).ref.tree owner = d.tree owner name.string := by
  match d with
  | .done args =>
    simp only [ClassSyntax.canonical, ClassTypeSyntax.ref, RefSyntax.tree, ClassSyntax.tree,
      args.canonical_trees owner]
  | .inner args inner rest =>
    simp only [ClassSyntax.canonical, ClassSyntax.tree, rest.canonical_tree owner, Name.join_string]
termination_by structural d
theorem ArgsSyntax.canonical_trees (owner : String → TypeVariableOwner) (d : ArgsSyntax) :
    d.canonical.trees owner = d.trees owner := by
  match d with
  | .absent => rfl
  | .given list =>
    simp only [ArgsSyntax.canonical, ArgList.shorten_trees, list.canonical_trees owner, ArgsSyntax.trees]
termination_by structural d
theorem ArgList.canonical_trees (owner : String → TypeVariableOwner) (d : ArgList) :
    d.canonical.trees owner = d.trees owner := by
  match d with
  | .close => rfl
  | .any rest => simp only [ArgList.canonical, ArgList.trees, rest.canonical_trees owner]
  | .type mark r rest =>
    simp only [ArgList.canonical, ArgList.trees, r.canonical_tree owner, rest.canonical_trees owner]
termination_by structural d
end

theorem append_subset_append {α : Type} {xs xs' ys ys' : List α} (left : xs ⊆ xs') (right : ys ⊆ ys') :
    xs ++ ys ⊆ xs' ++ ys' :=
  List.append_subset.mpr
    ⟨List.Subset.trans left (List.subset_append_left _ _),
      List.Subset.trans right (List.subset_append_right _ _)⟩

mutual
theorem TypeSyntax.canonical_variableNames (d : TypeSyntax) :
    d.canonical.variableNames ⊆ d.variableNames := by
  match d with
  | .base _ => exact List.Subset.refl _
  | .ref r => exact r.canonical_variableNames
termination_by structural d
theorem RefSyntax.canonical_variableNames (d : RefSyntax) :
    d.canonical.variableNames ⊆ d.variableNames := by
  match d with
  | .cls name rest => exact rest.canonical_variableNames name
  | .var _ => exact List.Subset.refl _
  | .array element => exact element.canonical_variableNames
termination_by structural d
theorem ClassSyntax.canonical_variableNames (d : ClassSyntax) (name : Name classStops) :
    (d.canonical name).ref.variableNames ⊆ d.variableNames := by
  match d with
  | .done args => exact args.canonical_variableNames
  | .inner args inner rest =>
    exact List.Subset.trans (rest.canonical_variableNames _) (List.subset_append_right _ _)
termination_by structural d
theorem ArgsSyntax.canonical_variableNames (d : ArgsSyntax) :
    d.canonical.variableNames ⊆ d.variableNames := by
  match d with
  | .absent => exact List.Subset.refl _
  | .given list =>
    rw [ArgsSyntax.canonical, ArgList.shorten_variableNames]
    exact list.canonical_variableNames
termination_by structural d
theorem ArgList.canonical_variableNames (d : ArgList) : d.canonical.variableNames ⊆ d.variableNames := by
  match d with
  | .close => exact List.Subset.refl _
  | .any rest => exact rest.canonical_variableNames
  | .type mark r rest =>
    exact append_subset_append r.canonical_variableNames rest.canonical_variableNames
termination_by structural d
end

/-! ## The text of a canonical derivation -/

theorem Name.dotless (n : Name classStops) : '.' ∉ n.string.toList := by
  rw [Name.string, String.toList_ofList]
  intro member
  exact n.clear '.' member (by decide)

theorem toInternal_ofInternal (dotless : '.' ∉ name.toList) : (TypeName.ofInternal name).toInternal = name := by
  have kept : ∀ c ∈ name.toList,
      ((fun c => if c = '.' then '/' else c) ∘ fun c => if c = '/' then '.' else c) c = c := by
    intro c member
    have notDot : c ≠ '.' := fun same => dotless (same ▸ member)
    by_cases slash : c = '/' <;> simp [slash, notDot]
  simp only [TypeName.ofInternal, TypeName.toInternal, TypeName.exchange, String.toList_ofList,
    List.map_map]
  rw [List.map_congr_left kept, List.map_id', String.ofList_toList]

theorem descriptorChar?_ofInternal (dotless : '.' ∉ name.toList) (word : name ∉ primitiveWords) :
    (TypeName.ofInternal name).descriptorChar? = none := by
  -- A primitive type's word has no dot, so it is its own internal form.
  have fixed : ∀ p ∈ TypeName.primitives, TypeName.toInternal ⟨p.2⟩ = p.2 := by decide
  rw [TypeName.descriptorChar?, Option.map_eq_none_iff, List.find?_eq_none]
  intro p member same
  have text : p.2 = (TypeName.ofInternal name).text := beq_iff_eq.mp same
  have called : name = p.2 := by
    rw [← fixed p member, text]
    exact (toInternal_ofInternal dotless).symm
  exact word (called ▸ List.mem_map_of_mem member)

theorem encodeChars_class (dotless : '.' ∉ name.toList) (word : name ∉ primitiveWords) (args : List TypeSignature) :
    (TypeSignature.ofType (.ofInternal name) args).encodeChars =
      'L' :: (name.toList ++ (TypeSignature.encodeArgs args ++ [';'])) := by
  simp [TypeSignature.ofType, TypeSignature.encodeChars, Variance.mark,
    descriptorChar?_ofInternal dotless word, toInternal_ofInternal dotless]

theorem encodeChars_base (b : BaseType) : (TypeSignature.ofType b.type).encodeChars = [b.letter] := by
  cases b <;> decide

theorem encodeChars_void : (TypeSignature.ofType .void).encodeChars = ['V'] := by
  decide

theorem encodeChars_array {t : TypeSignature} (plain : t.variance = .invariant)
    (word : t.depth.toNat + 1 < UInt32.size) :
    TypeSignature.encodeChars { t with depth := t.depth + 1 } = '[' :: t.encodeChars := by
  obtain ⟨head, variance, depth, args⟩ := t
  obtain rfl : variance = .invariant := plain
  have counted : (depth + 1).toNat = depth.toNat + 1 := by
    rw [UInt32.toNat_add]
    exact Nat.mod_eq_of_lt word
  cases head <;>
    simp [TypeSignature.encodeChars, Variance.mark, counted, List.replicate_succ]

theorem encodeChars_marked {t : TypeSignature} (plain : t.variance = .invariant) (mark : Mark) :
    TypeSignature.encodeChars { t with variance := mark.variance } = mark.chars ++ t.encodeChars := by
  obtain ⟨head, variance, depth, args⟩ := t
  obtain rfl : variance = .invariant := plain
  cases head <;> cases mark <;> simp [TypeSignature.encodeChars, Variance.mark, Mark.variance, Mark.chars]

mutual
theorem TypeSyntax.tree_depth (owner : String → TypeVariableOwner) (d : TypeSyntax) :
    (d.tree owner).depth = UInt32.ofNat d.dimensions := by
  match d with
  | .base _ => rfl
  | .ref r => exact r.tree_depth owner
termination_by structural d
theorem RefSyntax.tree_depth (owner : String → TypeVariableOwner) (d : RefSyntax) :
    (d.tree owner).depth = UInt32.ofNat d.dimensions := by
  match d with
  | .cls name rest => exact rest.tree_depth owner name.string
  | .var _ => rfl
  | .array element =>
    simp only [RefSyntax.tree, RefSyntax.dimensions, element.tree_depth owner, UInt32.ofNat_add]
    rfl
termination_by structural d
theorem ClassSyntax.tree_depth (owner : String → TypeVariableOwner) (d : ClassSyntax) (name : String) :
    (d.tree owner name).depth = UInt32.ofNat 0 := by
  match d with
  | .done _ => rfl
  | .inner _ inner rest => exact rest.tree_depth owner _
termination_by structural d
end

theorem ArgList.shorten_text {owner : String → TypeVariableOwner} {d : ArgList}
    (printed : d.text = TypeSignature.encodeRest (d.trees owner)) :
    d.shorten.text = TypeSignature.encodeArgs (d.trees owner) := by
  cases d with
  | close => rfl
  | any rest => exact congrArg ('<' :: ·) printed
  | type mark r rest => exact congrArg ('<' :: ·) printed

mutual
theorem TypeSyntax.canonical_text (owner : String → TypeVariableOwner) (d : TypeSyntax)
    (printable : Printable d.classNames d.arrays) : d.canonical.text = (d.tree owner).encodeChars := by
  match d with
  | .base b => exact (encodeChars_base b).symm
  | .ref r => exact r.canonical_text owner printable
termination_by structural d
theorem RefSyntax.canonical_text (owner : String → TypeVariableOwner) (d : RefSyntax)
    (printable : Printable d.classNames d.arrays) : d.canonical.text = (d.tree owner).encodeChars := by
  match d with
  | .cls name rest => exact rest.canonical_text owner name printable
  | .var name =>
    simp [RefSyntax.canonical, RefSyntax.text, RefSyntax.tree, TypeSignature.ofVariable,
      TypeSignature.encodeChars, Variance.mark, Name.string]
  | .array element =>
    have fits : element.dimensions + 1 < UInt32.size := printable.words _ List.mem_cons_self
    have inside : Printable element.classNames element.arrays :=
      ⟨printable.names, fun k member => printable.words k (List.mem_cons_of_mem _ member)⟩
    have word : (element.tree owner).depth.toNat + 1 < UInt32.size := by
      rw [element.tree_depth owner, UInt32.toNat_ofNat']
      omega
    rw [RefSyntax.canonical, RefSyntax.text, element.canonical_text owner inside]
    exact (encodeChars_array (element.tree_variance owner) word).symm
termination_by structural d
theorem ClassSyntax.canonical_text (owner : String → TypeVariableOwner) (d : ClassSyntax)
    (name : Name classStops) (printable : Printable (d.classNames name.string) d.arrays) :
    (d.canonical name).ref.text = (d.tree owner name.string).encodeChars := by
  match d with
  | .done args =>
    have inside : Printable args.classNames args.arrays :=
      ⟨fun n member => printable.names n (List.mem_cons_of_mem _ member), printable.words⟩
    rw [ClassSyntax.tree, encodeChars_class name.dotless (printable.names _ List.mem_cons_self),
      ← args.canonical_text owner inside, Name.string, String.toList_ofList]
    rfl
  | .inner args inner rest =>
    have joined : Printable (rest.classNames (name.join inner).string) rest.arrays := by
      rw [Name.join_string]
      exact printable.right
    rw [ClassSyntax.canonical, ClassSyntax.tree, rest.canonical_text owner _ joined, Name.join_string]
termination_by structural d
theorem ArgsSyntax.canonical_text (owner : String → TypeVariableOwner) (d : ArgsSyntax)
    (printable : Printable d.classNames d.arrays) :
    d.canonical.text = TypeSignature.encodeArgs (d.trees owner) := by
  match d with
  | .absent => rfl
  | .given list =>
    have printed : list.canonical.text = TypeSignature.encodeRest (list.canonical.trees owner) := by
      rw [list.canonical_trees owner]
      exact list.canonical_text owner printable
    rw [ArgsSyntax.canonical, ArgList.shorten_text printed, list.canonical_trees owner, ArgsSyntax.trees]
termination_by structural d
theorem ArgList.canonical_text (owner : String → TypeVariableOwner) (d : ArgList)
    (printable : Printable d.classNames d.arrays) :
    d.canonical.text = TypeSignature.encodeRest (d.trees owner) := by
  match d with
  | .close => rfl
  | .any rest =>
    rw [ArgList.canonical, ArgList.text, rest.canonical_text owner printable]
    rfl
  | .type mark r rest =>
    rw [ArgList.canonical, ArgList.text, r.canonical_text owner printable.left,
      rest.canonical_text owner printable.right, ArgList.trees, TypeSignature.encodeRest,
      encodeChars_marked (r.tree_variance owner), List.append_assoc]
termination_by structural d
end

/-! ## Lists of parts -/

section Parts

variable {α : Type} {canonical : α → α} {names : α → List String} {arrays : α → List Nat}

theorem Printable.each {xs : List α} {x : α} (h : Printable (xs.flatMap names) (xs.flatMap arrays))
    (member : x ∈ xs) : Printable (names x) (arrays x) :=
  ⟨fun n inside => h.names n (List.mem_flatMap.mpr ⟨x, member, inside⟩),
    fun k inside => h.words k (List.mem_flatMap.mpr ⟨x, member, inside⟩)⟩

theorem flatMap_canonical_text {text print : α → List Char}
    (one : ∀ x, Printable (names x) (arrays x) → text (canonical x) = print x) (xs : List α)
    (printable : Printable (xs.flatMap names) (xs.flatMap arrays)) :
    (xs.map canonical).flatMap text = xs.flatMap print := by
  rw [List.flatMap_map]
  exact List.flatMap_congr fun x member => one x (printable.each member)

theorem flatMap_canonical_variableNames {variableNames : α → List String}
    (one : ∀ x, variableNames (canonical x) ⊆ variableNames x) (xs : List α) :
    (xs.map canonical).flatMap variableNames ⊆ xs.flatMap variableNames := by
  rw [List.flatMap_map]
  intro n member
  obtain ⟨x, inside, mentioned⟩ := List.mem_flatMap.mp member
  exact List.mem_flatMap.mpr ⟨x, inside, one x mentioned⟩

end Parts

/-! ## Type parameters -/

namespace FormalSyntax

def classNames (f : FormalSyntax) : List String :=
  f.bound.elim [] RefSyntax.classNames ++ f.interfaces.flatMap RefSyntax.classNames

def arrays (f : FormalSyntax) : List Nat :=
  f.bound.elim [] RefSyntax.arrays ++ f.interfaces.flatMap RefSyntax.arrays

def canonical (f : FormalSyntax) : FormalSyntax :=
  { f with bound := f.bound.map RefSyntax.canonical, interfaces := f.interfaces.map RefSyntax.canonical }

theorem canonical_tree (owner : String → TypeVariableOwner) (f : FormalSyntax) :
    f.canonical.tree owner = f.tree owner := by
  simp [canonical, tree, Function.comp_def, RefSyntax.canonical_tree]

theorem canonical_variableNames (f : FormalSyntax) : f.canonical.variableNames ⊆ f.variableNames := by
  refine append_subset_append ?_ (flatMap_canonical_variableNames RefSyntax.canonical_variableNames _)
  rw [canonical]
  cases f.bound with
  | none => exact List.Subset.refl _
  | some r => exact r.canonical_variableNames

theorem canonical_text (owner : String → TypeVariableOwner) (f : FormalSyntax)
    (printable : Printable f.classNames f.arrays) : f.canonical.text = (f.tree owner).encodeChars := by
  have bound : (f.bound.map RefSyntax.canonical).elim [] RefSyntax.text =
      ((f.bound.map (·.tree owner)).map TypeSignature.encodeChars).getD [] := by
    have printable := printable.left
    cases same : f.bound with
    | none => rfl
    | some r =>
      rw [same] at printable
      exact r.canonical_text owner printable
  have interfaces : (f.interfaces.map RefSyntax.canonical).flatMap (fun r => ':' :: r.text) =
      f.interfaces.flatMap fun r => ':' :: (r.tree owner).encodeChars :=
    flatMap_canonical_text
      (fun (r : RefSyntax) inside => congrArg (':' :: ·) (r.canonical_text owner inside)) _ printable.right
  simp only [text, interfaceText, canonical, bound, interfaces, FormalParameter.encodeChars, tree,
    List.flatMap_map, Name.string, String.toList_ofList, List.append_assoc, List.cons_append]

theorem startsReference_canonical (f : FormalSyntax) (fs : List FormalSyntax) :
    startsReference (f.canonical.interfaceText ++ listText (fs.map canonical)) =
      startsReference (f.interfaceText ++ listText fs) := by
  cases same : f.interfaces with
  | cons r rs => simp [canonical, interfaceText, same, startsReference_cons]
  | nil =>
    simp only [canonical, interfaceText, same, List.map_nil, List.flatMap_nil, List.nil_append]
    cases fs with
    | nil => rfl
    | cons g gs =>
      simp only [List.map_cons, listText, text, List.append_assoc]
      rw [startsReference_append g.canonical.name.nonempty, startsReference_append g.name.nonempty]
      rfl

theorem Unmistakable.canonical {fs : List FormalSyntax} (clear : Unmistakable fs) :
    Unmistakable (fs.map FormalSyntax.canonical) := by
  induction fs with
  | nil => trivial
  | cons f fs ih =>
    refine ⟨fun absent => ?_, ih clear.2⟩
    rw [startsReference_canonical]
    exact clear.1 (Option.map_eq_none_iff.mp absent)

theorem listText_eq (fs : List FormalSyntax) : listText fs = fs.flatMap text ++ ['>'] := by
  induction fs with
  | nil => rfl
  | cons f fs ih => rw [listText, ih, List.flatMap_cons, List.append_assoc]

end FormalSyntax

namespace FormalsSyntax

variable (formals : Option FormalsSyntax)

def classNames (fs : FormalsSyntax) : List String := fs.list.flatMap FormalSyntax.classNames

def arrays (fs : FormalsSyntax) : List Nat := fs.list.flatMap FormalSyntax.arrays

def canonical (formals : Option FormalsSyntax) : Option FormalsSyntax :=
  formals.bind fun fs =>
    if fs.list.isEmpty then none else some ⟨fs.list.map FormalSyntax.canonical, fs.unmistakable.canonical⟩

theorem canonical_names : declaredNames (canonical formals) = declaredNames formals := by
  obtain _ | ⟨_ | ⟨f, fs⟩, clear⟩ := formals
  · rfl
  · rfl
  · simp [canonical, declaredNames, FormalSyntax.canonical, Function.comp_def]

theorem canonical_trees (owner : String → TypeVariableOwner) (formals : Option FormalsSyntax) :
    (canonical formals).elim [] (·.trees owner) = formals.elim [] (·.trees owner) := by
  obtain _ | ⟨_ | ⟨f, fs⟩, clear⟩ := formals
  · rfl
  · rfl
  · simp [canonical, trees, Function.comp_def, FormalSyntax.canonical_tree]

theorem canonical_variableNames : (canonical formals).elim [] variableNames ⊆ formals.elim [] variableNames := by
  obtain _ | ⟨_ | ⟨f, fs⟩, clear⟩ := formals
  · exact List.Subset.refl _
  · exact List.Subset.refl _
  · exact flatMap_canonical_variableNames FormalSyntax.canonical_variableNames (f :: fs)

theorem canonical_text (owner : String → TypeVariableOwner) (formals : Option FormalsSyntax)
    (printable : Printable (formals.elim [] classNames) (formals.elim [] arrays)) :
    (canonical formals).elim [] text = FormalParameter.encodeList (formals.elim [] (·.trees owner)) := by
  obtain _ | ⟨_ | ⟨f, fs⟩, clear⟩ := formals
  · rfl
  · rfl
  · have printed := flatMap_canonical_text (FormalSyntax.canonical_text owner) (f :: fs) printable
    change '<' :: FormalSyntax.listText ((f :: fs).map FormalSyntax.canonical) =
      '<' :: ((f :: fs).map (·.tree owner)).flatMap FormalParameter.encodeChars ++ ['>']
    rw [FormalSyntax.listText_eq, printed, List.flatMap_map, List.cons_append]

end FormalsSyntax

/-! ## Whole signatures -/

def ClassTypeSyntax.canonical (c : ClassTypeSyntax) : ClassTypeSyntax := c.rest.canonical c.name

namespace ExceptionSyntax

def canonical : ExceptionSyntax → ExceptionSyntax
  | .cls c => .cls c.canonical
  | .var name => .var name

theorem canonical_ref (e : ExceptionSyntax) : e.canonical.ref = e.ref.canonical := by
  cases e <;> rfl

end ExceptionSyntax

namespace ClassSigSyntax

def classNames (d : ClassSigSyntax) : List String :=
  d.formals.elim [] FormalsSyntax.classNames ++
    (d.superclass.ref.classNames ++ d.interfaces.flatMap (·.ref.classNames))

def arrays (d : ClassSigSyntax) : List Nat :=
  d.formals.elim [] FormalsSyntax.arrays ++ (d.superclass.ref.arrays ++ d.interfaces.flatMap (·.ref.arrays))

def canonical (d : ClassSigSyntax) : ClassSigSyntax where
  formals := FormalsSyntax.canonical d.formals
  superclass := d.superclass.canonical
  interfaces := d.interfaces.map ClassTypeSyntax.canonical

theorem canonical_tree (owner : String → TypeVariableOwner) (d : ClassSigSyntax) :
    d.canonical.tree owner = d.tree owner := by
  have same : ∀ c : ClassTypeSyntax, c.canonical.ref.tree owner = c.ref.tree owner :=
    fun c => c.ref.canonical_tree owner
  simp [canonical, tree, FormalsSyntax.canonical_trees, same, Function.comp_def]

theorem canonical_variableNames (d : ClassSigSyntax) : d.canonical.variableNames ⊆ d.variableNames :=
  append_subset_append (FormalsSyntax.canonical_variableNames _)
    (append_subset_append d.superclass.ref.canonical_variableNames
      (flatMap_canonical_variableNames (fun c : ClassTypeSyntax => c.ref.canonical_variableNames) _))

theorem canonical_text (owner : String → TypeVariableOwner) (d : ClassSigSyntax)
    (printable : Printable d.classNames d.arrays) : d.canonical.text = (d.tree owner).encodeChars := by
  have superclass : d.superclass.canonical.ref.text = (d.superclass.ref.tree owner).encodeChars :=
    d.superclass.ref.canonical_text owner printable.right.left
  have interfaces : (d.interfaces.map ClassTypeSyntax.canonical).flatMap (·.ref.text) =
      d.interfaces.flatMap fun c => (c.ref.tree owner).encodeChars :=
    flatMap_canonical_text (fun c : ClassTypeSyntax => c.ref.canonical_text owner) _ printable.right.right
  simp only [canonical, text, tree, ClassSignature.encodeChars, ClassSignature.supertypes,
    FormalsSyntax.canonical_text owner _ printable.left, superclass, interfaces, Option.toList_some,
    List.singleton_append, List.flatMap_cons, List.flatMap_map]

end ClassSigSyntax

namespace MethodSigSyntax

def classNames (d : MethodSigSyntax) : List String :=
  d.formals.elim [] FormalsSyntax.classNames ++
    (d.parameters.flatMap TypeSyntax.classNames ++
      (d.result.elim [] TypeSyntax.classNames ++ d.exceptions.flatMap (·.ref.classNames)))

def arrays (d : MethodSigSyntax) : List Nat :=
  d.formals.elim [] FormalsSyntax.arrays ++
    (d.parameters.flatMap TypeSyntax.arrays ++
      (d.result.elim [] TypeSyntax.arrays ++ d.exceptions.flatMap (·.ref.arrays)))

def canonical (d : MethodSigSyntax) : MethodSigSyntax where
  formals := FormalsSyntax.canonical d.formals
  parameters := d.parameters.map TypeSyntax.canonical
  result := d.result.map TypeSyntax.canonical
  exceptions := d.exceptions.map ExceptionSyntax.canonical

theorem canonical_tree (owner : String → TypeVariableOwner) (d : MethodSigSyntax) :
    d.canonical.tree owner = d.tree owner := by
  have result : (d.result.map TypeSyntax.canonical).elim (.ofType .void) (·.tree owner) =
      d.result.elim (.ofType .void) (·.tree owner) := by
    cases d.result with
    | none => rfl
    | some r => exact r.canonical_tree owner
  simp [canonical, tree, FormalsSyntax.canonical_trees, result, Function.comp_def,
    TypeSyntax.canonical_tree, ExceptionSyntax.canonical_ref, RefSyntax.canonical_tree]

theorem canonical_variableNames (d : MethodSigSyntax) : d.canonical.variableNames ⊆ d.variableNames := by
  refine append_subset_append (FormalsSyntax.canonical_variableNames _)
    (append_subset_append (flatMap_canonical_variableNames TypeSyntax.canonical_variableNames _)
      (append_subset_append ?_ (flatMap_canonical_variableNames (fun e : ExceptionSyntax => ?_) _)))
  · rw [canonical]
    cases d.result with
    | none => exact List.Subset.refl _
    | some r => exact r.canonical_variableNames
  · rw [e.canonical_ref]
    exact e.ref.canonical_variableNames

theorem canonical_text (owner : String → TypeVariableOwner) (d : MethodSigSyntax)
    (printable : Printable d.classNames d.arrays) : d.canonical.text = (d.tree owner).encodeChars := by
  have rest := printable.right.right
  have parameters : (d.parameters.map TypeSyntax.canonical).flatMap TypeSyntax.text =
      d.parameters.flatMap fun p => (p.tree owner).encodeChars :=
    flatMap_canonical_text (TypeSyntax.canonical_text owner) _ printable.right.left
  have result : (d.result.map TypeSyntax.canonical).elim ['V'] TypeSyntax.text =
      (d.result.elim (.ofType .void) (·.tree owner) : TypeSignature).encodeChars := by
    have printable := rest.left
    cases same : d.result with
    | none => exact encodeChars_void.symm
    | some r =>
      rw [same] at printable
      exact r.canonical_text owner printable
  have exceptions : (d.exceptions.map ExceptionSyntax.canonical).flatMap (fun e => '^' :: e.ref.text) =
      d.exceptions.flatMap fun e => '^' :: (e.ref.tree owner).encodeChars := by
    refine flatMap_canonical_text (fun (e : ExceptionSyntax) inside => ?_) _ rest.right
    rw [e.canonical_ref, e.ref.canonical_text owner inside]
  simp only [canonical, text, tree, MethodSignature.encodeChars,
    FormalsSyntax.canonical_text owner _ printable.left, parameters, result, exceptions, List.flatMap_map,
    List.append_assoc, List.cons_append]

end MethodSigSyntax

/-- A signature that was read is read again from its printed form, in the same scope and for the same
    owner, and the result is the same, unless printing loses something. -/
theorem parse_encode (scope : TypeScope) (type : TypeName) (owner : TypeVariableOwner) (s : String) :
    (∀ t (d : TypeSyntax), parseField scope s = .ok t → d.text = s.toList →
      Printable d.classNames d.arrays → parseField scope t.encode = .ok t) ∧
    (∀ t (d : ClassSigSyntax), parseClass scope type s = .ok t → d.text = s.toList →
      Printable d.classNames d.arrays → parseClass scope type t.encode = .ok t) ∧
    (∀ t (d : MethodSigSyntax), parseMethod scope owner s = .ok t → d.text = s.toList →
      Printable d.classNames d.arrays → parseMethod scope owner t.encode = .ok t) := by
  refine ⟨fun t d accepted derives printable => ?_, fun t d accepted derives printable => ?_,
    fun t d accepted derives printable => ?_⟩
  · obtain ⟨d', derives', declared, rfl⟩ := (parseField_iff scope s t).mp accepted
    obtain rfl : d = d' := TypeSyntax.eq_of_text (derives.trans derives'.symm)
    refine (parseField_iff scope _ _).mpr ⟨d.canonical, ?_, ?_, d.canonical_tree _⟩
    · rw [d.canonical_text _ printable, TypeSignature.encode, String.toList_ofList]
    · exact fun x member => declared x (d.canonical_variableNames member)
  · obtain ⟨d', derives', declared, rfl⟩ := (parseClass_iff scope type s t).mp accepted
    obtain rfl : d = d' := ClassSigSyntax.unique (derives.trans derives'.symm)
    have names : declaredNames d.canonical.formals = declaredNames d.formals :=
      FormalsSyntax.canonical_names d.formals
    refine (parseClass_iff scope type _ _).mpr ⟨d.canonical, ?_, ?_, ?_⟩
    · rw [d.canonical_text _ printable, ClassSignature.encode, String.toList_ofList]
    · rw [names]
      exact fun x member => declared x (d.canonical_variableNames member)
    · rw [names, d.canonical_tree]
  · obtain ⟨d', derives', declared, rfl⟩ := (parseMethod_iff scope owner s t).mp accepted
    obtain rfl : d = d' := MethodSigSyntax.unique (derives.trans derives'.symm)
    have names : declaredNames d.canonical.formals = declaredNames d.formals :=
      FormalsSyntax.canonical_names d.formals
    refine (parseMethod_iff scope owner _ _).mpr ⟨d.canonical, ?_, ?_, ?_⟩
    · rw [d.canonical_text _ printable, MethodSignature.encode, String.toList_ofList]
    · rw [names]
      exact fun x member => declared x (d.canonical_variableNames member)
    · rw [names, d.canonical_tree]

namespace InnerOfGeneric

def outer : Name classStops := ⟨['o', '/', 'P'], by simp, by simp [classStops]⟩

def bare : ClassTypeSyntax := ⟨outer, .done (.given .close)⟩

/-- An inner class of a generic class. Among its arguments are a wildcard, an array and a variable. -/
def inner : ClassTypeSyntax :=
  ⟨outer, .inner (.given (.any .close)) ⟨['I', 'n'], by simp, by simp [classStops]⟩
    (.done (.given (.any (.type .plus (.array (.ref (.array (.base .int))))
      (.type .minus (.var ⟨['U'], by simp, by simp⟩) .close)))))⟩

/-- Two type parameters, the first bounded by means of the second. -/
def formals : FormalsSyntax where
  list := [⟨⟨['T'], by simp, by simp⟩, by decide, none, [inner.ref]⟩,
    ⟨⟨['U'], by simp, by simp⟩, by decide, some bare.ref, []⟩]
  unmistakable := ⟨fun _ => by decide, nofun, trivial⟩

def field : TypeSyntax := .ref (.array (.ref (.array (.ref bare.ref))))

def type : ClassSigSyntax := ⟨some formals, inner, [bare]⟩

def method : MethodSigSyntax :=
  ⟨some formals, [.ref inner.ref, field, .base .long], none, [.var ⟨['T'], by simp, by simp⟩]⟩

def fieldTree : TypeSignature := field.tree (ownerIn .empty (.ofClass ⟨""⟩) [])

def typeTree : ClassSignature := type.tree (ownerIn .empty (.ofClass ⟨"C"⟩) ["T", "U"])

def methodTree : MethodSignature := method.tree (ownerIn .empty (.ofMethod ⟨"C"⟩ "m" "()V") ["T", "U"])

/-- None of the three is printed as it was written, and all are read again. -/
theorem read_again :
    (parseField .empty "[[Lo/P<>;" = .ok fieldTree ∧ fieldTree.encode = "[[Lo/P;" ∧
      parseField .empty fieldTree.encode = .ok fieldTree) ∧
    (parseClass .empty ⟨"C"⟩ (String.ofList type.text) = .ok typeTree ∧
      typeTree.encode ≠ String.ofList type.text ∧
      parseClass .empty ⟨"C"⟩ typeTree.encode = .ok typeTree) ∧
    (parseMethod .empty (.ofMethod ⟨"C"⟩ "m" "()V") (String.ofList method.text) = .ok methodTree ∧
      methodTree.encode = "<T::Lo/P$In<*+[[I-TU;>;U:Lo/P;>(Lo/P$In<*+[[I-TU;>;[[Lo/P;J)V^TT;" ∧
      parseMethod .empty (.ofMethod ⟨"C"⟩ "m" "()V") methodTree.encode = .ok methodTree) := by
  have readField : parseField .empty "[[Lo/P<>;" = .ok fieldTree := by decide +kernel
  have readType : parseClass .empty ⟨"C"⟩ (String.ofList type.text) = .ok typeTree := by decide +kernel
  have readMethod : parseMethod .empty (.ofMethod ⟨"C"⟩ "m" "()V") (String.ofList method.text) =
      .ok methodTree := by decide +kernel
  refine ⟨⟨readField, by decide +kernel, ?_⟩, ⟨readType, by decide +kernel, ?_⟩,
    ⟨readMethod, by decide +kernel, ?_⟩⟩
  · exact (parse_encode .empty ⟨"C"⟩ (.ofClass ⟨"C"⟩) "[[Lo/P<>;").1 fieldTree field readField
      (by decide +kernel) ⟨by decide +kernel, by decide +kernel⟩
  · exact (parse_encode .empty ⟨"C"⟩ (.ofClass ⟨"C"⟩) (String.ofList type.text)).2.1 typeTree type readType
      String.toList_ofList.symm ⟨by decide +kernel, by decide +kernel⟩
  · exact (parse_encode .empty ⟨"C"⟩ (.ofMethod ⟨"C"⟩ "m" "()V") (String.ofList method.text)).2.2 methodTree
      method readMethod String.toList_ofList.symm ⟨by decide +kernel, by decide +kernel⟩

end InnerOfGeneric

end ClassAtlas.Signature
