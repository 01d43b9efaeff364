import Mathlib.Data.List.TakeWhile
import ClassAtlas.Proofs.Signature.Grammar

/-! # Types are read as the grammar says

What a derivation derives is read, with its tree as the result, whatever follows it; and whatever is
read was derived. Both follow the productions. The first is by recursion on the derivation, with fuel
for every character; the second is by induction on the fuel.
-/

namespace ClassAtlas.Signature

/-! ## Names and primitive types -/

theorem bind_eq_ok {α β : Type} {x : Except Fault α} {f : α → Except Fault β} {b : β} :
    (x >>= f) = .ok b ↔ ∃ a, x = .ok a ∧ f a = .ok b := by
  cases x <;> simp [bind, Except.bind]

section Names

variable {stops : List Char}

theorem identifier_name (n : Name stops) {c : Char} (stop : c ∈ stops) (expected : String)
    (rest : List Char) :
    identifier stops expected (n.chars ++ c :: rest) = .ok (n.string, c :: rest) := by
  have inside : ∀ d ∈ n.chars, (!stops.contains d) = true := by
    intro d member
    simpa using n.clear d member
  have outside : (!stops.contains c) = false := by simpa using stop
  have taken : (n.chars ++ c :: rest).takeWhile (fun d => !stops.contains d) = n.chars := by
    rw [List.takeWhile_append_of_pos inside, List.takeWhile_cons, outside]
    simp
  have dropped : (n.chars ++ c :: rest).dropWhile (fun d => !stops.contains d) = c :: rest := by
    rw [List.dropWhile_append_of_pos inside, List.dropWhile_cons, outside]
    simp
  have nonempty : n.chars.isEmpty = false := by simpa using n.nonempty
  simp only [identifier, taken, dropped, nonempty, Bool.false_eq_true, if_false]
  rfl

theorem name_of_identifier {expected : String} {s rest : List Char} {name : String}
    (read : identifier stops expected s = .ok (name, rest)) :
    ∃ (n : Name stops) (c : Char) (tail : List Char),
      c ∈ stops ∧ s = n.chars ++ c :: tail ∧ name = n.string ∧ rest = c :: tail := by
  have parts := List.takeWhile_append_dropWhile (p := fun d => !stops.contains d) (l := s)
  unfold identifier at read
  simp only at read
  split at read
  · cases read
  · next c tail dropped =>
      split at read
      · cases read
      · next nonempty =>
          cases read
          refine ⟨⟨s.takeWhile fun d => !stops.contains d, by simpa using nonempty, ?_⟩, c, tail, ?_, ?_,
            rfl, rfl⟩
          · intro d member
            simpa using List.mem_takeWhile_imp member
          · have stop := List.head?_dropWhile_not (fun d => !stops.contains d) s
            rw [dropped] at stop
            simpa using stop
          · rw [← dropped]
            exact parts.symm

end Names

theorem baseType?_letter (b : BaseType) (rest : List Char) :
    baseType? (b.letter :: rest) = some (.ofType b.type, rest) := by
  cases b <;> rfl

theorem baseType?_ref (r : RefSyntax) (rest : List Char) : baseType? (r.text ++ rest) = none := by
  cases r <;> rfl

theorem base_of_baseType? {s rest : List Char} {t : TypeSignature}
    (read : baseType? s = some (t, rest)) : ∃ b : BaseType, s = b.letter :: rest ∧ t = .ofType b.type := by
  cases s with
  | nil => cases read
  | cons c tail =>
    simp only [baseType?] at read
    split at read
    · cases read
    · next notVoid =>
        obtain ⟨type, primitive, same⟩ := Option.map_eq_some_iff.mp read
        cases same
        obtain ⟨⟨letter, word⟩, found, rfl⟩ := Option.map_eq_some_iff.mp primitive
        have letters : letter = c := by simpa using List.find?_some found
        have member := List.mem_of_find?_eq_some found
        subst letters
        simp only [TypeName.primitives, List.mem_cons, Prod.mk.injEq, List.not_mem_nil, or_false] at member
        rcases member with ⟨rfl, rfl⟩ | ⟨rfl, rfl⟩ | ⟨rfl, rfl⟩ | ⟨rfl, rfl⟩ | ⟨rfl, rfl⟩ | ⟨rfl, rfl⟩ |
          ⟨rfl, rfl⟩ | ⟨rfl, rfl⟩ | ⟨rfl, rfl⟩
        · exact ⟨.byte, rfl, rfl⟩
        · exact ⟨.char, rfl, rfl⟩
        · exact ⟨.double, rfl, rfl⟩
        · exact ⟨.float, rfl, rfl⟩
        · exact ⟨.int, rfl, rfl⟩
        · exact ⟨.long, rfl, rfl⟩
        · exact ⟨.short, rfl, rfl⟩
        · exact ⟨.boolean, rfl, rfl⟩
        · exact absurd rfl notVoid

/-! ## Derived types are read -/

mutual
theorem RefSyntax.tree_variance (owner : String → TypeVariableOwner) (d : RefSyntax) :
    (d.tree owner).variance = .invariant := by
  match d with
  | .cls name rest => exact rest.tree_variance owner name.string
  | .var _ => rfl
  | .array element => exact element.tree_variance owner
termination_by structural d
theorem TypeSyntax.tree_variance (owner : String → TypeVariableOwner) (d : TypeSyntax) :
    (d.tree owner).variance = .invariant := by
  match d with
  | .base _ => rfl
  | .ref r => exact r.tree_variance owner
termination_by structural d
theorem ClassSyntax.tree_variance (owner : String → TypeVariableOwner) (d : ClassSyntax) (name : String) :
    (d.tree owner name).variance = .invariant := by
  match d with
  | .done _ => rfl
  | .inner _ inner rest => exact rest.tree_variance owner _
termination_by structural d
end

theorem variance_kept {t : TypeSignature} {v : Variance} (same : t.variance = v) :
    { t with variance := v } = t := by
  cases t
  cases same
  rfl

/-- Names for which there are these owners. -/
def OwnedBy (resolve : Resolve) (owner : String → TypeVariableOwner) (names : List String) : Prop :=
  ∀ x ∈ names, resolve x = some (owner x)

section Reading

variable {resolve : Resolve} {owner : String → TypeVariableOwner}

namespace OwnedBy

variable {xs ys : List String}

theorem nil : OwnedBy resolve owner [] := by
  simp [OwnedBy]

theorem left (h : OwnedBy resolve owner (xs ++ ys)) : OwnedBy resolve owner xs :=
  fun x member => h x (List.mem_append_left ys member)

theorem right (h : OwnedBy resolve owner (xs ++ ys)) : OwnedBy resolve owner ys :=
  fun x member => h x (List.mem_append_right xs member)

theorem append (h : OwnedBy resolve owner xs) (h' : OwnedBy resolve owner ys) : OwnedBy resolve owner (xs ++ ys) :=
  fun x member => (List.mem_append.mp member).elim (h x) (h' x)

end OwnedBy

theorem typeVariable_reads {name : Name [';']} (owned : resolve name.string = some (owner name.string))
    (rest : List Char) :
    typeVariable resolve (name.chars ++ ';' :: rest) =
      .ok (.ofVariable ⟨name.string, owner name.string⟩, rest) := by
  simp only [typeVariable, identifier_name name (List.mem_singleton_self _)]
  simp only [bind, Except.bind, owned, List.tail_cons]

theorem ClassSyntax.exists_stop (d : ClassSyntax) (rest : List Char) :
    ∃ c tail, c ∈ classStops ∧ d.text ++ rest = c :: tail := by
  match d with
  | .done .absent => exact ⟨';', rest, by decide, rfl⟩
  | .done (.given list) => exact ⟨'<', _, by decide, rfl⟩
  | .inner .absent name tail => exact ⟨'.', _, by decide, rfl⟩
  | .inner (.given list) name tail => exact ⟨'<', _, by decide, rfl⟩

theorem ClassSyntax.name_reads (name : Name classStops) (d : ClassSyntax) (expected : String)
    (rest : List Char) :
    identifier classStops expected (name.chars ++ (d.text ++ rest)) = .ok (name.string, d.text ++ rest) := by
  obtain ⟨c, tail, stop, starts⟩ := ClassSyntax.exists_stop d rest
  rw [starts]
  exact identifier_name name stop expected tail

theorem RefSyntax.text_length_pos (d : RefSyntax) : 0 < d.text.length := by
  cases d <;> simp [RefSyntax.text]

theorem ArgList.text_length_pos (d : ArgList) : 0 < d.text.length := by
  cases d with
  | close | any => simp [ArgList.text]
  | type mark r rest =>
    have positive := r.text_length_pos
    simp only [ArgList.text, List.length_append]
    omega

theorem ClassSyntax.text_length_pos (d : ClassSyntax) : 0 < d.text.length := by
  cases d with
  | done => simp [ClassSyntax.text]
  | inner =>
    simp only [ClassSyntax.text, List.length_append, List.length_cons]
    omega

theorem arguments_ref (r : RefSyntax) (fuel : Nat) (rest : List Char) :
    arguments resolve (fuel + 1) (r.text ++ rest) =
      (reference resolve fuel (r.text ++ rest) >>= fun (t, rest) =>
        arguments resolve fuel rest >>= fun (args, rest) => .ok (t :: args, rest)) := by
  cases r <;> rfl

mutual
theorem RefSyntax.reads (d : RefSyntax) (owned : OwnedBy resolve owner d.variableNames)
    (fuel : Nat) (enough : d.text.length ≤ fuel) (rest : List Char) :
    reference resolve fuel (d.text ++ rest) = .ok (d.tree owner, rest) := by
  match d, fuel with
  | d, 0 =>
    have positive := d.text_length_pos
    omega
  | .cls name tail, fuel + 1 =>
    have shorter : tail.text.length ≤ fuel := by
      simp only [RefSyntax.text, List.length_cons, List.length_append] at enough
      omega
    have inside := tail.reads owned fuel shorter name.string rest
    simp only [RefSyntax.text, List.cons_append, List.append_assoc, reference, tail.name_reads name]
    exact inside
  | .var name, fuel + 1 =>
    have found : resolve name.string = some (owner name.string) := owned _ (List.mem_singleton_self _)
    simp only [RefSyntax.text, List.cons_append, List.append_assoc, reference]
    exact typeVariable_reads found rest
  | .array (.base b), fuel + 1 =>
    simp only [RefSyntax.text, TypeSyntax.text, List.cons_append, reference, List.nil_append,
      baseType?_letter]
    rfl
  | .array (.ref r), fuel + 1 =>
    have shorter : r.text.length ≤ fuel := by
      simp only [RefSyntax.text, TypeSyntax.text, List.length_cons] at enough
      omega
    have inside := r.reads owned fuel shorter rest
    simp only [RefSyntax.text, TypeSyntax.text, List.cons_append, reference, baseType?_ref, inside]
    rfl
termination_by structural d
theorem ClassSyntax.reads (d : ClassSyntax) (owned : OwnedBy resolve owner d.variableNames)
    (fuel : Nat) (enough : d.text.length ≤ fuel) (name : String) (rest : List Char) :
    classTail resolve fuel name (d.text ++ rest) = .ok (d.tree owner name, rest) := by
  match d, fuel with
  | d, 0 =>
    have positive := d.text_length_pos
    omega
  | .done .absent, fuel + 1 => rfl
  | .done (.given list), fuel + 1 =>
    have shorter : list.text.length ≤ fuel := by
      simp only [ClassSyntax.text, ArgsSyntax.text, List.length_cons, List.length_append] at enough
      omega
    have inside := list.reads owned fuel shorter (';' :: rest)
    simp only [ClassSyntax.text, ArgsSyntax.text, List.cons_append, List.append_assoc,
      List.nil_append, classTail, inside]
    rfl
  | .inner .absent inner tail, fuel + 1 =>
    have shorter : tail.text.length ≤ fuel := by
      simp only [ClassSyntax.text, List.length_append, List.length_cons] at enough
      omega
    have after := tail.reads owned fuel shorter (name ++ "$" ++ inner.string) rest
    have named := tail.name_reads inner "inner class name" rest
    simp only [ClassSyntax.text, ArgsSyntax.text, List.nil_append, List.cons_append, List.append_assoc,
      classTail, bind, Except.bind, named]
    exact after
  | .inner (.given list) inner tail, fuel + 1 =>
    have shorter : list.text.length ≤ fuel ∧ tail.text.length ≤ fuel := by
      simp only [ClassSyntax.text, ArgsSyntax.text, List.length_cons, List.length_append] at enough
      omega
    have inside := list.reads owned.left fuel shorter.1
      ('.' :: (inner.chars ++ (tail.text ++ rest)))
    have after := tail.reads owned.right fuel shorter.2
      (name ++ "$" ++ inner.string) rest
    have named := tail.name_reads inner "inner class name" rest
    simp only [ClassSyntax.text, ArgsSyntax.text, List.cons_append, List.append_assoc, classTail, inside,
      bind, Except.bind, named]
    exact after
termination_by structural d
theorem ArgList.reads (d : ArgList) (owned : OwnedBy resolve owner d.variableNames)
    (fuel : Nat) (enough : d.text.length ≤ fuel) (rest : List Char) :
    arguments resolve fuel (d.text ++ rest) = .ok (d.trees owner, rest) := by
  match d, fuel with
  | d, 0 =>
    have positive := d.text_length_pos
    omega
  | .close, fuel + 1 => rfl
  | .any tail, fuel + 1 =>
    have shorter : tail.text.length ≤ fuel := by
      simp only [ArgList.text, List.length_cons] at enough
      omega
    have after := tail.reads owned fuel shorter rest
    simp only [ArgList.text, List.cons_append, arguments, after]
    rfl
  | .type mark r tail, fuel + 1 =>
    have positive := tail.text_length_pos
    have positive' := r.text_length_pos
    have shorter : r.text.length ≤ fuel ∧ tail.text.length ≤ fuel := by
      simp only [ArgList.text, List.length_append] at enough
      omega
    have first := r.reads owned.left fuel shorter.1
      (tail.text ++ rest)
    have after := tail.reads owned.right fuel shorter.2 rest
    cases mark with
    | plain =>
      have kept := variance_kept (r.tree_variance owner)
      simp only [ArgList.text, Mark.chars, List.nil_append, List.append_assoc, arguments_ref, first,
        bind, Except.bind, after, ArgList.trees, Mark.variance, kept]
    | plus =>
      simp only [ArgList.text, Mark.chars, List.cons_append, List.nil_append, List.append_assoc,
        arguments, first, bind, Except.bind, after]
      rfl
    | minus =>
      simp only [ArgList.text, Mark.chars, List.cons_append, List.nil_append, List.append_assoc,
        arguments, first, bind, Except.bind, after]
      rfl
termination_by structural d
end

theorem TypeSyntax.reads (d : TypeSyntax) (owned : OwnedBy resolve owner d.variableNames)
    (fuel : Nat) (enough : d.text.length ≤ fuel) (rest : List Char) :
    javaType resolve fuel (d.text ++ rest) = .ok (d.tree owner, rest) := by
  cases d with
  | base b =>
    simp only [TypeSyntax.text, List.cons_append, List.nil_append, javaType, baseType?_letter,
      TypeSyntax.tree]
  | ref r =>
    have inside := r.reads owned fuel enough rest
    simp only [TypeSyntax.text, javaType, baseType?_ref, inside, TypeSyntax.tree]

end Reading

/-! ## Types that are read are derived -/

/-- What is read as a reference type was derived as one, and the parser resolved its variables. -/
def ReferencesDerived (resolve : Resolve) (owner : String → TypeVariableOwner) (fuel : Nat) : Prop :=
  ∀ {s t rest}, reference resolve fuel s = .ok (t, rest) → ∃ d : RefSyntax, s = d.text ++ rest ∧
    OwnedBy resolve owner d.variableNames ∧ t = d.tree owner

def ClassTailsDerived (resolve : Resolve) (owner : String → TypeVariableOwner) (fuel : Nat) : Prop :=
  ∀ {name s t rest}, classTail resolve fuel name s = .ok (t, rest) → ∃ d : ClassSyntax,
    s = d.text ++ rest ∧ OwnedBy resolve owner d.variableNames ∧ t = d.tree owner name

def ArgumentsDerived (resolve : Resolve) (owner : String → TypeVariableOwner) (fuel : Nat) : Prop :=
  ∀ {s ts rest}, arguments resolve fuel s = .ok (ts, rest) → ∃ d : ArgList, s = d.text ++ rest ∧
    OwnedBy resolve owner d.variableNames ∧ ts = d.trees owner

section Derived

variable {resolve : Resolve} {owner : String → TypeVariableOwner} {fuel : Nat} {t : TypeSignature}
  {s rest : List Char}

theorem typeVariable_derived (agree : ∀ x o, resolve x = some o → owner x = o)
    (read : typeVariable resolve s = .ok (t, rest)) :
    ∃ name : Name [';'], s = name.chars ++ ';' :: rest ∧
      resolve name.string = some (owner name.string) ∧
      t = .ofVariable ⟨name.string, owner name.string⟩ := by
  obtain ⟨⟨name, after⟩, named, found⟩ := bind_eq_ok.mp read
  obtain ⟨n, c, tail, stop, rfl, rfl, rfl⟩ := name_of_identifier named
  obtain rfl := List.mem_singleton.mp stop
  simp only at found
  split at found
  · cases found
  · next o declared =>
      cases found
      have owned := agree _ _ declared
      subst owned
      exact ⟨n, rfl, declared, rfl⟩

theorem argument_derived (references : ReferencesDerived resolve owner fuel)
    (args : ArgumentsDerived resolve owner fuel) (mark : Mark) {s after rest : List Char}
    {more : List TypeSignature} (first : reference resolve fuel s = .ok (t, after))
    (others : arguments resolve fuel after = .ok (more, rest)) :
    ∃ d : ArgList, mark.chars ++ s = d.text ++ rest ∧ OwnedBy resolve owner d.variableNames ∧
      { t with variance := mark.variance } :: more = d.trees owner := by
  obtain ⟨r, rfl, ownedR, rfl⟩ := references first
  obtain ⟨list, rfl, ownedList, rfl⟩ := args others
  exact ⟨.type mark r list, by simp [ArgList.text], ownedR.append ownedList, rfl⟩

theorem arguments_step (references : ReferencesDerived resolve owner fuel)
    (args : ArgumentsDerived resolve owner fuel) : ArgumentsDerived resolve owner (fuel + 1) := by
  intro s ts rest read
  simp only [arguments] at read
  split at read
  · cases read
  · cases read
    exact ⟨.close, rfl, .nil, rfl⟩
  · obtain ⟨⟨more, after⟩, others, result⟩ := bind_eq_ok.mp read
    cases result
    obtain ⟨list, rfl, owned, rfl⟩ := args others
    exact ⟨.any list, rfl, owned, rfl⟩
  · obtain ⟨⟨t, after⟩, first, others⟩ := bind_eq_ok.mp read
    obtain ⟨⟨more, after'⟩, list, result⟩ := bind_eq_ok.mp others
    cases result
    exact argument_derived references args .plus first list
  · obtain ⟨⟨t, after⟩, first, others⟩ := bind_eq_ok.mp read
    obtain ⟨⟨more, after'⟩, list, result⟩ := bind_eq_ok.mp others
    cases result
    exact argument_derived references args .minus first list
  · obtain ⟨⟨t, after⟩, first, others⟩ := bind_eq_ok.mp read
    obtain ⟨⟨more, after'⟩, list, result⟩ := bind_eq_ok.mp others
    cases result
    have invariant : t.variance = .invariant := by
      obtain ⟨r, -, -, rfl⟩ := references first
      exact r.tree_variance owner
    have derived := argument_derived references args .plain first list
    rw [Mark.variance, variance_kept invariant] at derived
    exact derived

theorem classTail_rest (tails : ClassTailsDerived resolve owner fuel) (args : ArgsSyntax)
    (owned : OwnedBy resolve owner args.variableNames) {name : String}
    (read : (match s with
      | '.' :: after => identifier classStops "inner class name" after >>= fun (inner, after) =>
        classTail resolve fuel (name ++ "$" ++ inner) after
      | ';' :: after => .ok (.ofType (.ofInternal name) (args.trees owner), after)
      | _ => .error (mismatch s "`;`")) = .ok (t, rest)) :
    ∃ d : ClassSyntax, args.text ++ s = d.text ++ rest ∧
      OwnedBy resolve owner d.variableNames ∧ t = d.tree owner name := by
  split at read
  · obtain ⟨⟨inner, after⟩, named, others⟩ := bind_eq_ok.mp read
    obtain ⟨n, c, tail, -, rfl, rfl, rfl⟩ := name_of_identifier named
    obtain ⟨d, same, ownedRest, rfl⟩ := tails others
    refine ⟨.inner args n d, ?_, owned.append ownedRest, rfl⟩
    rw [same]
    simp [ClassSyntax.text]
  · cases read
    exact ⟨.done args, by simp [ClassSyntax.text], owned, rfl⟩
  · cases read

theorem classTail_step (tails : ClassTailsDerived resolve owner fuel)
    (args : ArgumentsDerived resolve owner fuel) : ClassTailsDerived resolve owner (fuel + 1) := by
  intro name s t rest read
  simp only [classTail] at read
  split at read
  · obtain ⟨⟨ts, after⟩, list, others⟩ := bind_eq_ok.mp read
    obtain ⟨d, rfl, owned, rfl⟩ := args list
    exact classTail_rest tails (.given d) owned others
  · exact classTail_rest tails .absent .nil read

theorem reference_step (agree : ∀ x o, resolve x = some o → owner x = o)
    (references : ReferencesDerived resolve owner fuel) (tails : ClassTailsDerived resolve owner fuel) :
    ReferencesDerived resolve owner (fuel + 1) := by
  intro s t rest read
  simp only [reference] at read
  split at read
  · obtain ⟨⟨name, after⟩, named, others⟩ := bind_eq_ok.mp read
    obtain ⟨n, c, tail, -, rfl, rfl, rfl⟩ := name_of_identifier named
    obtain ⟨d, same, owned, rfl⟩ := tails others
    refine ⟨.cls n d, ?_, owned, rfl⟩
    simp only at same
    rw [same]
    simp [RefSyntax.text]
  · obtain ⟨n, rfl, owned, rfl⟩ := typeVariable_derived agree read
    refine ⟨.var n, by simp [RefSyntax.text], fun x member => ?_, rfl⟩
    rw [List.mem_singleton.mp member]
    exact owned
  · split at read
    · next base =>
        cases read
        obtain ⟨b, rfl, rfl⟩ := base_of_baseType? base
        exact ⟨.array (.base b), rfl, .nil, rfl⟩
    · obtain ⟨⟨t', after⟩, inner, result⟩ := bind_eq_ok.mp read
      cases result
      obtain ⟨r, rfl, owned, rfl⟩ := references inner
      exact ⟨.array (.ref r), rfl, owned, rfl⟩
  · cases read

theorem types_derived (agree : ∀ x o, resolve x = some o → owner x = o) (fuel : Nat) :
    ReferencesDerived resolve owner fuel ∧ ClassTailsDerived resolve owner fuel ∧
      ArgumentsDerived resolve owner fuel := by
  induction fuel with
  | zero =>
    refine ⟨fun read => ?_, fun read => ?_, fun read => ?_⟩
    · cases read
    · cases read
    · cases read
  | succ fuel ih =>
    obtain ⟨references, tails, args⟩ := ih
    exact ⟨reference_step agree references tails, classTail_step tails args,
      arguments_step references args⟩

theorem javaType_derived (agree : ∀ x o, resolve x = some o → owner x = o)
    (read : javaType resolve fuel s = .ok (t, rest)) :
    ∃ d : TypeSyntax, s = d.text ++ rest ∧ OwnedBy resolve owner d.variableNames ∧
      t = d.tree owner := by
  unfold javaType at read
  split at read
  · next base =>
      cases read
      obtain ⟨b, rfl, rfl⟩ := base_of_baseType? base
      exact ⟨.base b, rfl, .nil, rfl⟩
  · obtain ⟨r, rfl, owned, rfl⟩ := (types_derived agree fuel).1 read
    exact ⟨.ref r, rfl, owned, rfl⟩

end Derived

/-! ## Where bounds and type parameters end -/

theorem startsReference_cons (c : Char) (rest : List Char) :
    startsReference (c :: rest) = decide (c = 'L' ∨ c = 'T' ∨ c = '[') := by
  unfold startsReference
  split <;> simp_all

theorem startsReference_append {s : List Char} (nonempty : s ≠ []) (rest : List Char) :
    startsReference (s ++ rest) = startsReference s := by
  obtain ⟨c, tail, rfl⟩ := List.exists_cons_of_ne_nil nonempty
  rw [List.cons_append, startsReference_cons, startsReference_cons]

theorem startsReference_ref (r : RefSyntax) (rest : List Char) : startsReference (r.text ++ rest) = true := by
  cases r <;> rfl

namespace FormalSyntax

variable (fs : List FormalSyntax)

theorem listText_nonempty : listText fs ≠ [] := by
  cases fs <;> simp [listText, text]

theorem listText_head (rest : List Char) : (listText fs ++ rest).head? ≠ some ':' := by
  cases fs with
  | nil => simp [listText]
  | cons f fs =>
    obtain ⟨c, tail, chars⟩ := List.exists_cons_of_ne_nil f.name.nonempty
    have clear := f.name.clear c (by rw [chars]; exact List.mem_cons_self)
    simp only [listText, text, chars, List.cons_append, List.head?_cons, ne_eq, Option.some.injEq]
    simpa using clear

theorem listText_opening (f : FormalSyntax) (fs : List FormalSyntax) (rest : List Char) :
    (listText (f :: fs) ++ rest).head? ≠ some '>' := by
  obtain ⟨c, tail, chars⟩ := List.exists_cons_of_ne_nil f.name.nonempty
  have opening := f.opening
  rw [chars] at opening
  simpa [listText, text, chars] using opening

theorem Unmistakable.ahead {f : FormalSyntax} {fs : List FormalSyntax} (h : Unmistakable (f :: fs))
    (rest : List Char) (absent : f.bound = none) :
    startsReference (f.interfaceText ++ (listText fs ++ rest)) = false := by
  rw [← List.append_assoc, startsReference_append (by simp [listText_nonempty])]
  exact h.1 absent

end FormalSyntax

end ClassAtlas.Signature
