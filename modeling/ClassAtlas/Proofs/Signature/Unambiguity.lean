import ClassAtlas.Proofs.Signature.Recognition

/-! # The grammar is unambiguous

No text has two derivations. For the parts of a signature this is said of texts that go on: where one
text starts with two derived parts, the parts are one and the same, and so is what follows. Hence one
may speak of the derivation of a text and of the class types in it.
-/

namespace ClassAtlas.Signature

/-! ## Types -/

theorem Name.eq_of_string {stops : List Char} {n n' : Name stops} (same : n.string = n'.string) : n = n' := by
  have chars : n.chars = n'.chars := String.ofList_injective same
  cases n
  cases n'
  cases chars
  rfl

theorem Name.unique {stops : List Char} {n n' : Name stops} {c c' : Char} {r r' : List Char}
    (stop : c ∈ stops) (stop' : c' ∈ stops) (same : n.chars ++ c :: r = n'.chars ++ c' :: r') :
    n = n' ∧ c :: r = c' :: r' := by
  have first := identifier_name n stop "" r
  have second := identifier_name n' stop' "" r'
  rw [same] at first
  obtain ⟨names, rest⟩ := Prod.mk.inj (Except.ok.inj (first.symm.trans second))
  exact ⟨Name.eq_of_string names, rest⟩

theorem BaseType.letter_injective {b b' : BaseType} (same : b.letter = b'.letter) : b = b' := by
  cases b <;> cases b' <;> simp_all [BaseType.letter]

theorem base_ne_ref (b : BaseType) (a : RefSyntax) {r r' : List Char}
    (same : b.letter :: r = a.text ++ r') : False := by
  have none := baseType?_ref a r'
  rw [← same, baseType?_letter] at none
  cases none

theorem ref_head (a : RefSyntax) {c : Char} {r r' : List Char} (same : a.text ++ r = c :: r') :
    c ∈ ['L', 'T', '['] := by
  cases a with
  | cls | var | array =>
    rw [← (List.cons.inj same).1]
    decide

theorem TypeSyntax.head (d : TypeSyntax) : ∃ c tail, d.text = c :: tail ∧ c ≠ 'V' ∧ c ≠ ')' := by
  match d with
  | .base b => exact ⟨b.letter, [], rfl, by cases b <;> decide, by cases b <;> decide⟩
  | .ref (.cls _ _) => exact ⟨'L', _, rfl, by decide, by decide⟩
  | .ref (.var _) => exact ⟨'T', _, rfl, by decide, by decide⟩
  | .ref (.array _) => exact ⟨'[', _, rfl, by decide, by decide⟩

theorem marked_head (mark : Mark) (a : RefSyntax) {c : Char} {r r' : List Char}
    (same : mark.chars ++ (a.text ++ r) = c :: r') : c ∈ ['L', 'T', '[', '+', '-'] := by
  cases mark with
  | plain => exact List.mem_append_left ['+', '-'] (ref_head a same)
  | plus | minus =>
    rw [← (List.cons.inj same).1]
    decide

theorem Mark.unique (mark mark' : Mark) (a a' : RefSyntax) {r r' : List Char}
    (same : mark.chars ++ (a.text ++ r) = mark'.chars ++ (a'.text ++ r')) :
    mark = mark' ∧ a.text ++ r = a'.text ++ r' := by
  match mark, mark' with
  | .plain, .plain => exact ⟨rfl, same⟩
  | .plus, .plus | .minus, .minus => exact ⟨rfl, (List.cons.inj same).2⟩
  | .plain, .plus | .plain, .minus => exact absurd (ref_head a same) (by decide)
  | .plus, .plain | .minus, .plain => exact absurd (ref_head a' same.symm) (by decide)
  | .plus, .minus | .minus, .plus => exact absurd (List.cons.inj same).1 (by decide)

mutual
theorem TypeSyntax.unique (d d' : TypeSyntax) {r r' : List Char} (same : d.text ++ r = d'.text ++ r') :
    d = d' ∧ r = r' := by
  match d, d' with
  | .base b, .base b' =>
    obtain ⟨letters, rest⟩ := List.cons.inj same
    rw [BaseType.letter_injective letters]
    exact ⟨rfl, rest⟩
  | .base b, .ref a => exact (base_ne_ref b a same).elim
  | .ref a, .base b => exact (base_ne_ref b a same.symm).elim
  | .ref a, .ref a' =>
    obtain ⟨refs, rest⟩ := a.unique a' same
    rw [refs]
    exact ⟨rfl, rest⟩
termination_by structural d
theorem RefSyntax.unique (d d' : RefSyntax) {r r' : List Char} (same : d.text ++ r = d'.text ++ r') :
    d = d' ∧ r = r' := by
  match d, d' with
  | .cls n a, .cls n' a' =>
    simp only [RefSyntax.text, List.cons_append, List.append_assoc, List.cons.injEq, true_and] at same
    obtain ⟨c, tail, stop, starts⟩ := a.exists_stop r
    obtain ⟨c', tail', stop', starts'⟩ := a'.exists_stop r'
    rw [starts, starts'] at same
    obtain ⟨names, rest⟩ := Name.unique stop stop' same
    rw [← starts, ← starts'] at rest
    obtain ⟨tails, rest⟩ := a.unique a' rest
    rw [names, tails]
    exact ⟨rfl, rest⟩
  | .var n, .var n' =>
    simp only [RefSyntax.text, List.cons_append, List.append_assoc, List.cons.injEq, true_and,
      List.nil_append] at same
    obtain ⟨names, rest⟩ := Name.unique (List.mem_singleton_self _) (List.mem_singleton_self _) same
    rw [names]
    exact ⟨rfl, (List.cons.inj rest).2⟩
  | .array a, .array a' =>
    obtain ⟨elements, rest⟩ := a.unique a' (List.cons.inj same).2
    rw [elements]
    exact ⟨rfl, rest⟩
  | .cls _ _, .var _ | .cls _ _, .array _ | .var _, .cls _ _ | .var _, .array _ | .array _, .cls _ _
  | .array _, .var _ => simp [RefSyntax.text] at same
termination_by structural d
theorem ClassSyntax.unique (d d' : ClassSyntax) {r r' : List Char} (same : d.text ++ r = d'.text ++ r') :
    d = d' ∧ r = r' := by
  match d, d' with
  | .done a, .done a' =>
    simp only [ClassSyntax.text, List.append_assoc, List.cons_append, List.nil_append] at same
    obtain ⟨args, rest⟩ := a.unique a' (by decide) (by decide) same
    rw [args]
    exact ⟨rfl, (List.cons.inj rest).2⟩
  | .inner a n t, .inner a' n' t' =>
    simp only [ClassSyntax.text, List.append_assoc, List.cons_append] at same
    obtain ⟨args, rest⟩ := a.unique a' (by decide) (by decide) same
    obtain ⟨c, tail, stop, starts⟩ := t.exists_stop r
    obtain ⟨c', tail', stop', starts'⟩ := t'.exists_stop r'
    rw [starts, starts'] at rest
    obtain ⟨names, rest⟩ := Name.unique stop stop' (List.cons.inj rest).2
    rw [← starts, ← starts'] at rest
    obtain ⟨tails, rest⟩ := t.unique t' rest
    rw [args, names, tails]
    exact ⟨rfl, rest⟩
  | .done a, .inner a' n' t' =>
    simp only [ClassSyntax.text, List.append_assoc, List.cons_append, List.nil_append] at same
    have ends := (List.cons.inj (a.unique a' (by decide) (by decide) same).2).1
    exact absurd ends (by decide)
  | .inner a n t, .done a' =>
    simp only [ClassSyntax.text, List.append_assoc, List.cons_append, List.nil_append] at same
    have ends := (List.cons.inj (a.unique a' (by decide) (by decide) same).2).1
    exact absurd ends (by decide)
termination_by structural d
theorem ArgsSyntax.unique (d d' : ArgsSyntax) {c c' : Char} {r r' : List Char} (notOpen : c ≠ '<')
    (notOpen' : c' ≠ '<') (same : d.text ++ c :: r = d'.text ++ c' :: r') : d = d' ∧ c :: r = c' :: r' := by
  match d, d' with
  | .absent, .absent => exact ⟨rfl, same⟩
  | .given a, .given a' =>
    obtain ⟨lists, rest⟩ := a.unique a' (List.cons.inj same).2
    rw [lists]
    exact ⟨rfl, rest⟩
  | .absent, .given a => exact absurd (List.cons.inj same).1 notOpen
  | .given a, .absent => exact absurd (List.cons.inj same).1.symm notOpen'
termination_by structural d
theorem ArgList.unique (d d' : ArgList) {r r' : List Char} (same : d.text ++ r = d'.text ++ r') :
    d = d' ∧ r = r' := by
  match d, d' with
  | .close, .close => exact ⟨rfl, (List.cons.inj same).2⟩
  | .any t, .any t' =>
    obtain ⟨lists, rest⟩ := t.unique t' (List.cons.inj same).2
    rw [lists]
    exact ⟨rfl, rest⟩
  | .type mark a t, .type mark' a' t' =>
    simp only [ArgList.text, List.append_assoc] at same
    obtain ⟨marks, rest⟩ := Mark.unique mark mark' a a' same
    obtain ⟨refs, rest⟩ := a.unique a' rest
    obtain ⟨lists, rest⟩ := t.unique t' rest
    rw [marks, refs, lists]
    exact ⟨rfl, rest⟩
  | .close, .any _ | .any _, .close => exact absurd (List.cons.inj same).1 (by decide)
  | .type mark a t, .close | .type mark a t, .any _ =>
    simp only [ArgList.text, List.append_assoc] at same
    exact absurd (marked_head mark a same) (by decide)
  | .close, .type mark a t | .any _, .type mark a t =>
    simp only [ArgList.text, List.append_assoc] at same
    exact absurd (marked_head mark a same.symm) (by decide)
termination_by structural d
end

theorem TypeSyntax.eq_of_text {d d' : TypeSyntax} (same : d.text = d'.text) : d = d' :=
  (d.unique d' (congrArg (· ++ []) same)).1

/-! ## Sequences -/

/-- Parts in a row are determined by the text when each starts like none of what may follow them. -/
theorem flatMap_unique {α : Type} (text : α → List Char) (starts : Char → Prop)
    (unique : ∀ a a' r r', text a ++ r = text a' ++ r' → a = a' ∧ r = r')
    (begins : ∀ a, ∃ c tail, text a = c :: tail ∧ starts c) {xs ys : List α} {r r' : List Char}
    (ends : ∀ c, r.head? = some c → ¬ starts c) (ends' : ∀ c, r'.head? = some c → ¬ starts c)
    (same : xs.flatMap text ++ r = ys.flatMap text ++ r') : xs = ys ∧ r = r' := by
  induction xs generalizing ys with
  | nil =>
    cases ys with
    | nil => exact ⟨rfl, same⟩
    | cons y ys =>
      obtain ⟨c, tail, first, start⟩ := begins y
      refine absurd start (ends c ?_)
      rw [List.flatMap_nil, List.nil_append] at same
      simp [same, first]
  | cons x xs ih =>
    cases ys with
    | nil =>
      obtain ⟨c, tail, first, start⟩ := begins x
      refine absurd start (ends' c ?_)
      rw [List.flatMap_nil, List.nil_append] at same
      simp [← same, first]
    | cons y ys =>
      simp only [List.flatMap_cons, List.append_assoc] at same
      obtain ⟨heads, rest⟩ := unique x y _ _ same
      obtain ⟨tails, rest⟩ := ih rest
      rw [heads, tails]
      exact ⟨rfl, rest⟩

theorem flatMap_unique_end {α : Type} (text : α → List Char)
    (unique : ∀ a a' r r', text a ++ r = text a' ++ r' → a = a' ∧ r = r')
    (nonempty : ∀ a, text a ≠ []) {xs ys : List α} (same : xs.flatMap text = ys.flatMap text) : xs = ys := by
  refine (flatMap_unique text (fun _ => True) unique (fun a => ?_) (by simp) (by simp)
    (congrArg (· ++ []) same)).1
  obtain ⟨c, tail, first⟩ := List.exists_cons_of_ne_nil (nonempty a)
  exact ⟨c, tail, first, trivial⟩

theorem interfaces_unique {rs rs' : List RefSyntax} {r r' : List Char} (ends : r.head? ≠ some ':')
    (ends' : r'.head? ≠ some ':')
    (same : (rs.flatMap fun a => ':' :: a.text) ++ r = (rs'.flatMap fun a => ':' :: a.text) ++ r') :
    rs = rs' ∧ r = r' := by
  refine flatMap_unique (fun a => ':' :: a.text) (· = ':')
    (fun a a' _ _ same => a.unique a' (List.cons.inj same).2) (fun a => ⟨':', a.text, rfl, rfl⟩) ?_ ?_ same
  · rintro c first rfl
    exact ends first
  · rintro c first rfl
    exact ends' first

/-! ## Declarations -/

theorem bound_unique {a a' : Option RefSyntax} {r r' : List Char}
    (free : a = none → startsReference r = false) (free' : a' = none → startsReference r' = false)
    (same : a.elim [] RefSyntax.text ++ r = a'.elim [] RefSyntax.text ++ r') : a = a' ∧ r = r' := by
  match a, a' with
  | none, none => exact ⟨rfl, same⟩
  | some a, some a' =>
    obtain ⟨refs, rest⟩ := a.unique a' same
    rw [refs]
    exact ⟨rfl, rest⟩
  | none, some a' =>
    have absent := free rfl
    rw [show r = a'.text ++ r' from same, startsReference_ref] at absent
    cases absent
  | some a, none =>
    have absent := free' rfl
    rw [← show a.text ++ r = r' from same, startsReference_ref] at absent
    cases absent

theorem FormalSyntax.listText_unique {fs fs' : List FormalSyntax} (clear : Unmistakable fs)
    (clear' : Unmistakable fs') {r r' : List Char} (same : listText fs ++ r = listText fs' ++ r') :
    fs = fs' ∧ r = r' := by
  induction fs generalizing fs' with
  | nil =>
    cases fs' with
    | nil => exact ⟨rfl, (List.cons.inj same).2⟩
    | cons f fs => exact absurd (congrArg List.head? same).symm (listText_opening f fs r')
  | cons f fs ih =>
    cases fs' with
    | nil => exact absurd (congrArg List.head? same) (listText_opening f fs r)
    | cons f' fs' =>
      have free := clear.ahead r
      have free' := clear'.ahead r'
      obtain ⟨n, opening, bound, interfaces⟩ := f
      obtain ⟨n', opening', bound', interfaces'⟩ := f'
      simp only [listText, text, interfaceText, List.append_assoc, List.cons_append] at same free free'
      obtain ⟨names, afterName⟩ := Name.unique (List.mem_singleton_self _) (List.mem_singleton_self _) same
      obtain ⟨bounds, afterBound⟩ := bound_unique free free' (List.cons.inj afterName).2
      obtain ⟨lists, afterLists⟩ :=
        interfaces_unique (listText_head fs r) (listText_head fs' r') afterBound
      obtain ⟨others, ends⟩ := ih clear.2 clear'.2 afterLists
      subst names bounds lists others
      exact ⟨rfl, ends⟩

theorem formals_unique {fs fs' : Option FormalsSyntax} {r r' : List Char} (ends : r.head? ≠ some '<')
    (ends' : r'.head? ≠ some '<')
    (same : fs.elim [] FormalsSyntax.text ++ r = fs'.elim [] FormalsSyntax.text ++ r') :
    fs = fs' ∧ r = r' := by
  match fs, fs' with
  | none, none => exact ⟨rfl, same⟩
  | some ⟨fs, clear⟩, some ⟨fs', clear'⟩ =>
    obtain ⟨lists, rest⟩ := FormalSyntax.listText_unique clear clear' (List.cons.inj same).2
    subst lists
    exact ⟨rfl, rest⟩
  | none, some _ => exact absurd (congrArg List.head? same) ends
  | some _, none => exact absurd (congrArg List.head? same).symm ends'

theorem ClassTypeSyntax.unique {c c' : ClassTypeSyntax} {r r' : List Char}
    (same : c.ref.text ++ r = c'.ref.text ++ r') : c = c' ∧ r = r' := by
  obtain ⟨refs, rest⟩ := c.ref.unique c'.ref same
  cases c
  cases c'
  cases refs
  exact ⟨rfl, rest⟩

theorem ExceptionSyntax.unique {e e' : ExceptionSyntax} {r r' : List Char}
    (same : e.ref.text ++ r = e'.ref.text ++ r') : e = e' ∧ r = r' := by
  obtain ⟨refs, rest⟩ := e.ref.unique e'.ref same
  match e, e' with
  | .cls ⟨_, _⟩, .cls ⟨_, _⟩ | .var _, .var _ =>
    cases refs
    exact ⟨rfl, rest⟩
  | .cls ⟨_, _⟩, .var _ | .var _, .cls ⟨_, _⟩ => cases refs

theorem ClassSigSyntax.unique {d d' : ClassSigSyntax} (same : d.text = d'.text) : d = d' := by
  obtain ⟨formals, superclass, interfaces⟩ := d
  obtain ⟨formals', superclass', interfaces'⟩ := d'
  obtain ⟨sameFormals, afterFormals⟩ := formals_unique (by simp [ClassTypeSyntax.ref, RefSyntax.text])
    (by simp [ClassTypeSyntax.ref, RefSyntax.text]) same
  obtain ⟨sameClass, rest⟩ := ClassTypeSyntax.unique afterFormals
  have sameInterfaces := flatMap_unique_end (fun c : ClassTypeSyntax => c.ref.text)
    (fun _ _ _ _ => ClassTypeSyntax.unique) (fun c => by simp [ClassTypeSyntax.ref, RefSyntax.text]) rest
  subst sameFormals sameClass sameInterfaces
  rfl

theorem result_unique {a a' : Option TypeSyntax} {r r' : List Char}
    (same : a.elim ['V'] TypeSyntax.text ++ r = a'.elim ['V'] TypeSyntax.text ++ r') :
    a = a' ∧ r = r' := by
  match a, a' with
  | none, none => exact ⟨rfl, (List.cons.inj same).2⟩
  | some d, some d' =>
    obtain ⟨types, rest⟩ := d.unique d' same
    rw [types]
    exact ⟨rfl, rest⟩
  | none, some d' =>
    obtain ⟨c, tail, first, notVoid, -⟩ := d'.head
    rw [Option.elim_some, first] at same
    exact absurd (List.cons.inj same).1.symm notVoid
  | some d, none =>
    obtain ⟨c, tail, first, notVoid, -⟩ := d.head
    rw [Option.elim_some, first] at same
    exact absurd (List.cons.inj same).1 notVoid

theorem MethodSigSyntax.unique {d d' : MethodSigSyntax} (same : d.text = d'.text) : d = d' := by
  obtain ⟨formals, parameters, result, exceptions⟩ := d
  obtain ⟨formals', parameters', result', exceptions'⟩ := d'
  have begins : ∀ d : TypeSyntax, ∃ c tail, d.text = c :: tail ∧ c ≠ ')' := by
    intro d
    obtain ⟨c, tail, first, -, inside⟩ := d.head
    exact ⟨c, tail, first, inside⟩
  obtain ⟨sameFormals, opened⟩ := formals_unique (by simp) (by simp) same
  obtain ⟨sameParameters, closed⟩ := flatMap_unique TypeSyntax.text (· ≠ ')')
    (fun d d' _ _ => d.unique d') begins (by simp) (by simp) (List.cons.inj opened).2
  obtain ⟨sameResult, thrown⟩ := result_unique (List.cons.inj closed).2
  have sameExceptions := flatMap_unique_end (fun e : ExceptionSyntax => '^' :: e.ref.text)
    (fun _ _ _ _ same => ExceptionSyntax.unique (List.cons.inj same).2) (fun e => by simp) thrown
  subst sameFormals sameParameters sameResult sameExceptions
  rfl

end ClassAtlas.Signature
