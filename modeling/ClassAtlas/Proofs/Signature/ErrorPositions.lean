import ClassAtlas.Proofs.Signature.LeftToRight

/-! # Errors point at the first wrong byte

An error at an unexpected byte names the place of that byte, and whatever stands behind it the error stays:
every text with the same bytes up to there fails in the same way. Input is left over behind a field's type
if and only if the text up to there is a type by itself, so no type starts with another one. Behind the
signature of a class nothing is left over.
-/

namespace ClassAtlas.Signature

variable (scope : TypeScope)

/-! ## Unexpected bytes -/

/-- An error at an unexpected byte names its place and shows it, and texts with the same bytes up to there
    fail in the same way. -/
def PointsAtByte {α : Type} (parse : String → Except SignatureError α) : Prop :=
  ∀ s input p found expected, parse s = .error (.unexpected input p found expected) →
    input = s ∧ p < (bytes s).length ∧ (bytes s)[p]?.map (fun b => Char.ofNat b.toNat) = some found ∧
      ∀ t, (bytes t).take (p + 1) = (bytes s).take (p + 1) → parse t = .error (.unexpected t p found expected)

section Parsing

variable {α : Type} {read : Nat → List Char → Except Fault (Parsed α)} {bytewise : Nat → Cursor α}

theorem parseWith_unexpected {s input : String} {p : Nat} {found : Char} {expected : String}
    (failed : parseWith read s = .error (.unexpected input p found expected)) :
    ∃ c rest, read (s.toList.length + 2) s.toList = .error (.unexpected (c :: rest) expected) ∧
      input = s ∧ p = position s (c :: rest) ∧ found = leadByte c := by
  unfold parseWith at failed
  split at failed
  · cases failed
  · cases failed
  · next fault outcome =>
      rw [outcome]
      match fault with
      | .unexpected (c :: rest) e =>
        cases failed
        exact ⟨c, rest, rfl, rfl, rfl, rfl⟩
      | .unexpected [] e => cases failed
      | .ended e => cases failed
      | .unbound name => cases failed

theorem parseWith_pointsAtByte
    (steady : ∀ {n f g}, n < f + 1 → n < g + 1 → Fuelled n (read (f + 1)) (read (g + 1)) (bytewise f)) :
    PointsAtByte (parseWith read) := by
  intro s input p found expected failed
  obtain ⟨c, rest, outcome, rfl, rfl, rfl⟩ := parseWith_unexpected failed
  obtain ⟨before, text⟩ : c :: rest <:+ input.toList :=
    (steady (f := input.toList.length + 1) (by omega) (Nat.lt_succ_self _)).inside le_rfl (by rw [outcome]; rfl)
  obtain ⟨tail, starts⟩ := utf8EncodeChar_eq c
  have place : position input (c :: rest) = (encoded before).length := position_eq text.symm
  have all : bytes input = encoded before ++ lead c :: (tail ++ encoded rest) := by
    rw [bytes_eq_encoded, ← text, encoded_append, encoded_cons, starts, List.cons_append]
  rw [place, all]
  refine ⟨rfl, by simp, ?_, fun t agree => ?_⟩
  · rw [List.getElem?_append_right le_rfl, Nat.sub_self, List.getElem?_cons_zero, Option.map_some, ofNat_lead]
  · -- The other text goes on with a character that starts with the same byte.
    have other : encoded before ++ lead c :: (bytes t).drop ((encoded before).length + 1) =
        encoded t.toList := by
      rw [List.take_length_add_append, List.take_succ_cons, List.take_zero] at agree
      rw [List.append_cons, ← agree, List.take_append_drop, bytes_eq_encoded]
    obtain ⟨after, text', more⟩ := exists_of_encoded_append other
    cases after with
    | nil => cases more
    | cons d rest' =>
      obtain ⟨tail', starts'⟩ := utf8EncodeChar_eq d
      rw [encoded_cons, starts', List.cons_append] at more
      obtain ⟨shown, keys⟩ := same_lead (List.cons.inj more).1
      have alike : Alike (c :: rest) (d :: rest') := ⟨c, rest, d, rest', rfl, rfl, keys⟩
      -- With fuel for both texts the reader fails at the same place.
      let fuel := max input.toList.length t.toList.length
      have same (s : List Char) (enough : s.length ≤ fuel) : read (s.length + 2) s = read (fuel + 1) s :=
        ((steady (f := s.length + 1) (by omega) (by omega)).follows le_rfl).eq trivial
      have failed' : read (t.toList.length + 2) t.toList = .error (.unexpected (d :: rest') expected) := by
        rw [same _ (Nat.le_max_left _ _), ← text] at outcome
        rw [same _ (Nat.le_max_right _ _), text']
        have again : read (fuel + 1) (before ++ d :: rest') = .error (.unexpected ([] ++ d :: rest') expected) :=
          (steady (Nat.lt_succ_self fuel) (Nat.lt_succ_self fuel)).failed_again alike
            (text ▸ Nat.le_max_left _ _) (text' ▸ Nat.le_max_right _ _) outcome
        exact again
      simp only [parseWith, failed', Fault.toError, position_eq text', shown]

theorem parseWith_trailing {s input : String} {p : Nat} :
    parseWith read s = .error (.trailingInput input p) ↔
      input = s ∧ ∃ v rest, read (s.toList.length + 2) s.toList = .ok (v, rest) ∧ rest ≠ [] ∧
        p = position s rest := by
  unfold parseWith
  cases read (s.toList.length + 2) s.toList with
  | error fault =>
    constructor
    · intro failed
      match fault with
      | .unexpected (c :: rest) e => cases failed
      | .unexpected [] e => cases failed
      | .ended e => cases failed
      | .unbound name => cases failed
    · rintro ⟨-, v, rest, absurdity, -⟩
      cases absurdity
  | ok found =>
    obtain ⟨v, rest⟩ := found
    cases rest with
    | nil =>
      constructor
      · intro absurdity
        cases absurdity
      · rintro ⟨-, v, rest, same, nonempty, -⟩
        cases same
        exact absurd rfl nonempty
    | cons c rest =>
      constructor
      · intro failed
        cases failed
        exact ⟨rfl, v, c :: rest, rfl, List.cons_ne_nil c rest, rfl⟩
      · rintro ⟨rfl, v, rest, same, -, rfl⟩
        cases same
        rfl

end Parsing

/-! ## Input that is left over -/

theorem parseField_trailing {s input : String} {p : Nat} :
    parseField scope s = .error (.trailingInput input p) ↔
      input = s ∧ p < (bytes s).length ∧ ∃ u, bytes u = (bytes s).take p ∧ ∃ t, parseField scope u = .ok t := by
  refine parseWith_trailing.trans (and_congr_right fun _ => ⟨?_, ?_⟩)
  · rintro ⟨v, rest, read, nonempty, rfl⟩
    obtain ⟨d, text, owned, rfl⟩ := javaType_derived (fun _ _ => ownerIn_agrees) read
    have all : bytes s = encoded d.text ++ encoded rest := by rw [bytes_eq_encoded, text, encoded_append]
    have more : 0 < (encoded rest).length := List.length_pos_iff.mpr (mt encoded_eq_nil.mp nonempty)
    refine ⟨?_, String.ofList d.text, ?_, d.tree (ownerIn scope (.ofClass ⟨""⟩) []), ?_⟩
    · rw [position_eq text, all, List.length_append]
      omega
    · rw [position_eq text, all, List.take_left, bytes_eq_encoded, String.toList_ofList]
    · refine (parseField_iff scope _ _).mpr ⟨d, (String.toList_ofList ..).symm, fun x member => ?_, rfl⟩
      exact declared_of_resolved (owned x member)
  · rintro ⟨less, u, start, t, accepted⟩
    obtain ⟨d, text, declared, rfl⟩ := (parseField_iff scope u t).mp accepted
    have split : encoded u.toList ++ (bytes s).drop p = encoded s.toList := by
      rw [← bytes_eq_encoded, start, List.take_append_drop, bytes_eq_encoded]
    obtain ⟨rest, whole, more⟩ := exists_of_encoded_append split
    have nonempty : rest ≠ [] := by
      rintro rfl
      have short := congrArg List.length more
      rw [List.length_drop] at short
      exact absurd short (by simp only [encoded, List.flatMap_nil, List.length_nil]; omega)
    have owned : ∀ x ∈ d.variableNames, resolveIn scope (.ofClass ⟨""⟩) [] x =
        some (ownerIn scope (.ofClass ⟨""⟩) [] x) := fun x member => resolveIn_declared (declared x member)
    have enough : d.text.length ≤ s.toList.length + 2 := by
      rw [whole, text, List.length_append]
      omega
    have read := d.reads owned (s.toList.length + 2) enough rest
    rw [text, ← whole] at read
    refine ⟨_, rest, read, nonempty, ?_⟩
    rw [position_eq whole, ← bytes_eq_encoded, start, List.length_take]
    omega

theorem parseField_prefixFree {s u : String} {t t' : TypeSignature} (accepted : parseField scope s = .ok t)
    (accepted' : parseField scope u = .ok t') (starts : bytes u <+: bytes s) : u = s := by
  by_contra different
  obtain ⟨more, same⟩ := starts
  have longer : (bytes u).length < (bytes s).length := by
    rw [← same, List.length_append]
    refine Nat.lt_add_of_pos_right (List.length_pos_iff.mpr ?_)
    rintro rfl
    rw [List.append_nil] at same
    exact different (bytes_injective same)
  have trailing := (parseField_trailing scope).mpr ⟨rfl, longer, u, by rw [← same, List.take_left], t', accepted'⟩
  rw [accepted] at trailing
  cases trailing

theorem classTypes_rest {resolve : Resolve} {fuel : Nat} {s rest : List Char} {ts : List TypeSignature}
    (read : classTypes resolve fuel s = .ok (ts, rest)) : rest = [] := by
  induction fuel generalizing s ts with
  | zero =>
    cases s with
    | nil =>
      cases read
      rfl
    | cons => cases read
  | succ fuel ih =>
    cases s with
    | nil =>
      cases read
      rfl
    | cons c s =>
      obtain ⟨first, -, others⟩ := bind_eq_ok.mp read
      obtain ⟨⟨more, after⟩, list, result⟩ := bind_eq_ok.mp others
      cases result
      exact ih list

theorem parseClass_trailing (type : TypeName) (s input : String) (p : Nat) :
    parseClass scope type s ≠ .error (.trailingInput input p) := by
  intro failed
  obtain ⟨-, v, rest, read, nonempty, -⟩ := parseWith_trailing.mp failed
  obtain ⟨formals, -, read⟩ := bind_eq_ok.mp read
  obtain ⟨superclass, -, read⟩ := bind_eq_ok.mp read
  obtain ⟨⟨interfaces, after⟩, list, result⟩ := bind_eq_ok.mp read
  cases result
  exact nonempty (classTypes_rest list)

/-- Errors point at the first offending byte. An unexpected byte stands where the error says, and every text
    that has the same bytes up to it, and it, fails in the same way. A field's type has more behind it if and
    only if the text before that is a type, so that no accepted text starts with another. Behind the
    signature of a class there is never more. -/
theorem errors_point_at_first_byte (scope : TypeScope) :
    PointsAtByte (parseField scope) ∧ (∀ type, PointsAtByte (parseClass scope type)) ∧
    (∀ owner, PointsAtByte (parseMethod scope owner)) ∧
    (∀ s input p, parseField scope s = .error (.trailingInput input p) ↔
      input = s ∧ p < (bytes s).length ∧ ∃ u, bytes u = (bytes s).take p ∧ ∃ t, parseField scope u = .ok t) ∧
    (∀ s u t t', parseField scope s = .ok t → parseField scope u = .ok t' → bytes u <+: bytes s → u = s) ∧
    ∀ type s input p, parseClass scope type s ≠ .error (.trailingInput input p) :=
  ⟨parseWith_pointsAtByte fun short short' =>
      (javaType_steady (types_steady (.inl rfl) _ _).1 short short').fuelled,
    fun _ => parseWith_pointsAtByte classSignature_steady, fun _ => parseWith_pointsAtByte methodSignature_steady,
    fun _ _ _ => parseField_trailing scope,
    fun _ _ _ _ accepted accepted' => parseField_prefixFree scope accepted accepted',
    parseClass_trailing scope⟩

namespace AccentedNames

def owner : TypeVariableOwner := .ofMethod ⟨"A"⟩ "m" "(é)V"

/-- The names are of two bytes each, and both letters in brackets start with the same byte. -/
theorem same_errors :
    (9 < (bytes "<T:LÉ;>(é)V").length ∧
      parseMethod .empty owner "<T:LÉ;>(é)V" = .error (.unexpected "<T:LÉ;>(é)V" 9 'Ã' "reference type") ∧
      parseMethod .empty owner "<T:LÉ;>(èI" = .error (.unexpected "<T:LÉ;>(èI" 9 'Ã' "reference type")) ∧
    parseClass .empty ⟨"A"⟩ "LÉ;ITT;" = .error (.unexpected "LÉ;ITT;" 4 'I' "`L`") ∧
    parseField .empty "[è" = .error (.unexpected "[è" 1 'Ã' "reference type") ∧
    parseField .empty "[LÉ;é" = .error (.trailingInput "[LÉ;é" 5) ∧
    ∀ t, parseField .empty "[LÉ;I" ≠ .ok t := by
  obtain ⟨field, cls, method, trailing, unextended, -⟩ := errors_point_at_first_byte .empty
  have failed : parseMethod .empty owner "<T:LÉ;>(é)V" =
      .error (.unexpected "<T:LÉ;>(é)V" 9 'Ã' "reference type") := by decide +kernel
  have accepted : parseField .empty "[LÉ;" = .ok ⟨.named ⟨"É"⟩, .invariant, 1, []⟩ := by decide +kernel
  obtain ⟨-, inside, -, again⟩ := method owner _ _ _ _ _ failed
  refine ⟨⟨inside, failed, again _ (by decide +kernel)⟩, ?_, ?_, ?_, fun t more => ?_⟩
  · have failed : parseClass .empty ⟨"A"⟩ "LÉ;I" = .error (.unexpected "LÉ;I" 4 'I' "`L`") := by decide +kernel
    exact (cls _ _ _ _ _ _ failed).2.2.2 _ (by decide +kernel)
  · have failed : parseField .empty "[é" = .error (.unexpected "[é" 1 'Ã' "reference type") := by decide +kernel
    exact (field _ _ _ _ _ failed).2.2.2 _ (by decide +kernel)
  · exact (trailing _ _ _).mpr ⟨rfl, by decide +kernel, "[LÉ;", by decide +kernel, _, accepted⟩
  · exact absurd (unextended _ _ _ _ more accepted (by decide +kernel)) (by decide +kernel)

end AccentedNames

end ClassAtlas.Signature
