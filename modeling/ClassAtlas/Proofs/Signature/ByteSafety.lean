import ClassAtlas.Proofs.Signature.LeftToRight

/-! # Signatures are read safely from bytes

Reading the bytes of a text comes to no mishap, whatever text it is and however deep its types are. It gives what reading
the characters gives, and so every byte that is taken or shown is there, every name is cut out between characters, and
every loop ends.
-/

namespace ClassAtlas.Signature

namespace Cursor

theorem place_eq (input : String) (rest : List Char) : place input (encoded rest) = position input rest := by
  rw [place, position, bytes_eq_encoded, length_encoded, length_encoded]

theorem whole_eq {α : Type} {input : String} {f : Nat} {x : Cursor α} {read : Nat → Reader α}
    (steady : Fuelled input.toList.length (read f) (read (input.toList.length + 2)) x) :
    whole input x = .ok (parseWith read input) := by
  have enough : read f input.toList = read (input.toList.length + 2) input.toList := (steady.follows le_rfl).eq trivial
  rw [whole, bytes_eq_encoded, steady.bytes le_rfl, parseWith, ← enough]
  cases read f input.toList with
  | ok found =>
    obtain ⟨v, rest⟩ := found
    cases rest with
    | nil => rfl
    | cons c rest => simp [carried, encoded_eq_nil, place_eq]
  | error fault =>
    cases fault with
    | ended | unbound => rfl
    | unexpected rest expected =>
      cases rest with
      | nil => rfl
      | cons c rest =>
        obtain ⟨tail, starts⟩ := utf8EncodeChar_eq c
        have shown : (encoded (c :: rest)).head? = some (lead c) := by rw [encoded_cons, starts]; rfl
        simp [carried, encoded_eq_nil, report, shown, place_eq, ofNat_lead, Fault.toError, Except.map]

/-- The second reading of a list stops where the first did, unless it finds a name without an owner. -/
theorem formalParameters_again {resolve : Resolve} {owner : TypeVariableOwner} {f : Nat} {s : List Char}
    {collected : List FormalParameter} {left : List UInt8} (short : s.length < f)
    (first : formalParameters (fun _ => some owner) f (encoded s) = .ok (collected, left)) :
    left <:+ encoded s ∧ ((∃ ps, formalParameters resolve f (encoded s) = .ok (ps, left)) ∨
      ∃ name, resolve name = none ∧ formalParameters resolve f (encoded s) = .error (.unbound name)) := by
  have alike (resolve : Resolve) (owned : Owned resolve fun _ => some owner) :=
    formalParameters_steady owned short short
  rw [(alike _ (.inl rfl)).bytes le_rfl] at first
  cases outcome : Signature.formalParameters (fun _ => some owner) f s with
  | error fault =>
    rw [outcome] at first
    cases first
  | ok found =>
    rw [outcome] at first
    cases first
    obtain ⟨before, text⟩ := (alike _ (.inl rfl)).inside le_rfl (by rw [outcome]; rfl)
    refine ⟨⟨encoded before, by rw [← encoded_append, text]⟩, ?_⟩
    -- The second reading follows the first, in which every name has an owner.
    have second := alike resolve (.inr fun _ => rfl)
    have both := second.follows le_rfl
    rw [outcome] at both
    rw [second.bytes le_rfl]
    generalize Signature.formalParameters resolve f s = again at both ⊢
    cases both with
    | @found ps _ rest _ => exact .inl ⟨ps, rfl⟩
    | @unbound name _ blamed _ => exact .inr ⟨name, blamed, rfl⟩

end Cursor

/-- Reading bytes comes to no mishap. With two steps more than the text has bytes, or any more than that, each way to
    read a text gives what it gives for characters: a result, or an error of the grammar. So no byte is taken or shown
    behind the end, no name is cut within a character, and nothing goes on for ever. A list of type parameters is left
    at the same place by both readings, unless the second finds a name without an owner and ends there. -/
theorem bytes_are_read_safely (input : String) (scope : TypeScope) (fuel : Nat)
    (enough : (bytes input).length + 2 ≤ fuel) :
    Cursor.whole input (Cursor.javaType (resolveIn scope (.ofClass ⟨""⟩) []) fuel) = .ok (parseField scope input) ∧
    (∀ type, Cursor.whole input (Cursor.classSignature scope (.ofClass type) fuel) = .ok (parseClass scope type input)) ∧
    (∀ owner, Cursor.whole input (Cursor.methodSignature scope owner fuel) = .ok (parseMethod scope owner input)) ∧
    (Cursor.whole input (Cursor.methodSignature .empty (.ofMethod ⟨""⟩ "" input) fuel)).map
      (·.map (·.parameters.length)) = .ok (parameterCount input) ∧
    ∀ list, input = "<" ++ list → ∀ owner resolve collected left,
      Cursor.formalParameters (fun _ => some owner) fuel (bytes list) = .ok (collected, left) →
      left <:+ bytes list ∧ ((∃ ps, Cursor.formalParameters resolve fuel (bytes list) = .ok (ps, left)) ∨
        ∃ name, resolve name = none ∧ Cursor.formalParameters resolve fuel (bytes list) = .error (.unbound name)) := by
  have short : input.toList.length + 2 ≤ fuel := by
    have fewer := length_le_encoded input.toList
    rw [← bytes_eq_encoded] at fewer
    omega
  obtain ⟨f, rfl⟩ := Nat.exists_eq_add_one_of_ne_zero (Nat.ne_zero_of_lt short)
  refine ⟨?_, fun type => ?_, fun owner => ?_, ?_, fun list starts owner resolve collected left first => ?_⟩
  · exact Cursor.whole_eq (javaType_steady (types_steady (.inl rfl) _ _).1 (by omega) (by omega)).fuelled
  · exact Cursor.whole_eq (classSignature_steady (by omega) (by omega))
  · exact Cursor.whole_eq (methodSignature_steady (by omega) (by omega))
  · rw [Cursor.whole_eq (methodSignature_steady (by omega) (by omega))]
    rfl
  · rw [starts, String.toList_append, List.length_append] at short
    rw [bytes_eq_encoded] at first ⊢
    exact Cursor.formalParameters_again (by omega) first

namespace AccentedParameters

def list : String := "É:LÜ;F::TÉ;>(TF;[é"

def owner : TypeVariableOwner := .ofMethod ⟨"A"⟩ "m" "()V"

/-- The names are of two bytes each. With fewer steps there is a mishap, and so there is within a character. -/
theorem read_between_characters :
    ((bytes ("<" ++ list)).length + 2 ≤ 30 ∧
      Cursor.whole ("<" ++ list) (Cursor.methodSignature .empty owner 30) =
        .ok (.error (.unexpected ("<" ++ list) 21 'Ã' "reference type"))) ∧
    (Cursor.formalParameters (fun _ => some owner) 30 (bytes list) = .ok
        ([⟨"É", some (.ofType ⟨"Ü"⟩), []⟩, ⟨"F", none, [.ofVariable ⟨"É", owner⟩]⟩], bytes "(TF;[é") ∧
      bytes "(TF;[é" <:+ bytes list) ∧
    Cursor.whole ("<" ++ list) (Cursor.methodSignature .empty owner 2) = .error .endless ∧
    Cursor.identifier [';'] "class name" ((bytes list).drop 1) = .error (.mishap .splitCharacter) := by
  have enough : (bytes ("<" ++ list)).length + 2 ≤ 30 := by decide +kernel
  obtain ⟨-, -, method, -, again⟩ := bytes_are_read_safely ("<" ++ list) .empty 30 enough
  have failed : parseMethod .empty owner ("<" ++ list) =
      .error (.unexpected ("<" ++ list) 21 'Ã' "reference type") := by decide +kernel
  have first : Cursor.formalParameters (fun _ => some owner) 30 (bytes list) = .ok
      ([⟨"É", some (.ofType ⟨"Ü"⟩), []⟩, ⟨"F", none, [.ofVariable ⟨"É", owner⟩]⟩], bytes "(TF;[é") := by decide +kernel
  refine ⟨⟨enough, ?_⟩, ⟨first, (again list rfl owner (fun _ => none) _ _ first).1⟩, ?_, ?_⟩
  · rw [method, failed]
  · decide +kernel
  · decide +kernel

end AccentedParameters

end ClassAtlas.Signature
