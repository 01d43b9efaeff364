import ClassAtlas.Json.Decode
import ClassAtlas.Proofs.Json.Lexing

/-! # Reading written values

A written value is read back when, and only when, it does not nest too deep. The reader takes two steps
of fuel at most for each token, so what it is given is always enough.
-/

namespace ClassAtlas.Json

variable {ms : List (String × Json)}

/-- A value and what follows it, if the value nests at most this deep. -/
def upTo {α : Type} (height depth : Nat) (value : α) (rest : List Token) : Option (α × List Token) :=
  if height ≤ depth then some (value, rest) else none

section Depths

variable {α β : Type} (f : α → β) {own height depth : Nat} (value : α) (rest : List Token)

theorem upTo_succ : upTo (height + 1) (depth + 1) (f value) rest =
    (upTo height depth value rest).map fun (a, r) => (f a, r) := by
  by_cases fits : height ≤ depth <;> simp [upTo, fits]

theorem upTo_max (fits : own ≤ depth) : upTo (max own height) depth (f value) rest =
    (upTo height depth value rest).map fun (a, r) => (f a, r) := by
  simp only [upTo, Nat.max_le, fits, true_and]
  split <;> rfl

theorem upTo_deep (deep : ¬own ≤ depth) : upTo (max own height) depth value rest = none :=
  if_neg fun fits => deep (Nat.max_le.mp fits).1

end Depths

def Token.opens : Token → Bool
  | .leftBrace | .leftBracket | .text _ | .number _ | .constant _ => true
  | .rightBrace | .rightBracket | .comma | .colon => false

theorem tokens_opens {v : Json} (exact : v.Exact) : ∃ t ts, v.tokens = t :: ts ∧ t.opens = true := by
  match v with
  | .null | .bool _ | .int _ | .string _ | .array [] | .object [] => exact ⟨_, _, rfl, rfl⟩
  | .array (_ :: _) => exact ⟨_, _, rfl, rfl⟩
  | .object ((_, _) :: _) => exact ⟨_, _, rfl, rfl⟩

section Equations

variable (ts : List Token) (fuel depth : Nat)

theorem readValue_bracket {t : Token} (opens : t.opens = true) :
    readValue (fuel + 1) (depth + 1) (.leftBracket :: t :: ts) =
      (readItems fuel depth (t :: ts)).map fun (xs, r) => (.array xs, r) := by
  cases t with
  | rightBrace | rightBracket | comma | colon => cases opens
  | leftBrace | leftBracket | text | number | constant =>
    rw [readValue]
    nofun

theorem readValue_brace (units : List TextUnit) :
    readValue (fuel + 1) (depth + 1) (.leftBrace :: .text units :: ts) =
      (readMembers fuel depth (.text units :: ts)).map fun (ms, r) => (.object ms, r) := by
  rw [readValue]
  nofun

theorem readValue_deepest : readValue (fuel + 1) 0 (.leftBracket :: ts) = none ∧
    readValue (fuel + 1) 0 (.leftBrace :: ts) = none := by
  constructor <;> rw [readValue] <;> nofun

end Equations

theorem itemTokens_length (xs : List Json) : 0 < (itemTokens xs).length := by
  cases xs <;> simp [itemTokens]

theorem memberTokens_length (ms : List (String × Json)) : 0 < (memberTokens ms).length := by
  cases ms <;> simp [memberTokens]

theorem tokens_array (x : Json) (xs : List Json) :
    (Json.array (x :: xs)).tokens = .leftBracket :: (x.tokens ++ itemTokens xs) := rfl

theorem tokens_object (k : String) (x : Json) (ms : List (String × Json)) :
    (Json.object ((k, x) :: ms)).tokens = .leftBrace :: textToken k :: .colon :: (x.tokens ++ memberTokens ms) :=
  rfl

theorem itemTokens_cons (x : Json) (xs : List Json) :
    itemTokens (x :: xs) = .comma :: (x.tokens ++ itemTokens xs) := rfl

theorem memberTokens_cons (k : String) (x : Json) (ms : List (String × Json)) :
    memberTokens ((k, x) :: ms) = .comma :: textToken k :: .colon :: (x.tokens ++ memberTokens ms) := rfl

/-- A value is read back from its tokens if it does not nest too deep. -/
def Reads (v : Json) : Prop :=
  ∀ (fuel depth : Nat) (rest : List Token), 2 * v.tokens.length ≤ fuel →
    readValue fuel depth (v.tokens ++ rest) = upTo v.height depth v rest

theorem readItems_tokens {xs : List Json} (reads : ∀ x ∈ xs, Reads x) {ts : List Token}
    (written : itemTokens xs = .comma :: ts) {fuel : Nat} (depth : Nat) (rest : List Token)
    (enough : 2 * ts.length ≤ fuel) :
    readItems fuel depth (ts ++ rest) = upTo (itemsHeight xs) depth xs rest := by
  induction xs generalizing ts fuel with
  | nil => cases written
  | cons x xs ih =>
    rw [itemTokens_cons, List.cons.injEq] at written
    obtain ⟨-, rfl⟩ := written
    have closed := itemTokens_length xs
    rw [List.length_append] at enough
    cases fuel with
    | zero => omega
    | succ fuel =>
      have first := reads x (by simp) fuel depth (itemTokens xs ++ rest) (by omega)
      rw [List.append_assoc, readItems, first, itemsHeight]
      by_cases fits : x.height ≤ depth
      · rw [upTo, if_pos fits]
        match xs with
        | [] => simp [itemTokens, itemsHeight, upTo, fits]
        | y :: ys =>
          have later := ih (fun x member => reads x (by simp [member])) (itemTokens_cons y ys)
            (by simp [itemTokens_cons] at enough ⊢; omega : _ ≤ fuel)
          rw [upTo_max _ _ _ fits, ← later]
          rfl
      · rw [upTo_deep _ _ fits, upTo, if_neg fits]

/-- A reader of members that reads the value of each of these names. -/
def ReadsMembers (read : (fuel depth : Nat) → List Token → Option (List (String × Json) × List Token))
    (names : List String) : Prop :=
  ∀ k ∈ names, ∀ fuel depth ts, read (fuel + 1) depth (textToken k :: .colon :: ts) =
    match readValue fuel depth ts with
    | some (x, .comma :: rest) => (read fuel depth rest).map fun (ms, r) => ((k, x) :: ms, r)
    | some (x, .rightBrace :: rest) => some ([(k, x)], rest)
    | _ => none

theorem readMembers_readsMembers (names : List String) : ReadsMembers readMembers names := by
  intro k _ fuel depth ts
  rw [textToken, readMembers, text?_units]
  generalize readValue fuel depth ts = outcome
  split <;> simp_all

theorem readKnown_readsMembers (names : List String) : ReadsMembers (readKnown names) names := by
  intro k known fuel depth ts
  have among : names.contains k = true := by simpa using known
  rw [textToken, readKnown, text?_units]
  exact if_pos among

theorem ReadsMembers.tokens {read} {names : List String} (step : ReadsMembers read names)
    (named : ∀ m ∈ ms, m.1 ∈ names) (reads : ∀ m ∈ ms, Reads m.2) {ts : List Token}
    (written : memberTokens ms = .comma :: ts) {fuel : Nat} (depth : Nat) (rest : List Token)
    (enough : 2 * ts.length ≤ fuel) : read fuel depth (ts ++ rest) = upTo (membersHeight ms) depth ms rest := by
  induction ms generalizing ts fuel with
  | nil => cases written
  | cons m ms ih =>
    obtain ⟨k, x⟩ := m
    rw [memberTokens_cons, List.cons.injEq] at written
    obtain ⟨-, rfl⟩ := written
    have closed := memberTokens_length ms
    simp only [List.length_cons, List.length_append] at enough
    cases fuel with
    | zero => omega
    | succ fuel =>
      have reads_x : Reads x := reads (k, x) (by simp)
      have first := reads_x fuel depth (memberTokens ms ++ rest) (by omega)
      rw [List.cons_append, List.cons_append, List.append_assoc, step k (named (k, x) (by simp)), first,
        membersHeight]
      by_cases fits : x.height ≤ depth
      · rw [upTo, if_pos fits]
        match ms with
        | [] => simp [memberTokens, membersHeight, upTo, fits]
        | (k', y) :: ys =>
          have later := ih (fun m member => named m (by simp [member]))
            (fun m member => reads m (by simp [member])) (memberTokens_cons k' y ys)
            (by simp [memberTokens_cons] at enough ⊢; omega : _ ≤ fuel)
          rw [upTo_max _ _ _ fits, ← later]
          rfl
      · rw [upTo_deep _ _ fits, upTo, if_neg fits]

theorem array_reads {x : Json} {xs : List Json} (exact : x.Exact) (reads : ∀ y ∈ x :: xs, Reads y) :
    Reads (.array (x :: xs)) := by
  intro fuel depth rest enough
  rw [tokens_array, List.cons_append] at *
  match fuel, depth with
  | 0, _ => simp at enough
  | fuel + 1, 0 =>
    rw [(readValue_deepest _ _).1]
    rfl
  | fuel + 1, depth + 1 =>
    have items := readItems_tokens reads (itemTokens_cons x xs) depth rest
      (by simp at enough ⊢; omega : _ ≤ fuel)
    obtain ⟨t, ts, first, opens⟩ := tokens_opens exact
    rw [first, List.cons_append, List.cons_append] at items ⊢
    rw [readValue_bracket _ _ _ opens, items]
    exact (upTo_succ _ _ _).symm

theorem object_reads {k : String} {x : Json} (reads : ∀ m ∈ (k, x) :: ms, Reads m.2) :
    Reads (.object ((k, x) :: ms)) := by
  intro fuel depth rest enough
  rw [tokens_object, List.cons_append] at *
  match fuel, depth with
  | 0, _ => simp at enough
  | fuel + 1, 0 =>
    rw [(readValue_deepest _ _).2]
    rfl
  | fuel + 1, depth + 1 =>
    have members := (readMembers_readsMembers (((k, x) :: ms).map (·.1))).tokens
      (fun m member => List.mem_map_of_mem member) reads (memberTokens_cons k x ms) depth rest
      (by simp at enough ⊢; omega : _ ≤ fuel)
    rw [textToken, List.cons_append] at members ⊢
    rw [readValue_brace, members]
    exact (upTo_succ _ _ _).symm

mutual
theorem exact_reads (v : Json) (exact : v.Exact) : Reads v := by
  match v with
  | .array [] | .object [] =>
    intro fuel depth rest enough
    match fuel, depth with
    | 0, _ => simp [tokens] at enough
    | fuel + 1, 0 => simp [tokens, readValue_deepest, upTo, height]
    | fuel + 1, depth + 1 => simp [tokens, readValue, upTo, height, itemsHeight, membersHeight]
  | .array (x :: xs) => exact array_reads exact.1 (exactItems_reads (x :: xs) exact)
  | .object ((k, x) :: ms) => exact object_reads (exactMembers_reads ((k, x) :: ms) exact)
  | .null | .bool _ | .int _ | .string _ =>
    intro fuel depth rest enough
    match fuel with
    | 0 => simp [tokens] at enough
    | fuel + 1 => simp_all [Exact, tokens, textToken, readValue, text?_units, value?_integerLiteral, upTo, height]
termination_by structural v

theorem exactItems_reads (xs : List Json) (exact : ExactItems xs) : ∀ x ∈ xs, Reads x := by
  match xs with
  | [] => simp
  | x :: xs => exact List.forall_mem_cons.mpr ⟨exact_reads x exact.1, exactItems_reads xs exact.2⟩
termination_by structural xs

theorem exactMembers_reads (ms : List (String × Json)) (exact : ExactMembers ms) :
    ∀ m ∈ ms, Reads m.2 := by
  match ms with
  | [] => simp
  | (k, x) :: ms => exact List.forall_mem_cons.mpr ⟨exact_reads x exact.1, exactMembers_reads ms exact.2⟩
termination_by structural ms
end

/-- A written record is read if it does not nest too deep, and not if it does. -/
theorem readRecord?_pretty {names : List String} {m : String × Json} (exact : (Json.object (m :: ms)).Exact)
    (known : ∀ n ∈ m :: ms, n.1 ∈ names) :
    readRecord? names (Json.object (m :: ms)).pretty =
      if (Json.object (m :: ms)).height ≤ greatestDepth then some (.object (m :: ms)) else none := by
  obtain ⟨k, x⟩ := m
  rw [readRecord?, tokenize_pretty exact, Option.bind_some, tokens_object, textToken, recordOfTokens?]
  have members := (readKnown_readsMembers names).tokens known (exactMembers_reads _ exact)
    (memberTokens_cons k x ms) (greatestDepth - 1) [] (Nat.le_succ _)
  rw [List.append_nil, textToken] at members
  simp only [readFuel, members]
  have depth : (Json.object ((k, x) :: ms)).height ≤ greatestDepth ↔
      membersHeight ((k, x) :: ms) ≤ greatestDepth - 1 := by
    rw [height, greatestDepth]
    omega
  by_cases fits : membersHeight ((k, x) :: ms) ≤ greatestDepth - 1 <;> simp [upTo, depth, fits]

end ClassAtlas.Json
