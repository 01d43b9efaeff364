import ClassAtlas.Json.Reader
import ClassAtlas.Json.Writer

/-! # The tokens of written values

Every value that has no floating-point number in it is written as a list of tokens with blanks between
them, and reading the text gives these tokens back, whatever the layout. A number only ends where no
digit, point or exponent follows.
-/

namespace ClassAtlas.Json

variable {rest : List Char}

/-! ## Strings -/

/-- A character as it is found in a written string. Control characters without an escape of their own
    are found by their codes. -/
def textUnit (c : Char) : TextUnit :=
  if c = '\x08' ∨ c = '\x0c' ∨ c = '\n' ∨ c = '\r' ∨ c = '\t' then .char c
  else if c.toNat < 0x20 then .escaped c.toNat
  else .char c

def textToken (s : String) : Token := .text (s.toList.map textUnit)

theorem hexQuad?_control : ∀ n < 0x20, hexQuad? '0' '0' (hexDigit (n / 16)) (hexDigit (n % 16)) = some n := by
  decide

theorem lexString_escapeChar (c : Char) (rest : List Char) :
    lexString (escapeChar c ++ rest) = (lexString rest).map fun (s, r) => (textUnit c :: s, r) := by
  unfold escapeChar
  -- The seven characters with an escape of one letter.
  iterate 7
    split
    · next same =>
        subst same
        rfl
  split
  · next control =>
      simp only [List.cons_append, List.nil_append, lexString, hexQuad?_control c.toNat control]
      simp [textUnit, *]
  · next notControl =>
      simp [lexString, textUnit, *]

theorem lexString_quote (cs rest : List Char) :
    lexString (cs.flatMap escapeChar ++ '\x22' :: rest) = some (cs.map textUnit, rest) := by
  induction cs with
  | nil => rfl
  | cons c cs ih =>
    rw [List.flatMap_cons, List.append_assoc, lexString_escapeChar, ih]
    rfl

theorem textChars?_control {n : Nat} (control : n < 0x20) (units : List TextUnit) :
    textChars? (.escaped n :: units) = (textChars? units).map (Char.ofNat n :: ·) := by
  have high : isHighSurrogate n = false := by simp [isHighSurrogate]; omega
  have low : isLowSurrogate n = false := by simp [isLowSurrogate]; omega
  match units with
  | [] => simp [textChars?, high, low]
  | .char c :: rest => simp [textChars?, high, low]
  | .escaped m :: rest => simp [textChars?, high, low]

theorem textChars?_textUnit (c : Char) (units : List TextUnit) :
    textChars? (textUnit c :: units) = (textChars? units).map (c :: ·) := by
  unfold textUnit
  split
  · rw [textChars?]
  · split
    · next control => rw [textChars?_control control, Char.ofNat_toNat]
    · rw [textChars?]

theorem textChars?_units (cs : List Char) : textChars? (cs.map textUnit) = some cs := by
  induction cs with
  | nil => rfl
  | cons c cs ih => rw [List.map_cons, textChars?_textUnit, ih, Option.map_some]

theorem text?_units (s : String) : text? (s.toList.map textUnit) = some s := by
  rw [text?, textChars?_units, Option.map_some, String.ofList_toList]

/-! ## Integers -/

def integerLiteral (n : Int) : NumberLiteral := ⟨decide (n < 0), digitChars n.natAbs, none, none⟩

/-- A number that ends here is not continued. -/
def Delimited (rest : List Char) : Prop :=
  ∀ c ∈ rest.head?, c.isDigit = false ∧ c ≠ '.' ∧ c ≠ 'e' ∧ c ≠ 'E'

theorem digitChars_isDigit {n : Nat} {c : Char} (member : c ∈ digitChars n) : c.isDigit = true :=
  Nat.isDigit_of_mem_toDigits (by omega) (by omega) member

theorem digitsValue_digitChars (n : Nat) : digitsValue 0 (digitChars n) = n := by
  rw [digitsValue, digitChars]
  exact Nat.ofDigitChars_eq_foldl.symm.trans Nat.ofDigitChars_ten_toDigits

theorem digitChars_cases (n : Nat) :
    digitChars n = ['0'] ∨ ∃ c ds, digitChars n = c :: ds ∧ c ≠ '0' := by
  unfold digitChars
  induction n using Nat.strongRecOn with
  | ind n ih =>
    rw [Nat.toDigits_eq_if (by omega)]
    split
    · by_cases zero : n = 0
      · subst zero
        exact .inl rfl
      · exact .inr ⟨_, _, rfl, fun same => zero (Nat.digitChar_eq_zero.mp same)⟩
    · next large =>
        obtain alone | ⟨c, ds, shape, nonzero⟩ := ih (n / 10) (by omega)
        · have positive : 0 < n / 10 := by omega
          have value := Nat.ofDigitChars_ten_toDigits (n := n / 10)
          rw [alone] at value
          have zero : Nat.ofDigitChars 10 ['0'] 0 = 0 := by decide
          omega
        · exact .inr ⟨c, ds ++ [(n % 10).digitChar], by rw [shape]; rfl, nonzero⟩

theorem spanDigits_append {ds rest : List Char} (digits : ∀ c ∈ ds, c.isDigit = true)
    (delimited : Delimited rest) : spanDigits (ds ++ rest) = (ds, rest) := by
  have stop : ∀ c ∈ rest.head?, c.isDigit = false := fun c member => (delimited c member).1
  have none : rest.takeWhile Char.isDigit = [] ∧ rest.dropWhile Char.isDigit = rest := by
    cases rest with
    | nil => exact ⟨rfl, rfl⟩
    | cons c cs => simp [stop c (by simp)]
  simp [spanDigits, List.takeWhile_append_of_pos digits, List.dropWhile_append_of_pos digits, none]

theorem lexWhole_digitChars (n : Nat) (delimited : Delimited rest) :
    lexWhole (digitChars n ++ rest) = some (digitChars n, rest) := by
  have digits : ∀ c ∈ digitChars n, c.isDigit = true := fun c => digitChars_isDigit
  obtain alone | ⟨c, ds, shape, nonzero⟩ := digitChars_cases n
  · rw [alone]
    rfl
  · rw [shape] at digits ⊢
    have span := spanDigits_append (fun d member => digits d (List.mem_cons_of_mem c member)) delimited
    simp [lexWhole, nonzero, digits c (by simp), span]

theorem lexFraction_delimited (delimited : Delimited rest) : lexFraction rest = some (none, rest) := by
  unfold lexFraction
  split
  · exact absurd rfl (delimited '.' rfl).2.1
  · rfl

theorem lexExponent_delimited (delimited : Delimited rest) : lexExponent rest = some (none, rest) := by
  cases rest with
  | nil => rfl
  | cons c cs =>
    obtain ⟨-, -, small, large⟩ := delimited c rfl
    simp [lexExponent, small, large]

theorem lexNumber_integerText (n : Int) (delimited : Delimited rest) :
    lexNumber ((integerText n).toList ++ rest) = some (integerLiteral n, rest) := by
  have whole := lexWhole_digitChars n.natAbs delimited
  have tail := And.intro (lexFraction_delimited delimited) (lexExponent_delimited delimited)
  unfold integerText integerLiteral
  by_cases negative : n < 0
  · simp [lexNumber, negative, whole, tail]
  · obtain ⟨c, ds, shape⟩ := List.exists_cons_of_ne_nil (Nat.toDigits_ne_nil (n := n.natAbs) (b := 10))
    have digit : c.isDigit = true := digitChars_isDigit (n := n.natAbs) (by rw [digitChars, shape]; simp)
    have unsigned : c ≠ '-' := by
      rintro rfl
      cases digit
    rw [digitChars, shape, List.cons_append] at whole
    simp [lexNumber, negative, digitChars, shape, unsigned, whole, tail]

theorem value?_integerLiteral {n : Int} (low : -9223372036854775808 ≤ n) (high : n ≤ 18446744073709551615) :
    (integerLiteral n).value? = some (.int n) := by
  have magnitude := digitsValue_digitChars n.natAbs
  have bound : greatestSignificand = 18446744073709551615 := rfl
  unfold NumberLiteral.value? integerLiteral
  simp only [magnitude]
  by_cases negative : n < 0
  · have small : 0 < n.natAbs ∧ n.natAbs ≤ 9223372036854775808 := by omega
    have back : -(n.natAbs : Int) = n := by omega
    simp only [negative, small, decide_true, Option.isNone_none, Bool.and_self, ↓reduceIte, and_self, back]
  · have small : n.natAbs ≤ greatestSignificand := by omega
    have back : (n.natAbs : Int) = n := by omega
    simp only [negative, small, decide_true, decide_false, Option.isNone_none, Bool.and_self, ↓reduceIte,
      Bool.false_eq_true, back]

/-! ## Texts and their tokens -/

/-- The text consists of these tokens; a character of fuel for each character is enough. -/
def Lexes (cs : List Char) (ts : List Token) : Prop := ∀ fuel, cs.length ≤ fuel → lexAll fuel cs = some ts

namespace Lexes

variable {c : Char} {cs rest : List Char} {t : Token} {ts : List Token}

theorem nil : Lexes [] [] := by
  intro fuel _
  cases fuel <;> rfl

theorem blank (lexes : Lexes rest ts) (isBlank : isBlank c = true) : Lexes (c :: rest) ts := by
  intro fuel enough
  cases fuel with
  | zero => cases enough
  | succ fuel =>
    rw [lexAll, if_pos isBlank]
    exact lexes fuel (Nat.le_of_succ_le_succ enough)

theorem token (lexes : Lexes rest ts) (notBlank : isBlank c = false) (lexed : lexToken c cs = some (t, rest))
    (shorter : rest.length ≤ cs.length) : Lexes (c :: cs) (t :: ts) := by
  intro fuel enough
  cases fuel with
  | zero => cases enough
  | succ fuel =>
    have first : lexAll fuel rest = some ts := lexes fuel (by simp at enough; omega)
    simp [lexAll, notBlank, lexed, first]

theorem newline (lexes : Lexes rest ts) (level : Nat) : Lexes (Json.newline level ++ rest) ts := by
  change Lexes ('\n' :: (List.replicate (2 * level) ' ' ++ rest)) ts
  refine blank ?_ rfl
  induction 2 * level with
  | zero => exact lexes
  | succ count ih => exact ih.blank rfl

theorem quote (lexes : Lexes rest ts) (s : String) : Lexes (Json.quote s ++ rest) (textToken s :: ts) := by
  have lexed := lexString_quote s.toList rest
  have text : Json.quote s ++ rest = '\x22' :: (s.toList.flatMap escapeChar ++ '\x22' :: rest) := by
    simp [Json.quote]
  rw [text]
  refine token lexes rfl ?_ (by simp; omega)
  rw [lexToken, lexed]
  rfl

end Lexes

/-- A character that starts a number. -/
def IsNumeric (c : Char) : Prop := c.isDigit = true ∨ c = '-'

theorem IsNumeric.ne {c d : Char} (numeric : IsNumeric c) (notDigit : d.isDigit = false) (notSign : d ≠ '-') :
    c ≠ d := by
  rintro rfl
  rcases numeric with digit | sign
  · rw [notDigit] at digit
    cases digit
  · exact notSign sign

theorem integerText_head (n : Int) : ∃ c cs, (integerText n).toList = c :: cs ∧ IsNumeric c := by
  unfold integerText
  by_cases negative : n < 0
  · exact ⟨'-', digitChars n.natAbs, by simp [negative], .inr rfl⟩
  · obtain ⟨c, cs, shape⟩ := List.exists_cons_of_ne_nil (Nat.toDigits_ne_nil (n := n.natAbs) (b := 10))
    refine ⟨c, cs, by simp [negative, digitChars, shape], .inl ?_⟩
    exact digitChars_isDigit (n := n.natAbs) (by rw [digitChars, shape]; simp)

theorem lexToken_number {c : Char} (numeric : IsNumeric c) (cs : List Char) :
    lexToken c cs = (lexNumber (c :: cs)).map fun (n, r) => (.number n, r) := by
  unfold lexToken
  split <;> first | rfl | exact absurd rfl (numeric.ne rfl (by decide))

theorem Lexes.integer {ts : List Token} (lexes : Lexes rest ts) (n : Int) (delimited : Delimited rest) :
    Lexes ((integerText n).toList ++ rest) (.number (integerLiteral n) :: ts) := by
  have lexed := lexNumber_integerText n delimited
  obtain ⟨c, cs, shape, numeric⟩ := integerText_head n
  rw [shape, List.cons_append] at lexed ⊢
  have notBlank : isBlank c = false := by
    simp [isBlank, numeric.ne (d := ' ') rfl (by decide), numeric.ne (d := '\n') rfl (by decide),
      numeric.ne (d := '\r') rfl (by decide), numeric.ne (d := '\t') rfl (by decide)]
  refine lexes.token notBlank ?_ (by simp)
  rw [lexToken_number numeric, lexed]
  rfl

/-! ## Values -/

mutual
/-- Values without floating-point numbers, whose integers have 64 bits. -/
def Exact : Json → Prop
  | .int n => -9223372036854775808 ≤ n ∧ n ≤ 18446744073709551615
  | .double _ | .single _ => False
  | .array xs => ExactItems xs
  | .object ms => ExactMembers ms
  | .null | .bool _ | .string _ => True
termination_by structural v => v
def ExactItems : List Json → Prop
  | [] => True
  | x :: xs => x.Exact ∧ ExactItems xs
termination_by structural xs => xs
def ExactMembers : List (String × Json) → Prop
  | [] => True
  | (_, x) :: ms => x.Exact ∧ ExactMembers ms
termination_by structural ms => ms
end

theorem exactItems_map {α : Type} {encode : α → Json} {xs : List α} (exact : ∀ a ∈ xs, (encode a).Exact) :
    ExactItems (xs.map encode) := by
  induction xs with
  | nil => trivial
  | cons a rest ih => exact ⟨exact a (by simp), ih fun b member => exact b (by simp [member])⟩

mutual
def tokens : Json → List Token
  | .null => [.constant .null]
  | .bool b => [.constant (.bool b)]
  | .int n => [.number (integerLiteral n)]
  | .double _ | .single _ => []
  | .string s => [textToken s]
  | .array [] => [.leftBracket, .rightBracket]
  | .array (x :: xs) => .leftBracket :: x.tokens ++ itemTokens xs
  | .object [] => [.leftBrace, .rightBrace]
  | .object ((k, x) :: ms) => .leftBrace :: textToken k :: .colon :: x.tokens ++ memberTokens ms
termination_by structural v => v
def itemTokens : List Json → List Token
  | [] => [.rightBracket]
  | x :: xs => .comma :: x.tokens ++ itemTokens xs
termination_by structural xs => xs
def memberTokens : List (String × Json) → List Token
  | [] => [.rightBrace]
  | (k, x) :: ms => .comma :: textToken k :: .colon :: x.tokens ++ memberTokens ms
termination_by structural ms => ms
end

theorem prettyItems_delimited (xs : List Json) (level : Nat) (rest : List Char) :
    Delimited (prettyItems xs level ++ rest) := by
  intro c first
  cases xs <;> cases first <;> decide

theorem prettyMembers_delimited (ms : List (String × Json)) (level : Nat) (rest : List Char) :
    Delimited (prettyMembers ms level ++ rest) := by
  intro c first
  cases ms <;> cases first <;> decide

mutual
/-- An indented value is read as its tokens, in front of anything that does not continue a number. -/
theorem prettyChars_lexes (v : Json) (exact : v.Exact) (level : Nat) {rest : List Char} {ts : List Token}
    (delimited : Delimited rest) (lexes : Lexes rest ts) :
    Lexes (v.prettyChars level ++ rest) (v.tokens ++ ts) := by
  match v with
  | .null => exact lexes.token rfl rfl (by simp; omega)
  | .bool true => exact lexes.token rfl rfl (by simp; omega)
  | .bool false => exact lexes.token rfl rfl (by simp; omega)
  | .int n => exact lexes.integer n delimited
  | .string s => exact lexes.quote s
  | .array [] => exact (lexes.token (c := ']') rfl rfl (by simp)).token rfl rfl (by simp)
  | .array (x :: xs) =>
    have items := prettyItems_lexes xs exact.2 level lexes
    have first := prettyChars_lexes x exact.1 (level + 1) (prettyItems_delimited xs level rest) items
    simpa [prettyChars, tokens] using (first.newline (level + 1)).token (c := '[') rfl rfl (by simp)
  | .object [] => exact (lexes.token (c := '\x7d') rfl rfl (by simp)).token rfl rfl (by simp)
  | .object ((k, x) :: ms) =>
    have others := prettyMembers_lexes ms exact.2 level lexes
    have first := prettyChars_lexes x exact.1 (level + 1) (prettyMembers_delimited ms level rest) others
    have named := ((first.blank (c := ' ') rfl).token (c := ':') rfl rfl (by simp)).quote k
    simpa [prettyChars, tokens] using (named.newline (level + 1)).token (c := '\x7b') rfl rfl (by simp)
termination_by structural v

theorem prettyItems_lexes (xs : List Json) (exact : ExactItems xs) (level : Nat) {rest : List Char}
    {ts : List Token} (lexes : Lexes rest ts) :
    Lexes (prettyItems xs level ++ rest) (itemTokens xs ++ ts) := by
  match xs with
  | [] =>
    simpa [prettyItems, itemTokens] using
      (lexes.token (c := ']') rfl rfl (by simp)).newline level
  | x :: xs =>
    have items := prettyItems_lexes xs exact.2 level lexes
    have first := prettyChars_lexes x exact.1 (level + 1) (prettyItems_delimited xs level rest) items
    simpa [prettyItems, itemTokens] using (first.newline (level + 1)).token (c := ',') rfl rfl (by simp)
termination_by structural xs

theorem prettyMembers_lexes (ms : List (String × Json)) (exact : ExactMembers ms) (level : Nat)
    {rest : List Char} {ts : List Token} (lexes : Lexes rest ts) :
    Lexes (prettyMembers ms level ++ rest) (memberTokens ms ++ ts) := by
  match ms with
  | [] =>
    simpa [prettyMembers, memberTokens] using
      (lexes.token (c := '\x7d') rfl rfl (by simp)).newline level
  | (k, x) :: ms =>
    have others := prettyMembers_lexes ms exact.2 level lexes
    have first := prettyChars_lexes x exact.1 (level + 1) (prettyMembers_delimited ms level rest) others
    have named := ((first.blank (c := ' ') rfl).token (c := ':') rfl rfl (by simp)).quote k
    simpa [prettyMembers, memberTokens] using (named.newline (level + 1)).token (c := ',') rfl rfl (by simp)
termination_by structural ms
end

theorem tokenize_pretty {v : Json} (exact : v.Exact) : tokenize v.pretty = some v.tokens := by
  have lexes : Lexes (v.prettyChars 0 ++ []) (v.tokens ++ []) :=
    prettyChars_lexes v exact 0 (by simp [Delimited]) .nil
  rw [List.append_nil, List.append_nil] at lexes
  rw [tokenize, pretty, String.toList_ofList]
  exact lexes _ (Nat.le_refl _)

end ClassAtlas.Json
