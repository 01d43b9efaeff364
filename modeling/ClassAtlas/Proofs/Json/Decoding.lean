import ClassAtlas.Json.Decode

/-! # Decoding what was encoded

Encoders write the members of a record once each and in a fixed order, with a name for a tag. For such
records the decoders' rules come down to looking up a name.
-/

namespace ClassAtlas.Json

namespace Members

variable {α : Type} {name other : String} (v : Json) (ms : Members) (decode : Json → Option α)

@[simp] theorem required_self : required ((name, v) :: ms) name decode = decode v := by
  simp [required, find?]

@[simp] theorem required_other (different : other ≠ name) :
    required ((other, v) :: ms) name decode = required ms name decode := by
  simp [required, find?, different]

@[simp] theorem defaulted_self (value : α) : defaulted ((name, v) :: ms) name decode value = decode v := by
  simp [defaulted, find?]

@[simp] theorem defaulted_other (different : other ≠ name) (value : α) :
    defaulted ((other, v) :: ms) name decode value = defaulted ms name decode value := by
  simp [defaulted, find?, different]

@[simp] theorem optional_self : optional ((name, v) :: ms) name decode = option? decode v := by
  cases v <;> simp [optional, find?, option?]

@[simp] theorem optional_other (different : other ≠ name) :
    optional ((other, v) :: ms) name decode = optional ms name decode := by
  simp [optional, find?, different]

end Members

theorem tagged?_bind {α : Type} {tag : String} {ms : Members} (absent : ∀ m ∈ ms, m.1 ≠ tag)
    (spelling : Spelling) (name : String) (names : List String) (decode : String × Json → Option α) :
    (tagged? spelling tag names (.object ((tag, .string name) :: ms)) >>= decode) = decode (name, .object ms) := by
  have none : ms.filter (·.1 == tag) = [] := by simpa using absent
  have others : ms.filter (·.1 != tag) = ms := by simpa using absent
  simp [tagged?, tagName?, none, others]

theorem option?_option {α : Type} {encode : α → Json} {decode : Json → Option α} {o : Option α}
    (back : ∀ a ∈ o, decode (encode a) = some a) (notNull : ∀ a, encode a ≠ .null) :
    option? decode (option encode o) = some o := by
  cases o with
  | none => rfl
  | some a =>
    rw [option, option?, back a rfl, Option.map_some]
    exact notNull a

theorem list?_cons {α : Type} {decode : Json → Option α} {v : Json} {vs : List Json} {x : α} {xs : List α}
    (first : decode v = some x) (others : list? decode (.array vs) = some xs) :
    list? decode (.array (v :: vs)) = some (x :: xs) := by
  rw [list?] at others ⊢
  simp [first, others]

theorem list?_list {α : Type} {encode : α → Json} {decode : Json → Option α} {xs : List α}
    (back : ∀ a ∈ xs, decode (encode a) = some a) : list? decode (list encode xs) = some xs := by
  induction xs with
  | nil => rfl
  | cons a rest ih => exact list?_cons (back a (by simp)) (ih fun b member => back b (by simp [member]))

/-! ## Numbers of fixed width -/

theorem intBetween?_int {low high n : Int} (above : low ≤ n) (below : n ≤ high) :
    intBetween? low high (.int n) = some n := by
  rw [intBetween?, if_pos ⟨above, below⟩]

theorem int32?_toInt (n : Int32) : int32? (.int n.toInt) = some n := by
  rw [int32?, intBetween?_int n.minValue_le_toInt n.toInt_le, Option.map_some, Int32.ofInt_toInt]

theorem int64?_toInt (n : Int64) : int64? (.int n.toInt) = some n := by
  rw [int64?, intBetween?_int n.minValue_le_toInt n.toInt_le, Option.map_some, Int64.ofInt_toInt]

theorem uint32?_toNat (n : UInt32) : uint32? (.nat n.toNat) = some n := by
  have bound := n.toNat_lt
  rw [uint32?, nat, intBetween?_int (by omega) (by omega)]
  simp

end ClassAtlas.Json
