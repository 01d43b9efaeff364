import Mathlib.Data.List.Basic
import Mathlib.Tactic.SplitIfs
import ClassAtlas.Signature.Parser

/-! # Bytes of texts

A text is read as characters and stored as bytes. The first byte of a character tells it from every character of the
grammar, and these are single bytes, of which no other character has one.
-/

namespace ClassAtlas.Signature

def bytes (s : String) : List UInt8 := s.toByteArray.data.toList

def encoded (s : List Char) : List UInt8 := s.flatMap String.utf8EncodeChar

theorem bytes_eq_encoded (s : String) : bytes s = encoded s.toList := by
  rw [bytes, ← String.utf8Encode_toList]
  simp [List.utf8Encode, encoded]

theorem bytes_injective {s t : String} (same : bytes s = bytes t) : s = t :=
  String.toByteArray_inj.mp (ByteArray.ext (Array.toList_inj.mp same))

theorem encoded_append (s t : List Char) : encoded (s ++ t) = encoded s ++ encoded t :=
  List.flatMap_append

theorem encoded_cons (c : Char) (s : List Char) : encoded (c :: s) = String.utf8EncodeChar c ++ encoded s :=
  List.flatMap_cons

theorem length_encoded (s : List Char) : (encoded s).length = byteLength s := by
  induction s with
  | nil => rfl
  | cons c s ih => rw [encoded_cons, List.length_append, String.length_utf8EncodeChar, ih, byteLength]

theorem position_eq {input : String} {s rest : List Char} (same : input.toList = s ++ rest) :
    position input rest = (encoded s).length := by
  rw [position, same, ← length_encoded, ← length_encoded, encoded_append, List.length_append,
    Nat.add_sub_cancel_right]

theorem fromUTF8?_encoded (s : List Char) : String.fromUTF8? (encoded s).toByteArray = some (String.ofList s) := by
  have same : (encoded s).toByteArray = (String.ofList s).toByteArray := by
    rw [← String.utf8Encode_toList, String.toList_ofList]
    rfl
  rw [same]
  exact dif_pos (String.ofList s).isValidUTF8

/-! ## First bytes -/

def leadNat (n : Nat) : Nat :=
  if n < 0x80 then n
  else if n < 0x800 then 0xC0 + n / 0x40
  else if n < 0x10000 then 0xE0 + n / 0x1000
  else 0xF0 + n / 0x40000

def lead (c : Char) : UInt8 := UInt8.ofNat (leadNat c.toNat)

theorem toNat_lt (c : Char) : c.toNat < 0x110000 := by
  rcases c.valid with less | ⟨-, less⟩
  · exact Nat.lt_trans less (by decide)
  · exact less

theorem toNat_lead (c : Char) : (lead c).toNat = leadNat c.toNat := by
  have bound := toNat_lt c
  have less : leadNat c.toNat < 256 := by
    unfold leadNat
    split_ifs <;> omega
  exact UInt8.toNat_ofNat_of_lt' less

theorem ofNat_lead (c : Char) : Char.ofNat (lead c).toNat = leadByte c := by
  rw [toNat_lead]
  unfold leadByte leadNat
  dsimp only
  split_ifs
  · exact Char.ofNat_toNat c
  all_goals rfl

theorem utf8EncodeChar_eq (c : Char) : ∃ tail, String.utf8EncodeChar c = lead c :: tail := by
  have bound := toNat_lt c
  unfold String.utf8EncodeChar lead leadNat
  generalize same : c.val.toNat = n
  have same : c.toNat = n := same
  rw [same] at bound ⊢
  dsimp only
  -- One case for each number of bytes.
  by_cases one : n ≤ 127
  · exact ⟨_, by rw [if_pos one, if_pos (show n < 0x80 by omega)]⟩
  rw [if_neg one, if_neg (show ¬ n < 0x80 by omega)]
  by_cases two : n ≤ 2047
  · have lead : n / 64 % 32 + 192 = 0xC0 + n / 0x40 := by omega
    exact ⟨_, by rw [if_pos two, if_pos (show n < 0x800 by omega), lead]⟩
  rw [if_neg two, if_neg (show ¬ n < 0x800 by omega)]
  by_cases three : n ≤ 65535
  · have lead : n / 4096 % 16 + 224 = 0xE0 + n / 0x1000 := by omega
    exact ⟨_, by rw [if_pos three, if_pos (show n < 0x10000 by omega), lead]⟩
  · have lead : n / 262144 % 8 + 240 = 0xF0 + n / 0x40000 := by omega
    exact ⟨_, by rw [if_neg three, if_neg (show ¬ n < 0x10000 by omega), lead]⟩

theorem encoded_eq_nil {s : List Char} : encoded s = [] ↔ s = [] := by
  cases s with
  | nil => exact iff_of_true rfl rfl
  | cons c s =>
    obtain ⟨tail, starts⟩ := utf8EncodeChar_eq c
    simp [encoded_cons, starts]

theorem length_le_encoded (s : List Char) : s.length ≤ (encoded s).length := by
  induction s with
  | nil => exact Nat.le_refl 0
  | cons c s ih =>
    obtain ⟨tail, starts⟩ := utf8EncodeChar_eq c
    rw [encoded_cons, starts, List.length_append, List.length_cons, List.length_cons]
    omega

theorem same_lead {c d : Char} (same : lead c = lead d) :
    leadByte c = leadByte d ∧ ∀ k : Char, k.toNat < 128 → (c = k ↔ d = k) := by
  refine ⟨by rw [← ofNat_lead, ← ofNat_lead, same], fun k small => ?_⟩
  have same := congrArg UInt8.toNat same
  rw [toNat_lead, toNat_lead] at same
  rw [← Char.toNat_inj, ← Char.toNat_inj]
  unfold leadNat at same
  split_ifs at same <;> omega

/-- No encoded text is read in two ways: what starts with the bytes of a text starts with the text. -/
theorem exists_of_encoded_append {s t : List Char} {more : List UInt8} (same : encoded s ++ more = encoded t) :
    ∃ rest, t = s ++ rest ∧ more = encoded rest := by
  induction s generalizing t with
  | nil => exact ⟨t, rfl, same⟩
  | cons c s ih =>
    rw [encoded_cons, List.append_assoc] at same
    cases t with
    | nil =>
      obtain ⟨tail, starts⟩ := utf8EncodeChar_eq c
      rw [starts] at same
      cases same
    | cons d t =>
      rw [encoded_cons] at same
      have decoded (c : Char) (l : List UInt8) :
          (String.utf8EncodeChar c ++ l).toByteArray.utf8DecodeChar? 0 = some c := by
        rw [List.toByteArray_append, ByteArray.utf8DecodeChar?_utf8EncodeChar_append]
      obtain rfl : c = d := by
        have first := decoded c (encoded s ++ more)
        rw [same, decoded d] at first
        exact (Option.some.inj first).symm
      obtain ⟨rest, rfl, rfl⟩ := ih (List.append_cancel_left same)
      exact ⟨rest, rfl, rfl⟩

/-! ## Keys -/

def byte (c : Char) : UInt8 := UInt8.ofNat c.toNat

theorem toNat_byte {k : Char} (small : k.toNat < 128) : (byte k).toNat = k.toNat :=
  UInt8.toNat_ofNat_of_lt' (Nat.lt_trans small (by decide))

theorem utf8EncodeChar_small {k : Char} (small : k.toNat < 128) : String.utf8EncodeChar k = [byte k] :=
  if_pos (Nat.le_of_lt_succ small)

theorem encoded_small {k : Char} (small : k.toNat < 128) (s : List Char) : encoded (k :: s) = byte k :: encoded s := by
  rw [encoded_cons, utf8EncodeChar_small small, List.singleton_append]

theorem le_toNat_of_mem {c : Char} (long : 128 ≤ c.toNat) {b : UInt8} (member : b ∈ String.utf8EncodeChar c) :
    128 ≤ b.toNat := by
  have bound := toNat_lt c
  unfold String.utf8EncodeChar at member
  change 128 ≤ c.val.toNat at long
  change c.val.toNat < _ at bound
  generalize c.val.toNat = n at member long bound
  dsimp only at member
  rw [if_neg (by omega)] at member
  split_ifs at member
  all_goals
    simp only [List.mem_cons, List.not_mem_nil, or_false] at member
    rcases member with rfl | rfl | rfl | rfl <;> rw [UInt8.toNat_ofNat'] <;> omega

theorem mem_keys {keys : List Char} (small : ∀ k ∈ keys, k.toNat < 128) {c : Char} {b : UInt8}
    (member : b ∈ String.utf8EncodeChar c) : (keys.map byte).contains b = true ↔ c ∈ keys := by
  rw [List.contains_iff_mem, List.mem_map]
  constructor
  · rintro ⟨k, key, rfl⟩
    have value := toNat_byte (small k key)
    by_cases short : c.toNat < 128
    · rw [utf8EncodeChar_small short, List.mem_singleton] at member
      rw [member, toNat_byte short] at value
      rwa [Char.toNat_inj.mp value]
    · have large := le_toNat_of_mem (Nat.le_of_not_lt short) member
      exact absurd (small k key) (by omega)
  · intro key
    rw [utf8EncodeChar_small (small c key), List.mem_singleton] at member
    exact ⟨c, key, member.symm⟩

end ClassAtlas.Signature
