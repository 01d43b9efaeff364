import ClassAtlas.Text.CharSet

/-! # Characters as bytes

In UTF-8 a character takes one to four bytes. A range of characters is a list of byte sequences,
each with a range for every byte.
-/

namespace ClassAtlas.Text.Utf8

abbrev ByteSequence := List (Nat × Nat)

def encode (code : Nat) : List Nat :=
  let trailing := fun n => 0x80 + n % 64
  if code < 0x80 then [code]
  else if code < 0x800 then [0xC0 + code / 64, trailing code]
  else if code < 0x10000 then [0xE0 + code / 4096, trailing (code / 64), trailing code]
  else [0xF0 + code / 262144, trailing (code / 4096), trailing (code / 64), trailing code]

/-- The first code points that take one byte more than those before. -/
def widths : List Nat := [0x80, 0x800, 0x10000]

/-- The numbers of code points that share all bytes but the last one, two or three. -/
def blocks : List Nat := [64, 4096, 262144]

/-- Where a block begins or ends within a range that goes beyond the block. -/
def cut? (first last block : Nat) : Option Nat :=
  if first / block = last / block then none
  else if first % block ≠ 0 then some ((first / block + 1) * block)
  else if last % block ≠ block - 1 then some (last / block * block)
  else none

/-- The first code point of the second part when a range has to be split: where characters take more
bytes, and where a byte before the last changes. -/
def split? (first last : Nat) : Option Nat :=
  (widths.find? fun n => first < n && n ≤ last).or
    (if last < 0x80 then none else blocks.findSome? (cut? first last))

/-- The byte sequences of a range in at most `fuel` splits one within the other. -/
def sequencesOf : (fuel first last : Nat) → List ByteSequence
  | 0, _, _ => []
  | fuel + 1, first, last =>
    if last < first then []
    else
      match split? first last with
      | some middle => sequencesOf fuel first (middle - 1) ++ sequencesOf fuel middle last
      | none => [(encode first).zip (encode last)]

/-- The byte sequences of a range. It is split by surrogates, three times by the number of bytes and
twice for each byte before the last. -/
def sequences (r : CharRange) : List ByteSequence :=
  if r.1 ≤ surrogates.2 ∧ surrogates.1 ≤ r.2 then
    sequencesOf 16 r.1 (surrogates.1 - 1) ++ sequencesOf 16 (surrogates.2 + 1) r.2
  else sequencesOf 16 r.1 r.2

def setSequences (s : CharSet) : List ByteSequence := s.ranges.flatMap sequences

end ClassAtlas.Text.Utf8
