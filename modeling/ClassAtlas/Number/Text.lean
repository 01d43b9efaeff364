import ClassAtlas.Number.Shortest

/-! # Text of numbers

Labels and property texts show numbers positionally and never with an exponent. Documents keep a
decimal point in every floating-point number and move to an exponent outside a fixed range.
-/

namespace ClassAtlas

def digitChars (n : Nat) : List Char := Nat.toDigits 10 n

def integerText (n : Int) : String :=
  String.ofList (if n < 0 then '-' :: digitChars n.natAbs else digitChars n.natAbs)

def naturalText (n : Nat) : String := String.ofList (digitChars n)

namespace Decimal

/-- Digits with the point placed `point` digits from the left, padded with zeros on either side.
Whole values end in `whole`. -/
def positional (digits : List Char) (point : Int) (whole : List Char) : List Char :=
  if point ≤ 0 then '0' :: '.' :: List.replicate (-point).toNat '0' ++ digits
  else if (digits.length : Int) ≤ point then
    digits ++ List.replicate (point.toNat - digits.length) '0' ++ whole
  else digits.take point.toNat ++ '.' :: digits.drop point.toNat

def exponentChars (n : Int) : List Char :=
  (if n < 0 then '-' else '+') :: digitChars n.natAbs

def scientific (digits : List Char) (point : Int) : List Char :=
  let exponent := exponentChars (point - 1)
  match digits with
  | [] => []
  | [d] => d :: 'e' :: exponent
  | d :: rest => d :: '.' :: rest ++ 'e' :: exponent

end Decimal

/-- How a family of texts writes floating-point numbers. -/
structure NumberStyle where
  tie : HalfWay
  /-- What follows a whole value. -/
  whole : List Char
  /-- The positions of the point written without an exponent; `none` writes all of them so. -/
  positional : Option (Int × Int)

namespace NumberStyle

/-- Labels and property texts: always positional, whole values without a point. -/
def label : NumberStyle := ⟨.up, [], none⟩

def document64 : NumberStyle := ⟨.even, ['.', '0'], some (-4, 16)⟩

def document32 : NumberStyle := ⟨.even, ['.', '0'], some (-5, 13)⟩

def magnitude (s : NumberStyle) (f : BinaryFormat) (m : Nat) : List Char :=
  if m = 0 then '0' :: s.whole
  else
    let d := f.shortest s.tie m
    let digits := digitChars d.digits
    let point := (digits.length : Int) + d.exponent
    match s.positional with
    | none => Decimal.positional digits point s.whole
    | some (least, greatest) =>
      if least ≤ point && point ≤ greatest then Decimal.positional digits point s.whole
      else Decimal.scientific digits point

/-- The text of a word: a sign, then the magnitude or the name of what is not finite. -/
def text (s : NumberStyle) (f : BinaryFormat) (word : Nat) : String :=
  let m := f.magnitude word
  if f.infinity < m then "NaN"
  else
    let body := if m = f.infinity then ['i', 'n', 'f'] else s.magnitude f m
    String.ofList (if f.isNegative word then '-' :: body else body)

end NumberStyle

def Binary64.text (x : Binary64) : String := NumberStyle.label.text .double x.bits.toNat

def Binary32.text (x : Binary32) : String := NumberStyle.label.text .single x.bits.toNat

def Binary64.documentText (x : Binary64) : String := NumberStyle.document64.text .double x.bits.toNat

def Binary32.documentText (x : Binary32) : String := NumberStyle.document32.text .single x.bits.toNat

end ClassAtlas
