import ClassAtlas.Json.Basic

/-! # Numbers in JSON text

An integer literal in the 64-bit range is an integer; every other number is floating point. Its
digits are gathered into one 64-bit significand and a power of ten, digits beyond that precision
only count as places, and the value is one multiplication or division of two rounded 64-bit numbers.
The result can therefore differ from the nearest number in its last place.
-/

namespace ClassAtlas.Json

structure NumberLiteral where
  negative : Bool
  whole : List Char
  /-- Digits after the point, if there is a point. -/
  fraction : Option (List Char)
  /-- Sign and digits of the exponent, if there is one; `true` is a negative exponent. -/
  exponent : Option (Bool × List Char)
  deriving Repr, DecidableEq

def digitValue (c : Char) : Nat := c.toNat - '0'.toNat

/-- The value of a run of digits after the number `start`. -/
def digitsValue (start : Nat) (cs : List Char) : Nat :=
  cs.foldl (fun n c => 10 * n + digitValue c) start

def spanDigits (cs : List Char) : List Char × List Char :=
  (cs.takeWhile Char.isDigit, cs.dropWhile Char.isDigit)

/-- The whole part: a lone zero, or digits that do not start with zero. -/
def lexWhole : List Char → Option (List Char × List Char)
  | [] => none
  | c :: rest =>
    if c = '0' then some (['0'], rest)
    else if c.isDigit then
      let (ds, rest') := spanDigits rest
      some (c :: ds, rest')
    else none

/-- A point needs a digit after it. -/
def lexFraction : List Char → Option (Option (List Char) × List Char)
  | '.' :: rest =>
    match spanDigits rest with
    | ([], _) => none
    | (ds, rest') => some (some ds, rest')
  | cs => some (none, cs)

def lexExponentSign : List Char → Bool × List Char
  | '+' :: rest => (false, rest)
  | '-' :: rest => (true, rest)
  | cs => (false, cs)

/-- An exponent needs a digit after its optional sign. -/
def lexExponent (cs : List Char) : Option (Option (Bool × List Char) × List Char) :=
  match cs with
  | [] => some (none, [])
  | c :: rest =>
    if c = 'e' ∨ c = 'E' then
      let (sign, rest') := lexExponentSign rest
      match spanDigits rest' with
      | ([], _) => none
      | (ds, rest'') => some (some (sign, ds), rest'')
    else some (none, cs)

def lexNumber (cs : List Char) : Option (NumberLiteral × List Char) := do
  let (negative, cs) := match cs with
    | '-' :: rest => (true, rest)
    | _ => (false, cs)
  let (whole, cs) ← lexWhole cs
  let (fraction, cs) ← lexFraction cs
  let (exponent, cs) ← lexExponent cs
  return (⟨negative, whole, fraction, exponent⟩, cs)

def greatestSignificand : Nat := UInt64.size - 1

/-- Take digits into a significand while it stays in 64 bits. Gives the significand, how many digits
it took and how many it left. -/
def absorb (significand : Nat) : List Char → Nat × Nat × Nat
  | [] => (significand, 0, 0)
  | c :: cs =>
    let next := 10 * significand + digitValue c
    if next ≤ greatestSignificand then
      let (s, took, left) := absorb next cs
      (s, took + 1, left)
    else (significand, 0, cs.length + 1)

/-- The magnitude of `significand * 10 ^ exponent` in one or a few rounded steps; `none` when it is
out of range. Three divisions by the largest power of ten bring every significand to zero. -/
def scaleMagnitude : (fuel : Nat) → (magnitude : Nat) → (exponent : Int) → Option Nat
  | 0, _, _ => some 0
  | fuel + 1, m, exponent =>
    let f := BinaryFormat.double
    let power := fun k => f.value (f.round ⟨Nat.pow 10 k, 1⟩)
    if exponent.natAbs ≤ 308 then
      if 0 ≤ exponent then
        let product := f.round ((f.value m).mul (power exponent.natAbs))
        if f.isFinite product then some product else none
      else some (f.round ((f.value m).div (power exponent.natAbs)))
    else if m = 0 then some 0
    else if 0 ≤ exponent then none
    else scaleMagnitude fuel (f.round ((f.value m).div (power 308))) (exponent + 308)

/-- Largest exponent that is read as a number; a longer run of digits stands for infinity. -/
def greatestExponent : Nat := 2147483647

namespace NumberLiteral

/-- The floating-point value; `none` when it is out of range. -/
def floating? (n : NumberLiteral) : Option Binary64 :=
  let f := BinaryFormat.double
  let (wholePart, _, overflow) := absorb 0 n.whole
  let (significand, took, _) := absorb wholePart (n.fraction.getD [])
  let start : Int := (overflow : Int) - took
  let word := fun m => (⟨(f.word n.negative m).toUInt64⟩ : Binary64)
  match n.exponent with
  | none => (scaleMagnitude 4 (f.round ⟨significand, 1⟩) start).map word
  | some (sign, digits) =>
    let power := digitsValue 0 digits
    if greatestExponent < power then
      if significand ≠ 0 ∧ sign = false then none else some (word 0)
    else
      let exponent : Int := if sign then start - power else start + power
      (scaleMagnitude 4 (f.round ⟨significand, 1⟩) exponent).map word

/-- The JSON value of the literal: an integer if it is written as one and fits 64 bits, signed or
not. A negative zero is floating point. -/
def value? (n : NumberLiteral) : Option Json :=
  let whole := digitsValue 0 n.whole
  let isInteger := n.fraction.isNone && n.exponent.isNone &&
    (if n.negative then decide (0 < whole ∧ whole ≤ 9223372036854775808) else decide (whole ≤ greatestSignificand))
  if isInteger then some (.int (if n.negative then -(whole : Int) else whole))
  else n.floating?.map .double

end NumberLiteral

end ClassAtlas.Json
