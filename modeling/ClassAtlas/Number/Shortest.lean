import ClassAtlas.Number.Binary

/-! # Shortest decimals

The shortest decimal of a floating-point word is the one with the fewest digits among those that
round back to the word; of two such decimals of one length, the one nearer to the exact value. An
exact tie is left to the text format that asks.
-/

namespace ClassAtlas

/-- `digits * 10 ^ exponent`. -/
structure Decimal where
  digits : Nat
  exponent : Int
  deriving Repr, DecidableEq

/-- Where a value exactly between two decimals of one length goes. -/
inductive HalfWay where
  /-- To the larger one. -/
  | up
  /-- To the one whose last digit is even. -/
  | even
  deriving Repr, DecidableEq

namespace Decimal

def trimmed : Nat → Decimal → Decimal
  | 0, d => d
  | fuel + 1, d =>
    if d.digits ≠ 0 ∧ d.digits % 10 = 0 then trimmed fuel ⟨d.digits / 10, d.exponent + 1⟩ else d

def ratio (n : Nat) : Int → Ratio
  | .ofNat e => ⟨n * Nat.pow 10 e, 1⟩
  | .negSucc e => ⟨n, Nat.pow 10 (e + 1)⟩

/-- Position of the leading digit: the `e` with `10 ^ e ≤ r < 10 ^ (e + 1)`, for positive `r`. -/
def leadingPosition (r : Ratio) : Int :=
  if r.den ≤ r.num then ((Nat.toDigits 10 (r.num / r.den)).length : Int) - 1
  else
    -- `k` digits of the quotient `den / num` leave the value at or below `10 ^ (1 - k)`.
    let k := (Nat.toDigits 10 (r.den / r.num)).length
    if r.den ≤ r.num * Nat.pow 10 (k - 1) then 1 - (k : Int) else -(k : Int)

end Decimal

namespace BinaryFormat

/-- The decimals that round to a magnitude lie between two bounds, given in units of a quarter of
the last place; the bounds themselves belong to it when the significand is even. -/
structure Cell where
  value : Ratio
  low : Ratio
  high : Ratio
  closed : Bool

/-- The cell of a finite magnitude. The gap below a power of two is half as wide, except at the
bottom of the range where the spacing no longer shrinks. -/
def cell (f : BinaryFormat) (magnitude : Nat) : Cell :=
  let (m, e) := f.parts magnitude
  let below := if m = Nat.pow 2 f.fractionBits ∧ f.leastExponent < e then 1 else 2
  { value := Ratio.scaled (4 * m) (e - 2)
    low := Ratio.scaled (4 * m - below) (e - 2)
    high := Ratio.scaled (4 * m + 2) (e - 2)
    closed := m % 2 = 0 }

def Cell.contains (c : Cell) (r : Ratio) : Bool :=
  let low := c.low.num * r.den
  let high := c.high.num * r.den
  let here := fun d => r.num * d
  if c.closed then low ≤ here c.low.den && here c.high.den ≤ high
  else low < here c.low.den && here c.high.den < high

/-- The best decimal with step `10 ^ exponent` in the cell, if one lies there. -/
def Cell.onGrid (c : Cell) (tie : HalfWay) (exponent : Int) : Option Nat :=
  let steps := c.value.div (Decimal.ratio 1 exponent)
  let down := steps.num / steps.den
  let twice := 2 * (steps.num % steps.den)
  let fits := fun n => c.contains (Decimal.ratio n exponent)
  let nearer :=
    if twice < steps.den then down
    else if steps.den < twice then down + 1
    else match tie with
      | .up => down + 1
      | .even => down + down % 2
  let farther := if nearer = down then down + 1 else down
  if fits nearer then some nearer
  else if fits farther then some farther
  else none

/-- Search the grids with `count` digits and more. -/
def Cell.search (c : Cell) (tie : HalfWay) (leading : Int) : (fuel count : Nat) → Decimal
  | 0, _ => ⟨0, 0⟩
  | fuel + 1, count =>
    let exponent := leading - (count : Int) + 1
    match c.onGrid tie exponent with
    | some n => Decimal.trimmed (count + 1) ⟨n, exponent⟩
    | none => search c tie leading fuel (count + 1)

/-- The shortest decimal of a finite magnitude. Seventeen digits always tell two words apart. -/
def shortest (f : BinaryFormat) (tie : HalfWay) (magnitude : Nat) : Decimal :=
  if magnitude = 0 then ⟨0, 0⟩
  else
    let c := f.cell magnitude
    c.search tie (Decimal.leadingPosition c.value) 17 1

end BinaryFormat

end ClassAtlas
