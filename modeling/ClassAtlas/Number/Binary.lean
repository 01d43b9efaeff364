/-! # Binary floating-point words

A format fixes how many bits of a word hold the fraction and how many the exponent. Every finite
word stands for `significand * 2 ^ exponent`, so all arithmetic here is exact arithmetic on natural
numbers followed by one rounding to the nearest word.
-/

namespace ClassAtlas

/-- The widths of the two fields below the sign bit. -/
structure BinaryFormat where
  fractionBits : Nat
  exponentBits : Nat
  deriving Repr, DecidableEq

namespace BinaryFormat

def single : BinaryFormat := ⟨23, 8⟩

def double : BinaryFormat := ⟨52, 11⟩

/-- Exponent field of infinities and of everything that is not a number. -/
def topField (f : BinaryFormat) : Nat := Nat.pow 2 f.exponentBits - 1

/-- Weight of the lowest fraction bit of the smallest words: they count units of `2 ^
leastExponent`. -/
def leastExponent (f : BinaryFormat) : Int :=
  2 - Nat.pow 2 (f.exponentBits - 1) - (f.fractionBits : Int)

def infinity (f : BinaryFormat) : Nat := f.topField * Nat.pow 2 f.fractionBits

def signBit (f : BinaryFormat) : Nat := Nat.pow 2 (f.fractionBits + f.exponentBits)

def magnitude (f : BinaryFormat) (word : Nat) : Nat := word % f.signBit

def isNegative (f : BinaryFormat) (word : Nat) : Bool := word / f.signBit % 2 == 1

def isFinite (f : BinaryFormat) (magnitude : Nat) : Bool := magnitude < f.infinity

/-- Significand and exponent of a finite magnitude. The smallest words have no hidden bit. -/
def parts (f : BinaryFormat) (magnitude : Nat) : Nat × Int :=
  let field := magnitude / Nat.pow 2 f.fractionBits
  let fraction := magnitude % Nat.pow 2 f.fractionBits
  if field = 0 then (fraction, f.leastExponent)
  else (fraction + Nat.pow 2 f.fractionBits, f.leastExponent + (field - 1 : Nat))

end BinaryFormat

/-- A non-negative rational number, kept as it was computed. -/
structure Ratio where
  num : Nat
  den : Nat
  deriving Repr, DecidableEq

namespace Ratio

def scaled (significand : Nat) : Int → Ratio
  | .ofNat e => ⟨significand * Nat.pow 2 e, 1⟩
  | .negSucc e => ⟨significand, Nat.pow 2 (e + 1)⟩

def mul (a b : Ratio) : Ratio := ⟨a.num * b.num, a.den * b.den⟩

def div (a b : Ratio) : Ratio := ⟨a.num * b.den, a.den * b.num⟩

/-- The nearest natural number; a half goes to the even neighbour. -/
def roundEven (r : Ratio) : Nat :=
  let whole := r.num / r.den
  let twice := 2 * (r.num % r.den)
  if twice < r.den then whole
  else if r.den < twice then whole + 1
  else whole + whole % 2

end Ratio

namespace BinaryFormat

def value (f : BinaryFormat) (magnitude : Nat) : Ratio :=
  let (significand, exponent) := f.parts magnitude
  Ratio.scaled significand exponent

/-- The magnitude nearest to `r`, with a half going to the even word and too large values to
infinity. Rounding up past the last fraction carries into the exponent field, which is the next
word. -/
def round (f : BinaryFormat) (r : Ratio) : Nat :=
  if r.num = 0 then 0
  else
    let guess : Int := (Nat.log2 r.num : Int) - Nat.log2 r.den - f.fractionBits
    let fits := (r.div (Ratio.scaled (Nat.pow 2 f.fractionBits) guess))
    let tight := if fits.num < fits.den then guess - 1 else guess
    let exponent := max tight f.leastExponent
    let significand := (r.div (Ratio.scaled 1 exponent)).roundEven
    min ((exponent - f.leastExponent).toNat * Nat.pow 2 f.fractionBits + significand) f.infinity

def word (f : BinaryFormat) (negative : Bool) (magnitude : Nat) : Nat :=
  if negative then f.signBit + magnitude else magnitude

def convert (f g : BinaryFormat) (word : Nat) : Nat :=
  let m := f.magnitude word
  let m' :=
    if f.isFinite m then g.round (f.value m)
    else if m = f.infinity then g.infinity
    else g.infinity + Nat.pow 2 (g.fractionBits - 1)
  g.word (f.isNegative word) m'

end BinaryFormat

/-- A 64-bit floating-point number, known by its word. -/
structure Binary64 where
  bits : UInt64
  deriving Repr, DecidableEq, Inhabited

/-- A 32-bit floating-point number, known by its word. -/
structure Binary32 where
  bits : UInt32
  deriving Repr, DecidableEq, Inhabited

namespace Binary64

def ofRatio (negative : Bool) (r : Ratio) : Binary64 :=
  ⟨(BinaryFormat.double.word negative (BinaryFormat.double.round r)).toUInt64⟩

def ofInt (n : Int) : Binary64 := ofRatio (n < 0) ⟨n.natAbs, 1⟩

def isFinite (x : Binary64) : Bool :=
  BinaryFormat.double.isFinite (BinaryFormat.double.magnitude x.bits.toNat)

end Binary64

namespace Binary32

def ofRatio (negative : Bool) (r : Ratio) : Binary32 :=
  ⟨(BinaryFormat.single.word negative (BinaryFormat.single.round r)).toUInt32⟩

def ofInt (n : Int) : Binary32 := ofRatio (n < 0) ⟨n.natAbs, 1⟩

/-- The nearest 32-bit number; values out of range become infinite. -/
def ofBinary64 (x : Binary64) : Binary32 :=
  ⟨(BinaryFormat.double.convert BinaryFormat.single x.bits.toNat).toUInt32⟩

def widen (x : Binary32) : Binary64 :=
  ⟨(BinaryFormat.single.convert BinaryFormat.double x.bits.toNat).toUInt64⟩

def isFinite (x : Binary32) : Bool :=
  BinaryFormat.single.isFinite (BinaryFormat.single.magnitude x.bits.toNat)

end Binary32

end ClassAtlas
