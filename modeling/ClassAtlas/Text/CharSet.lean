/-! # Sets of characters

A set is kept as the ranges of its code points, ascending and apart from each other, so that sets
with the same characters are equal.
-/

namespace ClassAtlas.Text

/-- The code points from the first number to the second, both included. -/
abbrev CharRange := Nat × Nat

def inRanges : List CharRange → Nat → Bool
  | [], _ => false
  | r :: rest, n => !(n < r.1) && (n ≤ r.2 || inRanges rest n)

/-- Unite ranges that overlap or touch. The ranges come in order of their first code points. -/
def joinRanges : List CharRange → List CharRange
  | [] => []
  | [r] => [r]
  | r :: q :: rest =>
    if q.1 ≤ r.2 + 1 then joinRanges ((r.1, max r.2 q.2) :: rest) else r :: joinRanges (q :: rest)
termination_by ranges => ranges.length

def greatestCode : Nat := 0x10FFFF

/-- The halves of surrogate pairs are no characters. -/
def surrogates : CharRange := (0xD800, 0xDFFF)

/-- The code points from `next` on that lie in none of the ranges. -/
def gaps (next : Nat) : List CharRange → List CharRange
  | [] => if next ≤ greatestCode then [(next, greatestCode)] else []
  | r :: rest => if next < r.1 then (next, r.1 - 1) :: gaps (r.2 + 1) rest else gaps (r.2 + 1) rest

structure CharSet where
  ranges : List CharRange
  deriving Repr, DecidableEq, Inhabited

namespace CharSet

def ofRanges (ranges : List CharRange) : CharSet :=
  ⟨joinRanges (ranges.mergeSort fun a b => a.1 ≤ b.1)⟩

def ofCodes (codes : List Nat) : CharSet := ofRanges (codes.map fun n => (n, n))

def empty : CharSet := ⟨[]⟩

def single (c : Char) : CharSet := ⟨[(c.toNat, c.toNat)]⟩

def has (s : CharSet) (code : Nat) : Bool := inRanges s.ranges code

def contains (s : CharSet) (c : Char) : Bool := s.has c.toNat

def union (a b : CharSet) : CharSet := ofRanges (a.ranges ++ b.ranges)

def complement (s : CharSet) : CharSet := ⟨gaps 0 (ofRanges (surrogates :: s.ranges)).ranges⟩

def inter (a b : CharSet) : CharSet := (a.complement.union b.complement).complement

def difference (a b : CharSet) : CharSet := a.inter b.complement

def symmetricDifference (a b : CharSet) : CharSet := (a.difference b).union (b.difference a)

def isAscii (s : CharSet) : Bool := s.ranges.all fun r => r.2 < 128

end CharSet

end ClassAtlas.Text
