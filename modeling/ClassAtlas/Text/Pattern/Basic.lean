import ClassAtlas.Text.CharSet
import ClassAtlas.Text.WordChars

/-! # Patterns

A pattern describes texts, and a text matches when some part of it is described. Patterns are built
by functions that keep them simple: sequences and alternatives are flat, neighbouring literals are
one, alternatives between characters are one set, and what only describes the empty text is not
repeated.
-/

namespace ClassAtlas.Text

/-- A place at the edge of a word, or not at one. -/
inductive WordEdge where
  /-- Between a word and what is none, on either side. -/
  | boundary
  | interior
  | first
  | last
  | notAfter
  | notBefore
  deriving Repr, DecidableEq

inductive Anchor where
  | textStart
  | textEnd
  /-- At the start of a line; lines can also end in carriage returns. -/
  | lineStart (carriage : Bool)
  | lineEnd (carriage : Bool)
  /-- At the edge of a word, which can be restricted to ASCII. -/
  | word (edge : WordEdge) (ascii : Bool)
  deriving Repr, DecidableEq

inductive Pattern where
  | empty
  /-- These characters, of which there is at least one. -/
  | literal (chars : List Char)
  | one (set : CharSet)
  | anchor (a : Anchor)
  /-- At least `least` times and, if there is a limit, at most that often. Looking for few first
  makes no difference to what is described. -/
  | many (body : Pattern) (least : Nat) (limit : Option Nat) (fewFirst : Bool)
  | group (number : Nat) (body : Pattern)
  | sequence (items : List Pattern)
  | choice (items : List Pattern)
  deriving Repr, BEq

namespace WordEdge

/-- Whether the edge is where there is, or is not, a word character before and after. -/
def holds (before after : Bool) : WordEdge → Bool
  | .boundary => before != after
  | .interior => before == after
  | .first => !before && after
  | .last => before && !after
  | .notAfter => !before
  | .notBefore => !after

end WordEdge

namespace Anchor

/-- Whether a condition holds between two characters; the text starts or ends where there is none. -/
def holds (before after : Option Char) : Anchor → Bool
  | .textStart => before.isNone
  | .textEnd => after.isNone
  | .lineStart false => before.isNone || before == some '\n'
  | .lineEnd false => after.isNone || after == some '\n'
  | .lineStart true => before.isNone || before == some '\n' || (before == some '\r' && after != some '\n')
  | .lineEnd true => after.isNone || after == some '\r' || (after == some '\n' && before != some '\r')
  | .word edge ascii => edge.holds (before.any (inWord ascii)) (after.any (inWord ascii))
where
  inWord (ascii : Bool) (c : Char) : Bool := isWordChar c && (!ascii || c.toNat < 128)

end Anchor

namespace Pattern

/-! ## What patterns describe -/

mutual
/-- Whether only the empty text can be described. -/
def isHollow : Pattern → Bool
  | .empty => true
  | .literal _ => false
  | .one _ => false
  | .anchor _ => true
  | .many body _ limit _ => limit.isSome && body.isHollow
  | .group _ body => body.isHollow
  | .sequence items => allHollow items
  | .choice items => allHollow items
termination_by structural p => p
def allHollow : List Pattern → Bool
  | [] => true
  | p :: ps => p.isHollow && allHollow ps
termination_by structural ps => ps
end

mutual
/-- Whether something is described, unless anchors contradict each other. -/
def isPossible : Pattern → Bool
  | .one set => !set.ranges.isEmpty
  | .many body _ _ _ => body.isPossible
  | .group _ body => body.isPossible
  | .sequence items => allPossible items
  | .choice items => allPossible items
  | _ => true
termination_by structural p => p
def allPossible : List Pattern → Bool
  | [] => true
  | p :: ps => p.isPossible && allPossible ps
termination_by structural ps => ps
end

mutual
/-- Whether every text described has a character. -/
def isSolid : Pattern → Bool
  | .literal _ => true
  | .one set => !set.ranges.isEmpty
  | .many body least _ _ => 0 < least && body.isSolid
  | .group _ body => body.isSolid
  | .sequence items => allPossible items && anySolid items
  | .choice items => allSolid items
  | _ => false
termination_by structural p => p
def anySolid : List Pattern → Bool
  | [] => false
  | p :: ps => p.isSolid || anySolid ps
termination_by structural ps => ps
def allSolid : List Pattern → Bool
  | [] => true
  | p :: ps => p.isSolid && allSolid ps
termination_by structural ps => ps
end

/-! ## Building patterns -/

def ofSet (s : CharSet) : Pattern :=
  match s.ranges with
  | [(first, last)] => if first = last then .literal [Char.ofNat first] else .one s
  | _ => .one s

def times (body : Pattern) (least : Nat) (limit : Option Nat) (fewFirst : Bool) : Pattern :=
  let (least, limit) := if body.isHollow then (min least 1, some ((limit.map (min · 1)).getD 1))
    else (least, limit)
  if limit = some 0 then .empty
  else if least = 1 ∧ limit = some 1 then body
  else .many body least limit fewFirst

def parts : Pattern → List Pattern
  | .empty => []
  | .sequence items => items
  | p => [p]

def joinLiterals : List Pattern → List Pattern
  | [] => []
  | p :: ps =>
    match p, joinLiterals ps with
    | .literal a, .literal b :: rest => .literal (a ++ b) :: rest
    | p, rest => p :: rest

def join (items : List Pattern) : Pattern :=
  match joinLiterals (items.flatMap parts) with
  | [] => .empty
  | [p] => p
  | ps => .sequence ps

def branches : Pattern → List Pattern
  | .choice items => items
  | p => [p]

def singleChar? : Pattern → Option Char
  | .literal [c] => some c
  | _ => none

def set? : Pattern → Option CharSet
  | .one s => some s
  | _ => none

/-- The items of a sequence of at least two. -/
def items? : Pattern → Option (List Pattern)
  | .sequence items => some items
  | _ => none

def commonLength : List Pattern → List Pattern → Nat
  | p :: ps, q :: qs => if p == q then commonLength ps qs + 1 else 0
  | _, _ => 0

/-- The items that all sequences start with, at least one, and what follows them in each. -/
def commonStart? : List Pattern → Option (List Pattern × List (List Pattern))
  | [] => none
  | p :: ps => do
      let first ← p.items?
      let others ← ps.mapM items?
      let count := others.foldl (fun n items => min n (commonLength first items)) first.length
      if count = 0 then none
      else some (first.take count, (first :: others).map (List.drop count))

mutual
def nodeCount : Pattern → Nat
  | .many body _ _ _ => body.nodeCount + 1
  | .group _ body => body.nodeCount + 1
  | .sequence items => nodeCounts items + 1
  | .choice items => nodeCounts items + 1
  | _ => 1
termination_by structural p => p
def nodeCounts : List Pattern → Nat
  | [] => 0
  | p :: ps => p.nodeCount + nodeCounts ps
termination_by structural ps => ps
end

/-- Alternatives, with what all of them start with put in front. -/
def alternatives : (fuel : Nat) → List Pattern → Pattern
  | 0, ps => .choice ps
  | fuel + 1, ps =>
    match ps.flatMap branches with
    | [] => .one .empty
    | [p] => p
    | ps =>
      match ps.mapM singleChar?, ps.mapM set? with
      | some cs, _ => ofSet (.ofCodes (cs.map Char.toNat))
      | _, some sets => ofSet (.ofRanges (sets.flatMap (·.ranges)))
      | _, _ =>
        match commonStart? ps with
        | some (start, rests) => join (start ++ [alternatives fuel (rests.map join)])
        | none => .choice ps

/-- Either of several patterns. What is put in front leaves the alternatives, so their size is fuel
enough. -/
def oneOf (ps : List Pattern) : Pattern := alternatives (nodeCounts ps + 1) ps

end Pattern

end ClassAtlas.Text
