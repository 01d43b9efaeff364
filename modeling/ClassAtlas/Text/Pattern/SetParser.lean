import ClassAtlas.Text.CaseFolding
import ClassAtlas.Text.Pattern.Basic
import ClassAtlas.Text.SpaceChars

/-! # Reading escapes and bracketed sets

A backslash makes a character ordinary or gives it a meaning. Brackets hold the members of a set:
characters, ranges, escapes, named sets and sets in brackets. Between members, `&&`, `--` and `~~`
take the intersection, difference and symmetric difference of what stands left and right.
-/

namespace ClassAtlas.Text.Pattern

/-- Settings that apply from a point of a group to its end. -/
structure Flags where
  anyCase : Bool := false
  dotAll : Bool := false
  multiLine : Bool := false
  /-- Carriage returns end lines, too. -/
  carriage : Bool := false
  /-- Repetitions look for few first unless they are marked. -/
  fewFirst : Bool := false
  /-- White space and comments mean nothing. -/
  spaced : Bool := false
  /-- Sets and word edges know ASCII characters only. -/
  ascii : Bool := false
  deriving Repr, DecidableEq

namespace Flags

/-- Drop white space and comments where they mean nothing. A comment goes from a number sign to the
end of its line. -/
def skipBlanks (f : Flags) (cs : List Char) : List Char :=
  if f.spaced then skip false cs else cs
where
  /-- Skip on, in a comment or not. -/
  skip : Bool → List Char → List Char
    | _, [] => []
    | true, c :: rest => skip (c != '\n') rest
    | false, c :: rest =>
      if isSpaceChar c then skip false rest else if c = '#' then skip true rest else c :: rest

/-- The next character that means something after the first. -/
def peek? (f : Flags) (cs : List Char) : Option Char :=
  if f.spaced then
    match cs.tail.dropWhile isSpaceChar with
    | '#' :: rest => (rest.dropWhile isSpaceChar).head?
    | rest => rest.head?
  else cs.tail.head?

end Flags

inductive Escaped where
  | char (c : Char)
  | set (s : CharSet)
  | anchor (a : Anchor)

/-! ## Escapes -/

def hexDigit? (c : Char) : Option Nat :=
  if '0' ≤ c ∧ c ≤ '9' then some (c.toNat - '0'.toNat)
  else if 'a' ≤ c ∧ c ≤ 'f' then some (c.toNat - 'a'.toNat + 10)
  else if 'A' ≤ c ∧ c ≤ 'F' then some (c.toNat - 'A'.toNat + 10)
  else none

def hexChar? (digits : List Nat) : Option Char :=
  let n := digits.foldl (fun n d => 16 * n + d) 0
  if !digits.isEmpty && n.isValidChar then some (Char.ofNat n) else none

def hexDigits (f : Flags) : (width : Nat) → List Char → Option (List Nat × List Char)
  | 0, cs => some ([], cs)
  | _, [] => none
  | width + 1, c :: rest => do
      let d ← hexDigit? c
      let (ds, rest) ← hexDigits f width (f.skipBlanks rest)
      some (d :: ds, rest)

def hexBraced (f : Flags) : (fuel : Nat) → List Char → Option (List Nat × List Char)
  | 0, _ => none
  | _, [] => none
  | fuel + 1, c :: rest =>
    if c = '\x7d' then some ([], f.skipBlanks rest)
    else do
      let d ← hexDigit? c
      let (ds, rest) ← hexBraced f fuel (f.skipBlanks rest)
      some (d :: ds, rest)

/-- A hexadecimal escape after its letter: a fixed number of digits, or any number in braces. Two
digits write a byte, which is a character of its own only in ASCII where nothing else is known. -/
def hexEscape (f : Flags) (width : Nat) (cs : List Char) : Option (Escaped × List Char) :=
  match f.skipBlanks cs with
  | '\x7b' :: rest => do
      let (ds, rest) ← hexBraced f rest.length (f.skipBlanks rest)
      let c ← hexChar? ds
      some (.char c, rest)
  | cs => do
      let (ds, rest) ← hexDigits f width cs
      let c ← hexChar? ds
      if f.ascii && width == 2 && 128 ≤ c.toNat then none else some (.char c, rest)

/-- Characters that stand for themselves after a backslash: ASCII other than letters, digits and
angle brackets. -/
def isPlainEscape (c : Char) : Bool :=
  c.toNat < 128 && !c.isAlphanum && c != '<' && c != '>'

def edgeOfName? (name : String) : Option WordEdge :=
  match name with
  | "start" => some .first
  | "end" => some .last
  | "start-half" => some .notAfter
  | "end-half" => some .notBefore
  | _ => none

def edgeName (f : Flags) : (fuel : Nat) → List Char → Option (List Char × List Char)
  | 0, _ => none
  | _, [] => none
  | fuel + 1, c :: rest =>
    if c = '\x7d' then some ([], rest)
    else if c.isAlpha || c = '-' then
      (edgeName f fuel (f.skipBlanks rest)).map fun (name, r) => (c :: name, r)
    else none

/-- A word boundary after its letter, or the edge that is named in braces after it. Braces that do
not start with a name count repetitions. -/
def wordBoundary (f : Flags) (cs : List Char) : Option (Escaped × List Char) :=
  let plain : Option (Escaped × List Char) := some (.anchor (.word .boundary f.ascii), cs)
  match cs with
  | '\x7b' :: rest =>
    match f.skipBlanks rest with
    | [] => none
    | c :: rest =>
      if c.isAlpha || c = '-' then do
        let (name, rest) ← edgeName f (rest.length + 1) (c :: rest)
        let edge ← edgeOfName? (String.ofList name)
        some (.anchor (.word edge f.ascii), rest)
      else plain
  | _ => plain

def asciiSet : CharSet := ⟨[(0, 127)]⟩

/-- A set, or what it has of ASCII where nothing else is known. -/
def known (f : Flags) (s : CharSet) : CharSet := if f.ascii then s.inter asciiSet else s

/-- All other characters, which are too many where only ASCII is known. -/
def negated? (f : Flags) (s : CharSet) : Option CharSet := if f.ascii then none else some s.complement

def letterSet (f : Flags) (s : CharSet) (rest : List Char) : Option (Escaped × List Char) :=
  some (.set (known f s), rest)

def letterComplement (f : Flags) (s : CharSet) (rest : List Char) : Option (Escaped × List Char) :=
  (negated? f s).map fun s => (.set s, rest)

def escape (f : Flags) : List Char → Option (Escaped × List Char)
  | [] => none
  | 'd' :: rest => letterSet f digitSet rest
  | 'D' :: rest => letterComplement f digitSet rest
  | 'w' :: rest => letterSet f wordSet rest
  | 'W' :: rest => letterComplement f wordSet rest
  | 's' :: rest => letterSet f spaceSet rest
  | 'S' :: rest => letterComplement f spaceSet rest
  | 'a' :: rest => some (.char '\x07', rest)
  | 'f' :: rest => some (.char '\x0c', rest)
  | 't' :: rest => some (.char '\t', rest)
  | 'n' :: rest => some (.char '\n', rest)
  | 'r' :: rest => some (.char '\r', rest)
  | 'v' :: rest => some (.char '\x0b', rest)
  | 'A' :: rest => some (.anchor .textStart, rest)
  | 'z' :: rest => some (.anchor .textEnd, rest)
  | 'b' :: rest => wordBoundary f rest
  | 'B' :: rest => some (.anchor (.word .interior f.ascii), rest)
  | '<' :: rest => some (.anchor (.word .first f.ascii), rest)
  | '>' :: rest => some (.anchor (.word .last f.ascii), rest)
  | 'x' :: rest => hexEscape f 2 rest
  | 'u' :: rest => hexEscape f 4 rest
  | 'U' :: rest => hexEscape f 8 rest
  | c :: rest => if isPlainEscape c then some (.char c, rest) else none

/-! ## Members of sets -/

def namedSet? (name : String) : Option CharSet :=
  match name with
  | "alnum" => some ⟨[(48, 57), (65, 90), (97, 122)]⟩
  | "alpha" => some ⟨[(65, 90), (97, 122)]⟩
  | "ascii" => some asciiSet
  | "blank" => some ⟨[(9, 9), (32, 32)]⟩
  | "cntrl" => some ⟨[(0, 31), (127, 127)]⟩
  | "digit" => some ⟨[(48, 57)]⟩
  | "graph" => some ⟨[(33, 126)]⟩
  | "lower" => some ⟨[(97, 122)]⟩
  | "print" => some ⟨[(32, 126)]⟩
  | "punct" => some ⟨[(33, 47), (58, 64), (91, 96), (123, 126)]⟩
  | "space" => some ⟨[(9, 13), (32, 32)]⟩
  | "upper" => some ⟨[(65, 90)]⟩
  | "word" => some ⟨[(48, 57), (65, 90), (95, 95), (97, 122)]⟩
  | "xdigit" => some ⟨[(48, 57), (65, 70), (97, 102)]⟩
  | _ => none

def folded (f : Flags) (s : CharSet) : CharSet := if f.anyCase then known f s.anyCase else s

/-- A set as its brackets say: closed under case before it is negated. -/
def foldedSet? (f : Flags) (negated : Bool) (s : CharSet) : Option CharSet :=
  if negated then negated? f (folded f s) else some (folded f s)

/-- A named set after `[:`, up to `:]`: its name, whether it is negated, and what follows. -/
def namedMember? (cs : List Char) : Option (CharSet × Bool × List Char) :=
  let (negated, cs) := match cs with
    | '^' :: rest => (true, rest)
    | _ => (false, cs)
  match cs.dropWhile (· != ':') with
  | ':' :: ']' :: rest =>
    (namedSet? (String.ofList (cs.takeWhile (· != ':')))).map fun s => (s, negated, rest)
  | _ => none

/-- A character of a set, which has to be known. -/
def memberChar? (f : Flags) (c : Char) : Option Char :=
  if f.ascii && 128 ≤ c.toNat then none else some c

def setItem (f : Flags) : List Char → Option (Escaped × List Char)
  | [] => none
  | '\\' :: rest => escape f rest
  | c :: rest => some (.char c, rest)

/-- A member of a set, or a range of characters from one to another. A hyphen before the closing
bracket or before another hyphen makes no range. -/
def setRange (f : Flags) (cs : List Char) : Option (CharSet × List Char) := do
  let (first, rest) ← setItem f cs
  let rest := f.skipBlanks rest
  let alone : Option (CharSet × List Char) :=
    match first with
    | .char c => (memberChar? f c).map fun c => (.single c, rest)
    | .set s => some (s, rest)
    | .anchor _ => none
  match rest with
  | [] => none
  | '-' :: after =>
    if f.peek? rest = some ']' ∨ f.peek? rest = some '-' then alone
    else do
      let (last, rest) ← setItem f (f.skipBlanks after)
      match first, last with
      | .char a, .char b =>
        let a ← memberChar? f a
        let b ← memberChar? f b
        if a ≤ b then some (⟨[(a.toNat, b.toNat)]⟩, rest) else none
      | _, _ => none
  | _ => alone

/-! ## Bracketed sets -/

/-- A set and how deep brackets, unions and operators nest in it. -/
structure NestedSet where
  set : CharSet
  depth : Nat

structure SetMembers where
  ranges : List CharRange := []
  count : Nat := 0
  depth : Nat := 0

namespace SetMembers

def add (m : SetMembers) (s : CharSet) (depth : Nat) : SetMembers :=
  ⟨s.ranges ++ m.ranges, m.count + 1, max m.depth depth⟩

/-- The set of all members; several of them are one level deeper. -/
def union (m : SetMembers) : NestedSet :=
  ⟨.ofRanges m.ranges, if m.count < 2 then m.depth else m.depth + 1⟩

end SetMembers

inductive SetOperator where
  | intersection
  | difference
  | symmetricDifference

namespace SetOperator

def apply (a b : CharSet) : SetOperator → CharSet
  | .intersection => a.inter b
  | .difference => a.difference b
  | .symmetricDifference => a.symmetricDifference b

end SetOperator

def setOperator? : List Char → Option (SetOperator × List Char)
  | '&' :: '&' :: rest => some (.intersection, rest)
  | '-' :: '-' :: rest => some (.difference, rest)
  | '~' :: '~' :: rest => some (.symmetricDifference, rest)
  | _ => none

/-- The set that an operator makes of what stands left and right, both closed under case; without an
operator, what stands right. -/
def combine (f : Flags) (left : Option (NestedSet × SetOperator)) (right : NestedSet) : NestedSet :=
  match left with
  | none => right
  | some (s, op) => ⟨op.apply (folded f s.set) (folded f right.set), max s.depth right.depth + 1⟩

/-- Hyphens at the start of a set are members, as is a closing bracket that comes first. -/
def firstMembers (f : Flags) : (fuel : Nat) → SetMembers → List Char → SetMembers × List Char
  | 0, m, cs => (m, cs)
  | fuel + 1, m, cs =>
    match cs with
    | '-' :: rest => firstMembers f fuel (m.add (.single '-') 0) (f.skipBlanks rest)
    | ']' :: rest => if m.count = 0 then (m.add (.single ']') 0, f.skipBlanks rest) else (m, cs)
    | _ => (m, cs)

mutual
/-- A bracketed set after its opening bracket; `room` more levels may be opened. -/
def bracketed (f : Flags) : (fuel room : Nat) → List Char → Option (NestedSet × List Char)
  | fuel + 1, room + 1, cs => do
      let (negated, cs) := match f.skipBlanks cs with
        | '^' :: rest => (true, f.skipBlanks rest)
        | cs => (false, cs)
      let (m, cs) := firstMembers f cs.length {} cs
      let (s, rest) ← setBody f fuel room none m cs
      let set ← foldedSet? f negated s.set
      some (⟨set, s.depth + 1⟩, rest)
  | _, _, _ => none
def setBody (f : Flags) : (fuel room : Nat) → (left : Option (NestedSet × SetOperator)) →
    SetMembers → List Char → Option (NestedSet × List Char)
  | 0, _, _, _, _ => none
  | fuel + 1, room, left, m, cs =>
    let cs := f.skipBlanks cs
    match setOperator? cs with
    | some (op, rest) => setBody f fuel room (some (combine f left m.union, op)) {} rest
    | none =>
      match cs with
      | [] => none
      | ']' :: rest => some (combine f left m.union, rest)
      | '[' :: rest =>
        let named := match rest with
          | ':' :: after => namedMember? after
          | _ => none
        match named with
        | some (s, negated, rest) => do
            let s ← foldedSet? f negated s
            setBody f fuel room left (m.add s 0) rest
        | none => do
            let (s, rest) ← bracketed f fuel room rest
            setBody f fuel room left (m.add s.set s.depth) rest
      | _ => do
          let (s, rest) ← setRange f cs
          setBody f fuel room left (m.add s 0) rest
end

end ClassAtlas.Text.Pattern
