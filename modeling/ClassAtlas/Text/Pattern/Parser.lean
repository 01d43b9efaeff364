import ClassAtlas.Text.NumberChars
import ClassAtlas.Text.Pattern.SetParser

/-! # Reading patterns

The written form: literal characters, `.`, anchors, alternation, groups, bracketed sets, escapes,
and repetition by `*`, `+`, `?` or counts. A question mark after a repetition asks for the shortest
match first and changes nothing about whether there is one. Groups, repetitions, sequences,
alternations and sets nest to a fixed depth.
-/

namespace ClassAtlas.Text.Pattern

/-! ## Repetition -/

def dropSpaces (cs : List Char) : List Char := cs.dropWhile isSpaceChar

def countDigits (f : Flags) : (fuel : Nat) → List Char → List Char × List Char
  | 0, cs => ([], cs)
  | _, [] => ([], [])
  | fuel + 1, c :: rest =>
    if c.isDigit then
      let (ds, rest) := countDigits f fuel (f.skipBlanks rest)
      (c :: ds, rest)
    else ([], c :: rest)

/-- A decimal count of at most 32 bits, with white space around it. -/
def count (f : Flags) (cs : List Char) : Option (Nat × List Char) :=
  let (ds, rest) := countDigits f cs.length (dropSpaces cs)
  let n := ds.foldl (fun n c => 10 * n + (c.toNat - '0'.toNat)) 0
  if ds.isEmpty || 4294967296 ≤ n then none else some (n, f.skipBlanks (dropSpaces rest))

/-- Counts after an opening brace: exactly, at least, or between two bounds in order. -/
def counts (f : Flags) (cs : List Char) : Option ((Nat × Option Nat) × List Char) := do
  let (least, rest) ← count f (f.skipBlanks cs)
  match rest with
  | '\x7d' :: rest => some ((least, some least), f.skipBlanks rest)
  | ',' :: rest =>
    match f.skipBlanks rest with
    | '\x7d' :: rest => some ((least, none), f.skipBlanks rest)
    | rest => do
        let (most, rest) ← count f rest
        match rest with
        | '\x7d' :: rest =>
          if least ≤ most then some ((least, some most), f.skipBlanks rest) else none
        | _ => none
  | _ => none

/-- A repetition sign and what follows it; `none` when the sign is malformed. -/
def repetition (f : Flags) : List Char → Option ((Nat × Option Nat) × List Char)
  | '*' :: rest => some ((0, none), rest)
  | '+' :: rest => some ((1, none), rest)
  | '?' :: rest => some ((0, some 1), rest)
  | '\x7b' :: rest => counts f rest
  | _ => none

def startsRepetition : List Char → Bool
  | '*' :: _ => true
  | '+' :: _ => true
  | '?' :: _ => true
  | '\x7b' :: _ => true
  | _ => false

/-- Whether a question mark asks for the shortest match, and what follows it. -/
def shortest : List Char → Bool × List Char
  | '?' :: rest => (true, rest)
  | cs => (false, cs)

/-! ## Groups -/

def setFlag (f : Flags) (on : Bool) (c : Char) : Option Flags :=
  match c with
  | 'i' => some { f with anyCase := on }
  | 's' => some { f with dotAll := on }
  | 'm' => some { f with multiLine := on }
  | 'U' => some { f with fewFirst := on }
  | 'u' => some { f with ascii := !on }
  | 'R' => some { f with carriage := on }
  | 'x' => some { f with spaced := on }
  | _ => none

/-- Flags up to a colon or closing parenthesis, which stays. A flag may occur once, and one minus
sign turns the flags after it off. -/
def flags (f : Flags) (on : Bool) (seen : List Char) : List Char → Option (Flags × List Char × List Char)
  | [] => none
  | ':' :: rest => if seen.head? = some '-' then none else some (f, seen, ':' :: rest)
  | ')' :: rest => if seen.head? = some '-' then none else some (f, seen, ')' :: rest)
  | '-' :: rest => if on then flags f false ('-' :: seen) rest else none
  | c :: rest =>
    if seen.contains c then none
    else match setFlag f on c with
      | none => none
      | some f => flags f on (c :: seen) rest

def isNameChar (first : Bool) (c : Char) : Bool :=
  c == '_' || isAlphabetic c || (!first && (isNumber c || c == '.' || c == '[' || c == ']'))

def groupName (cs : List Char) : Option (String × List Char) :=
  let name := cs.takeWhile (· != '>')
  match name, cs.dropWhile (· != '>') with
  | c :: more, _ :: rest =>
    if isNameChar true c && more.all (isNameChar false) then some (String.ofList name, rest) else none
  | _, _ => none

inductive GroupStart where
  /-- A numbered group, perhaps with a name. -/
  | numbered (name : Option String)
  /-- A group with these flags inside. -/
  | plain (f : Flags)
  /-- New flags for the rest of the enclosing group. -/
  | flags (f : Flags)

/-- What follows an opening parenthesis. Looking around is not offered. -/
def groupStart (f : Flags) : List Char → Option (GroupStart × List Char)
  | '?' :: '=' :: _ => none
  | '?' :: '!' :: _ => none
  | '?' :: '<' :: '=' :: _ => none
  | '?' :: '<' :: '!' :: _ => none
  | '?' :: 'P' :: '<' :: rest => (groupName rest).map fun (n, r) => (.numbered (some n), r)
  | '?' :: '<' :: rest => (groupName rest).map fun (n, r) => (.numbered (some n), r)
  | '?' :: rest => do
      let (inner, seen, rest) ← flags f true [] rest
      match rest with
      | ':' :: rest => some (.plain inner, rest)
      | ')' :: rest => if seen.isEmpty then none else some (.flags inner, rest)
      | _ => none
  | rest => some (.numbered none, rest)

/-! ## Patterns -/

def greatestNesting : Nat := 250

structure Item where
  pattern : Pattern
  /-- How deep groups, repetitions, sequences, alternations and sets nest. -/
  depth : Nat := 0
  /-- Flag settings are nothing to match and cannot be repeated. -/
  isSetting : Bool := false

namespace Item

/-- Items one after the other; several of them are one level deeper. -/
def sequence (items : List Item) : Item :=
  { pattern := join (items.map (·.pattern)), depth := nested items }
where
  nested (items : List Item) : Nat :=
    let depth := items.foldl (fun d i => max d i.depth) 0
    if items.length < 2 then depth else depth + 1

/-- Alternatives, of which several are one level deeper. -/
def choice (items : List Item) : Item :=
  { pattern := oneOf (items.map (·.pattern)), depth := sequence.nested items }

def deeper? (i : Item) (pattern : Pattern) : Option Item :=
  if i.depth < greatestNesting then some { pattern := pattern, depth := i.depth + 1 } else none

end Item

/-- A literal character under the flags. Where case means nothing the character has to be known. -/
def literalItem? (f : Flags) (c : Char) : Option Item :=
  if f.anyCase then (memberChar? f c).map fun c => { pattern := ofSet (folded f (.single c)) }
  else some { pattern := .literal [c] }

/-- Any character, by default except line breaks. There are too many where only ASCII is known. -/
def dotItem? (f : Flags) : Option Item :=
  let breaks : CharSet :=
    if f.dotAll then .empty else if f.carriage then .ofCodes [10, 13] else .single '\n'
  (negated? f breaks).map fun s => { pattern := .one s }

structure Progress where
  /-- Alternatives before the current one, the latest first. -/
  branches : List Item := []
  /-- Items of the current alternative, the latest first. -/
  items : List Item := []
  names : List String := []
  numbered : Nat := 0

namespace Progress

def add (p : Progress) (i : Item) : Progress := { p with items := i :: p.items }

def current (p : Progress) : Item := .sequence p.items.reverse

def finish (p : Progress) : Item := .choice (p.current :: p.branches).reverse

def branch (p : Progress) : Progress := { p with branches := p.current :: p.branches, items := [] }

def inside (p : Progress) : Progress := { p with branches := [], items := [] }

def leave (p inner : Progress) (i : Item) : Progress :=
  { inner with branches := p.branches, items := i :: p.items }

/-- Number a group, whose name must be new. -/
def number? (p : Progress) (name : Option String) : Option Progress :=
  if (name.map p.names.contains).getD false then none
  else some { p with names := name.toList ++ p.names, numbered := p.numbered + 1 }

end Progress

def escapeItem? (f : Flags) : Escaped → Option Item
  | .char c => literalItem? f c
  | .set s => some { pattern := ofSet s }
  | .anchor a => some { pattern := .anchor a }

/-- Read alternatives up to a closing parenthesis or the end; `room` more levels may be opened. -/
def body : (fuel room : Nat) → Flags → Progress → List Char → Option (Progress × List Char)
  | 0, _, _, _, _ => none
  | fuel + 1, room, f, p, cs =>
    let cs := f.skipBlanks cs
    if startsRepetition cs then
      match p.items, repetition f cs with
      | i :: before, some ((least, limit), rest) => do
          if i.isSetting then none
          let (few, rest) := shortest rest
          let i ← i.deeper? (i.pattern.times least limit (few != f.fewFirst))
          body fuel room f { p with items := i :: before } rest
      | _, _ => none
    else
      match cs with
      | [] => some (p, [])
      | ')' :: _ => some (p, cs)
      | '|' :: rest => body fuel room f p.branch rest
      | '(' :: rest => do
          let (start, rest) ← groupStart f (f.skipBlanks rest)
          match start, room with
          | .flags f, _ => body fuel room f (p.add { pattern := .empty, isSetting := true }) rest
          | _, 0 => none
          | .plain inside, room' + 1 => do
              let (inner, rest) ← body fuel room' inside p.inside rest
              let whole := inner.finish
              let i ← whole.deeper? whole.pattern
              match rest with
              | ')' :: rest => body fuel room f (p.leave inner i) rest
              | _ => none
          | .numbered name, room' + 1 => do
              let p' ← p.number? name
              let (inner, rest) ← body fuel room' f p'.inside rest
              let whole := inner.finish
              let i ← whole.deeper? (.group p'.numbered whole.pattern)
              match rest with
              | ')' :: rest => body fuel room f (p.leave inner i) rest
              | _ => none
      | '[' :: rest => do
          let (s, rest) ← bracketed f (2 * rest.length + 2) room rest
          body fuel room f (p.add { pattern := ofSet s.set, depth := s.depth }) rest
      | '.' :: rest => do body fuel room f (p.add (← dotItem? f)) rest
      | '^' :: rest =>
        let a : Anchor := if f.multiLine then .lineStart f.carriage else .textStart
        body fuel room f (p.add { pattern := .anchor a }) rest
      | '$' :: rest =>
        let a : Anchor := if f.multiLine then .lineEnd f.carriage else .textEnd
        body fuel room f (p.add { pattern := .anchor a }) rest
      | '\\' :: rest => do
          let (e, rest) ← escape f rest
          body fuel room f (p.add (← escapeItem? f e)) rest
      | c :: rest => do body fuel room f (p.add (← literalItem? f c)) rest

/-- Read a whole pattern. Every step takes a character. -/
def parse? (text : String) : Option Pattern :=
  match body (text.toList.length + 1) greatestNesting {} {} text.toList with
  | some (p, []) =>
    let whole := p.finish
    if whole.depth ≤ greatestNesting then some whole.pattern else none
  | _ => none

end ClassAtlas.Text.Pattern
