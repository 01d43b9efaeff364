import ClassAtlas.Text.Pattern.Basic
import ClassAtlas.Text.Utf8
import Std.Data.HashMap

/-! # Footprints of patterns

A pattern is offered only if the automata over bytes that find its matches, forward and backward,
stay below a limit of memory. This module counts the states that such an automaton has and the
memory they take. Every state takes the same room; a state that forks takes more for each way out,
and a state for ranges of bytes takes more for each range.

States of a set of characters are shared where that is cheap: through a table of fixed size in which
a new entry takes the slot of an old one.
-/

namespace ClassAtlas.Text

/-- States of an automaton so far and the memory that they take beyond their fixed part. -/
structure Footprint where
  states : Nat := 0
  extra : Nat := 0

namespace Footprint

def stateSize : Nat := 32

def exitSize : Nat := 4

def rangeSize : Nat := 8

def limit : Nat := 10485760

def bytes (f : Footprint) : Nat := stateSize * f.states + f.extra

def isTooLarge (f : Footprint) : Bool := limit < f.bytes

def add (f : Footprint) (count : Nat) : Footprint := { f with states := f.states + count }

def addRanges (f : Footprint) (count : Nat) : Footprint :=
  ⟨f.states + 1, f.extra + rangeSize * count⟩

def addExits (f : Footprint) (count : Nat) : Footprint :=
  { f with extra := f.extra + exitSize * count }

/-- A way out of a state, which takes memory only if the state is a fork. -/
def link (f : Footprint) (fromFork : Bool) : Footprint := if fromFork then f.addExits 1 else f

/-! ## Sets of characters -/

/-- Where a range of bytes leads. -/
structure Transition where
  first : Nat
  last : Nat
  next : Nat
  deriving DecidableEq

def mix (h : UInt64) (n : Nat) : UInt64 := (h ^^^ n.toUInt64) * 1099511628211

def hashStart : UInt64 := 14695981039346656037

def slot (size : Nat) (numbers : List Nat) : Nat := (numbers.foldl mix hashStart).toNat % size

/-- The states of a set under construction, with the table of those that can be shared. -/
structure SetStates where
  footprint : Footprint
  table : Std.HashMap Nat (List Transition × Nat) := {}

namespace SetStates

def slots : Nat := 10000

/-- The state with these transitions, an old one if it is in its slot. -/
def state (s : SetStates) (ts : List Transition) : Nat × SetStates :=
  let k := slot slots (ts.flatMap fun t => [t.first, t.last, t.next])
  let fresh :=
    (s.footprint.states,
      ({ footprint := s.footprint.addRanges ts.length,
         table := s.table.insert k (ts, s.footprint.states) } : SetStates))
  match s.table[k]? with
  | some (ts', id) => if ts' = ts then (id, s) else fresh
  | none => fresh

end SetStates

/-- A state whose transitions are not all known: those that are, the latest first, and the range of
the one that leads further down. -/
structure OpenState where
  known : List Transition := []
  range : Option (Nat × Nat) := none

namespace OpenState

/-- The transition that was open leads to a state. -/
def close (o : OpenState) (next : Nat) : OpenState :=
  match o.range with
  | some (first, last) => ⟨⟨first, last, next⟩ :: o.known, none⟩
  | none => o

end OpenState

/-- Make states of the open ones, the deepest first, until `keep` are left above the last. -/
def settle (keep : Nat) : (next : Nat) → List OpenState → SetStates → List OpenState × SetStates
  | _, [], s => ([], s)
  | next, o :: rest, s =>
    if keep < rest.length then
      let (id, s) := s.state (o.close next).known.reverse
      settle keep id rest s
    else (o.close next :: rest, s)

/-- How many bytes of a sequence the open states share, from the first byte on. -/
def sharedLength : Utf8.ByteSequence → List OpenState → Nat
  | r :: rs, o :: os => if o.range = some r then sharedLength rs os + 1 else 0
  | _, _ => 0

/-- Open states for the rest of a sequence, below the deepest. -/
def descend : Utf8.ByteSequence → List OpenState → List OpenState
  | [], path => path
  | r :: rs, [] => rs.foldl (fun path r => { range := some r } :: path) [{ range := some r }]
  | r :: rs, o :: path =>
    rs.foldl (fun path r => { range := some r } :: path) ({ o with range := some r } :: path)

/-- Add a byte sequence to a set; `target` is where its last byte leads. -/
def addSequence (target : Nat) (path : List OpenState) (s : SetStates) (q : Utf8.ByteSequence) :
    List OpenState × SetStates :=
  let shared := sharedLength q path.reverse
  let (path, s) := settle shared target path s
  (descend (q.drop shared) path, s)

/-- The states of a set of characters that an automaton reads forward: common ends are shared. -/
def addSetForward (f : Footprint) (set : CharSet) : Footprint :=
  let target := f.states
  let (path, s) := (Utf8.setSequences set).foldl (fun (path, s) q => addSequence target path s q)
    ([({} : OpenState)], ({ footprint := f.add 1 } : SetStates))
  let (path, s) := settle 0 target path s
  match path with
  | [] => s.footprint
  | root :: _ => (s.state root.known.reverse).2.footprint

/-- Slots of the table of states by what they read and where they lead. -/
def backwardSlots : Nat := 1000

/-- A chain of states for one byte sequence, each leading to the one before. -/
def addChain (table : Std.HashMap Nat ((Nat × Nat × Nat) × Nat)) (f : Footprint) (next : Nat) :
    Utf8.ByteSequence → Std.HashMap Nat ((Nat × Nat × Nat) × Nat) × Footprint
  | [] => (table, f)
  | (first, last) :: rest =>
    let k := slot backwardSlots [next, first, last]
    let key := (next, first, last)
    let old := match table[k]? with
      | some (key', id) => if key' = key then some id else none
      | none => none
    match old with
    | some id => addChain table f id rest
    | none => addChain (table.insert k (key, f.states)) (f.add 1) f.states rest

/-- The states of a set of characters that an automaton reads backward: a fork between byte
sequences, which share their starts. -/
def addSetBackward (f : Footprint) (set : CharSet) : Footprint :=
  let target := f.states + 1
  ((Utf8.setSequences set).foldl
    (fun (table, f) q =>
      let (table, f) := addChain table f target q
      (table, f.addExits 1))
    (({} : Std.HashMap Nat ((Nat × Nat × Nat) × Nat)), f.add 2)).2

def addSet (backward : Bool) (f : Footprint) (set : CharSet) : Footprint :=
  if set.isAscii then (f.add 1).addRanges set.ranges.length
  else if backward then f.addSetBackward set
  else f.addSetForward set

/-! ## Literals -/

def literalBytes (backward : Bool) (chars : List Char) : List Nat :=
  let bytes := chars.flatMap fun c => Utf8.encode c.toNat
  if backward then bytes.reverse else bytes

/-- Words with the same first byte, without it, for every first byte in order of occurrence. -/
def byFirstByte (words : List (List Nat)) : List (List (List Nat)) :=
  (words.filterMap List.head?).eraseDups.map fun b =>
    words.filterMap fun w =>
      match w with
      | [] => none
      | c :: rest => if c = b then some rest else none

/-- Split words into runs of words that are not empty, which follow each other between empty ones.
An empty word ends a run, except at the start after another empty word. -/
def wordRuns (words : List (List Nat)) : List (List (List Nat)) :=
  let (runs, run) := words.foldl (fun (runs, run) w =>
    match w with
    | [] => if run.isEmpty && !runs.isEmpty && runs.all List.isEmpty then (runs, run) else (run :: runs, [])
    | w => (runs, w :: run)) (([] : List (List (List Nat))), ([] : List (List Nat)))
  ((run :: runs).map List.reverse).reverse

/-- The states of a tree of words: a fork at every place, and below it a state for the bytes that can
follow, once more after each word that ends there. -/
def addTree : (fuel : Nat) → List (List Nat) → Footprint → Footprint
  | 0, _, f => f
  | fuel + 1, words, f =>
    if words.all List.isEmpty then f
    else
      let runs := wordRuns words
      let f := runs.foldl (fun f run =>
        let groups := byFirstByte run
        let f := groups.foldl (fun f group => addTree fuel group f) f
        match groups.length with
        | 0 => f
        | 1 => f.add 1
        | n => f.addRanges n) f
      (f.add 1).addExits ((runs.filter fun run => !run.isEmpty).length + (runs.length - 1))

def addWords (f : Footprint) (words : List (List Nat)) : Footprint :=
  addTree (words.foldl (fun n w => max n w.length) 0 + 1) words (f.add 1)

/-! ## Patterns -/

def literal? : Pattern → Option (List Char)
  | .literal cs => some cs
  | _ => none

def repeated (step : Footprint × Bool → Footprint × Bool) : (count : Nat) → Footprint × Bool →
    Footprint × Bool
  | 0, s => s
  | count + 1, s => if s.1.isTooLarge then s else repeated step count (step s)

/-- A pattern exactly `count` times, one after the other; none is a state of its own. -/
def exactly (once : Footprint → Footprint × Bool) (count : Nat) (f : Footprint) : Footprint × Bool :=
  match count with
  | 0 => (f.add 1, false)
  | more + 1 => repeated (fun (f, fork) => once (f.link fork)) more (once f)

/-- A pattern repeated without limit. What always takes a character loops through one fork; what can
be empty is tried once before the loop. -/
def atLeast (once : Footprint → Footprint × Bool) (isSolid : Bool) (least : Nat) (f : Footprint) :
    Footprint × Bool :=
  match least with
  | 0 =>
    if isSolid then
      let (f, fork) := once (f.add 1)
      ((f.link fork).addExits 1, true)
    else
      let (f, fork) := once f
      (((f.link fork).add 3).addExits 4, false)
  | more + 1 =>
    let (f, fork) := match more with
      | 0 => once f
      | _ =>
        let (f, fork) := exactly once more f
        once (f.link fork)
    (((f.link fork).add 1).addExits 1, true)

/-- A pattern repeated between two bounds: every further time starts with a fork that can end it. -/
def between (once : Footprint → Footprint × Bool) (least limit : Nat) (f : Footprint) :
    Footprint × Bool :=
  if least = 0 ∧ limit = 1 then
    let (f, fork) := once (f.add 1)
    (((f.link fork).add 1).addExits 2, false)
  else if least = limit then exactly once least f
  else
    let (f, fork) := exactly once least f
    let (f, fork) := repeated (fun (f, fork) =>
      once (((f.link fork).add 1).addExits 2)) (limit - least) (f.add 1, fork)
    (f.link fork, false)

mutual
/-- Add the states of a pattern. Also tells whether its last state is a fork, which has one more way
out to what follows. -/
def grow (backward : Bool) : Pattern → Footprint → Footprint × Bool
  | .empty, f => (f.add 1, false)
  | .literal cs, f => (f.add (literalBytes backward cs).length, false)
  | .one set, f => if f.isTooLarge then (f, false) else (f.addSet backward set, false)
  | .anchor _, f => (f.add 1, false)
  | .group _ body, f =>
    if backward then grow backward body f
    else
      let (f, fork) := grow backward body (f.add 1)
      ((f.link fork).add 1, false)
  | .many body least (some limit) _, f => between (grow backward body) least limit f
  | .many body least none _, f => atLeast (grow backward body) body.isSolid least f
  | .sequence items, f => if backward then growBackward items f else growForward items f
  | .choice items, f =>
    match items.mapM literal? with
    | some words => (f.addWords (words.map (literalBytes backward)), false)
    | none => (growEach backward 0 items f, false)
termination_by structural p => p
def growForward : List Pattern → Footprint → Footprint × Bool
  | [], f => (f.add 1, false)
  | [p], f => grow false p f
  | p :: ps, f =>
    let (f, fork) := grow false p f
    growForward ps (f.link fork)
termination_by structural ps => ps
def growBackward : List Pattern → Footprint → Footprint × Bool
  | [], f => (f.add 1, false)
  | [p], f => grow true p f
  | p :: ps, f =>
    let (f, fork) := growBackward ps f
    grow true p (f.link fork)
termination_by structural ps => ps
/-- Add alternatives of which `count` are there. The fork before them and the state after them come
with the second. -/
def growEach (backward : Bool) (count : Nat) : List Pattern → Footprint → Footprint
  | [], f => f
  | p :: ps, f =>
    let (f, fork) := grow backward p f
    let f := (f.link fork).addExits 1
    growEach backward (count + 1) ps (if count = 1 then f.add 2 else f)
termination_by structural ps => ps
end

/-! ## Anchored patterns -/

mutual
/-- Whether a match can only start at the start of the text. -/
def startsText : Pattern → Bool
  | .anchor a => a = .textStart
  | .many body least _ _ => 0 < least && startsText body
  | .group _ body => startsText body
  | .sequence items => someStarts items
  | .choice items => allStart items
  | _ => false
termination_by structural p => p
/-- Whether a pattern of a sequence starts the text, with only empty matches before it. -/
def someStarts : List Pattern → Bool
  | [] => false
  | p :: ps => startsText p || (p.isHollow && someStarts ps)
termination_by structural ps => ps
def allStart : List Pattern → Bool
  | [] => true
  | p :: ps => startsText p && allStart ps
termination_by structural ps => ps
end

mutual
/-- Whether a match can only end at the end of the text. -/
def endsText : Pattern → Bool
  | .anchor a => a = .textEnd
  | .many body least _ _ => 0 < least && endsText body
  | .group _ body => endsText body
  | .sequence items => someEnds items
  | .choice items => allEnd items
  | _ => false
termination_by structural p => p
/-- Whether a pattern of a sequence ends the text, with only empty matches after it. -/
def someEnds : List Pattern → Bool
  | [] => false
  | p :: ps => someEnds ps || (endsText p && Pattern.allHollow ps)
termination_by structural ps => ps
def allEnd : List Pattern → Bool
  | [] => true
  | p :: ps => endsText p && allEnd ps
termination_by structural ps => ps
end

/-- The footprint of a pattern. A match that can start anywhere is looked for after a loop over
bytes, and the whole match is a group of its own. -/
def ofPattern (backward : Bool) (p : Pattern) : Footprint :=
  let isAnchored := if backward then endsText p else startsText p
  let start : Footprint := if isAnchored then { states := 1 } else (({} : Footprint).add 2).addRanges 1
  let start := if isAnchored then start else start.addExits 2
  let (f, fork) := grow backward (.group 0 p) start
  (f.link fork).add 1

/-- Whether a pattern stays below the limit in both directions. -/
def allows (p : Pattern) : Bool := !(ofPattern true p).isTooLarge && !(ofPattern false p).isTooLarge

end Footprint

end ClassAtlas.Text
