import ClassAtlas.Text.Pattern.Footprint
import ClassAtlas.Text.Pattern.Parser

/-! # Finding matches

A pattern becomes an automaton over characters, which is run on all places of a text at once: the
work at a place is bounded by the number of states, whatever the pattern.
-/

namespace ClassAtlas.Text

/-- What an automaton does in a state. States are numbered. -/
inductive Move where
  | accept
  | read (set : CharSet) (next : Nat)
  | check (a : Anchor) (next : Nat)
  | fork (first second : Nat)
  deriving Repr

structure Automaton where
  moves : Array Move
  start : Nat
  deriving Repr, Inhabited

namespace Automaton

/-! ## Construction

The states of a pattern are added so that they lead to a given state. Every function gives the state
to start from and all states. -/

def push (move : Move) (moves : Array Move) : Nat × Array Move := (moves.size, moves.push move)

/-- Add a loop of what `body` adds, which can be left to `next` after every round, and before the
first unless one is demanded. -/
def addLoop (body : Nat → Array Move → Nat × Array Move) (demanded : Bool) (next : Nat)
    (moves : Array Move) : Nat × Array Move :=
  let loop := moves.size
  let (start, moves) := body loop (moves.push (.fork next next))
  (if demanded then start else loop, moves.setIfInBounds loop (.fork start next))

/-- Add what `body` adds up to `count` times, each of which can be left to `next`. -/
def addOptional (body : Nat → Array Move → Nat × Array Move) (next count : Nat)
    (moves : Array Move) : Nat × Array Move :=
  Nat.repeat (fun (start, moves) =>
    let (inner, moves) := body start moves
    push (.fork inner next) moves) count (next, moves)

mutual
def add : Pattern → (next : Nat) → Array Move → Nat × Array Move
  | .empty, next, moves => (next, moves)
  | .literal cs, next, moves =>
    cs.foldr (fun c (next, moves) => push (.read (.single c) next) moves) (next, moves)
  | .one set, next, moves => push (.read set next) moves
  | .anchor a, next, moves => push (.check a next) moves
  | .many body least limit _, next, moves =>
    let again := fun (s : Nat × Array Move) => add body s.1 s.2
    match limit with
    | none => Nat.repeat again (least - 1) (addLoop (add body) (0 < least) next moves)
    | some n => Nat.repeat again least (addOptional (add body) next (n - least) moves)
  | .group _ body, next, moves => add body next moves
  | .sequence items, next, moves => addSequence items next moves
  | .choice items, next, moves => addChoice items next moves
termination_by structural p => p
def addSequence : List Pattern → (next : Nat) → Array Move → Nat × Array Move
  | [], next, moves => (next, moves)
  | p :: ps, next, moves =>
    let (start, moves) := addSequence ps next moves
    add p start moves
termination_by structural ps => ps
def addChoice : List Pattern → (next : Nat) → Array Move → Nat × Array Move
  | [], next, moves => push (.read .empty next) moves
  | [p], next, moves => add p next moves
  | p :: ps, next, moves =>
    let (others, moves) := addChoice ps next moves
    let (start, moves) := add p next moves
    push (.fork start others) moves
termination_by structural ps => ps
end

/-- The automaton of a pattern. State 0 accepts. -/
def ofPattern (p : Pattern) : Automaton :=
  let (start, moves) := add p 0 #[.accept]
  ⟨moves, start⟩

/-- The automaton of a written pattern, if it can be read and is not too large. -/
def ofText? (text : String) : Option Automaton :=
  ((Pattern.parse? text).filter Footprint.allows).map ofPattern

/-! ## Runs -/

/-- States entered at a place of the text. -/
structure Entered where
  /-- For every state, the number of the place where it was entered last. -/
  stamps : Array Nat
  readers : List Nat := []
  accepted : Bool := false

/-- Enter states and those that they lead to without a character. `place` is the number of the
place, which starts from 1. A state is entered once and leads to two others at most. -/
def enter (a : Automaton) (holds : Anchor → Bool) (place : Nat) :
    (fuel : Nat) → (pending : List Nat) → Entered → Entered
  | 0, _, e => e
  | _ + 1, [], e => e
  | fuel + 1, s :: pending, e =>
    if e.stamps[s]? = some place then enter a holds place fuel pending e
    else
      let ⟨stamps, readers, accepted⟩ := e
      let stamps := stamps.setIfInBounds s place
      match a.moves[s]? with
      | some .accept => ⟨stamps, readers, true⟩
      | some (.read _ _) => enter a holds place fuel pending ⟨stamps, s :: readers, accepted⟩
      | some (.check condition next) =>
        enter a holds place fuel (if holds condition then next :: pending else pending)
          ⟨stamps, readers, accepted⟩
      | some (.fork first second) =>
        enter a holds place fuel (first :: second :: pending) ⟨stamps, readers, accepted⟩
      | none => enter a holds place fuel pending ⟨stamps, readers, accepted⟩

def step (a : Automaton) (c : Char) (states : List Nat) : List Nat :=
  states.filterMap fun (s : Nat) =>
    match a.moves[s]? with
    | some (.read set next) => if set.contains c then some next else none
    | _ => none

/-- Enter the pending states and the start at a place between two characters. -/
def arrive (a : Automaton) (before after : Option Char) (place : Nat) (pending : List Nat)
    (stamps : Array Nat) : Entered :=
  a.enter (·.holds before after) place (2 * a.moves.size + pending.length + 2) (a.start :: pending)
    { stamps := stamps }

/-- Look for a match that starts at this place or later, or goes on from the pending states. -/
def find (a : Automaton) (before : Option Char) (place : Nat) (pending : List Nat)
    (stamps : Array Nat) : List Char → Bool
  | [] => (a.arrive before none place pending stamps).accepted
  | c :: rest =>
    let e := a.arrive before (some c) place pending stamps
    e.accepted || find a (some c) (place + 1) (a.step c e.readers) e.stamps rest

def isMatch (a : Automaton) (text : String) : Bool :=
  a.find none 1 [] (Array.replicate a.moves.size 0) text.toList

end Automaton

end ClassAtlas.Text
