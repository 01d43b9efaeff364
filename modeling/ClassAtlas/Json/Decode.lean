import ClassAtlas.Json.Basic

/-! # Decoding typed values

A record is an object whose known members occur at most once; unknown members are ignored. It may
also be written as an array of its members in order, where only members with a default may be left
off the end. A choice between alternatives is written with a tag: beside the alternative's own
members, beside one content member, or as the bare name of an alternative without content.

The members of a tagged record are set aside until its tag is known. Values that were set aside are
read more freely: they may number alternatives in place of naming them.
-/

namespace ClassAtlas.Json

abbrev Members := List (String × Json)

mutual
/-- How deep arrays and objects nest. -/
def height : Json → Nat
  | .array xs => itemsHeight xs + 1
  | .object ms => membersHeight ms + 1
  | _ => 0
termination_by structural v => v
def itemsHeight : List Json → Nat
  | [] => 0
  | x :: xs => max x.height (itemsHeight xs)
termination_by structural xs => xs
def membersHeight : List (String × Json) → Nat
  | [] => 0
  | (_, x) :: ms => max x.height (membersHeight ms)
termination_by structural ms => ms
end

/-- Steps that suffice to decode a nested value: every step of a decoder goes down at least one
level. -/
def decodeFuel (v : Json) : Nat := v.height + 1

def occurrences (name : String) (ms : Members) : Nat := (ms.filter (·.1 == name)).length

/-- The members of a record with these names, of which an array must give at least the first
`least`. -/
def members? (names : List String) (least : Nat) : Json → Option Members
  | .object ms => if names.all (fun n => occurrences n ms ≤ 1) then some ms else none
  | .array xs => if least ≤ xs.length && xs.length ≤ names.length then some (names.zip xs) else none
  | _ => none

namespace Members

def find? (ms : Members) (name : String) : Option Json := (List.find? (·.1 == name) ms).map (·.2)

def required {α : Type} (ms : Members) (name : String) (decode : Json → Option α) : Option α :=
  (find? ms name).bind decode

def defaulted {α : Type} (ms : Members) (name : String) (decode : Json → Option α) (value : α) :
    Option α :=
  match find? ms name with
  | none => some value
  | some v => decode v

def optional {α : Type} (ms : Members) (name : String) (decode : Json → Option α) :
    Option (Option α) :=
  match find? ms name with
  | none => some none
  | some .null => some none
  | some v => (decode v).map some

end Members

def string? : Json → Option String
  | .string s => some s
  | _ => none

def bool? : Json → Option Bool
  | .bool b => some b
  | _ => none

def intBetween? (low high : Int) : Json → Option Int
  | .int n => if low ≤ n ∧ n ≤ high then some n else none
  | _ => none

def int32? (v : Json) : Option Int32 := 
  (intBetween? Int32.minValue.toInt Int32.maxValue.toInt v).map Int32.ofInt

def int64? (v : Json) : Option Int64 := 
  (intBetween? Int64.minValue.toInt Int64.maxValue.toInt v).map Int64.ofInt

def uint32? (v : Json) : Option UInt32 := 
  (intBetween? 0 4294967295 v).map fun n => n.toNat.toUInt32

def nat? (v : Json) : Option Nat := (intBetween? 0 18446744073709551615 v).map Int.toNat

/-- A 64-bit floating-point number; integers are rounded to one. -/
def binary64? : Json → Option Binary64
  | .int n => some (Binary64.ofInt n)
  | .double x => some x
  | .single x => some x.widen
  | _ => none

/-- A 32-bit floating-point number; integers and wider numbers are rounded to one. -/
def binary32? : Json → Option Binary32
  | .int n => some (Binary32.ofInt n)
  | .double x => some (Binary32.ofBinary64 x)
  | .single x => some x
  | _ => none

def char? : Json → Option Char
  | .string s => match s.toList with
    | [c] => some c
    | _ => none
  | _ => none

def list? {α : Type} (decode : Json → Option α) : Json → Option (List α)
  | .array xs => xs.mapM decode
  | _ => none

/-- An object as a map from names to values, sorted by name. -/
def map? {α : Type} (decode : Json → Option α) : Json → Option (List (String × α))
  | .object ms => (ms.mapM fun m => (decode m.2).map (m.1, ·)).map Ordered.byName
  | _ => none

def pair? {α β : Type} (first : Json → Option α) (second : Json → Option β) : Json → Option (α × β)
  | .array [a, b] => do
      let a ← first a
      let b ← second b
      return (a, b)
  | _ => none

def option? {α : Type} (decode : Json → Option α) : Json → Option (Option α)
  | .null => some none
  | v => (decode v).map some

/-- What may stand in place of the usual spelling of an alternative. -/
structure Spelling where
  /-- The position of an alternative in place of its name as a tag. -/
  numbered : Bool := false
  /-- An empty object in place of null after the name of an alternative without content. -/
  hollow : Bool := false
  deriving Repr, DecidableEq, Inhabited

namespace Spelling

def plain : Spelling := {}

/-- Values that were set aside as part of a tagged record. -/
def setAside : Spelling := { numbered := true, hollow := true }

/-- Values that were kept to be read in one of two ways. -/
def kept : Spelling := { numbered := true }

end Spelling

/-- The name of an alternative without content: bare, or as the only member of an object with null.
-/
def name? (spelling : Spelling) : Json → Option String
  | .string s => some s
  | .object [(s, .null)] => some s
  | .object [(s, .object [])] => if spelling.hollow then some s else none
  | _ => none

def choice? {α : Type} (spelling : Spelling) (names : List (String × α)) (v : Json) : Option α :=
  (name? spelling v).bind fun s => (names.find? (·.1 == s)).map (·.2)

/-- The tag of a record, one of these names or its position among them. -/
def tagName? (spelling : Spelling) (names : List String) : Json → Option String
  | .string s => some s
  | .int n => if spelling.numbered && 0 ≤ n then names[n.toNat]? else none
  | _ => none

def tagged? (spelling : Spelling) (tag : String) (names : List String) : Json → Option (String × Json)
  | .object ms => match ms.filter (·.1 == tag) with
    | [(_, t)] => (tagName? spelling names t).map (·, .object (ms.filter (·.1 != tag)))
    | _ => none
  | .array (t :: rest) => (tagName? spelling names t).map (·, .array rest)
  | _ => none

/-- An alternative that has no members beside its tag. -/
def bare? {α : Type} (value : α) : Json → Option α
  | .object _ => some value
  | .array [] => some value
  | _ => none

/-- Split a record into its tag and its content. In an object the tag is an alternative without
content; only in an array it can be numbered. -/
def labelled? (spelling : Spelling) (tag content : String) (names : List String) :
    Json → Option (String × Json)
  | .object ms => match ms.filter (·.1 == tag), ms.filter (·.1 == content) with
    | [(_, t)], [(_, v)] => (name? spelling t).map (·, v)
    | _, _ => none
  | .array [t, v] => (tagName? spelling names t).map (·, v)
  | _ => none

/-- The only member of an object: an alternative named by its key. -/
def keyed? : Json → Option (String × Json)
  | .object [m] => some m
  | _ => none

end ClassAtlas.Json
