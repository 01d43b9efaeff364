import ClassAtlas.Number.Text
import ClassAtlas.Ordered

/-! # JSON values

The data format of every document. Members of an object keep their order and may repeat a name,
since a reader has to see the repetition to refuse it; `Json.canonical` gives the value of a
document whose objects are maps.
-/

namespace ClassAtlas

/-- A JSON value. Integers are told apart from floating-point numbers, and those by their width. -/
inductive Json where
  | null
  | bool (value : Bool)
  | int (value : Int)
  | double (value : Binary64)
  | single (value : Binary32)
  | string (value : String)
  | array (items : List Json)
  | object (members : List (String × Json))
  deriving Repr, BEq, Inhabited

namespace Json

/-- A 64-bit number, or null when it is not finite: documents have no word for those. -/
def ofBinary64 (x : Binary64) : Json := if x.isFinite then .double x else .null

def ofBinary32 (x : Binary32) : Json := if x.isFinite then .single x else .null

def nat (n : Nat) : Json := .int n

def option {α : Type} (encode : α → Json) : Option α → Json
  | none => .null
  | some a => encode a

def map {α : Type} (encode : α → Json) (entries : List (String × α)) : Json :=
  .object (entries.map fun e => (e.1, encode e.2))

def list {α : Type} (encode : α → Json) (xs : List α) : Json := .array (xs.map encode)

/-- The first member of that name, or null: also null for anything that is not an object. -/
def member (name : String) : Json → Json
  | .object ms => ((ms.find? (·.1 == name)).map (·.2)).getD .null
  | _ => .null

mutual
/-- Objects as maps: members sorted by name, the last value of a repeated name kept. -/
def canonical : Json → Json
  | .array xs => .array (canonicalItems xs)
  | .object ms => .object (Ordered.byName (canonicalMembers ms))
  | .null => .null
  | .bool b => .bool b
  | .int n => .int n
  | .double x => .double x
  | .single x => .single x
  | .string s => .string s
termination_by structural j => j
def canonicalItems : List Json → List Json
  | [] => []
  | x :: xs => x.canonical :: canonicalItems xs
termination_by structural xs => xs
def canonicalMembers : List (String × Json) → List (String × Json)
  | [] => []
  | (k, v) :: ms => (k, v.canonical) :: canonicalMembers ms
termination_by structural ms => ms
end

end Json

end ClassAtlas
