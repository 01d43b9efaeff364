import ClassAtlas.Json.Token

/-! # Reading JSON text

A document is one value with nothing after it. Arrays and objects nest to a fixed depth. A record can
also be read for some of its members only: the others must be well formed, and nothing else is asked
of them.
-/

namespace ClassAtlas.Json

/-- Arrays and objects nest at most this deep. -/
def greatestDepth : Nat := 127

mutual
/-- Read a value; `depth` more levels may be opened. -/
def readValue : (fuel depth : Nat) → List Token → Option (Json × List Token)
  | 0, _, _ => none
  | _ + 1, _, .constant v :: rest => some (v, rest)
  | _ + 1, _, .text units :: rest => (text? units).map fun s => (.string s, rest)
  | _ + 1, _, .number n :: rest => n.value?.map fun v => (v, rest)
  | _ + 1, _ + 1, .leftBracket :: .rightBracket :: rest => some (.array [], rest)
  | fuel + 1, depth + 1, .leftBracket :: rest =>
    (readItems fuel depth rest).map fun (xs, r) => (.array xs, r)
  | _ + 1, _ + 1, .leftBrace :: .rightBrace :: rest => some (.object [], rest)
  | fuel + 1, depth + 1, .leftBrace :: rest =>
    (readMembers fuel depth rest).map fun (ms, r) => (.object ms, r)
  | _, _, _ => none
/-- Read one or more items up to the closing bracket. -/
def readItems : (fuel depth : Nat) → List Token → Option (List Json × List Token)
  | 0, _, _ => none
  | fuel + 1, depth, ts =>
    match readValue fuel depth ts with
    | some (x, .comma :: rest) => (readItems fuel depth rest).map fun (xs, r) => (x :: xs, r)
    | some (x, .rightBracket :: rest) => some ([x], rest)
    | _ => none
/-- Read one or more members up to the closing brace. -/
def readMembers : (fuel depth : Nat) → List Token → Option (List (String × Json) × List Token)
  | fuel + 1, depth, .text units :: .colon :: ts =>
    match text? units, readValue fuel depth ts with
    | some k, some (x, .comma :: rest) =>
      (readMembers fuel depth rest).map fun (ms, r) => ((k, x) :: ms, r)
    | some k, some (x, .rightBrace :: rest) => some ([(k, x)], rest)
    | _, _ => none
  | _, _, _ => none
end

/-- Steps that suffice to read these tokens: a level takes two for each of its tokens at most. -/
def readFuel (ts : List Token) : Nat := 2 * ts.length + 1

def ofTokens? (ts : List Token) : Option Json :=
  match readValue (readFuel ts) greatestDepth ts with
  | some (v, []) => some v
  | _ => none

def read? (s : String) : Option Json := (tokenize s).bind ofTokens?

/-! ## Records read in part -/

/-- What encloses a value that is skipped. -/
inductive Enclosure where
  | bracket
  | brace

/-- Skip one value, however deep, and give what follows it. `enclosures` are still to be closed,
the innermost first; `done` tells whether a value has just ended. -/
def skip : (enclosures : List Enclosure) → (done : Bool) → List Token → Option (List Token)
  | [], true, ts => some ts
  | up, false, .constant _ :: rest => skip up true rest
  | up, false, .text _ :: rest => skip up true rest
  | up, false, .number _ :: rest => skip up true rest
  | up, false, .leftBracket :: .rightBracket :: rest => skip up true rest
  | up, false, .leftBracket :: rest => skip (.bracket :: up) false rest
  | up, false, .leftBrace :: .rightBrace :: rest => skip up true rest
  | up, false, .leftBrace :: .text _ :: .colon :: rest => skip (.brace :: up) false rest
  | .bracket :: up, true, .comma :: rest => skip (.bracket :: up) false rest
  | .bracket :: up, true, .rightBracket :: rest => skip up true rest
  | .brace :: up, true, .comma :: .text _ :: .colon :: rest => skip (.brace :: up) false rest
  | .brace :: up, true, .rightBrace :: rest => skip up true rest
  | _, _, _ => none
termination_by structural _ _ ts => ts

/-- Read one or more members up to the closing brace and keep those with one of the names. -/
def readKnown (names : List String) :
    (fuel depth : Nat) → List Token → Option (List (String × Json) × List Token)
  | fuel + 1, depth, .text units :: .colon :: ts => do
      let k ← text? units
      if names.contains k then
        match readValue fuel depth ts with
        | some (x, .comma :: rest) =>
          (readKnown names fuel depth rest).map fun (ms, r) => ((k, x) :: ms, r)
        | some (x, .rightBrace :: rest) => some ([(k, x)], rest)
        | _ => none
      else
        match skip [] false ts with
        | some (.comma :: rest) => readKnown names fuel depth rest
        | some (.rightBrace :: rest) => some ([], rest)
        | _ => none
  | _, _, _ => none

/-- Read a whole document that is a record with these members. Members with other names are dropped. -/
def recordOfTokens? (names : List String) : List Token → Option Json
  | .leftBrace :: .text units :: rest =>
    let ts := .text units :: rest
    match readKnown names (readFuel ts) (greatestDepth - 1) ts with
    | some (ms, []) => some (.object ms)
    | _ => none
  | ts => ofTokens? ts

def readRecord? (names : List String) (s : String) : Option Json :=
  (tokenize s).bind (recordOfTokens? names)

end ClassAtlas.Json
