import ClassAtlas.Json.Number

/-! # Tokens of JSON text

Blanks separate tokens and mean nothing else. A token is what the text says, well formed but not yet
valued: a string can hold half a surrogate pair and a number can be out of range, and whoever skips
over them need not know.
-/

namespace ClassAtlas.Json

/-- A part of a string: a character, or a code unit written as a hexadecimal escape. -/
inductive TextUnit where
  | char (c : Char)
  | escaped (code : Nat)
  deriving Repr, DecidableEq

inductive Token where
  | leftBrace
  | rightBrace
  | leftBracket
  | rightBracket
  | comma
  | colon
  | text (units : List TextUnit)
  | number (literal : NumberLiteral)
  | constant (value : Json)
  deriving Repr, BEq

def isBlank (c : Char) : Bool := c == ' ' || c == '\n' || c == '\r' || c == '\t'

def hexValue? (c : Char) : Option Nat :=
  if '0' ≤ c ∧ c ≤ '9' then some (c.toNat - '0'.toNat)
  else if 'a' ≤ c ∧ c ≤ 'f' then some (c.toNat - 'a'.toNat + 10)
  else if 'A' ≤ c ∧ c ≤ 'F' then some (c.toNat - 'A'.toNat + 10)
  else none

def hexQuad? (a b c d : Char) : Option Nat := do
  let a ← hexValue? a
  let b ← hexValue? b
  let c ← hexValue? c
  let d ← hexValue? d
  return ((a * 16 + b) * 16 + c) * 16 + d

def isHighSurrogate (n : Nat) : Bool := 0xD800 ≤ n && n < 0xDC00

def isLowSurrogate (n : Nat) : Bool := 0xDC00 ≤ n && n < 0xE000

def simpleEscape? (c : Char) : Option Char :=
  if c = '\x22' then some '\x22'
  else if c = '\\' then some '\\'
  else if c = '/' then some '/'
  else if c = 'b' then some '\x08'
  else if c = 'f' then some '\x0c'
  else if c = 'n' then some '\n'
  else if c = 'r' then some '\r'
  else if c = 't' then some '\t'
  else none

/-- The units of a string after its opening quote, and what follows its closing quote. Control
characters must be escaped. -/
def lexString : List Char → Option (List TextUnit × List Char)
  | [] => none
  | '\\' :: 'u' :: a :: b :: c :: d :: rest =>
    match hexQuad? a b c d with
    | none => none
    | some n => (lexString rest).map fun (s, r) => (.escaped n :: s, r)
  | '\\' :: c :: rest =>
    match simpleEscape? c with
    | none => none
    | some e => (lexString rest).map fun (s, r) => (.char e :: s, r)
  | c :: rest =>
    if c = '\x22' then some ([], rest)
    else if c.toNat < 0x20 ∨ c = '\\' then none
    else (lexString rest).map fun (s, r) => (.char c :: s, r)
termination_by structural cs => cs

/-- The characters of a string. The two halves of a surrogate pair are escaped one after the other
and make one character; a half alone has no meaning. -/
def textChars? : List TextUnit → Option (List Char)
  | [] => some []
  | .char c :: rest => (textChars? rest).map (c :: ·)
  | .escaped high :: .escaped low :: rest =>
    if isHighSurrogate high then
      if isLowSurrogate low then
        (textChars? rest).map
          (Char.ofNat (0x10000 + (high - 0xD800) * 0x400 + (low - 0xDC00)) :: ·)
      else none
    else if isLowSurrogate high then none
    else (textChars? (.escaped low :: rest)).map (Char.ofNat high :: ·)
  | .escaped n :: rest =>
    if isHighSurrogate n || isLowSurrogate n then none
    else (textChars? rest).map (Char.ofNat n :: ·)

def text? (units : List TextUnit) : Option String := (textChars? units).map String.ofList

def lexToken (c : Char) (rest : List Char) : Option (Token × List Char) :=
  match c, rest with
  | '\x7b', _ => some (.leftBrace, rest)
  | '\x7d', _ => some (.rightBrace, rest)
  | '[', _ => some (.leftBracket, rest)
  | ']', _ => some (.rightBracket, rest)
  | ',', _ => some (.comma, rest)
  | ':', _ => some (.colon, rest)
  | '\x22', _ => (lexString rest).map fun (s, r) => (.text s, r)
  | 'n', 'u' :: 'l' :: 'l' :: r => some (.constant .null, r)
  | 't', 'r' :: 'u' :: 'e' :: r => some (.constant (.bool true), r)
  | 'f', 'a' :: 'l' :: 's' :: 'e' :: r => some (.constant (.bool false), r)
  | _, _ => (lexNumber (c :: rest)).map fun (n, r) => (.number n, r)

/-- Read up to `fuel` characters' worth of tokens. -/
def lexAll : (fuel : Nat) → List Char → Option (List Token)
  | _, [] => some []
  | 0, _ :: _ => none
  | fuel + 1, c :: rest =>
    if isBlank c then lexAll fuel rest
    else do
      let (t, r) ← lexToken c rest
      let ts ← lexAll fuel r
      return t :: ts

/-- The tokens of a text. Every token takes a character, so the length of the text is fuel enough.
-/
def tokenize (s : String) : Option (List Token) := lexAll s.toList.length s.toList

end ClassAtlas.Json
