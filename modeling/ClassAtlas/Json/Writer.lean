import ClassAtlas.Json.Basic

/-! # Writing JSON text

Two layouts of one value: compact, and indented by two blanks with one item a line.
-/

namespace ClassAtlas.Json

def hexDigit (n : Nat) : Char := Nat.digitChar n

/-- A character inside a string: quotes, backslashes and control characters are escaped. -/
def escapeChar (c : Char) : List Char :=
  if c = '\x22' then ['\\', '\x22']
  else if c = '\\' then ['\\', '\\']
  else if c = '\x08' then ['\\', 'b']
  else if c = '\x0c' then ['\\', 'f']
  else if c = '\n' then ['\\', 'n']
  else if c = '\r' then ['\\', 'r']
  else if c = '\t' then ['\\', 't']
  else if c.toNat < 0x20 then ['\\', 'u', '0', '0', hexDigit (c.toNat / 16), hexDigit (c.toNat % 16)]
  else [c]

def quote (s : String) : List Char := '\x22' :: s.toList.flatMap escapeChar ++ ['\x22']

def scalarChars : Json → List Char
  | .null => ['n', 'u', 'l', 'l']
  | .bool true => ['t', 'r', 'u', 'e']
  | .bool false => ['f', 'a', 'l', 's', 'e']
  | .int n => (integerText n).toList
  | .double x => x.documentText.toList
  | .single x => x.documentText.toList
  | .string s => quote s
  | .array _ => []
  | .object _ => []

def newline (level : Nat) : List Char := '\n' :: List.replicate (2 * level) ' '

mutual
def compactChars : Json → List Char
  | .array [] => ['[', ']']
  | .array (x :: xs) => '[' :: x.compactChars ++ compactItems xs
  | .object [] => ['\x7b', '\x7d']
  | .object ((k, x) :: ms) => '\x7b' :: quote k ++ ':' :: x.compactChars ++ compactMembers ms
  | v => scalarChars v
termination_by structural v => v
def compactItems : List Json → List Char
  | [] => [']']
  | x :: xs => ',' :: x.compactChars ++ compactItems xs
termination_by structural xs => xs
def compactMembers : List (String × Json) → List Char
  | [] => ['\x7d']
  | (k, x) :: ms => ',' :: quote k ++ ':' :: x.compactChars ++ compactMembers ms
termination_by structural ms => ms
end

mutual
def prettyChars : Json → (level : Nat) → List Char
  | .array [], _ => ['[', ']']
  | .array (x :: xs), level =>
    '[' :: newline (level + 1) ++ x.prettyChars (level + 1) ++ prettyItems xs level
  | .object [], _ => ['\x7b', '\x7d']
  | .object ((k, x) :: ms), level =>
    '\x7b' :: newline (level + 1) ++ quote k ++ ':' :: ' ' :: x.prettyChars (level + 1) ++
      prettyMembers ms level
  | v, _ => scalarChars v
termination_by structural v => v
def prettyItems : List Json → (level : Nat) → List Char
  | [], level => newline level ++ [']']
  | x :: xs, level =>
    ',' :: newline (level + 1) ++ x.prettyChars (level + 1) ++ prettyItems xs level
termination_by structural xs => xs
def prettyMembers : List (String × Json) → (level : Nat) → List Char
  | [], level => newline level ++ ['\x7d']
  | (k, x) :: ms, level =>
    ',' :: newline (level + 1) ++ quote k ++ ':' :: ' ' :: x.prettyChars (level + 1) ++
      prettyMembers ms level
termination_by structural ms => ms
end

def compact (v : Json) : String := String.ofList v.compactChars

def pretty (v : Json) : String := String.ofList (v.prettyChars 0)

end ClassAtlas.Json
