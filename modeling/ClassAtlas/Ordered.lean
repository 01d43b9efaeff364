/-! # Ordered lists

Sorting by insertion, sets as ascending lists, and lists of keys and values.
-/

namespace ClassAtlas.Ordered

variable {α κ : Type}

/-- Put an item before the first one that does not come before it. -/
def insert (before : α → α → Bool) (x : α) : List α → List α
  | [] => [x]
  | y :: ys => if before y x then y :: insert before x ys else x :: y :: ys

/-- Sort so that items which do not come before one another keep their order. -/
def sort (before : α → α → Bool) : List α → List α
  | [] => []
  | x :: xs => insert before x (sort before xs)

def add (before : α → α → Bool) (x : α) : List α → List α
  | [] => [x]
  | y :: ys =>
    if before y x then y :: add before x ys
    else if before x y then x :: y :: ys
    else y :: ys

def addAll (before : α → α → Bool) (xs : List α) (set : List α) : List α :=
  xs.foldl (fun s x => add before x s) set

def putSorted (name : String) (value : α) : List (String × α) → List (String × α)
  | [] => [(name, value)]
  | (k, v) :: rest =>
    if name < k then (name, value) :: (k, v) :: rest
    else if name = k then (name, value) :: rest
    else (k, v) :: putSorted name value rest

/-- Entries sorted by name; of a repeated name the last value is kept. -/
def byName (entries : List (String × α)) : List (String × α) :=
  entries.foldl (fun sorted e => putSorted e.1 e.2 sorted) []

/-- Set the value of a key: in place of its earlier value, or at the end. -/
def put [BEq κ] (key : κ) (value : α) : List (κ × α) → List (κ × α)
  | [] => [(key, value)]
  | (k, v) :: rest => if k == key then (key, value) :: rest else (k, v) :: put key value rest

def get? [BEq κ] (key : κ) (entries : List (κ × α)) : Option α :=
  (entries.find? (·.1 == key)).map (·.2)

end ClassAtlas.Ordered
