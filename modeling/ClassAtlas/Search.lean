/-! # Searches in finite graphs

Three ways to follow links: one link at a time until the chain repeats, level by level collecting
everything, and level by level looking for a goal. Each takes fuel; a search that never visits a
node twice needs as much as there are nodes.
-/

namespace ClassAtlas.Search

variable {α : Type} [BEq α]

/-- The items that are not yet seen, each once, in order. -/
def fresh (seen : List α) : List α → List α
  | [] => []
  | x :: xs => if seen.contains x then fresh seen xs else x :: fresh (x :: seen) xs

/-- Follow single links from `current` until there is none or it leads back to what was visited. -/
def walk (next : α → Option α) : (fuel : Nat) → (visited : List α) → (current : α) → List α
  | 0, visited, _ => visited
  | fuel + 1, visited, current =>
    match next current with
    | none => visited
    | some n => if visited.contains n then visited else walk next fuel (visited ++ [n]) n

/-- Everything reached from the queue, level by level, after what was seen. -/
def sweep (next : α → List α) : (fuel : Nat) → (queue seen : List α) → List α
  | 0, _, seen => seen
  | _ + 1, [], seen => seen
  | fuel + 1, x :: queue, seen =>
    let found := fresh seen (next x)
    sweep next fuel (queue ++ found) (seen ++ found)

/-- A shortest path to the goal. The queue holds paths, the last node first. -/
def findPath (next : α → List α) (goal : α) :
    (fuel : Nat) → (queue : List (List α)) → (seen : List α) → Option (List α)
  | 0, _, _ => none
  | _ + 1, [], _ => none
  | fuel + 1, [] :: queue, seen => findPath next goal fuel queue seen
  | fuel + 1, (x :: path) :: queue, seen =>
    if x == goal then some (x :: path).reverse
    else
      let found := fresh seen (next x)
      findPath next goal fuel (queue ++ found.map (· :: x :: path)) (seen ++ found)

end ClassAtlas.Search
