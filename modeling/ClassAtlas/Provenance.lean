import ClassAtlas.Element.Naming
import ClassAtlas.Ordered

/-! # Provenance

Why elements are part of a model. Beside the element it is part of, an element may have causes, such
as the parameter whose type led to a class. Causes can form cycles.
-/

namespace ClassAtlas

structure Provenance where
  causeLists : List (ElementId × List ElementId) := []
  deriving Repr, DecidableEq, Inhabited

namespace Provenance

def causes (p : Provenance) (element : ElementId) : List ElementId :=
  (Ordered.get? element p.causeLists).getD []

/-- Record a cause, once. An element is no cause of itself. -/
def record (p : Provenance) (element cause : ElementId) : Provenance :=
  if element = cause then p
  else
    let known := p.causes element
    if known.contains cause then p
    else ⟨Ordered.put element (known ++ [cause]) p.causeLists⟩

def size (p : Provenance) : Nat := p.causeLists.length

/-- The elements that have causes, by ascending number, with their causes. -/
def entries (p : Provenance) : List (ElementId × List ElementId) :=
  Ordered.sort (fun a b => decide (a.1.val < b.1.val)) p.causeLists

/-- What an element comes from directly: the element it is part of, then its causes. -/
def sources (p : Provenance) (ix : ElementIndex) (id : ElementId) : List ElementId :=
  (ix.parent? id).toList ++ p.causes id

/-- Everything an element comes from, nearest first, without the element itself. -/
def ancestors (p : Provenance) (ix : ElementIndex) (id : ElementId) : List ElementId :=
  let links := ix.size + p.causeLists.foldl (fun n c => n + c.2.length) 0
  (Search.sweep (p.sources ix) (links + 1) [id] [id]).tail

/-- The element and everything it comes from, a line for each. -/
def explain (p : Provenance) (ix : ElementIndex) (id : ElementId) : List String :=
  (id :: p.ancestors ix id).map fun e =>
    e.text ++ " " ++ ((ix.kind? e).map ElementKind.name).getD "?" ++ " " ++ ix.label e

end Provenance

end ClassAtlas
