import ClassAtlas.Element.Index
import ClassAtlas.Entity.Store

/-! # The call graph

What methods instantiate and call. A method's instructions are scanned once and what it reaches is
worked out once; later questions are answered from memory. Relations between entities are read off
what the methods of their elements reach.
-/

namespace ClassAtlas

/-- What a method's own instructions use. -/
structure DirectUses where
  instantiated : List ElementId := []
  /-- The classes that calls name. -/
  receivers : List ElementId := []
  callees : List ElementId := []
  deriving Repr, DecidableEq, Inhabited

/-- What a method reaches by calls, each list ascending. -/
structure Reach where
  /-- Called methods; the start is among them only if it is called again. -/
  methods : List ElementId := []
  instantiated : List ElementId := []
  receivers : List ElementId := []
  deriving Repr, DecidableEq, Inhabited

inductive RelationKind where
  | instantiates
  | invokes
  deriving Repr, DecidableEq, Inhabited

namespace RelationKind

def name : RelationKind → String
  | .instantiates => "instantiates"
  | .invokes => "invokes"

def names : List (String × RelationKind) := [("instantiates", .instantiates), ("invokes", .invokes)]

end RelationKind

def ElementId.before (a b : ElementId) : Bool := a.val < b.val

namespace DirectUses

def append (a b : DirectUses) : DirectUses :=
  ⟨a.instantiated ++ b.instantiated, a.receivers ++ b.receivers, a.callees ++ b.callees⟩

/-- What one instruction uses. Methods captured by dynamic calls count when asked for. -/
def ofInstruction (ix : ElementIndex) (followLambdas : Bool) : Instruction → DirectUses
  | .instantiate typeName => { instantiated := (ix.classByName? (.ofInternal typeName)).toList }
  | .invoke _ owner name desc =>
    { receivers := (ix.classByName? (.ofInternal owner)).toList
      callees := (ix.resolveMethod? (.ofInternal owner) name desc).toList }
  | .invokeDynamic _ _ handles =>
    if followLambdas then
      { callees := handles.filterMap fun h => ix.resolveMethod? (.ofInternal h.owner) h.name h.desc }
    else {}
  | .fieldAccess _ _ _ _ => {}
  | .loadConstant _ => {}

def ofMethod (ix : ElementIndex) (followLambdas : Bool) (method : ElementId) : DirectUses :=
  match ix.methodDeclaration? method with
  | none => {}
  | some (_, m) =>
    m.instructions.foldl (fun uses i => uses.append (ofInstruction ix followLambdas i)) {}

end DirectUses

namespace Reach

def addIds (ids set : List ElementId) : List ElementId := Ordered.addAll ElementId.before ids set

def merge (a b : Reach) : Reach :=
  ⟨addIds b.methods a.methods, addIds b.instantiated a.instantiated, addIds b.receivers a.receivers⟩

end Reach

/-- What has been scanned and worked out so far. -/
structure CallScanner where
  followLambdas : Bool := true
  direct : List (ElementId × DirectUses) := []
  reached : List (ElementId × Reach) := []
  deriving Repr, DecidableEq, Inhabited

namespace CallScanner

def scanned (s : CallScanner) : Nat := s.direct.length

def directUses (ix : ElementIndex) (method : ElementId) (s : CallScanner) : DirectUses × CallScanner :=
  match Ordered.get? method s.direct with
  | some uses => (uses, s)
  | none =>
    let uses := DirectUses.ofMethod ix s.followLambdas method
    (uses, { s with direct := Ordered.put method uses s.direct })

/-- A search under way: what is left to scan, what was seen, what was reached. -/
structure Search where
  stack : List ElementId
  visited : List ElementId
  reach : Reach

/-- Take one call into a search. A method whose reach is known contributes that; others are left to
scan. -/
def visit (known : List (ElementId × Reach)) (search : Search) (callee : ElementId) : Search :=
  let reach := { search.reach with methods := Reach.addIds [callee] search.reach.methods }
  if search.visited.contains callee then { search with reach := reach }
  else
    let visited := callee :: search.visited
    match Ordered.get? callee known with
    | some memo => ⟨search.stack, memo.methods ++ visited, reach.merge memo⟩
    | none => ⟨callee :: search.stack, visited, reach⟩

/-- Scan methods until none is left. -/
def explore (ix : ElementIndex) : (fuel : Nat) → Search → CallScanner → Reach × CallScanner
  | 0, search, s => (search.reach, s)
  | fuel + 1, search, s =>
    match search.stack with
    | [] => (search.reach, s)
    | method :: stack =>
      let (uses, s) := s.directUses ix method
      let reach := { search.reach with
        instantiated := Reach.addIds uses.instantiated search.reach.instantiated
        receivers := Reach.addIds uses.receivers search.reach.receivers }
      let search := uses.callees.foldl (visit s.reached) ⟨stack, search.visited, reach⟩
      explore ix fuel search s

/-- What a method reaches. No method is scanned twice, so that the number of elements bounds the
search. -/
def reachable (ix : ElementIndex) (start : ElementId) (s : CallScanner) : Reach × CallScanner :=
  match Ordered.get? start s.reached with
  | some reach => (reach, s)
  | none =>
    let (reach, s) := explore ix (ix.size + 1) ⟨[start], [start], {}⟩ s
    (reach, { s with reached := Ordered.put start reach s.reached })

/-- The methods that stand for an element: a method itself, or the methods that a class declares. -/
def roots (ix : ElementIndex) (source : ElementId) : List ElementId :=
  match ix.kind? source with
  | some .method => [source]
  | some .classDef => (ix.children source).filter fun c => ix.kind? c == some .method
  | _ => []

def reachAll (ix : ElementIndex) : List ElementId → Reach → CallScanner → Reach × CallScanner
  | [], acc, s => (acc, s)
  | root :: rest, acc, s =>
    let (reach, s) := s.reachable ix root
    reachAll ix rest (acc.merge reach) s

def backtrackKey : String := "backtrack"

/-- The entities that a reach relates to, ascending. A called method counts for its own entity and,
if it has none, for that of its class; a call also counts for the class that it names. -/
def relatedEntities (ix : ElementIndex) (targets : List (ElementId × EntityId)) (kind : RelationKind)
    (reach : Reach) : List EntityId :=
  let target := fun id => Ordered.get? id targets
  let found := match kind with
    | .instantiates => reach.instantiated.filterMap target
    | .invokes =>
      reach.methods.filterMap (fun m =>
        match target m with
        | some t => some t
        | none =>
          match ix.get? m with
          | some (.member .method _ _ owner _) => target owner
          | _ => none) ++
        reach.receivers.filterMap target
  Ordered.addAll EntityId.before found []

/-- Link a source to its targets. Gives how many of the links are new; links back are not counted.
-/
def link (source : EntityId) (key : String) (backtrack : Bool) :
    List EntityId → Nat → EntityStore → Nat × EntityStore
  | [], count, store => (count, store)
  | target :: rest, count, store =>
    if target = source then link source key backtrack rest count store
    else
      let (isNew, store) := store.addChild source key target
      let store := if backtrack then (store.addChild target backtrackKey source).2 else store
      link source key backtrack rest (if isNew then count + 1 else count) store

def linkAll (ix : ElementIndex) (targets : List (ElementId × EntityId)) (kind : RelationKind)
    (key : String) (backtrack : Bool) :
    List Entity → Nat → EntityStore → CallScanner → Nat × EntityStore × CallScanner
  | [], count, store, s => (count, store, s)
  | source :: rest, count, store, s =>
    let (reach, s) := reachAll ix (roots ix source.element) {} s
    let (count, store) :=
      link source.id key backtrack (relatedEntities ix targets kind reach) count store
    linkAll ix targets kind key backtrack rest count store s

/-- Link the entities of one type to those of another that their methods instantiate or call. Gives
how many links are new. -/
def relate (ix : ElementIndex) (kind : RelationKind) (source target : EntityType) (key : String)
    (backtrack : Bool) (store : EntityStore) (s : CallScanner) : Nat × EntityStore × CallScanner :=
  let targets := (store.ofType target).map fun e => (e.element, e.id)
  let sources := store.ofType source
  if targets.isEmpty || sources.isEmpty then (0, store, s)
  else linkAll ix targets kind key backtrack sources 0 store s

end CallScanner

end ClassAtlas
