import ClassAtlas.Proofs.LevelOrder
import ClassAtlas.Proofs.Resolution
import ClassAtlas.Proofs.StubClasses

/-! # Types when classes are made up

A class that is made up has no signature and is enclosed in none, so the types of the classes that were
there before stay what they are. What a class binds the parameters of a supertype to may change: a made-up
interface is a new way up to the root of the hierarchy. It cannot change as long as the root takes no
parameters and has no other given class above it.
-/

namespace ClassAtlas

/-! ## Scopes with more declarations around them -/

/-- A scope inside further declarations, none of which has type parameters. -/
def TypeScope.Padded (scope scope' : TypeScope) : Prop :=
  ∃ outer, scope'.frames = outer ++ scope.frames ∧ ∀ f ∈ outer, f.parameters = []

theorem TypeScope.Padded.lookup? {scope scope' : TypeScope} (padded : scope.Padded scope') :
    scope'.lookup? = scope.lookup? := by
  obtain ⟨outer, frames, bare⟩ := padded
  funext name
  have nothing : outer.reverse.findSome? (fun f => (f.find? name).map (f.owner, ·)) = none := by
    rw [List.findSome?_eq_none_iff]
    intro f member
    rw [ScopeFrame.find?, bare f (List.mem_reverse.mp member)]
    rfl
  rw [TypeScope.lookup?, frames, List.reverse_append, List.findSome?_append, nothing, Option.or_none,
    TypeScope.lookup?]

namespace Signature

/-! Parsing asks a scope for nothing but the owners of names. -/

variable {scope scope' : TypeScope} (same : scope'.lookup? = scope.lookup?)
include same

theorem typeParameters_congr : typeParameters scope' = typeParameters scope := by
  have resolves : resolveIn scope' = resolveIn scope := by
    unfold resolveIn
    rw [same]
  funext owner fuel s
  unfold typeParameters
  rw [resolves]

theorem parseClass_congr : parseClass scope' = parseClass scope := by
  unfold parseClass classSignature
  rw [typeParameters_congr same]

theorem parseMethod_congr : parseMethod scope' = parseMethod scope := by
  unfold parseMethod methodSignature
  rw [typeParameters_congr same]

theorem parseField_congr : parseField scope' = parseField scope := by
  unfold parseField resolveIn
  rw [same]

end Signature

namespace ClassPool

variable {pool pool' : ClassPool}

/-! ## The pool afterwards -/

/-- The pool begins with the other one, and the rest of it was made up. -/
def MadeUpAfter (pool pool' : ClassPool) : Prop :=
  ∃ more, pool' = pool ++ more ∧ ∀ d ∈ more, ∃ t methods, d = ElementIndex.stub t methods

theorem MadeUpAfter.refl (pool : ClassPool) : pool.MadeUpAfter pool := ⟨[], (List.append_nil pool).symm, nofun⟩

theorem MadeUpAfter.trans {pool pool' pool'' : ClassPool} (first : pool.MadeUpAfter pool')
    (second : pool'.MadeUpAfter pool'') : pool.MadeUpAfter pool'' := by
  obtain ⟨more, rfl, stubs⟩ := first
  obtain ⟨more', rfl, stubs'⟩ := second
  refine ⟨more ++ more', List.append_assoc _ _ _, fun d member => ?_⟩
  exact (List.mem_append.mp member).elim (stubs d) (stubs' d)

theorem MadeUpAfter.begins (later : pool.MadeUpAfter pool') : pool <+: pool' := by
  obtain ⟨more, rfl, -⟩ := later
  exact List.prefix_append _ _

theorem MadeUpAfter.withClass (later : pool.MadeUpAfter pool') (request : SynthesisTarget) :
    pool.MadeUpAfter (pool'.withClass request) := by
  obtain ⟨more, rfl, stubs⟩ := later
  unfold ClassPool.withClass
  split
  · exact ⟨more, rfl, stubs⟩
  · refine ⟨more ++ [ElementIndex.stub request.type request.methods], List.append_assoc _ _ _, fun d member => ?_⟩
    rcases List.mem_append.mp member with earlier | last
    · exact stubs d earlier
    · exact ⟨_, _, List.mem_singleton.mp last⟩

theorem MadeUpAfter.between {pool past pool' : ClassPool} (later : pool.MadeUpAfter pool') (first : pool <+: past)
    (second : past <+: pool') : pool.MadeUpAfter past := by
  obtain ⟨more, rfl, stubs⟩ := later
  obtain ⟨some, rfl⟩ := first
  obtain ⟨rest, whole⟩ := second
  rw [List.append_assoc, List.append_cancel_left_eq] at whole
  exact ⟨some, rfl, fun d member => stubs d (whole ▸ List.mem_append_left _ member)⟩

namespace MadeUpAfter

variable {pool pool' : ClassPool} (later : pool.MadeUpAfter pool') {c o : Nat} {t : TypeName}

include later

theorem getElem? (there : c < pool.length) : pool'[c]? = pool[c]? := by
  obtain ⟨more, rfl, -⟩ := later
  exact List.getElem?_append_left there

theorem stub {d : ClassDeclaration} (new : pool.length ≤ c) (declared : pool'[c]? = some d) :
    ∃ t methods, d = ElementIndex.stub t methods := by
  obtain ⟨more, rfl, stubs⟩ := later
  rw [List.getElem?_append_right new] at declared
  exact stubs d (List.mem_of_getElem? declared)

theorem indexOf? (t : TypeName) : pool'.indexOf? t = pool.indexOf? t ∨
    pool.indexOf? t = none ∧ ∀ c ∈ pool'.indexOf? t, pool.length ≤ c := by
  obtain ⟨more, rfl, -⟩ := later
  unfold ClassPool.indexOf?
  rw [List.findIdx?_append]
  cases pool.findIdx? (·.typeName == t) with
  | some c => exact .inl rfl
  | none =>
    refine .inr ⟨rfl, fun c known => ?_⟩
    rw [Option.none_or] at known
    obtain ⟨i, -, rfl⟩ := Option.map_eq_some_iff.mp known
    exact Nat.le_add_left _ _

theorem outerClass? (link : pool'.outerClass? c = some o) : c < pool.length ∧
    (pool.outerClass? c = some o ∨ pool.outerClass? c = none ∧ pool.length ≤ o) := by
  obtain ⟨d, declared, named⟩ := Option.bind_eq_some_iff.mp link
  obtain ⟨name, outer, known⟩ := Option.bind_eq_some_iff.mp named
  have there : c < pool.length := by
    by_contra new
    obtain ⟨t, methods, rfl⟩ := later.stub (Nat.le_of_not_lt new) declared
    cases outer
  have before : pool.outerClass? c = pool.indexOf? (.ofInternal name) := by
    rw [ClassPool.outerClass?, ← later.getElem? there, declared, Option.bind_some, outer, Option.bind_some]
  refine ⟨there, ?_⟩
  rw [before]
  rcases later.indexOf? (.ofInternal name) with same | ⟨unknown, new⟩
  · exact .inl (same ▸ known)
  · exact .inr ⟨unknown, new o known⟩

theorem outerClass?_known (link : pool.outerClass? c = some o) : pool'.outerClass? c = some o := by
  obtain ⟨d, declared, named⟩ := Option.bind_eq_some_iff.mp link
  obtain ⟨name, outer, known⟩ := Option.bind_eq_some_iff.mp named
  rw [ClassPool.outerClass?, later.getElem? (List.getElem?_eq_some_iff.mp declared).1, declared, Option.bind_some,
    outer, Option.bind_some]
  rcases later.indexOf? (.ofInternal name) with same | ⟨unknown, -⟩
  · exact same.trans known
  · cases unknown.symm.trans known

theorem acyclic (acyclic : pool.Acyclic) : pool'.Acyclic := by
  -- A cycle runs through classes with a class around them, and these were there before.
  have start {a b : Nat} (path : Relation.TransGen (fun inner outer => pool'.outerClass? inner = some outer) a b) :
      a < pool.length := by
    induction path with
    | single link => exact (later.outerClass? link).1
    | tail _ _ ih => exact ih
  have before {a b : Nat} (path : Relation.TransGen (fun inner outer => pool'.outerClass? inner = some outer) a b)
      (there : b < pool.length) :
      Relation.TransGen (fun inner outer => pool.outerClass? inner = some outer) a b := by
    have known {x y : Nat} (link : pool'.outerClass? x = some y) (there : y < pool.length) :
        pool.outerClass? x = some y := by
      rcases (later.outerClass? link).2 with same | ⟨-, new⟩
      · exact same
      · omega
    induction path with
    | single link => exact .single (known link there)
    | tail _ link ih => exact .tail (ih (later.outerClass? link).1) (known link there)
  exact fun c path => acyclic c (before path (start path))

/-! ## Types of the classes that were there -/

theorem parameters_of_new (new : pool.length ≤ c) : (pool'.classType c).parameters = [] := by
  have bare (scope : TypeScope) : (pool'[c]?.bind fun d => d.signature.bind fun text =>
      (Signature.parseClass scope d.typeName text).toOption) = none := by
    cases declared : pool'[c]? with
    | none => rfl
    | some d =>
      obtain ⟨t, methods, rfl⟩ := later.stub new declared
      rfl
  rw [ClassPool.classType, ClassPool.classIn, bare, Option.getD_none, SignatureResolver.erasedClass]
  split <;> rfl

section Types

variable (acyclic : pool.Acyclic)

include acyclic

theorem outerChain (c : Nat) :
    ∃ outer, pool'.outerChain c = outer ++ pool.outerChain c ∧ ∀ o ∈ outer, pool.length ≤ o := by
  have acyclic' := later.acyclic acyclic
  cases link : pool.outerClass? c with
  | some o =>
    have chain := outerChain_outer acyclic link
    have shorter : (pool.outerChain o).length < (pool.outerChain c).length := by simp [chain]
    obtain ⟨outer, before, new⟩ := outerChain o
    refine ⟨outer, ?_, new⟩
    rw [outerChain_outer acyclic' (later.outerClass?_known link), before, chain, List.append_assoc]
  | none =>
    rw [outerChain_outermost acyclic link]
    cases link' : pool'.outerClass? c with
    | none => exact ⟨[], outerChain_outermost acyclic' link', nofun⟩
    | some o =>
      have new : pool.length ≤ o := by
        rcases (later.outerClass? link').2 with known | ⟨-, new⟩
        · cases link.symm.trans known
        · exact new
      have outermost : pool'.outerClass? o = none := by
        cases further : pool'.outerClass? o with
        | none => rfl
        | some _ =>
          have old := (later.outerClass? further).1
          omega
      refine ⟨[o], ?_, fun x member => List.mem_singleton.mp member ▸ new⟩
      rw [outerChain_outer acyclic' link', outerChain_outermost acyclic' outermost]
      rfl
termination_by (pool.outerChain c).length

theorem classType_padded {c : Nat} (there : c < pool.length) :
    (pool.scopeAround c).Padded (pool'.scopeAround c) ∧ pool'.classType c = pool.classType c := by
  obtain ⟨outer, chain, new⟩ := later.outerChain acyclic c
  have frames : ∀ o ∈ pool.outerChain c, pool'.frame? o = pool.frame? o := by
    intro o around
    have shorter := (mem_outerChain acyclic around).2
    have known := outerChain_lt acyclic around
    rw [frame?, frame?, later.getElem? known, (classType_padded known).2]
  have padded : (pool.scopeAround c).Padded (pool'.scopeAround c) := by
    refine ⟨outer.filterMap pool'.frame?, ?_, fun f member => ?_⟩
    · rw [scopeAround_frames (later.acyclic acyclic), scopeAround_frames acyclic, chain, List.filterMap_append,
        List.filterMap_congr frames]
    · obtain ⟨o, listed, framed⟩ := List.mem_filterMap.mp member
      obtain ⟨d, -, rfl⟩ := Option.map_eq_some_iff.mp framed
      exact later.parameters_of_new (new o listed)
  refine ⟨padded, ?_⟩
  rw [ClassPool.classType, ClassPool.classType, classIn, classIn, later.getElem? there,
    Signature.parseClass_congr padded.lookup?, SignatureResolver.erasedClass, SignatureResolver.erasedClass,
    later.getElem? there]
termination_by (pool.outerChain c).length

theorem classType (there : c < pool.length) : pool'.classType c = pool.classType c :=
  (later.classType_padded acyclic there).2

theorem scopeInside (there : c < pool.length) : (pool'.scopeInside c).lookup? = (pool.scopeInside c).lookup? := by
  obtain ⟨⟨outer, frames, bare⟩, same⟩ := later.classType_padded acyclic there
  have padded : (pool.scopeInside c).Padded (pool'.scopeInside c) := by
    refine ⟨outer, ?_, bare⟩
    rw [scopeInside_frames, scopeInside_frames, frames, frame?, frame?, later.getElem? there, same, List.append_assoc]
  exact padded.lookup?

theorem methodType (there : c < pool.length) (m : Nat) : pool'.methodType c m = pool.methodType c m := by
  rw [ClassPool.methodType, ClassPool.methodType, later.getElem? there,
    Signature.parseMethod_congr (later.scopeInside acyclic there)]

theorem fieldType (there : c < pool.length) (f : Nat) : pool'.fieldType c f = pool.fieldType c f := by
  rw [ClassPool.fieldType, ClassPool.fieldType, later.getElem? there,
    Signature.parseField_congr (later.scopeInside acyclic there)]

end Types

end MadeUpAfter

end ClassPool

/-! ## Ways that lead nowhere -/

namespace Search

variable {next next' : Nat → List Nat}

theorem fresh_filter {α : Type} [BEq α] [LawfulBEq α] (keep : α → Bool) (seen xs : List α) :
    (fresh seen xs).filter keep = fresh (seen.filter keep) (xs.filter keep) := by
  induction xs generalizing seen with
  | nil => rfl
  | cons x rest ih =>
    cases kept : keep x with
    | false =>
      rw [List.filter_cons_of_neg (by simp [kept]), fresh]
      split
      · exact ih seen
      · rw [List.filter_cons_of_neg (by simp [kept]), ih, List.filter_cons_of_neg (by simp [kept])]
    | true =>
      have known : (seen.filter keep).contains x = seen.contains x := by
        rw [Bool.eq_iff_iff, List.contains_iff_mem, List.contains_iff_mem]
        simp [kept]
      rw [List.filter_cons_of_pos kept, fresh, fresh, known]
      split
      · exact ih seen
      · rw [List.filter_cons_of_pos kept, ih, List.filter_cons_of_pos kept]

theorem findPath_getLast? {α : Type} [BEq α] [LawfulBEq α] {next : α → List α} {goal : α} {fuel : Nat}
    {queue : List (List α)} {seen path : List α} (found : findPath next goal fuel queue seen = some path) :
    path.getLast? = some goal := by
  induction fuel generalizing queue seen with
  | zero => cases found
  | succ fuel ih =>
    match queue with
    | [] => cases found
    | [] :: queue => exact ih found
    | (x :: trail) :: queue =>
      unfold findPath at found
      split at found
      · next arrived =>
          cases found
          rw [List.getLast?_reverse, List.head?_cons, eq_of_beq arrived]
      · exact ih found

/-- Nodes from which nothing but such nodes can be reached may be left out of a search for another node. -/
theorem findPath_filter {keep : Nat → Bool} {goal : Nat} {nodes : List Nat} (inside : ∀ x, ∀ y ∈ next x, y ∈ nodes)
    (astray : ∀ x y, keep x = false → y ∈ next x → keep y = false)
    (kept : ∀ x, keep x = true → next' x = (next x).filter keep) (wanted : keep goal = true) {fuel fuel' : Nat}
    {queue : List (List Nat)} {seen : List Nat} (enough : queue.length + unseen nodes seen ≤ fuel)
    (enough' : (queue.filter (·.head?.any keep)).length + unseen nodes (seen.filter keep) ≤ fuel') :
    findPath next goal fuel queue seen =
      findPath next' goal fuel' (queue.filter (·.head?.any keep)) (seen.filter keep) := by
  have ended (fuel : Nat) (seen : List Nat) : findPath next' goal fuel [] seen = none := by
    cases fuel <;> rfl
  induction fuel generalizing queue seen fuel' with
  | zero =>
    obtain rfl : queue = [] := List.eq_nil_of_length_eq_zero (by omega)
    exact (ended _ _).symm
  | succ fuel ih =>
    match queue with
    | [] => exact (ended _ _).symm
    | [] :: queue =>
      rw [List.length_cons] at enough
      exact ih (by omega) enough'
    | (x :: trail) :: queue =>
      rw [List.length_cons] at enough
      have found : ∀ y ∈ fresh seen (next x), y ∈ nodes ∧ y ∉ seen := fun y member =>
        ⟨inside x y (mem_fresh.mp member).1, (mem_fresh.mp member).2⟩
      have room := unseen_append (fresh_nodup seen (next x)) found
      have enoughLater : (queue ++ (fresh seen (next x)).map (· :: x :: trail)).length +
          unseen nodes (seen ++ fresh seen (next x)) ≤ fuel := by
        rw [List.length_append, List.length_map]
        omega
      have heads (ys : List Nat) : (ys.map (· :: x :: trail)).filter (·.head?.any keep) =
          (ys.filter keep).map (· :: x :: trail) := by
        rw [List.filter_map]
        rfl
      cases on : keep x with
      | false =>
        -- The search goes astray here, and what it finds is left out again.
        have other : (x == goal) = false := by
          rw [beq_eq_false_iff_ne]
          rintro rfl
          cases on.symm.trans wanted
        have nothing : (fresh seen (next x)).filter keep = [] := by
          rw [List.filter_eq_nil_iff]
          intro y member
          simp [astray x y on (mem_fresh.mp member).1]
        have dropped : ((x :: trail) :: queue).filter (·.head?.any keep) = queue.filter (·.head?.any keep) :=
          List.filter_cons_of_neg (by simp [on])
        rw [dropped] at enough' ⊢
        have sameQueue : (queue ++ (fresh seen (next x)).map (· :: x :: trail)).filter (·.head?.any keep) =
            queue.filter (·.head?.any keep) := by
          rw [List.filter_append, heads, nothing, List.map_nil, List.append_nil]
        have sameSeen : (seen ++ fresh seen (next x)).filter keep = seen.filter keep := by
          rw [List.filter_append, nothing, List.append_nil]
        rw [findPath, other, ← sameQueue, ← sameSeen]
        rw [← sameQueue, ← sameSeen] at enough'
        exact ih enoughLater enough'
      | true =>
        have stays : ((x :: trail) :: queue).filter (·.head?.any keep) =
            (x :: trail) :: queue.filter (·.head?.any keep) :=
          List.filter_cons_of_pos (by simp [on])
        rw [stays] at enough' ⊢
        rw [List.length_cons] at enough'
        obtain ⟨less, rfl⟩ : ∃ less, fuel' = less + 1 := ⟨fuel' - 1, by omega⟩
        have same : (fresh seen (next x)).filter keep = fresh (seen.filter keep) (next' x) := by
          rw [fresh_filter, kept x on]
        rw [findPath, findPath]
        split
        · rfl
        · have room' : (fresh (seen.filter keep) (next' x)).length +
              unseen nodes (seen.filter keep ++ fresh (seen.filter keep) (next' x)) ≤
              unseen nodes (seen.filter keep) := by
            refine unseen_append (fresh_nodup _ _) fun y member => ⟨?_, (mem_fresh.mp member).2⟩
            rw [← same] at member
            exact (found y (List.mem_of_mem_filter member)).1
          have nextQueue : (queue ++ (fresh seen (next x)).map (· :: x :: trail)).filter (·.head?.any keep) =
              queue.filter (·.head?.any keep) ++ (fresh (seen.filter keep) (next' x)).map (· :: x :: trail) := by
            rw [List.filter_append, heads, same]
          have nextSeen : (seen ++ fresh seen (next x)).filter keep =
              seen.filter keep ++ fresh (seen.filter keep) (next' x) := by
            rw [List.filter_append, same]
          dsimp only
          rw [← nextQueue, ← nextSeen]
          refine ih enoughLater ?_
          rw [nextQueue, nextSeen, List.length_append, List.length_map]
          omega

theorem findPath_start {keep : Nat → Bool} {goal start : Nat} {nodes : List Nat}
    (inside : ∀ x, ∀ y ∈ next x, y ∈ nodes) (astray : ∀ x y, keep x = false → y ∈ next x → keep y = false)
    (kept : ∀ x, keep x = true → next' x = (next x).filter keep) (wanted : keep goal = true) {fuel fuel' : Nat}
    (enough : nodes.length < fuel) (enough' : nodes.length < fuel') :
    findPath next goal fuel [[start]] [start] =
      findPath next' goal fuel' ([[start]].filter (·.head?.any keep)) ([start].filter keep) := by
  have single : ([[start]].filter (·.head?.any keep)).length ≤ 1 := List.length_filter_le _ _
  refine findPath_filter inside astray kept wanted ?_ ?_
  · have rest := unseen_le nodes [start]
    rw [List.length_singleton]
    omega
  · have rest := unseen_le nodes ([start].filter keep)
    omega

end Search

namespace ClassPool

/-! ## Bindings -/

section Bindings

variable {pool : ClassPool} {low high : Nat}

theorem carriedAlong_bare (there : high < pool.length) (bare : (pool.classType high).parameters = [])
    {path : List Nat} {current : TypeBindings} (last : path.getLast? = some high)
    (alone : path = [high] → current = .empty) : pool.carriedAlong path current = .empty := by
  match path with
  | [] => cases last
  | [x] =>
    cases last
    exact alone rfl
  | before :: x :: rest =>
    rw [List.getLast?_cons_cons] at last
    rw [carriedAlong]
    refine carriedAlong_bare there bare last fun only => ?_
    obtain ⟨rfl, rfl⟩ := List.cons.inj only
    rw [carried, List.getElem?_eq_getElem there, bare]
    rfl

theorem bindingsOf_bare (bare : (pool.classType high).parameters = []) : pool.bindingsOf low high = .empty := by
  by_cases same : low = high
  · have direct : pool.supertypePath? low high = some [low] := by
      simp [supertypePath?, Search.findPath, same]
    rw [bindingsOf, direct]
    rfl
  · unfold bindingsOf
    cases route : pool.supertypePath? low high with
    | none => rfl
    | some path =>
      have last := Search.findPath_getLast? route
      have there : high < pool.length := by
        rcases mem_supertypePath? route (List.mem_of_getLast? last) with here | there
        · exact absurd here.symm same
        · exact there
      exact carriedAlong_bare there bare last fun _ => rfl

end Bindings

/-- The root of the hierarchy, if it is there, takes no parameters and has no other class above it. -/
def PlainRoot (pool : ClassPool) : Prop :=
  ∀ c, pool.indexOf? .object = some c →
    (pool.classType c).parameters = [] ∧ ∀ x ∈ pool.knownSupertypes c, x = c

namespace MadeUpAfter

def below (pool : ClassPool) (c : Nat) : Bool := c < pool.length && pool.indexOf? .object != some c

section Routes

variable {pool pool' : ClassPool} (later : pool.MadeUpAfter pool') (root : pool.PlainRoot)

theorem superType?_stub (t : TypeName) (methods : List String) :
    (ElementIndex.stub t methods).superType? = some .object := by
  have object : TypeName.ofInternal TypeName.object.toInternal = .object := by decide +kernel
  exact congrArg some object

include later

theorem knownSupertypes_below {x : Nat} (there : x < pool.length) :
    (pool'.knownSupertypes x).filter (below pool) = (pool.knownSupertypes x).filter (below pool) := by
  have direct : pool'.directSupertypes x = pool.directSupertypes x := by
    rw [directSupertypes, directSupertypes, later.getElem? there]
  rw [knownSupertypes, knownSupertypes, direct, List.filter_filterMap, List.filter_filterMap]
  refine List.filterMap_congr fun t _ => ?_
  rcases later.indexOf? t with same | ⟨unknown, new⟩
  · rw [same]
  · rw [unknown]
    cases known : pool'.indexOf? t with
    | none => rfl
    | some c =>
      have beyond := new c known
      simp [below, Nat.not_lt.mpr beyond]

theorem carriedAlong (acyclic : pool.Acyclic) {path : List Nat} (there : ∀ x ∈ path, x < pool.length)
    (current : TypeBindings) : pool'.carriedAlong path current = pool.carriedAlong path current := by
  match path with
  | [] | [_] => rfl
  | low :: high :: rest =>
    have lowThere := there low List.mem_cons_self
    have highThere := there high (List.mem_cons_of_mem _ List.mem_cons_self)
    have step : pool'.carried low high current = pool.carried low high current := by
      rw [carried, carried, later.getElem? highThere, later.classType acyclic lowThere,
        later.classType acyclic highThere]
    rw [ClassPool.carriedAlong, ClassPool.carriedAlong, step]
    exact carriedAlong acyclic (fun x member => there x (List.mem_cons_of_mem _ member)) _

include root

theorem knownSupertypes_astray {x y : Nat} (out : below pool x = false) (link : y ∈ pool'.knownSupertypes x) :
    below pool y = false := by
  obtain ⟨t, named, known⟩ := List.mem_filterMap.mp link
  by_cases there : y < pool.length
  · have before : pool.indexOf? t = some y := by
      rcases later.indexOf? t with same | ⟨-, new⟩
      · exact same ▸ known
      · have beyond := new y known
        omega
    by_cases old : x < pool.length
    · -- The root itself, with nothing given above it.
      have atRoot : pool.indexOf? .object = some x := by simpa [below, old] using out
      have above : y ∈ pool.knownSupertypes x := by
        rw [directSupertypes, later.getElem? old] at named
        exact List.mem_filterMap.mpr ⟨t, named, before⟩
      rw [(root x atRoot).2 y above]
      exact out
    · unfold directSupertypes at named
      split at named
      · cases named
      · next d declared =>
          obtain ⟨type, methods, rfl⟩ := later.stub (Nat.le_of_not_lt old) declared
          rw [superType?_stub] at named
          obtain rfl : t = .object := List.mem_singleton.mp named
          simp [below, before]
  · simp [below, there]

theorem supertypePath? (low : Nat) {high : Nat} (wanted : below pool high = true) :
    pool'.supertypePath? low high = pool.supertypePath? low high ∧
      ∀ path ∈ pool.supertypePath? low high, ∀ x ∈ path, x < pool.length := by
  have links (pool : ClassPool) (x y : Nat) (link : y ∈ pool.knownSupertypes x) : y ∈ List.range pool.length := by
    obtain ⟨t, -, known⟩ := List.mem_filterMap.mp link
    exact List.mem_range.mpr (indexOf?_lt known)
  have longer : pool.length ≤ pool'.length := later.begins.length_le
  -- Both searches are the one that keeps below the root.
  have now : pool'.supertypePath? low high = Search.findPath (fun x => (pool.knownSupertypes x).filter (below pool))
      high (pool'.length + 1) ([[low]].filter (·.head?.any (below pool))) ([low].filter (below pool)) := by
    refine Search.findPath_start (links pool') (fun x y => later.knownSupertypes_astray root) (fun x on => ?_) wanted
      (by simp) (by simp)
    exact (later.knownSupertypes_below (of_decide_eq_true (Bool.and_eq_true_iff.mp on).1)).symm
  have before : pool.supertypePath? low high = Search.findPath (fun x => (pool.knownSupertypes x).filter (below pool))
      high (pool'.length + 1) ([[low]].filter (·.head?.any (below pool))) ([low].filter (below pool)) :=
    Search.findPath_start (links pool) (fun x y => (MadeUpAfter.refl pool).knownSupertypes_astray root)
      (fun _ _ => rfl) wanted (by simp) (by simp; omega)
  refine ⟨now.trans before.symm, fun path found x member => ?_⟩
  have within := Search.mem_findPath (P := fun x => below pool x = true) (before.symm.trans found) ?_ ?_ x member
  · exact of_decide_eq_true (Bool.and_eq_true_iff.mp within).1
  · intro trail listed y member
    obtain ⟨only, on⟩ := List.mem_filter.mp listed
    rw [List.mem_singleton.mp only] at on member
    rw [List.mem_singleton.mp member]
    simpa using on
  · exact fun x y link => (List.mem_filter.mp link).2

theorem bindingsOf (acyclic : pool.Acyclic) (low high : Nat) : pool'.bindingsOf low high = pool.bindingsOf low high := by
  cases wanted : below pool high with
  | true =>
    obtain ⟨same, inside⟩ := later.supertypePath? root low wanted
    rw [ClassPool.bindingsOf, ClassPool.bindingsOf, same]
    cases route : pool.supertypePath? low high with
    | none => rfl
    | some path => exact later.carriedAlong acyclic (inside path route) .empty
  | false =>
    have bare : (pool.classType high).parameters = [] ∧ (pool'.classType high).parameters = [] := by
      by_cases there : high < pool.length
      · have atRoot : pool.indexOf? .object = some high := by simpa [below, there] using wanted
        rw [later.classType acyclic there]
        exact ⟨(root high atRoot).1, (root high atRoot).1⟩
      · exact ⟨(MadeUpAfter.refl pool).parameters_of_new (Nat.le_of_not_lt there),
          later.parameters_of_new (Nat.le_of_not_lt there)⟩
    rw [bindingsOf_bare bare.1, bindingsOf_bare bare.2]

end Routes

end MadeUpAfter

end ClassPool

end ClassAtlas
