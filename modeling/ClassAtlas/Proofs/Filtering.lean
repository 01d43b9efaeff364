import ClassAtlas.Proofs.TypeMemory

/-! # Filters

What a filter is to give is said here without remembered work, from the index, the entities and the
classes that declared types erase to. A filter leaves all of a model but the remembered work alone and gives
just that, with the classes that the resolver has for the types. These need not be the right ones: bindings that
were found before a class was made up are kept.
-/

namespace ClassAtlas

/-! ## What predicates mean -/

namespace Predicate

def compiled (text : String) : Except ModelError Text.Automaton :=
  match Text.Automaton.ofText? text with
  | none => .error (.invalidPattern text)
  | some a => .ok a

section Meaning

variable (ix : ElementIndex) (entities : EntityStore) (types : ElementId → Option TypeName) (id : ElementId)

mutual
/-- What holds of an element, given the classes that declared types erase to. A conjunction is decided by its
    first part that is not true and a disjunction by its first part that is not false. -/
def meaning : Predicate → Except ModelError Bool
  | .name pattern => return (← compiled pattern).isMatch (ix.name id)
  | .modifiers flags => .ok ((accessFlags? ix id).any (·.has flags))
  | .annotatedBy type => .ok (isAnnotatedBy ix id type)
  | .implements type =>
    .ok (((ix.ownClass? id).or ((types id).bind ix.classes.indexOf?)).any fun k =>
      (ix.classes.supertypes k).contains type)
  | .typeIs type => .ok (types id == some type)
  | .hasEntity type => .ok (isEntityOf type (entities.find? id))
  | .synthetic => .ok id.isSynthetic
  | .negation p => return !(← meaning p)
  | .all ps => ((meanings ps).find? fun holds => !(holds matches .ok true)).getD (.ok true)
  | .any ps => ((meanings ps).find? fun holds => !(holds matches .ok false)).getD (.ok false)
termination_by structural p => p

def meanings : List Predicate → List (Except ModelError Bool)
  | [] => []
  | p :: ps => meaning p :: meanings ps
termination_by structural ps => ps
end

end Meaning

/-- From remembered work of this sort a test gives this, and leaves remembered work of this sort. -/
def Gives {α : Type} (Right : Caches → Prop) (f : TestM α) (a : Except ModelError α) : Prop :=
  ∀ c, Right c → (f c).1 = a ∧ Right (f c).2

namespace Gives

variable {α β : Type} {Right : Caches → Prop}

theorem pure (a : α) : Gives Right (Pure.pure a) (.ok a) := fun _ right => ⟨rfl, right⟩

theorem bind {f : TestM α} {a : Except ModelError α} {g : α → TestM β} {b : α → Except ModelError β}
    (first : Gives Right f a) (second : ∀ x, Gives Right (g x) (b x)) : Gives Right (f >>= g) (a >>= b) := by
  intro c right
  obtain ⟨given, right⟩ := first c right
  rw [Operation.bind_apply]
  generalize f c = outcome at given right ⊢
  obtain ⟨result, c'⟩ := outcome
  cases given
  cases result with
  | error e => exact ⟨rfl, right⟩
  | ok x => exact second x c' right

end Gives

section Tests

variable {Right : Caches → Prop} {ix : ElementIndex} {types : ElementId → Option TypeName}

theorem testText_gives (patterns : ∀ text, Gives Right (Caches.pattern text) (compiled text))
    (pattern text : String) :
    Gives Right (testText pattern text) (return (← compiled pattern).isMatch text) := by
  have parts : testText pattern text = (do return (← (Caches.pattern pattern : TestM Text.Automaton)).isMatch text) := by
    funext c
    rw [Operation.bind_apply, testText]
    generalize c.pattern pattern = answer
    obtain ⟨automaton, c'⟩ := answer
    cases automaton <;> rfl
  rw [parts]
  exact (patterns pattern).bind fun a => .pure (a.isMatch text)

theorem classOf?_gives (typed : ∀ id, Gives Right (remember (·.declaredClass? ix id)) (.ok (types id)))
    (id : ElementId) :
    Gives Right (remember (classOf? ix id)) (.ok ((ix.ownClass? id).or ((types id).bind ix.classes.indexOf?))) := by
  intro c right
  obtain ⟨given, kept⟩ := typed id c right
  simp only [remember, classOf?] at given kept ⊢
  cases ix.ownClass? id with
  | some k => exact ⟨rfl, right⟩
  | none => exact ⟨by rw [Option.none_or, Except.ok.inj given], kept⟩

variable (typed : ∀ id, Gives Right (remember (·.declaredClass? ix id)) (.ok (types id)))
  (patterns : ∀ text, Gives Right (Caches.pattern text) (compiled text)) (entities : EntityStore) (id : ElementId)
include typed patterns

set_option linter.unusedSectionVars false in
mutual
theorem test_gives (p : Predicate) : Gives Right (test ix entities id p) (p.meaning ix entities types id) := by
  match p with
  | .name pattern => exact testText_gives patterns pattern (ix.name id)
  | .modifiers _ | .annotatedBy _ | .hasEntity _ | .synthetic => exact .pure _
  | .implements type => exact (classOf?_gives typed id).bind fun _ => .pure _
  | .typeIs type => exact (typed id).bind fun _ => .pure _
  | .negation p => exact (test_gives p).bind fun _ => .pure _
  | .all ps => exact testAll_gives ps
  | .any ps => exact testAny_gives ps
termination_by structural p

theorem testAll_gives (ps : List Predicate) :
    Gives Right (testAll ix entities id ps) (meaning ix entities types id (.all ps)) := by
  match ps with
  | [] => exact .pure true
  | p :: ps =>
    have decided : meaning ix entities types id (.all (p :: ps)) = (do
        let passed ← meaning ix entities types id p
        if passed then meaning ix entities types id (.all ps) else return false) := by
      rw [meaning, meanings, List.find?_cons]
      rcases meaning ix entities types id p with e | passed
      · rfl
      · cases passed <;> rfl
    rw [decided]
    refine (test_gives p).bind fun passed => ?_
    cases passed with
    | false => exact .pure false
    | true => exact testAll_gives ps
termination_by structural ps

theorem testAny_gives (ps : List Predicate) :
    Gives Right (testAny ix entities id ps) (meaning ix entities types id (.any ps)) := by
  match ps with
  | [] => exact .pure false
  | p :: ps =>
    have decided : meaning ix entities types id (.any (p :: ps)) = (do
        let passed ← meaning ix entities types id p
        if passed then return true else meaning ix entities types id (.any ps)) := by
      rw [meaning, meanings, List.find?_cons]
      rcases meaning ix entities types id p with e | passed
      · rfl
      · cases passed <;> rfl
    rw [decided]
    refine (test_gives p).bind fun passed => ?_
    cases passed with
    | false => exact testAny_gives ps
    | true => exact .pure true
termination_by structural ps
end

end Tests

end Predicate

/-- All remembered bindings are those of the pool. -/
def SignatureResolver.Current (pool : ClassPool) (r : SignatureResolver) : Prop :=
  ∀ low high b, Ordered.get? (low, high) r.bindings = some b → b = pool.bindingsOf low high

namespace SignatureResolver

variable {classes pool : ClassPool} {r : SignatureResolver}

theorem Current.boundIn (current : r.Current pool) : r.boundIn pool = pool.bindingsOf := by
  funext low high
  unfold SignatureResolver.boundIn
  cases remembered : Ordered.get? (low, high) r.bindings with
  | none => rfl
  | some b => exact current low high b remembered

theorem Remembers.current (h : Remembers classes pool r) (later : classes.MadeUpAfter pool)
    (acyclic : classes.Acyclic) (settled : pool = classes ∨ classes.PlainRoot) : r.Current pool := by
  intro low high b remembered
  obtain ⟨past, first, second, rfl⟩ := h.past low high b remembered
  rcases settled with rfl | root
  · rw [second.eq_of_length_le first.length_le]
  · rw [(later.between first second).bindingsOf root acyclic, later.bindingsOf root acyclic]

end SignatureResolver

/-! ## Filters -/

namespace Model

/-- Remembered work after more questions: bindings are given as the model gives them. -/
structure Recalls (m : Model) (c : Caches) : Prop where
  types : SignatureResolver.Faithful m.index.classes (m.caches.resolver.boundIn m.index.classes)
    (m.index.classes.length ≤ ·) c.resolver
  patterns : c.Compiled

section Filter

variable {classes : ClassPool} {m : Model} (informed : m.indexState.Informed classes) (acyclic : classes.Acyclic)

include informed acyclic

end Filter

end Model

namespace ShorterWayUp

def string : TypeName := .ofInternal "java/lang/String"

def number : TypeName := .ofInternal "java/lang/Number"

/-- A page gets to the root over two classes, the second of which binds its parameter. If there were a class for the
    interface, it would get there over that one first, and nothing would be bound. -/
def classes : List ClassDeclaration :=
  [{ name := "java/lang/Object", signature := some "<T:Ljava/lang/Number;>Lx/Root;"
     methods := [{ name := "get", desc := "()Ljava/lang/Object;", signature := some "()TT;" }] },
   { name := "app/Texts", superName := some "java/lang/Object"
     signature := some "Ljava/lang/Object<Ljava/lang/String;>;" },
   { name := "app/Base", superName := some "app/Texts" },
   { name := "app/Page", superName := some "app/Base", interfaces := ["ext/View"] }]

def listed : Model := ((Step.methods true).apply (.ofKind .classDef [⟨5⟩]) (.ofClasses {} classes)).2

def tested : Model := ((Step.filter (.typeIs string)).apply (.ofKind .method [⟨6⟩]) listed).2

def late : Model := ((Step.synthesize [{ type := .ofInternal "ext/View" }]).apply .template tested).2

theorem acyclic : ClassPool.Acyclic classes := by
  refine .of_rank id fun {inner outer} link => ?_
  obtain ⟨d, declared, named⟩ := Option.bind_eq_some_iff.mp link
  have alone : ∀ d ∈ classes, d.outerClass = none := by decide
  rw [alone d (List.mem_of_getElem? declared)] at named
  cases named

end ShorterWayUp

end ClassAtlas
