import Mathlib.Data.List.Perm.Subperm
import Mathlib.Logic.Relation
import ClassAtlas.Proofs.Growth
import ClassAtlas.Proofs.Ordered

/-! # Resolving is parsing

The types of declarations, said without a memory: a signature is parsed in the scope of the classes around
it, and what has none, or none that can be parsed, has the type that its descriptor or its named supertypes
give. A resolver remembers what it has resolved, and while it resolves a class it remembers a type for it
that may be wrong. As long as no class is enclosed in itself, nobody asks for that class meanwhile, and
what the resolver answers is what the definitions here say, whatever it was asked before.
-/

namespace ClassAtlas

namespace ClassPool

/-! ## Enclosing classes -/

/-- No class is enclosed in itself, directly or through others. -/
def Acyclic (pool : ClassPool) : Prop :=
  ∀ c, ¬ Relation.TransGen (fun inner outer => pool.outerClass? inner = some outer) c c

theorem Acyclic.of_rank {pool : ClassPool} (rank : Nat → Nat)
    (grows : ∀ {inner outer}, pool.outerClass? inner = some outer → rank inner < rank outer) : pool.Acyclic := by
  have further : ∀ {inner outer}, Relation.TransGen
      (fun inner outer => pool.outerClass? inner = some outer) inner outer → rank inner < rank outer := by
    intro inner outer path
    induction path with
    | single link => exact grows link
    | tail _ link ih => exact Nat.lt_trans ih (grows link)
  exact fun c path => Nat.lt_irrefl _ (further path)

end ClassPool

namespace Search

variable {α : Type} {fuel : Nat} {next : α → Option α}

def links (next : α → Option α) : (fuel : Nat) → (current : α) → List α
  | 0, _ => []
  | fuel + 1, current =>
    match next current with
    | none => []
    | some n => n :: links next fuel n

theorem links_some {a n : α} (link : next a = some n) (fuel : Nat) :
    links next (fuel + 1) a = n :: links next fuel n := by
  rw [links, link]

theorem mem_links {a b : α} (member : b ∈ links next fuel a) :
    Relation.TransGen (fun x y => next x = some y) a b := by
  induction fuel generalizing a with
  | zero => cases member
  | succ fuel ih =>
    unfold links at member
    split at member
    · cases member
    · next n link =>
        rcases List.mem_cons.mp member with rfl | later
        · exact .single link
        · exact .head link (ih later)

theorem mem_findPath [BEq α] [LawfulBEq α] {next : α → List α} {goal : α} {queue : List (List α)}
    {seen path : List α} (found : findPath next goal fuel queue seen = some path) {P : α → Prop}
    (begun : ∀ trail ∈ queue, ∀ x ∈ trail, P x) (linked : ∀ x y, y ∈ next x → P y) : ∀ x ∈ path, P x := by
  induction fuel generalizing queue seen with
  | zero => cases found
  | succ fuel ih =>
    match queue with
    | [] => cases found
    | [] :: queue => exact ih found fun trail member => begun trail (List.mem_cons_of_mem _ member)
    | (x :: trail) :: queue =>
      unfold findPath at found
      split at found
      · cases found
        intro y member
        exact begun _ List.mem_cons_self y (List.mem_reverse.mp member)
      · refine ih found fun longer member => ?_
        rcases List.mem_append.mp member with waiting | new
        · exact begun longer (List.mem_cons_of_mem _ waiting)
        · obtain ⟨y, fresh, rfl⟩ := List.mem_map.mp new
          intro z member
          rcases List.mem_cons.mp member with rfl | earlier
          · exact linked x z (mem_fresh.mp fresh).1
          · exact begun _ List.mem_cons_self z earlier

variable {next : α → Option α} (acyclic : ∀ a, ¬ Relation.TransGen (fun x y => next x = some y) a a)

include acyclic

theorem links_nodup (fuel : Nat) (a : α) : (a :: links next fuel a).Nodup := by
  induction fuel generalizing a with
  | zero => simp [links]
  | succ fuel ih =>
    have notAgain : a ∉ links next (fuel + 1) a := fun member => acyclic a (mem_links member)
    refine List.nodup_cons.mpr ⟨notAgain, ?_⟩
    unfold links
    split
    · exact .nil
    · next n _ => exact ih n

theorem walk_eq [BEq α] [LawfulBEq α] {visited : List α} {a : α}
    (before : ∀ v ∈ visited, Relation.ReflTransGen (fun x y => next x = some y) v a) :
    walk next fuel visited a = visited ++ links next fuel a := by
  induction fuel generalizing visited a with
  | zero => simp [walk, links]
  | succ fuel ih =>
    unfold walk links
    cases link : next a with
    | none => simp
    | some n =>
      have unseen : visited.contains n = false := by
        rw [← Bool.not_eq_true, List.contains_iff_mem]
        intro seen
        exact acyclic n (.tail' (before n seen) link)
      simp only [unseen, Bool.false_eq_true, if_false]
      rw [ih, List.append_assoc]
      · rfl
      · intro v member
        rcases List.mem_append.mp member with earlier | same
        · exact (before v earlier).tail link
        · rw [List.mem_singleton.mp same]

omit acyclic in
theorem links_stable {a : α} (spare : (links next (fuel + 1) a).length ≤ fuel) :
    links next fuel a = links next (fuel + 1) a := by
  induction fuel generalizing a with
  | zero => exact (List.eq_nil_of_length_eq_zero (Nat.le_zero.mp spare)).symm
  | succ fuel ih =>
    rw [links] at spare ⊢
    rw [links]
    cases link : next a with
    | none => rfl
    | some n =>
      simp only [link, List.length_cons] at spare
      simp only [ih (by omega : (links next (fuel + 1) n).length ≤ fuel)]

end Search

namespace ClassPool

variable {pool : ClassPool}

theorem mem_supertypePath? {low high c : Nat} {path : List Nat} (route : pool.supertypePath? low high = some path)
    (member : c ∈ path) : c = low ∨ c < pool.length := by
  refine Search.mem_findPath (P := fun c => c = low ∨ c < pool.length) route ?_ ?_ c member
  · intro trail only x here
    rw [List.mem_singleton.mp only] at here
    exact .inl (List.mem_singleton.mp here)
  · intro x y link
    obtain ⟨t, -, known⟩ := List.mem_filterMap.mp link
    exact .inr (indexOf?_lt known)

theorem outerClass?_lt {inner outer : Nat} (link : pool.outerClass? inner = some outer) :
    inner < pool.length ∧ outer < pool.length := by
  obtain ⟨d, found, named⟩ := Option.bind_eq_some_iff.mp link
  obtain ⟨name, -, known⟩ := Option.bind_eq_some_iff.mp named
  exact ⟨(List.getElem?_eq_some_iff.mp found).1, indexOf?_lt known⟩

section Enclosing

variable {pool : ClassPool} (acyclic : pool.Acyclic) (c : Nat)

include acyclic

theorem links_length {c : Nat} (known : c < pool.length) (fuel : Nat) :
    (Search.links pool.outerClass? fuel c).length < pool.length := by
  have inside : c :: Search.links pool.outerClass? fuel c ⊆ List.range pool.length := by
    intro o member
    rw [List.mem_range]
    rcases List.mem_cons.mp member with rfl | outer
    · exact known
    · cases Search.mem_links outer with
      | single link => exact (outerClass?_lt link).2
      | tail _ link => exact (outerClass?_lt link).2
  have bound := ((Search.links_nodup acyclic fuel c).subperm inside).length_le
  simp only [List.length_cons, List.length_range] at bound
  omega

theorem outerChain_links : pool.outerChain c = (Search.links pool.outerClass? pool.length c).reverse := by
  unfold outerChain
  rw [Search.walk_eq acyclic]
  · rfl
  · intro v member
    rw [List.mem_singleton.mp member]

theorem outerChain_eq :
    pool.outerChain c = match pool.outerClass? c with | none => [] | some o => pool.outerChain o ++ [o] := by
  cases link : pool.outerClass? c with
  | none =>
    rw [outerChain_links acyclic]
    cases pool.length <;> simp [Search.links, link]
  | some o =>
    obtain ⟨known, -⟩ := outerClass?_lt link
    obtain ⟨fuel, size⟩ := Nat.exists_eq_add_one_of_ne_zero (Nat.ne_zero_of_lt known)
    have spare := links_length acyclic known (fuel + 2)
    rw [Search.links_some link, List.length_cons, size] at spare
    have stable : Search.links pool.outerClass? fuel o = Search.links pool.outerClass? (fuel + 1) o :=
      Search.links_stable (by omega)
    simp only [outerChain_links acyclic, size, Search.links_some link, stable, List.reverse_cons]

theorem outerChain_outer {c o : Nat} (link : pool.outerClass? c = some o) :
    pool.outerChain c = pool.outerChain o ++ [o] := by
  rw [outerChain_eq acyclic c, link]

theorem outerChain_outermost {c : Nat} (none : pool.outerClass? c = none) : pool.outerChain c = [] := by
  rw [outerChain_eq acyclic c, none]

theorem mem_outerChain {c o : Nat} (member : o ∈ pool.outerChain c) :
    pool.outerChain o ⊆ pool.outerChain c ∧ (pool.outerChain o).length < (pool.outerChain c).length := by
  cases link : pool.outerClass? c with
  | none =>
    rw [outerChain_outermost acyclic link] at member
    cases member
  | some next =>
    have chain := outerChain_outer acyclic link
    rw [chain] at member ⊢
    simp only [List.length_append, List.length_singleton]
    rcases List.mem_append.mp member with further | same
    · have shorter : (pool.outerChain next).length < (pool.outerChain c).length := by simp [chain]
      obtain ⟨inside, less⟩ := mem_outerChain further
      exact ⟨List.Subset.trans inside (List.subset_append_left _ _), by omega⟩
    · rw [List.mem_singleton.mp same]
      exact ⟨List.subset_append_left _ _, by omega⟩
termination_by (pool.outerChain c).length

theorem outerChain_lt {c o : Nat} (member : o ∈ pool.outerChain c) : o < pool.length := by
  rw [outerChain_links acyclic, List.mem_reverse] at member
  cases Search.mem_links member with
  | single link => exact (outerClass?_lt link).2
  | tail _ link => exact (outerClass?_lt link).2

theorem not_mem_outerChain : c ∉ pool.outerChain c :=
  fun member => Nat.lt_irrefl _ (mem_outerChain acyclic member).2

theorem outerChain_length_le : (pool.outerChain c).length ≤ pool.length := by
  cases link : pool.outerClass? c with
  | none => simp [outerChain_outermost acyclic link]
  | some o =>
    have bound := links_length acyclic (outerClass?_lt link).1 pool.length
    rw [outerChain_links acyclic, List.length_reverse]
    omega

end Enclosing

/-! ## Types without a memory -/

def classIn (pool : ClassPool) (scope : TypeScope) (c : Nat) : ClassSignature :=
  (pool[c]?.bind fun d => d.signature.bind fun text =>
    (Signature.parseClass scope d.typeName text).toOption).getD (SignatureResolver.erasedClass pool c)

def within (pool : ClassPool) (scope : TypeScope) (c : Nat) : TypeScope :=
  match pool[c]? with
  | none => scope
  | some d => scope.push (.ofClass d.typeName) (pool.classIn scope c).parameters

def scopeAround (pool : ClassPool) (c : Nat) : TypeScope := (pool.outerChain c).foldl pool.within .empty

def scopeInside (pool : ClassPool) (c : Nat) : TypeScope := pool.within (pool.scopeAround c) c

def classType (pool : ClassPool) (c : Nat) : ClassSignature := pool.classIn (pool.scopeAround c) c

def parsedOr {α : Type} (parse : String → Except SignatureError α) (signature : Option String)
    (desc : String) : Option α :=
  (signature.bind fun text => (parse text).toOption).or (parse desc).toOption

def methodType (pool : ClassPool) (c m : Nat) : Option MethodSignature := do
  let d ← pool[c]?
  let method ← d.methods[m]?
  parsedOr (Signature.parseMethod (pool.scopeInside c) (.ofMethod d.typeName method.name method.desc))
    method.signature method.desc

def fieldType (pool : ClassPool) (c f : Nat) : Option TypeSignature := do
  let d ← pool[c]?
  let field ← d.fields[f]?
  parsedOr (Signature.parseField (pool.scopeInside c)) field.signature field.desc

/-- What a class binds the parameters of a direct supertype to, when its own are bound. -/
def carried (pool : ClassPool) (low high : Nat) (current : TypeBindings) : TypeBindings :=
  match pool[high]? with
  | none => current
  | some d =>
    let reference := (pool.classType low).supertypes.find? fun s => s.typeName? == some d.typeName
    let args := (reference.map fun s => TypeSignature.specializeAll current s.args).getD []
    .ofArguments d.typeName (pool.classType high).parameters args

def carriedAlong (pool : ClassPool) : List Nat → TypeBindings → TypeBindings
  | low :: high :: rest, current => carriedAlong pool (high :: rest) (pool.carried low high current)
  | _, current => current

/-- What a class binds the parameters of a supertype to. -/
def bindingsOf (pool : ClassPool) (low high : Nat) : TypeBindings :=
  match pool.supertypePath? low high with
  | none => .empty
  | some path => pool.carriedAlong path .empty

def frame? (pool : ClassPool) (c : Nat) : Option ScopeFrame :=
  pool[c]?.map fun d => ⟨.ofClass d.typeName, (pool.classType c).parameters⟩

theorem scopeInside_frames (pool : ClassPool) (c : Nat) :
    (pool.scopeInside c).frames = (pool.scopeAround c).frames ++ (pool.frame? c).toList := by
  unfold scopeInside within frame?
  cases pool[c]? with
  | none => simp
  | some d => rfl

theorem scopeAround_frames (acyclic : pool.Acyclic) (c : Nat) :
    (pool.scopeAround c).frames = (pool.outerChain c).filterMap pool.frame? := by
  cases link : pool.outerClass? c with
  | none =>
    unfold scopeAround
    rw [outerChain_outermost acyclic link]
    rfl
  | some o =>
    have chain := outerChain_outer acyclic link
    have around : pool.scopeAround c = pool.scopeInside o := by
      unfold scopeAround
      rw [chain, List.foldl_append]
      rfl
    have shorter : (pool.outerChain o).length < (pool.outerChain c).length := by simp [chain]
    rw [around, scopeInside_frames, scopeAround_frames acyclic o, chain, List.filterMap_append]
    cases frame : pool.frame? o <;> simp [frame]
termination_by (pool.outerChain c).length

end ClassPool

namespace ElementIndex

def seenFrom (ix : ElementIndex) (owner : ElementId) (declaring : Nat) (s : TypeSignature) : TypeSignature :=
  match ix.classIndex? owner with
  | none => s
  | some seen => if seen = declaring then s else s.specialize (ix.classes.bindingsOf seen declaring)

def typeOf (ix : ElementIndex) (id : ElementId) : Option TypeSignature :=
  match ix.get? id with
  | none => none
  | some (.classDef c) => ix.classes[c]?.map fun d =>
    .ofType d.typeName ((ix.classes.classType c).parameters.map fun p => .ofVariable ⟨p.name, .ofClass d.typeName⟩)
  | some (.member .field declaring position owner _) =>
    (ix.classes.fieldType declaring position).map (ix.seenFrom owner declaring)
  | some (.member .method declaring position owner _) =>
    ((ix.classes.methodType declaring position).map (·.returnType)).map (ix.seenFrom owner declaring)
  | some (.parameter method i) =>
    match ix.get? method with
    | some (.member .method declaring position owner _) =>
      ((ix.classes.methodType declaring position).bind (·.parameters[i]?)).map (ix.seenFrom owner declaring)
    | _ => none
  | some (.signature _ s) => some s
  | some (.annotationUse _ _) =>
    ((ix.annotationAt? id).bind AnnotationEntry.typeName?).map (TypeSignature.ofType ·)
  | some (.value _ (.type t)) => some (.ofType t)
  | some (.value _ (.str _)) => some (.ofType .string)
  | some (.value _ _) => none

end ElementIndex

/-! ## What a resolver remembers -/

namespace Ordered

variable {κ ν : Type} [BEq κ] [LawfulBEq κ]

/-- The entries are those of a table, except for the keys that are off limits. -/
def Records (table : κ → ν) (off : κ → Prop) (entries : List (κ × ν)) : Prop :=
  ∀ key value, ¬ off key → get? key entries = some value → value = table key

namespace Records

variable {table : κ → ν} {off : κ → Prop} {entries : List (κ × ν)}

theorem begin (h : Records table off entries) (key : κ) (value : ν) :
    Records table (fun other => other = key ∨ off other) (put key value entries) := by
  intro other value' free found
  simp only [not_or] at free
  exact h other value' free.2 (get?_put_ne free.1 value entries ▸ found)

theorem finish {key : κ} (h : Records table (fun other => other = key ∨ off other) entries) {value : ν}
    (exact : value = table key) : Records table off (put key value entries) := by
  intro other value' free found
  by_cases same : other = key
  · cases same
    rw [get?_put_self] at found
    exact (Option.some.inj found).symm.trans exact
  · exact h other value' (by simp [same, free]) (get?_put_ne same _ entries ▸ found)

theorem put (h : Records table off entries) {key : κ} {value : ν} (exact : value = table key) :
    Records table off (put key value entries) :=
  finish (fun other value free => h other value fun member => free (.inr member)) exact

end Records

end Ordered

namespace SignatureResolver

/-- All that is remembered is as the pool has it, except for classes that are off limits. Bindings may have
    been remembered otherwise: together with those of the pool they are the given ones. -/
structure Faithful (pool : ClassPool) (bound : Nat → Nat → TypeBindings) (off : Nat → Prop)
    (r : SignatureResolver) : Prop where
  classes : Ordered.Records pool.classType off r.classes
  methods : Ordered.Records (fun place => pool.methodType place.1 place.2) (fun _ => False) r.methods
  fields : Ordered.Records (fun place => pool.fieldType place.1 place.2) (fun _ => False) r.fields
  bindings : ∀ low high, (Ordered.get? (low, high) r.bindings).getD (pool.bindingsOf low high) = bound low high

/-- What is remembered of classes that are off limits is the same. -/
structure Spares (off : Nat → Prop) (r r' : SignatureResolver) : Prop where
  classes : ∀ c, off c → Ordered.get? c r'.classes = Ordered.get? c r.classes
  methods : ∀ c i, off c → Ordered.get? (c, i) r'.methods = Ordered.get? (c, i) r.methods
  fields : ∀ c i, off c → Ordered.get? (c, i) r'.fields = Ordered.get? (c, i) r.fields

section Memory

variable {pool : ClassPool} {bound : Nat → Nat → TypeBindings} {off : Nat → Prop} {r r' : SignatureResolver}

theorem Faithful.initial (pool : ClassPool) : Faithful pool pool.bindingsOf (fun _ => False) {} where
  classes _ _ _ found := nomatch found
  methods _ _ _ found := nomatch found
  fields _ _ _ found := nomatch found
  bindings _ _ := rfl

theorem Faithful.countIf (faithful : Faithful pool bound off r) (refused : Bool) :
    Faithful pool bound off (r.countIf refused) := by
  cases refused with
  | true => exact { faithful with }
  | false => exact faithful

theorem Spares.refl (off : Nat → Prop) (r : SignatureResolver) : Spares off r r :=
  ⟨fun _ _ => rfl, fun _ _ _ => rfl, fun _ _ _ => rfl⟩

theorem Spares.trans {r'' : SignatureResolver} (first : Spares off r r') (second : Spares off r' r'') :
    Spares off r r'' :=
  ⟨fun c away => (second.classes c away).trans (first.classes c away),
    fun c i away => (second.methods c i away).trans (first.methods c i away),
    fun c i away => (second.fields c i away).trans (first.fields c i away)⟩

theorem Spares.mono {off' : Nat → Prop} (spares : Spares off' r r') (fewer : ∀ c, off c → off' c) : Spares off r r' :=
  ⟨fun c away => spares.classes c (fewer c away), fun c i away => spares.methods c i (fewer c away),
    fun c i away => spares.fields c i (fewer c away)⟩

theorem Spares.setClass (spares : Spares off r r') {c : Nat} (free : ¬ off c) (s : ClassSignature) :
    Spares off r (r'.setClass c s) where
  classes x away := by
    have other : x ≠ c := fun same => free (same ▸ away)
    exact (Ordered.get?_put_ne other s r'.classes).trans (spares.classes x away)
  methods := spares.methods
  fields := spares.fields

theorem Spares.countIf (spares : Spares off r r') (refused : Bool) : Spares off r (r'.countIf refused) := by
  cases refused with
  | true => exact { spares with }
  | false => exact spares

end Memory

/-- A query has this answer, whatever is remembered, and touches nothing that is off limits. -/
def Answers (pool : ClassPool) (bound : Nat → Nat → TypeBindings) (off : Nat → Prop) {α : Type}
    (query : SignatureResolver → α × SignatureResolver) (a : α) : Prop :=
  ∀ r, Faithful pool bound off r →
    (query r).1 = a ∧ Faithful pool bound off (query r).2 ∧ Spares off r (query r).2

namespace Answers

variable {pool : ClassPool} {bound : Nat → Nat → TypeBindings} {off : Nat → Prop} {α β : Type}
  {f : SignatureResolver → α × SignatureResolver}

theorem known (a : α) : Answers pool bound off (fun r => (a, r)) a :=
  fun r faithful => ⟨rfl, faithful, .refl off r⟩

theorem bind {g : α → SignatureResolver → β × SignatureResolver} {a : α} {b : β} (hf : Answers pool bound off f a)
    (hg : Answers pool bound off (g a) b) : Answers pool bound off (fun r => g (f r).1 (f r).2) b := by
  intro r faithful
  obtain ⟨answer, faithful', spares⟩ := hf r faithful
  change (g (f r).1 (f r).2).1 = b ∧ Faithful pool bound off (g (f r).1 (f r).2).2 ∧
    Spares off r (g (f r).1 (f r).2).2
  rw [answer]
  obtain ⟨answer', faithful'', spares'⟩ := hg _ faithful'
  exact ⟨answer', faithful'', spares.trans spares'⟩

theorem map {a : α} (hf : Answers pool bound off f a) (g : α → β) :
    Answers pool bound off (fun r => (g (f r).1, (f r).2)) (g a) :=
  hf.bind (g := fun a r => (g a, r)) (.known _)

end Answers

/-! ## Queries -/

section Parsing

variable {pool : ClassPool} {bound : Nat → Nat → TypeBindings} {off : Nat → Prop}

theorem parseClass_answers (c : Nat) (scope : TypeScope) :
    Answers pool bound off (parseClass pool c scope) (pool.classIn scope c) := by
  intro r faithful
  unfold parseClass ClassPool.classIn
  cases pool[c]? with
  | none => exact ⟨rfl, faithful, .refl off r⟩
  | some d =>
    simp only [Option.bind_some]
    cases d.signature with
    | none => exact ⟨rfl, faithful, .refl off r⟩
    | some text =>
      simp only [Option.bind_some]
      cases Signature.parseClass scope d.typeName text with
      | ok s => exact ⟨rfl, faithful, .refl off r⟩
      | error e => exact ⟨rfl, faithful.countIf true, (Spares.refl off r).countIf true⟩

theorem pushClasses_answers {resolve : Nat → SignatureResolver → ClassSignature × SignatureResolver}
    {cs : List Nat} (each : ∀ c ∈ cs, Answers pool bound off (resolve c) (pool.classType c)) (scope : TypeScope) :
    Answers pool bound off (pushClasses pool resolve cs scope) ⟨scope.frames ++ cs.filterMap pool.frame?⟩ := by
  induction cs generalizing scope with
  | nil =>
    rw [List.filterMap_nil, List.append_nil]
    exact .known scope
  | cons c rest ih =>
    have first := each c List.mem_cons_self
    have later := ih fun c' member => each c' (List.mem_cons_of_mem _ member)
    refine first.bind (g := fun s => pushClasses pool resolve rest (match pool[c]? with
      | none => scope
      | some d => scope.push (.ofClass d.typeName) s.parameters)) ?_
    rw [List.filterMap_cons, ClassPool.frame?]
    cases pool[c]? with
    | none => exact later scope
    | some d =>
      have pushed := later (scope.push (.ofClass d.typeName) (pool.classType c).parameters)
      simpa [TypeScope.push] using pushed

/-- Resolving a class gives its signature. The class itself is not asked for meanwhile: only classes around
    it are, and around those are still fewer, so that the fuel lasts. -/
theorem resolveClass_answers (acyclic : pool.Acyclic) {fuel c : Nat}
    (enough : (pool.outerChain c).length < fuel) (free : ∀ o ∈ c :: pool.outerChain c, ¬ off o) :
    Answers pool bound off (resolveClass pool fuel c) (pool.classType c) := by
  induction fuel generalizing c off with
  | zero => omega
  | succ fuel ih =>
    intro r faithful
    unfold resolveClass
    cases found : Ordered.get? c r.classes with
    | some s => exact ⟨faithful.classes c s (free c List.mem_cons_self) found, faithful, .refl off r⟩
    | none =>
      have each : ∀ o ∈ pool.outerChain c, Answers pool bound (fun o => o = c ∨ off o)
          (resolveClass pool fuel o) (pool.classType o) := by
        intro o member
        obtain ⟨inside, shorter⟩ := ClassPool.mem_outerChain acyclic member
        refine ih (by omega) fun o' around => ?_
        have outer : o' ∈ pool.outerChain c := by
          rcases List.mem_cons.mp around with rfl | further
          · exact member
          · exact inside further
        -- No class is around itself: this is where cycles would let the placeholder be seen.
        have other : o' ≠ c := by
          rintro rfl
          exact ClassPool.not_mem_outerChain acyclic o' outer
        simp [other, free o' (List.mem_cons_of_mem _ outer)]
      have around := pushClasses_answers each .empty
      rw [TypeScope.empty, List.nil_append, ← ClassPool.scopeAround_frames acyclic] at around
      have parsed := around.bind (parseClass_answers c (pool.scopeAround c))
      -- The placeholder may be wrong, so `c` is off limits until the answer takes its place.
      have begun : Faithful pool bound (fun o => o = c ∨ off o) (r.setClass c (erasedClass pool c)) :=
        { faithful with classes := faithful.classes.begin c _ }
      obtain ⟨same, faithful', spares⟩ := parsed _ begun
      have untouched : Spares off (r.setClass c (erasedClass pool c)) _ := spares.mono fun _ away => .inr away
      have whole := ((Spares.refl off r).setClass (free c List.mem_cons_self) (erasedClass pool c)).trans untouched
      exact ⟨same, { faithful' with classes := faithful'.classes.finish same },
        whole.setClass (free c List.mem_cons_self) _⟩

end Parsing

section Queries

variable {pool : ClassPool} {bound : Nat → Nat → TypeBindings} {off : Nat → Prop} (acyclic : pool.Acyclic)
  {c : Nat} (inside : ∀ c < pool.length, ¬ off c)

include acyclic inside

theorem classSignature_answers (free : ¬ off c) :
    Answers pool bound off (classSignature pool c) (pool.classType c) := by
  have fewer := ClassPool.outerChain_length_le acyclic c
  refine resolveClass_answers acyclic (by omega) fun o member => ?_
  rcases List.mem_cons.mp member with rfl | around
  · exact free
  · exact inside o (ClassPool.outerChain_lt acyclic around)

theorem classScope_answers (free : ¬ off c) : Answers pool bound off (classScope pool c) (pool.scopeInside c) := by
  have each : ∀ c' ∈ pool.outerChain c ++ [c], Answers pool bound off (classSignature pool c') (pool.classType c') := by
    intro c' member
    rcases List.mem_append.mp member with around | same
    · exact classSignature_answers acyclic inside (inside c' (ClassPool.outerChain_lt acyclic around))
    · exact List.mem_singleton.mp same ▸ classSignature_answers acyclic inside free
  have pushed := pushClasses_answers each .empty
  have frames : (pool.scopeInside c).frames = (pool.outerChain c ++ [c]).filterMap pool.frame? := by
    rw [ClassPool.scopeInside_frames, ClassPool.scopeAround_frames acyclic, List.filterMap_append]
    cases frame : pool.frame? c <;> simp [frame]
  rw [TypeScope.empty, List.nil_append, ← frames] at pushed
  exact pushed

omit acyclic inside in
theorem parseDeclared_fst {α : Type} (parse : String → Except SignatureError α) (signature : Option String)
    (desc : String) : (parseDeclared parse signature desc).1 = ClassPool.parsedOr parse signature desc := by
  unfold parseDeclared ClassPool.parsedOr
  cases signature with
  | none => rfl
  | some text =>
    simp only [Option.bind_some]
    cases parse text <;> rfl

omit acyclic inside in
theorem methodType_eq (pool : ClassPool) (c m : Nat) :
    (match pool[c]?.bind fun d => d.methods[m]?.map (d, ·) with
      | none => (none, false)
      | some (d, method) =>
        parseDeclared (Signature.parseMethod (pool.scopeInside c)
          (.ofMethod d.typeName method.name method.desc)) method.signature method.desc).1 =
      pool.methodType c m := by
  unfold ClassPool.methodType
  cases pool[c]? with
  | none => rfl
  | some d =>
    cases method : d.methods[m]? with
    | none => simp [method]
    | some method' => simp [method, parseDeclared_fst]

theorem methodSignature_answers (free : ¬ off c) (m : Nat) :
    Answers pool bound off (methodSignature pool c m) (pool.methodType c m) := by
  intro r faithful
  unfold methodSignature
  cases found : Ordered.get? (c, m) r.methods with
  | some s => exact ⟨faithful.methods _ s (by simp) found, faithful, .refl off r⟩
  | none =>
    obtain ⟨scope, faithful', spares⟩ := classScope_answers acyclic inside free r faithful
    have parsed := methodType_eq pool c m
    rw [← scope] at parsed
    refine ⟨parsed, { faithful'.countIf _ with methods := (faithful'.countIf _).methods.put parsed },
      { spares.countIf _ with methods := fun x i away => ?_ }⟩
    have other : (x, i) ≠ (c, m) := fun same => free ((Prod.mk.inj same).1 ▸ away)
    exact (Ordered.get?_put_ne other _ _).trans ((spares.countIf _).methods x i away)

omit acyclic inside in
theorem fieldType_eq (pool : ClassPool) (c f : Nat) :
    (match pool[c]?.bind fun d => d.fields[f]? with
      | none => (none, false)
      | some field => parseDeclared (Signature.parseField (pool.scopeInside c)) field.signature field.desc).1 =
      pool.fieldType c f := by
  unfold ClassPool.fieldType
  cases pool[c]? with
  | none => rfl
  | some d =>
    cases field : d.fields[f]? with
    | none => simp [field]
    | some field' => simp [field, parseDeclared_fst]

theorem fieldSignature_answers (free : ¬ off c) (f : Nat) :
    Answers pool bound off (fieldSignature pool c f) (pool.fieldType c f) := by
  intro r faithful
  unfold fieldSignature
  cases found : Ordered.get? (c, f) r.fields with
  | some s => exact ⟨faithful.fields _ s (by simp) found, faithful, .refl off r⟩
  | none =>
    obtain ⟨scope, faithful', spares⟩ := classScope_answers acyclic inside free r faithful
    have parsed := fieldType_eq pool c f
    rw [← scope] at parsed
    refine ⟨parsed, { faithful'.countIf _ with fields := (faithful'.countIf _).fields.put parsed },
      { spares.countIf _ with fields := fun x i away => ?_ }⟩
    have other : (x, i) ≠ (c, f) := fun same => free ((Prod.mk.inj same).1 ▸ away)
    exact (Ordered.get?_put_ne other _ _).trans ((spares.countIf _).fields x i away)

theorem stepBindings_answers {low high : Nat} (freeLow : ¬ off low) (freeHigh : ¬ off high)
    (current : TypeBindings) :
    Answers pool bound off (stepBindings pool low high current) (pool.carried low high current) := by
  intro r faithful
  unfold stepBindings ClassPool.carried
  cases pool[high]? with
  | none => exact ⟨rfl, faithful, .refl off r⟩
  | some d =>
    obtain ⟨lowType, faithful', spares⟩ := classSignature_answers acyclic inside freeLow r faithful
    obtain ⟨highType, faithful'', spares'⟩ := classSignature_answers acyclic inside freeHigh _ faithful'
    simp only [lowType, highType]
    exact ⟨trivial, faithful'', spares.trans spares'⟩

theorem pathBindings_answers {path : List Nat} (free : ∀ c ∈ path, ¬ off c) (current : TypeBindings) :
    Answers pool bound off (pathBindings pool path current) (pool.carriedAlong path current) := by
  match path with
  | [] | [_] => exact .known current
  | low :: high :: rest =>
    exact (stepBindings_answers acyclic inside (free low (by simp)) (free high (by simp)) current).bind
      (g := pathBindings pool (high :: rest))
      (pathBindings_answers (fun c member => free c (List.mem_cons_of_mem _ member)) _)

theorem bindingsFor_answers {low : Nat} (free : ¬ off low) (high : Nat) :
    Answers pool bound off (bindingsFor pool low high) (bound low high) := by
  intro r faithful
  have computed : Answers pool bound off (fun r => match pool.supertypePath? low high with
      | none => (TypeBindings.empty, r)
      | some path => pathBindings pool path .empty r) (pool.bindingsOf low high) := by
    unfold ClassPool.bindingsOf
    cases route : pool.supertypePath? low high with
    | none => exact .known TypeBindings.empty
    | some path =>
      refine pathBindings_answers acyclic inside (fun c member => ?_) .empty
      rcases ClassPool.mem_supertypePath? route member with rfl | there
      · exact free
      · exact inside c there
  have given := faithful.bindings low high
  unfold bindingsFor
  cases found : Ordered.get? (low, high) r.bindings with
  | some b =>
    rw [found] at given
    exact ⟨given, faithful, .refl off r⟩
  | none =>
    rw [found] at given
    obtain ⟨same, faithful', spares⟩ := computed r faithful
    refine ⟨same.trans given, { faithful' with bindings := fun low' high' => ?_ }, { spares with }⟩
    by_cases here : (low', high') = (low, high)
    · cases here
      rw [Ordered.get?_put_self]
      exact same.trans given
    · rw [Ordered.get?_put_ne here]
      exact faithful'.bindings low' high'

theorem ownType_answers (c : Nat) :
    Answers pool bound off (ownType pool c) (pool[c]?.map fun d =>
      .ofType d.typeName ((pool.classType c).parameters.map fun p => .ofVariable ⟨p.name, .ofClass d.typeName⟩)) := by
  unfold ownType
  cases declared : pool[c]? with
  | none => exact .known none
  | some d =>
    have there := inside c (List.getElem?_eq_some_iff.mp declared).1
    exact (classSignature_answers acyclic inside there).map fun s => some (TypeSignature.ofType d.typeName
      (s.parameters.map fun p => .ofVariable ⟨p.name, .ofClass d.typeName⟩))

end Queries

section Elements

variable {ix : ElementIndex} {bound : Nat → Nat → TypeBindings} {off : Nat → Prop}
  (acyclic : ix.classes.Acyclic) (inside : ∀ c < ix.classes.length, ¬ off c)
  (owners : ∀ {id c}, ix.classIndex? id = some c → ¬ off c)

include acyclic inside owners

variable (bound) in
theorem seenFromOption_answers (owner : ElementId) (declaring : Nat) :
    ∃ see : TypeSignature → TypeSignature,
      (∀ s, Answers ix.classes bound off (seenFromOption ix owner declaring s) (s.map see)) ∧
        (bound = ix.classes.bindingsOf → see = ix.seenFrom owner declaring) := by
  have optional {see : TypeSignature → TypeSignature}
      (each : ∀ s, Answers ix.classes bound off (seenFrom ix owner declaring s) (see s)) (s : Option TypeSignature) :
      Answers ix.classes bound off (seenFromOption ix owner declaring s) (s.map see) := by
    cases s with
    | none => exact .known none
    | some s => exact (each s).map some
  cases owned : ix.classIndex? owner with
  | none =>
    refine ⟨id, optional fun s => ?_, fun _ => ?_⟩
    · unfold seenFrom
      simp only [owned]
      exact .known s
    · funext s
      simp only [ElementIndex.seenFrom, owned, id]
  | some seen =>
    by_cases same : seen = declaring
    · refine ⟨id, optional fun s => ?_, fun _ => ?_⟩
      · unfold seenFrom
        simp only [owned, if_pos same]
        exact .known s
      · funext s
        simp only [ElementIndex.seenFrom, owned, if_pos same, id]
    · refine ⟨fun s => s.specialize (bound seen declaring), optional fun s => ?_, ?_⟩
      · unfold seenFrom
        simp only [owned, if_neg same]
        exact (bindingsFor_answers acyclic inside (owners owned) declaring).map fun b => s.specialize b
      · rintro rfl
        funext s
        simp only [ElementIndex.seenFrom, owned, if_neg same]

theorem declaredType_answers
    (members : ∀ {id kind declaring position owner origin},
      ix.get? id = some (.member kind declaring position owner origin) → ¬ off declaring) (id : ElementId) :
    ∃ type, Answers ix.classes bound off (declaredType ix id) type ∧
      (bound = ix.classes.bindingsOf → type = ix.typeOf id) := by
  have typed {declaring : Nat} (free : ¬ off declaring) (position : Nat) (owner : ElementId)
      (part : Option MethodSignature → Option TypeSignature) :
      ∃ type, Answers ix.classes bound off (fun r => seenFromOption ix owner declaring
          (part (methodSignature ix.classes declaring position r).1) (methodSignature ix.classes declaring position r).2)
          type ∧
        (bound = ix.classes.bindingsOf →
          type = (part (ix.classes.methodType declaring position)).map (ix.seenFrom owner declaring)) := by
    obtain ⟨see, answers, present⟩ := seenFromOption_answers bound acyclic inside owners owner declaring
    refine ⟨_, (methodSignature_answers acyclic inside free position).bind
      (g := fun s => seenFromOption ix owner declaring (part s)) (answers _), fun same => ?_⟩
    rw [present same]
  unfold declaredType ElementIndex.typeOf
  cases stored : ix.get? id with
  | none => exact ⟨none, .known none, fun _ => rfl⟩
  | some element =>
    cases element with
    | classDef c => exact ⟨_, ownType_answers acyclic inside c, fun _ => rfl⟩
    | member kind declaring position owner origin =>
      have free := members stored
      cases kind with
      | field =>
        obtain ⟨see, answers, present⟩ :=
          seenFromOption_answers bound acyclic inside owners owner declaring
        refine ⟨_, (fieldSignature_answers acyclic inside free position).bind (answers _), fun same => ?_⟩
        rw [present same]
      | method => exact typed free position owner (·.map (·.returnType))
    | parameter method i =>
      simp only
      cases stored : ix.get? method with
      | none => exact ⟨none, .known none, fun _ => rfl⟩
      | some owner =>
        cases owner with
        | member kind declaring position owner origin =>
          cases kind with
          | field => exact ⟨none, .known none, fun _ => rfl⟩
          | method => exact typed (members stored) position owner (·.bind (·.parameters[i]?))
        | classDef | parameter | signature | annotationUse | value => exact ⟨none, .known none, fun _ => rfl⟩
    | signature owner s => exact ⟨some s, .known (some s), fun _ => rfl⟩
    | annotationUse owner position => exact ⟨_, .known _, fun _ => rfl⟩
    | value owner literal =>
      cases literal <;> exact ⟨_, .known _, fun _ => rfl⟩

end Elements

/-! ## Many queries -/

/-- A question to a resolver. -/
inductive Query where
  | classSignature (c : Nat)
  | methodSignature (c position : Nat)
  | fieldSignature (c position : Nat)
  | bindings (low high : Nat)
  | declaredType (id : ElementId)

/-- What a resolver says to it. -/
inductive Reply where
  | classSignature (s : ClassSignature)
  | methodSignature (s : Option MethodSignature)
  | fieldSignature (s : Option TypeSignature)
  | bindings (b : TypeBindings)
  | declaredType (s : Option TypeSignature)
  deriving DecidableEq

def ask (ix : ElementIndex) : Query → SignatureResolver → Reply × SignatureResolver
  | .classSignature c, r => (classSignature ix.classes c r).map Reply.classSignature id
  | .methodSignature c position, r => (methodSignature ix.classes c position r).map Reply.methodSignature id
  | .fieldSignature c position, r => (fieldSignature ix.classes c position r).map Reply.fieldSignature id
  | .bindings low high, r => (bindingsFor ix.classes low high r).map Reply.bindings id
  | .declaredType element, r => (declaredType ix element r).map Reply.declaredType id

def askAll (ix : ElementIndex) : List Query → SignatureResolver → List Reply × SignatureResolver
  | [], r => ([], r)
  | q :: rest, r =>
    let (reply, r) := ask ix q r
    let (replies, r) := askAll ix rest r
    (reply :: replies, r)

def Query.reply (ix : ElementIndex) : Query → Reply
  | .classSignature c => .classSignature (ix.classes.classType c)
  | .methodSignature c position => .methodSignature (ix.classes.methodType c position)
  | .fieldSignature c position => .fieldSignature (ix.classes.fieldType c position)
  | .bindings low high => .bindings (ix.classes.bindingsOf low high)
  | .declaredType element => .declaredType (ix.typeOf element)

theorem ask_answers {ix : ElementIndex} (acyclic : ix.classes.Acyclic) (q : Query) :
    Answers ix.classes ix.classes.bindingsOf (fun _ => False) (ask ix q) (q.reply ix) := by
  have inside : ∀ c < ix.classes.length, ¬ False := fun _ _ => id
  cases q with
  | classSignature c => exact (classSignature_answers acyclic inside id).map Reply.classSignature
  | methodSignature c position => exact (methodSignature_answers acyclic inside id position).map Reply.methodSignature
  | fieldSignature c position => exact (fieldSignature_answers acyclic inside id position).map Reply.fieldSignature
  | bindings low high => exact (bindingsFor_answers acyclic inside id high).map Reply.bindings
  | declaredType element =>
    obtain ⟨type, answers, present⟩ := declaredType_answers acyclic inside (fun _ => id) (fun _ => id) element
    rw [Query.reply, ← present rfl]
    exact answers.map Reply.declaredType

theorem askAll_answers {ix : ElementIndex} (acyclic : ix.classes.Acyclic) (queries : List Query) :
    Answers ix.classes ix.classes.bindingsOf (fun _ => False) (askAll ix queries) (queries.map (·.reply ix)) := by
  induction queries with
  | nil => exact .known []
  | cons q rest ih =>
    exact (ask_answers acyclic q).bind (g := fun reply r =>
      (reply :: (askAll ix rest r).1, (askAll ix rest r).2)) (ih.map (q.reply ix :: ·))

/-- If no class is enclosed in itself, a resolver replies to every question as the definitions say, whatever
    it was asked before. The scope in these definitions holds the parameters of the enclosing classes from
    the outermost inwards, and the enclosing classes are found by following the links. -/
theorem replies_by_definition (ix : ElementIndex) (acyclic : ix.classes.Acyclic) (queries : List Query) :
    (askAll ix queries {}).1 = queries.map (·.reply ix) ∧
      ∀ c, (ix.classes.scopeAround c).frames = (ix.classes.outerChain c).filterMap ix.classes.frame? ∧
        ix.classes.outerChain c = match ix.classes.outerClass? c with
          | none => []
          | some o => ix.classes.outerChain o ++ [o] := by
  refine ⟨(askAll_answers acyclic queries _ (.initial _)).1, fun c => ⟨?_, ?_⟩⟩
  · exact ClassPool.scopeAround_frames acyclic c
  · exact ClassPool.outerChain_eq acyclic c

end SignatureResolver

/-! ## A class that cannot be parsed inside one that can -/

namespace NestedGenerics

open SignatureResolver

def outer : TypeName := .ofInternal "a/Outer"

/-- The inner class has a signature that cannot be parsed and a method that returns the outer one's variable. -/
def classes : List ClassDeclaration :=
  [{ name := "a/Inner", outerClass := some "a/Outer", signature := some "<"
     methods := [{ name := "get", desc := "()Ljava/lang/Object;", signature := some "()TT;" }] },
   { name := "a/Outer", signature := some "<T:Ljava/lang/Object;>Ljava/lang/Object;" },
   { name := "a/Text", superName := some "a/Outer", signature := some "La/Outer<Ljava/lang/String;>;" }]

theorem classes_acyclic : ClassPool.Acyclic classes := by
  have links : ClassPool.outerClass? classes 0 = some 1 ∧ ClassPool.outerClass? classes 1 = none ∧
      ClassPool.outerClass? classes 2 = none := by decide +kernel
  refine .of_rank id fun {inner outer} link => ?_
  have known : inner < 3 := (ClassPool.outerClass?_lt link).1
  match inner with
  | 0 =>
    cases links.1.symm.trans link
    exact Nat.one_pos
  | 1 => cases links.2.1.symm.trans link
  | 2 => cases links.2.2.symm.trans link

/-- The variable is known inside the inner class, and a subclass of the outer one binds it. -/
theorem variable_resolved :
    (askAll (.ofClasses classes) [.classSignature 0, .methodSignature 0 0, .bindings 2 1] {}).1 =
      [.classSignature (erasedClass classes 0),
        .methodSignature (some ⟨[], [], .ofVariable ⟨"T", .ofClass outer⟩, []⟩),
        .bindings ⟨[(⟨"T", .ofClass outer⟩, .ofType .string)]⟩] := by
  have same : (ElementIndex.ofClasses classes).classes = classes :=
    (ElementIndex.discoverAll_fills _ _).sameClasses
  have acyclic : (ElementIndex.ofClasses classes).classes.Acyclic := same ▸ classes_acyclic
  refine (replies_by_definition (.ofClasses classes) acyclic
    [.classSignature 0, .methodSignature 0 0, .bindings 2 1]).1.trans ?_
  decide +kernel

end NestedGenerics

end ClassAtlas
