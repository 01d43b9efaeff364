import ClassAtlas.Proofs.LevelOrder

/-! # Supertypes

A class names its superclass and its interfaces. Whether a name has a class is another matter, and of two
classes of one name only the first is found, so the types above a class are names and the way up goes on
from the classes that these names stand for. Hierarchies may have cycles and several ways up to one type.
-/

namespace ClassAtlas

namespace ClassPool

def Names (pool : ClassPool) (c : Nat) (t : TypeName) : Prop :=
  ∃ d, pool[c]? = some d ∧ (d.superType? = some t ∨ t ∈ d.interfaceTypes)

/-- So many links lead from a class up to a type. A name that has no class leads no further. -/
inductive Above (pool : ClassPool) (c : Nat) : Nat → TypeName → Prop where
  | direct {t : TypeName} : pool.Names c t → Above pool c 1 t
  | further {n : Nat} {s t : TypeName} {d : Nat} :
      Above pool c n s → pool.indexOf? s = some d → pool.Names d t → Above pool c (n + 1) t

/-- A class names a type of which the other is the class. -/
def Extends (pool : ClassPool) (c d : Nat) : Prop := ∃ t, pool.Names c t ∧ pool.indexOf? t = some d

/-- A chain of classes from one up to another, each of which extends the one before, such that there is no
    shorter one. -/
structure ShortestChain (pool : ClassPool) (low high : Nat) (path : List Nat) : Prop where
  begins : path.head? = some low
  ends : path.getLast? = some high
  linked : path.IsChain pool.Extends
  shortest : ∀ other : List Nat, other.head? = some low → other.getLast? = some high →
    other.IsChain pool.Extends → path.length ≤ other.length

variable {pool : ClassPool} {c : Nat} {t : TypeName}

theorem mem_directSupertypes : t ∈ pool.directSupertypes c ↔ pool.Names c t := by
  unfold directSupertypes Names
  cases pool[c]? with
  | none => simp
  | some d => simp [Option.mem_toList]

theorem mem_namedSupertypes {s : TypeName} :
    t ∈ pool.namedSupertypes s ↔ ∃ d, pool.indexOf? s = some d ∧ pool.Names d t := by
  unfold namedSupertypes
  cases pool.indexOf? s with
  | none => simp
  | some d => simp [mem_directSupertypes]

theorem mem_knownSupertypes {d : Nat} : d ∈ pool.knownSupertypes c ↔ pool.Extends c d := by
  simp only [knownSupertypes, List.mem_filterMap, mem_directSupertypes, Extends]

/-! ## All supertypes -/

def namedTypes (pool : ClassPool) : List TypeName :=
  pool.flatMap fun d => d.superType?.toList ++ d.interfaceTypes

theorem Names.mem_namedTypes (named : pool.Names c t) : t ∈ pool.namedTypes := by
  obtain ⟨d, found, names⟩ := named
  refine List.mem_flatMap.mpr ⟨d, List.mem_of_getElem? found, ?_⟩
  simpa [Option.mem_toList] using names

theorem length_namedTypes (pool : ClassPool) : pool.namedTypes.length ≤ pool.linkCount := by
  have fits : ∀ d : ClassDeclaration,
      (d.superType?.toList ++ d.interfaceTypes).length ≤ d.interfaces.length + 1 := by
    intro d
    have one : d.superType?.toList.length ≤ 1 := by cases d.superType? <;> simp
    rw [List.length_append, ClassDeclaration.interfaceTypes, List.length_map]
    omega
  exact Search.length_flatMap_le fits pool

theorem Above.level {n : Nat} (above : pool.Above c n t) : ∃ k, n = k + 1 := by
  cases above <;> exact ⟨_, rfl⟩

theorem above_iff {n : Nat} : pool.Above c (n + 1) t ↔
    Search.Reaches pool.namedSupertypes (Search.fresh [] (pool.directSupertypes c)) n t := by
  constructor
  · intro above
    generalize levels : n + 1 = m at above
    induction above generalizing n with
    | direct named =>
      cases levels
      exact .start (Search.mem_fresh.mpr ⟨mem_directSupertypes.mpr named, List.not_mem_nil⟩)
    | @further k s t d above known named ih =>
      cases levels
      obtain ⟨j, rfl⟩ := above.level
      exact (ih rfl).link (mem_namedSupertypes.mpr ⟨d, known, named⟩)
  · intro path
    induction path with
    | start member => exact .direct (mem_directSupertypes.mp (Search.mem_fresh.mp member).1)
    | link _ link ih =>
      obtain ⟨d, known, named⟩ := mem_namedSupertypes.mp link
      exact .further ih known named

theorem supertypes_frontier (pool : ClassPool) (c : Nat) :
    Search.Frontier pool.namedSupertypes (Search.fresh [] (pool.directSupertypes c)) (pool.supertypes c) [] := by
  have inside : ∀ s, ∀ t ∈ pool.namedSupertypes s, t ∈ pool.namedTypes := by
    intro s t link
    obtain ⟨d, -, named⟩ := mem_namedSupertypes.mp link
    exact named.mem_namedTypes
  have distinct := Search.fresh_nodup [] (pool.directSupertypes c)
  have direct : ∀ t ∈ Search.fresh [] (pool.directSupertypes c), t ∈ pool.namedTypes ∧ t ∉ [] := fun t member =>
    ⟨(mem_directSupertypes.mp (Search.mem_fresh.mp member).1).mem_namedTypes, List.not_mem_nil⟩
  have room := Search.unseen_append distinct direct
  have all := Search.unseen_le pool.namedTypes ([] : List TypeName)
  have links := length_namedTypes pool
  refine Search.sweep_frontier inside (Search.Frontier.initial distinct) ?_
  omega

theorem mem_supertypes : t ∈ pool.supertypes c ↔ ∃ n, pool.Above c n t := by
  rw [(supertypes_frontier pool c).exhausted]
  constructor
  · rintro ⟨n, path⟩
    exact ⟨n + 1, above_iff.mpr path⟩
  · rintro ⟨n, above⟩
    obtain ⟨k, rfl⟩ := above.level
    exact ⟨k, above_iff.mp above⟩

theorem supertypes_nodup (pool : ClassPool) (c : Nat) : (pool.supertypes c).Nodup := by
  simpa using (supertypes_frontier pool c).distinct

theorem supertypes_ordered (pool : ClassPool) (c : Nat) : (pool.supertypes c).Pairwise fun s t =>
    ∀ n, pool.Above c n t → ∃ k ≤ n, pool.Above c k s := by
  have ordered := (supertypes_frontier pool c).ordered
  rw [List.append_nil] at ordered
  refine ordered.imp fun {s t} nearer n above => ?_
  obtain ⟨m, rfl⟩ := above.level
  obtain ⟨k, atMost, path⟩ := nearer m (above_iff.mp above)
  exact ⟨k + 1, by omega, above_iff.mpr path⟩

/-! ## One way up -/

theorem supertypePath?_cases (pool : ClassPool) (low high : Nat) :
    (∃ path, pool.supertypePath? low high = some path ∧ pool.ShortestChain low high path ∧
      Relation.ReflTransGen pool.Extends low high) ∨
    pool.supertypePath? low high = none ∧ ¬ Relation.ReflTransGen pool.Extends low high := by
  have links : (fun a b => b ∈ pool.knownSupertypes a) = pool.Extends :=
    funext fun a => funext fun b => propext mem_knownSupertypes
  have reaches : (∃ n, Search.Reaches pool.knownSupertypes [low] n high) ↔
      Relation.ReflTransGen pool.Extends low high := by
    rw [Search.exists_reaches_iff, links]
  have inside : ∀ x, ∀ y ∈ pool.knownSupertypes x, y ∈ List.range pool.length := by
    intro x y link
    obtain ⟨t, -, known⟩ := mem_knownSupertypes.mp link
    exact List.mem_range.mpr (indexOf?_lt known)
  have begun : Search.Frontier pool.knownSupertypes [low] [] [low] := .initial (by simp)
  have single : Search.Route pool.knownSupertypes [low] low [low] := .single (List.mem_singleton_self low)
  have room := Search.unseen_le (List.range pool.length) [low]
  have enough : [low].length + Search.unseen (List.range pool.length) ([] ++ [low]) ≤ pool.length + 1 := by
    rw [List.length_range] at room
    rw [List.length_singleton, List.nil_append]
    omega
  obtain ⟨route, found, way⟩ | ⟨missing, unreached⟩ :=
    Search.findPath_cases inside begun (.cons single .nil) (List.not_mem_nil (a := high)) enough
  · refine .inl ⟨route.reverse, found, ⟨?_, ?_, ?_, ?_⟩, reaches.mp way.reached⟩
    · obtain ⟨s, member, last⟩ := way.begins
      rw [List.head?_reverse, last, List.mem_singleton.mp member]
    · rw [List.getLast?_reverse, way.ends]
    · rw [List.isChain_reverse, ← links]
      exact way.linked
    · intro other begins ends linked
      rw [← links] at linked
      obtain ⟨n, path, length⟩ := Search.Reaches.ofPath (List.mem_singleton_self low) begins ends linked
      rw [List.length_reverse, length]
      exact way.shortest n path
  · refine .inr ⟨missing, fun path => ?_⟩
    obtain ⟨n, reached⟩ := reaches.mpr path
    exact unreached n reached

/-- Supertypes are found on every hierarchy, whatever its cycles, forks, repeated names and missing classes.
    The supertypes of a class are the names that links lead to, each once and none after a farther one. There
    is a path from one class to another if and only if they are the same or links lead from the one to the
    other, and the path is then a shortest chain of such links. -/
theorem supertype_searches_exact (pool : ClassPool) :
    (∀ c, (pool.supertypes c).Nodup ∧ (∀ t, t ∈ pool.supertypes c ↔ ∃ n, pool.Above c n t) ∧
      (pool.supertypes c).Pairwise fun s t => ∀ n, pool.Above c n t → ∃ k ≤ n, pool.Above c k s) ∧
    ∀ low high, ((pool.supertypePath? low high).isSome ↔
        high = low ∨ Relation.TransGen pool.Extends low high) ∧
      ∀ path, pool.supertypePath? low high = some path → pool.ShortestChain low high path := by
  refine ⟨fun c => ⟨supertypes_nodup pool c, fun t => mem_supertypes, supertypes_ordered pool c⟩, ?_⟩
  intro low high
  rw [← Relation.reflTransGen_iff_eq_or_transGen]
  obtain ⟨path, found, shortest, above⟩ | ⟨missing, apart⟩ := pool.supertypePath?_cases low high
  · refine ⟨by simp [found, above], fun path' given => ?_⟩
    rw [found] at given
    cases given
    exact shortest
  · refine ⟨by simp [missing, apart], fun path given => ?_⟩
    rw [missing] at given
    cases given

end ClassPool

/-! Two classes that extend each other, a second class of the first one's name, and an interface that is
not known. -/

namespace TangledHierarchy

def pool : ClassPool :=
  [{ name := "a/A", superName := some "a/B", interfaces := ["x/I"] },
   { name := "a/B", superName := some "a/A", interfaces := ["a/C"] },
   { name := "a/A", superName := some "a/C" },
   { name := "a/C", interfaces := ["x/I"] }]

/-- The class is above itself, by a detour. The second class of its name cannot be reached from anywhere. -/
theorem searched : pool.ShortestChain 0 3 [0, 1, 3] ∧ (∃ n, pool.Above 0 n ⟨"a.A"⟩) ∧
    ¬ Relation.TransGen pool.Extends 0 2 := by
  have path : pool.supertypePath? 0 3 = some [0, 1, 3] := by decide +kernel
  have above : (⟨"a.A"⟩ : TypeName) ∈ pool.supertypes 0 := by decide +kernel
  have missing : (pool.supertypePath? 0 2).isSome = false := by decide +kernel
  obtain ⟨types, paths⟩ := ClassPool.supertype_searches_exact pool
  refine ⟨(paths 0 3).2 _ path, ((types 0).2.1 _).mp above, fun linked => ?_⟩
  rw [(paths 0 2).1.mpr (.inr linked)] at missing
  cases missing

end TangledHierarchy

end ClassAtlas
