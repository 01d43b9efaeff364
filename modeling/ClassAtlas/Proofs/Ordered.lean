import Mathlib.Data.List.Induction
import Mathlib.Data.List.Sort
import ClassAtlas.CallGraph

/-! # Ascending lists and look-up tables

An ascending list stands for a set: adding to it changes the members and nothing else, and two
ascending lists with the same members are one list. A table answers with the value that was put last
under a key.
-/

namespace ClassAtlas.Ordered

variable {α κ ν : Type}

/-- An order in which any two different items are comparable. -/
structure Strict (before : α → α → Bool) : Prop where
  irrefl : ∀ a, before a a = false
  trans : ∀ a b c, before a b → before b c → before a c
  total : ∀ a b, before a b = false → before b a = false → a = b

def Ascending (before : α → α → Bool) (xs : List α) : Prop := xs.Pairwise fun a b => before a b

section Sets

variable {before : α → α → Bool} {set : List α} (strict : Strict before)
include strict

theorem mem_add {x y : α} : y ∈ add before x set ↔ y = x ∨ y ∈ set := by
  induction set with
  | nil => simp [add]
  | cons z rest ih =>
    simp only [add]
    split
    · simp only [List.mem_cons, ih]
      tauto
    · split
      · simp
      · next notAfter notBefore =>
          have same : z = x := strict.total z x (by simpa using notAfter) (by simpa using notBefore)
          simp [same]

theorem mem_addAll {xs set : List α} {y : α} :
    y ∈ addAll before xs set ↔ y ∈ xs ∨ y ∈ set := by
  unfold addAll
  induction xs generalizing set with
  | nil => simp
  | cons x xs ih =>
    rw [List.foldl_cons, ih, mem_add strict, List.mem_cons]
    tauto

theorem add_ascending (h : Ascending before set) (x : α) :
    Ascending before (add before x set) := by
  induction set with
  | nil => simp [add, Ascending]
  | cons z rest ih =>
    obtain ⟨first, later⟩ := List.pairwise_cons.mp h
    simp only [add]
    split
    · next earlier =>
        refine List.pairwise_cons.mpr ⟨fun y member => ?_, ih later⟩
        rcases (mem_add strict).mp member with rfl | member
        · exact earlier
        · exact first y member
    · split
      · next earlier =>
          refine List.pairwise_cons.mpr ⟨fun y member => ?_, h⟩
          rcases List.mem_cons.mp member with rfl | member
          · exact earlier
          · exact strict.trans _ _ _ earlier (first y member)
      · exact h

theorem addAll_ascending (xs : List α) (h : Ascending before set) :
    Ascending before (addAll before xs set) := by
  unfold addAll
  induction xs generalizing set with
  | nil => exact h
  | cons x xs ih => exact ih (add_ascending strict h x)

theorem Ascending.ext {xs ys : List α} (hx : Ascending before xs)
    (hy : Ascending before ys) (same : ∀ a, a ∈ xs ↔ a ∈ ys) : xs = ys := by
  have irrefl : Std.Irrefl fun a b => before a b = true := ⟨fun a => by simp [strict.irrefl a]⟩
  have antisymm : Std.Antisymm fun a b => before a b = true := ⟨fun a b ab ba => by
    simpa [strict.irrefl a] using strict.trans a b a ab ba⟩
  exact List.Pairwise.eq_of_mem_iff hx hy same

theorem Ascending.nodup {xs : List α} (h : Ascending before xs) : xs.Nodup :=
  h.imp fun {a b} earlier same => by
    rw [same, strict.irrefl b] at earlier
    cases earlier

end Sets

section Sorting

variable {before : α → α → Bool} {xs : List α}

end Sorting

section Tables

variable [BEq κ] [LawfulBEq κ]

theorem get?_put_self (key : κ) (value : ν) (entries : List (κ × ν)) :
    get? key (put key value entries) = some value := by
  induction entries with
  | nil => simp [put, get?]
  | cons entry rest ih =>
    simp only [put]
    split
    · simp [get?]
    · next different =>
        simpa [get?, List.find?_cons, different] using ih

theorem get?_put_ne {key other : κ} (different : other ≠ key) (value : ν) (entries : List (κ × ν)) :
    get? other (put key value entries) = get? other entries := by
  have notKey : (key == other) = false := by simpa using different.symm
  induction entries with
  | nil => simp [put, get?, notKey]
  | cons entry rest ih =>
    simp only [put]
    split
    · next same =>
        have entryOther : (entry.1 == other) = false := by rw [eq_of_beq same]; exact notKey
        simp [get?, notKey, entryOther]
    · cases found : entry.1 == other with
      | true => simp [get?, found]
      | false => simpa [get?, List.find?_cons, found] using ih

end Tables

section Names

variable {name other : String} {entries : List (String × α)}

theorem get?_putSorted_self (name : String) (value : α) (entries : List (String × α)) :
    get? name (putSorted name value entries) = some value := by
  induction entries with
  | nil => simp [putSorted, get?]
  | cons entry rest ih =>
    simp only [putSorted]
    split
    · simp [get?]
    · split
      · simp [get?]
      · next different =>
          simpa [get?, List.find?_cons, Ne.symm different] using ih

theorem get?_putSorted_ne (different : other ≠ name) (value : α) (entries : List (String × α)) :
    get? other (putSorted name value entries) = get? other entries := by
  induction entries with
  | nil => simp [putSorted, get?, Ne.symm different]
  | cons entry rest ih =>
    simp only [putSorted]
    split
    · simp [get?, Ne.symm different]
    · split
      · next same => simp [get?, ← same, Ne.symm different]
      · cases found : entry.1 == other with
        | true => simp [get?, found]
        | false => simpa [get?, List.find?_cons, found] using ih

theorem byName_concat (entries : List (String × α)) (entry : String × α) :
    byName (entries ++ [entry]) = putSorted entry.1 entry.2 (byName entries) := by
  simp [byName]

theorem get?_byName (name : String) (entries : List (String × α)) :
    get? name (byName entries) = ((entries.filter (·.1 == name)).map (·.2)).getLast? := by
  induction entries using List.reverseRecOn with
  | nil => rfl
  | append_singleton entries entry ih =>
    rw [byName_concat, List.filter_append, List.map_append]
    by_cases same : entry.1 = name
    · rw [← same, get?_putSorted_self]
      simp
    · rw [get?_putSorted_ne (Ne.symm same), ih]
      simp [same]

/-- Entries by strictly ascending name: the entries of a map. -/
def Named (entries : List (String × α)) : Prop := entries.Pairwise fun a b => a.1 < b.1

theorem putSorted_perm (new : name ∉ entries.map (·.1)) (value : α) :
    (putSorted name value entries).Perm ((name, value) :: entries) := by
  induction entries with
  | nil => exact .refl _
  | cons entry rest ih =>
    simp only [List.map_cons, List.mem_cons, not_or] at new
    simp only [putSorted]
    split
    · exact .refl _
    · rw [if_neg new.1]
      exact ((ih new.2).cons entry).trans (.swap _ _ rest)

theorem putSorted_named (h : Named entries) (new : name ∉ entries.map (·.1)) (value : α) :
    Named (putSorted name value entries) := by
  induction entries with
  | nil => simp [putSorted, Named]
  | cons entry rest ih =>
    obtain ⟨first, later⟩ := List.pairwise_cons.mp h
    simp only [List.map_cons, List.mem_cons, not_or] at new
    simp only [putSorted]
    split
    · next earlier =>
        refine List.pairwise_cons.mpr ⟨fun e member => ?_, h⟩
        rcases List.mem_cons.mp member with rfl | member
        · exact earlier
        · exact String.lt_trans earlier (first e member)
    · next notEarlier =>
        rw [if_neg new.1]
        refine List.pairwise_cons.mpr ⟨fun e member => ?_, ih later new.2⟩
        rcases List.mem_cons.mp ((putSorted_perm new.2 value).mem_iff.mp member) with rfl | member
        · by_contra notLater
          exact new.1 (String.le_antisymm (String.not_lt.mp notLater) (String.not_lt.mp notEarlier))
        · exact first e member

theorem byName_sorts (once : (entries.map (·.1)).Nodup) :
    (byName entries).Perm entries ∧ Named (byName entries) := by
  induction entries using List.reverseRecOn with
  | nil => exact ⟨.refl _, .nil⟩
  | append_singleton entries entry ih =>
    rw [List.map_append, List.nodup_append] at once
    obtain ⟨earlier, -, apart⟩ := once
    obtain ⟨perm, named⟩ := ih earlier
    have new : entry.1 ∉ (byName entries).map (·.1) := by
      intro member
      exact apart _ ((perm.map _).mem_iff.mp member) entry.1 (by simp) rfl
    rw [byName_concat]
    refine ⟨(putSorted_perm new entry.2).trans ?_, putSorted_named named new entry.2⟩
    exact (perm.cons entry).trans (List.perm_append_singleton entry entries).symm

theorem Named.once (h : Named entries) : (entries.map (·.1)).Nodup := by
  refine List.pairwise_map.mpr (h.imp fun {a b} less same => ?_)
  rw [same] at less
  exact String.lt_irrefl _ less

theorem Named.byName_perm {entries ordered : List (String × α)} (h : Named ordered)
    (perm : entries.Perm ordered) : byName entries = ordered := by
  have once : (entries.map (·.1)).Nodup := (perm.map _).nodup_iff.mpr h.once
  obtain ⟨sorted, named⟩ := byName_sorts once
  refine List.Perm.eq_of_pairwise (fun a b _ _ less greater => ?_) named h (sorted.trans perm)
  exact absurd (String.lt_trans less greater) (String.lt_irrefl _)

end Names

theorem countP_lt {p q : α → Bool} {xs : List α} (imp : ∀ x ∈ xs, p x → q x) {a : α} (member : a ∈ xs)
    (hp : p a = false) (hq : q a = true) : xs.countP p < xs.countP q := by
  obtain ⟨front, back, rfl⟩ := List.append_of_mem member
  have before := List.countP_mono_left fun x h => imp x (List.mem_append_left _ h)
  have after := List.countP_mono_left fun x h =>
    imp x (List.mem_append_right _ (List.mem_cons_of_mem a h))
  simp only [List.countP_append, List.countP_cons, hp, hq]
  grind

end ClassAtlas.Ordered

namespace ClassAtlas

theorem ElementId.before_strict : Ordered.Strict ElementId.before where
  irrefl a := by simp [ElementId.before]
  trans a b c := by simp only [ElementId.before, decide_eq_true_eq]; omega
  total a b := by
    obtain ⟨a⟩ := a
    obtain ⟨b⟩ := b
    simp only [ElementId.before, decide_eq_false_iff_not, ElementId.mk.injEq]
    omega

theorem EntityId.before_strict : Ordered.Strict EntityId.before where
  irrefl a := by simp [EntityId.before]
  trans a b c := by simp only [EntityId.before, decide_eq_true_eq]; omega
  total a b := by
    obtain ⟨a⟩ := a
    obtain ⟨b⟩ := b
    simp only [EntityId.before, decide_eq_false_iff_not, EntityId.mk.injEq]
    omega

theorem Ordered.strict_names : Ordered.Strict fun a b : String => decide (a < b) where
  irrefl a := by simp
  trans a b c := by simpa using String.lt_trans
  total a b notLess notGreater := by
    simp only [decide_eq_false_iff_not, String.not_lt] at notLess notGreater
    exact String.le_antisymm notGreater notLess

end ClassAtlas
