import ClassAtlas.Proofs.PropertyValues

/-! # Merged properties are a multimap

Values that are merged one after another into an empty list of properties end up by key. Every key that was
given stands there once, keys in the order in which they were first given, and under a key stand all values
given for it, one list after the other. There is only one such list of properties for a sequence of merges. So
sequences can be compared by what they give to each key, and a sequence can be merged in two parts.
-/

namespace ClassAtlas.Properties

def keys (ps : Properties) : List String := ps.map Prod.fst

/-- One key was given for the first time before the other was. -/
def GivenBefore (calls : Properties) (k k' : String) : Prop := calls.keys.idxOf k < calls.keys.idxOf k'

/-- What the given values come to, taken by key. -/
structure Collates (calls merged : Properties) : Prop where
  mem_keys : ∀ k, k ∈ merged.keys ↔ k ∈ calls.keys
  ordered : merged.keys.Pairwise (GivenBefore calls)
  values : ∀ k, valuesUnder k merged = valuesUnder k calls

/-! ## Keys and the values under them -/

section Keys

variable {ps : Properties} {k : String}

theorem keys_append (ps more : Properties) : keys (ps ++ more) = ps.keys ++ more.keys := List.map_append

theorem valuesUnder_append (k : String) (ps more : Properties) :
    valuesUnder k (ps ++ more) = valuesUnder k ps ++ valuesUnder k more := by
  simp only [valuesUnder, listsUnder, List.filter_append, List.map_append, List.flatten_append]

theorem listsUnder_eq_nil : listsUnder k ps = [] ↔ k ∉ ps.keys := by
  induction ps with
  | nil => simp [listsUnder, keys]
  | cons p rest ih =>
    rw [listsUnder_cons]
    by_cases same : p.1 = k
    · simp [same, keys]
    · rw [if_neg same, ih]
      simp [keys, Ne.symm same]

theorem listsUnder_of_mem (distinct : ps.keys.Nodup) {values : List PropertyValue} (member : (k, values) ∈ ps) :
    listsUnder k ps = [values] := by
  induction ps with
  | nil => cases member
  | cons p rest ih =>
    obtain ⟨fresh, distinct⟩ := List.nodup_cons.mp distinct
    rw [listsUnder_cons]
    rcases List.mem_cons.mp member with rfl | there
    · rw [if_pos rfl, listsUnder_eq_nil.mpr fresh]
    · have other : p.1 ≠ k := fun same => fresh (same ▸ List.mem_map_of_mem there)
      rw [if_neg other, ih distinct there]

theorem listsUnder_length (distinct : ps.keys.Nodup) (k : String) : (listsUnder k ps).length ≤ 1 := by
  by_cases present : k ∈ ps.keys
  · obtain ⟨⟨key, values⟩, member, rfl⟩ := List.mem_map.mp present
    rw [listsUnder_of_mem distinct member]
    exact le_rfl
  · rw [listsUnder_eq_nil.mpr present]
    exact Nat.zero_le 1

theorem keys_merge (k : String) (values : List PropertyValue) (ps : Properties) :
    (merge k values ps).keys = if k ∈ ps.keys then ps.keys else ps.keys ++ [k] := by
  induction ps with
  | nil => rfl
  | cons p rest ih =>
    obtain ⟨key, old⟩ := p
    by_cases same : key = k
    · simp [merge, keys, same]
    · have reduced : k ∈ keys ((key, old) :: rest) ↔ k ∈ keys rest := by
        simp [keys, Ne.symm same]
      have inside : keys (merge k values ((key, old) :: rest)) = key :: keys (merge k values rest) := by
        simp [merge, keys, same]
      rw [inside, ih, apply_ite (key :: ·)]
      simp only [reduced]
      rfl

end Keys

/-! ## The order of keys -/

section Order

variable {calls more : Properties} {k k' : String}

theorem givenBefore_of_notMem (given : k ∈ calls.keys) (late : k' ∉ calls.keys) (more : Properties) :
    GivenBefore (calls ++ more) k k' := by
  have inside := List.idxOf_lt_length_of_mem given
  rw [GivenBefore, keys_append, List.idxOf_append_of_mem given, List.idxOf_append_of_notMem late]
  omega

theorem givenBefore_append_of_mem (given : k ∈ calls.keys) (given' : k' ∈ calls.keys) :
    GivenBefore (calls ++ more) k k' ↔ GivenBefore calls k k' := by
  rw [GivenBefore, keys_append, List.idxOf_append_of_mem given, List.idxOf_append_of_mem given']
  rfl

theorem givenBefore_append_of_notMem (late : k ∉ calls.keys) (late' : k' ∉ calls.keys) :
    GivenBefore (calls ++ more) k k' ↔ GivenBefore more k k' := by
  rw [GivenBefore, keys_append, List.idxOf_append_of_notMem late, List.idxOf_append_of_notMem late']
  exact Nat.add_lt_add_iff_left

end Order

/-! ## One merge and all merges -/

namespace Collates

variable {calls merged : Properties}

theorem nodup (h : Collates calls merged) : merged.keys.Nodup := by
  apply h.ordered.imp
  intro k k' before same
  exact absurd (same ▸ before) (Nat.lt_irrefl _)

theorem empty : Collates [] [] where
  mem_keys _ := Iff.rfl
  ordered := .nil
  values _ := rfl

theorem merge (h : Collates calls merged) (k : String) (values : List PropertyValue) :
    Collates (calls ++ [(k, values)]) (merge k values merged) := by
  have kept : merged.keys.Pairwise (GivenBefore (calls ++ [(k, values)])) := by
    apply h.ordered.imp_of_mem
    intro a b there there' before
    exact (givenBefore_append_of_mem ((h.mem_keys a).mp there) ((h.mem_keys b).mp there')).mpr before
  have appended (key : String) : valuesUnder key (Properties.merge k values merged) =
      valuesUnder key (calls ++ [(k, values)]) := by
    have joined := (valuesUnder_mergeAll (listsUnder_length h.nodup key) [(k, values)]).2
    rw [valuesUnder_append, ← h.values]
    exact joined
  by_cases present : k ∈ merged.keys
  · have same : (Properties.merge k values merged).keys = merged.keys := by
      rw [keys_merge, if_pos present]
    refine ⟨fun key => ?_, same ▸ kept, appended⟩
    rw [same, h.mem_keys, keys_append, List.mem_append]
    apply (or_iff_left_of_imp _).symm
    intro last
    rw [List.mem_singleton.mp last]
    exact (h.mem_keys k).mp present
  · have longer : (Properties.merge k values merged).keys = merged.keys ++ [k] := by
      rw [keys_merge, if_neg present]
    refine ⟨fun key => ?_, ?_, appended⟩
    · rw [longer, keys_append, List.mem_append, List.mem_append, h.mem_keys]
      rfl
    · rw [longer, List.pairwise_append]
      refine ⟨kept, List.pairwise_singleton _ _, fun key there last isLast => ?_⟩
      rw [List.mem_singleton.mp isLast]
      exact givenBefore_of_notMem ((h.mem_keys key).mp there) (mt (h.mem_keys k).mpr present) _

theorem mergeAll (h : Collates calls merged) (more : Properties) :
    Collates (calls ++ more) (mergeAll merged more) := by
  induction more generalizing calls merged with
  | nil =>
    rw [List.append_nil]
    exact h
  | cons m rest ih =>
    rw [List.append_cons]
    exact ih (h.merge m.1 m.2)

end Collates

theorem mergeAll_collates (calls : Properties) : Collates calls (mergeAll [] calls) :=
  Collates.empty.mergeAll calls

/-! ## Comparing sequences -/

namespace Collates

variable {calls calls' merged merged' : Properties}

theorem mem_iff (h : Collates calls merged) {k : String} {values : List PropertyValue} :
    (k, values) ∈ merged ↔ k ∈ calls.keys ∧ values = valuesUnder k calls := by
  have under {values : List PropertyValue} (member : (k, values) ∈ merged) : values = valuesUnder k calls := by
    rw [← h.values, valuesUnder, listsUnder_of_mem h.nodup member, List.flatten_singleton]
  constructor
  · intro member
    exact ⟨(h.mem_keys k).mp (List.mem_map_of_mem member), under member⟩
  · intro pair
    obtain ⟨given, same⟩ := pair
    obtain ⟨⟨key, values'⟩, member, rfl⟩ := List.mem_map.mp ((h.mem_keys k).mpr given)
    rw [same, ← under member]
    exact member

theorem values?_eq (h : Collates calls merged) (k : String) :
    values? merged k = if k ∈ calls.keys then some (valuesUnder k calls) else none := by
  cases found : List.find? (fun p => p.1 == k) merged with
  | none =>
    have absent : k ∉ calls.keys := by
      intro given
      have there : (k, valuesUnder k calls) ∈ merged := h.mem_iff.mpr ⟨given, rfl⟩
      simpa using List.find?_eq_none.mp found _ there
    rw [values?, found, if_neg absent]
    rfl
  | some p =>
    obtain rfl : p.1 = k := by simpa using List.find?_some found
    obtain ⟨given, values⟩ := h.mem_iff.mp (List.mem_of_find?_eq_some found)
    rw [values?, found, if_pos given, ← values]
    rfl

theorem perm (h : Collates calls merged) (h' : Collates calls' merged')
    (same : ∀ k, listsUnder k calls = listsUnder k calls') : merged.Perm merged' := by
  have given (k : String) : k ∈ calls.keys ↔ k ∈ calls'.keys := by
    rw [← not_iff_not, ← listsUnder_eq_nil, ← listsUnder_eq_nil, same]
  apply (List.perm_ext_iff_of_nodup h.nodup.of_map h'.nodup.of_map).mpr
  intro p
  rw [h.mem_iff, h'.mem_iff, given, valuesUnder, valuesUnder, same]

theorem unique (h : Collates calls merged) (h' : Collates calls merged') : merged = merged' := by
  -- Entries under different keys stand in the order of their keys, so the two permutations are the same.
  apply (h.perm h' fun _ => rfl).eq_of_pairwise _ (List.pairwise_map.mp h.ordered) (List.pairwise_map.mp h'.ordered)
  intro p p' _ _ before after
  exact absurd (Nat.lt_trans before after) (Nat.lt_irrefl _)

theorem givenBefore (h : Collates calls merged) {k k' : String} (there : k ∈ merged.keys) (there' : k' ∈ merged.keys)
    (before : GivenBefore merged k k') : GivenBefore calls k k' := by
  have ordered := List.pairwise_iff_getElem.mp h.ordered _ _ (List.idxOf_lt_length_of_mem there)
    (List.idxOf_lt_length_of_mem there') before
  rwa [List.getElem_idxOf, List.getElem_idxOf] at ordered

theorem of_collated (h : Collates (calls ++ merged') merged) (h' : Collates calls' merged') :
    Collates (calls ++ calls') merged where
  mem_keys k := by
    rw [h.mem_keys, keys_append, keys_append, List.mem_append, List.mem_append, h'.mem_keys]
  ordered := by
    apply h.ordered.imp_of_mem
    intro k k' there there' before
    have later {key : String} (there : key ∈ merged.keys) (absent : key ∉ calls.keys) : key ∈ merged'.keys := by
      rw [h.mem_keys, keys_append, List.mem_append] at there
      exact there.resolve_left absent
    by_cases given : k ∈ calls.keys
    · by_cases given' : k' ∈ calls.keys
      · rw [givenBefore_append_of_mem given given'] at before ⊢
        exact before
      · exact givenBefore_of_notMem given given' _
    · by_cases given' : k' ∈ calls.keys
      · exact absurd (Nat.lt_trans before (givenBefore_of_notMem given' given merged')) (Nat.lt_irrefl _)
      · rw [givenBefore_append_of_notMem given given'] at before ⊢
        exact h'.givenBefore (later there given) (later there' given') before
  values k := by
    rw [h.values, valuesUnder_append, valuesUnder_append, h'.values]

end Collates

theorem listsUnder_swap {k k' : String} (different : k ≠ k') (values values' : List PropertyValue)
    (before after : Properties) (key : String) :
    listsUnder key (before ++ (k, values) :: (k', values') :: after) =
      listsUnder key (before ++ (k', values') :: (k, values) :: after) := by
  have pair : listsUnder key ((k, values) :: (k', values') :: after) =
      listsUnder key ((k', values') :: (k, values) :: after) := by
    simp only [listsUnder_cons]
    by_cases same : k = key
    · have other : k' ≠ key := fun same' => different (same.trans same'.symm)
      simp only [if_neg other]
    · simp only [if_neg same]
  simp only [listsUnder, List.filter_append, List.map_append] at pair ⊢
  rw [pair]

/-- Merging is a multimap. A sequence of merges leaves each key once, in the order of first appearance, with the
    values of all its merges in order. Merges under different keys commute up to the order of keys. The
    second part of a sequence can be merged by itself first and its result be merged key by key. -/
theorem merging_builds_multimap :
    (∀ calls, (mergeAll [] calls).keys.Nodup ∧ Collates calls (mergeAll [] calls) ∧
      ∀ k, values? (mergeAll [] calls) k = if k ∈ keys calls then some (valuesUnder k calls) else none) ∧
    (∀ before after k k' values values', k ≠ k' →
      List.Perm (mergeAll [] (before ++ (k, values) :: (k', values') :: after))
        (mergeAll [] (before ++ (k', values') :: (k, values) :: after))) ∧
    ∀ first second, mergeAll (mergeAll [] first) (mergeAll [] second) = mergeAll [] (first ++ second) := by
  refine ⟨fun calls => ?_, fun before after k k' values values' different => ?_, fun first second => ?_⟩
  · have collated := mergeAll_collates calls
    exact ⟨collated.nodup, collated, collated.values?_eq⟩
  · apply (mergeAll_collates _).perm (mergeAll_collates _)
    exact listsUnder_swap different values values' before after
  · have parts := (mergeAll_collates first).mergeAll (mergeAll [] second)
    exact (parts.of_collated (mergeAll_collates second)).unique (mergeAll_collates _)

namespace PathsAndVerbs

def path (value : String) : String × List PropertyValue := ("path", [.text value])

def verb : String × List PropertyValue := ("verb", [])

/-- The key that is given without a value has its place too, and the place is what changes. -/
theorem merged_in_either_order :
    ("path" ≠ "verb" ∧ List.Perm (mergeAll [] [path "/a", verb, path "/b"]) (mergeAll [] [verb, path "/a", path "/b"])) ∧
    mergeAll [] [path "/a", verb, path "/b"] = [("path", [.text "/a", .text "/b"]), ("verb", [])] ∧
    mergeAll [] [verb, path "/a", path "/b"] = [("verb", []), ("path", [.text "/a", .text "/b"])] := by
  have different : "path" ≠ "verb" := by decide
  obtain ⟨-, commute, -⟩ := merging_builds_multimap
  exact ⟨⟨different, commute [] [path "/b"] _ _ _ _ different⟩, by decide, by decide⟩

end PathsAndVerbs

end ClassAtlas.Properties
