import ClassAtlas.CallGraph

/-! # What method bodies use

A method calls, instantiates and names what its instructions say, each name looked up in the index.
These relations are read off the instructions alone; what a scan of the method collects is exactly
them.
-/

namespace ClassAtlas

namespace ElementIndex

variable {ix : ElementIndex} {id : ElementId}

def HasInstruction (ix : ElementIndex) (method : ElementId) (i : Instruction) : Prop :=
  ∃ c m, ix.methodDeclaration? method = some (c, m) ∧ i ∈ m.instructions

def Instantiates (ix : ElementIndex) (method cls : ElementId) : Prop :=
  ∃ typeName, ix.HasInstruction method (.instantiate typeName) ∧
    ix.classByName? (.ofInternal typeName) = some cls

def NamesReceiver (ix : ElementIndex) (method cls : ElementId) : Prop :=
  ∃ kind owner name desc, ix.HasInstruction method (.invoke kind owner name desc) ∧
    ix.classByName? (.ofInternal owner) = some cls

/-- A method calls another. Methods captured by dynamic calls count when they are followed. -/
inductive CallsMethod (ix : ElementIndex) (followLambdas : Bool) (caller callee : ElementId) : Prop where
  | invoked {kind owner name desc} (body : ix.HasInstruction caller (.invoke kind owner name desc))
      (resolved : ix.resolveMethod? (.ofInternal owner) name desc = some callee)
  | captured {name desc handles} {handle : MethodHandle} (followed : followLambdas = true)
      (body : ix.HasInstruction caller (.invokeDynamic name desc handles)) (member : handle ∈ handles)
      (resolved : ix.resolveMethod? (.ofInternal handle.owner) handle.name handle.desc = some callee)

theorem mem_ids : id ∈ ix.ids ↔ (ix.get? id).isSome := by
  obtain ⟨n⟩ := id
  simp only [ids, get?, List.mem_append, List.mem_map, List.mem_reverse, List.mem_range]
  split
  · simp only [Option.isSome_map, isSome_getElem?]
    constructor
    · rintro (⟨i, _, same⟩ | ⟨i, inside, same⟩) <;> injection same <;> omega
    · exact fun inside => .inr ⟨(n - 1).toNat, inside, by congr; omega⟩
  · simp only [Option.isSome_map, isSome_getElem?]
    constructor
    · rintro (⟨i, inside, same⟩ | ⟨i, _, same⟩) <;> injection same <;> omega
    · exact fun inside => .inl ⟨n.natAbs, inside, by congr; omega⟩

theorem length_ids (ix : ElementIndex) : ix.ids.length = ix.size := by
  simp only [ids, size, List.length_append, List.length_map, List.length_reverse, List.length_range]
  omega

theorem find?_mem_ids {key : ElementKey} (h : ix.find? key = some id) : id ∈ ix.ids := by
  unfold find? at h
  cases found : ix.discovered.findIdx? (·.1 == key) with
  | some i =>
    have inside : i < ix.discovered.length := (List.findIdx?_eq_some_iff_findIdx_eq.mp found).1
    obtain rfl : (⟨(i : Int) + 1⟩ : ElementId) = id := by simpa [found] using h
    exact List.mem_append_right _ (List.mem_map.mpr ⟨i, List.mem_range.mpr inside, rfl⟩)
  | none =>
    cases made : ix.synthetic.findIdx? (·.1 == key) with
    | none => simp [found, made] at h
    | some i =>
      have inside : i < ix.synthetic.length := (List.findIdx?_eq_some_iff_findIdx_eq.mp made).1
      obtain rfl : (⟨-(i : Int)⟩ : ElementId) = id := by simpa [found, made] using h
      exact List.mem_append_left _
        (List.mem_map.mpr ⟨i, List.mem_reverse.mpr (List.mem_range.mpr inside), rfl⟩)

theorem resolveMethod?_mem_ids {owner : TypeName} {name desc : String}
    (h : ix.resolveMethod? owner name desc = some id) : id ∈ ix.ids := by
  simp only [resolveMethod?, Option.bind_eq_bind, Option.bind_eq_some_iff] at h
  obtain ⟨_, _, _, _, found⟩ := h
  exact find?_mem_ids found

theorem CallsMethod.mem_ids {followLambdas : Bool} {caller callee : ElementId}
    (h : ix.CallsMethod followLambdas caller callee) : callee ∈ ix.ids := by
  cases h with
  | invoked _ resolved => exact resolveMethod?_mem_ids resolved
  | captured _ _ _ resolved => exact resolveMethod?_mem_ids resolved

end ElementIndex

namespace DirectUses

variable {ix : ElementIndex} {followLambdas : Bool} {method c : ElementId}

theorem foldl_append (part : DirectUses → List ElementId)
    (parts : ∀ a b : DirectUses, part (a.append b) = part a ++ part b)
    (uses : Instruction → DirectUses) (is : List Instruction) (before : DirectUses) :
    part (is.foldl (fun u i => u.append (uses i)) before) =
      part before ++ is.flatMap fun i => part (uses i) := by
  induction is generalizing before with
  | nil => simp
  | cons i is ih => rw [List.foldl_cons, ih, parts, List.append_assoc, List.flatMap_cons]

theorem mem_ofMethod (part : DirectUses → List ElementId)
    (parts : ∀ a b : DirectUses, part (a.append b) = part a ++ part b) (nothing : part {} = []) :
    c ∈ part (ofMethod ix followLambdas method) ↔
      ∃ i, ix.HasInstruction method i ∧ c ∈ part (ofInstruction ix followLambdas i) := by
  unfold ofMethod ElementIndex.HasInstruction
  cases declared : ix.methodDeclaration? method with
  | none => simp [nothing]
  | some entry =>
    rw [foldl_append part parts, nothing]
    simp only [List.nil_append, List.mem_flatMap, Option.some.injEq]
    exact ⟨fun ⟨i, body, use⟩ => ⟨i, ⟨entry.1, entry.2, rfl, body⟩, use⟩,
      fun ⟨i, ⟨_, _, same, body⟩, use⟩ => ⟨i, by rw [same]; exact body, use⟩⟩

theorem mem_instantiated : c ∈ (ofMethod ix followLambdas method).instantiated ↔ ix.Instantiates method c := by
  rw [mem_ofMethod DirectUses.instantiated (fun _ _ => rfl) rfl]
  constructor
  · rintro ⟨i, body, use⟩
    cases i with
    | instantiate typeName => exact ⟨typeName, body, by simpa [ofInstruction] using use⟩
    | invoke | fieldAccess | loadConstant => simp [ofInstruction] at use
    | invokeDynamic => cases followLambdas <;> simp [ofInstruction] at use
  · rintro ⟨typeName, body, named⟩
    exact ⟨_, body, by simp [ofInstruction, named]⟩

theorem mem_receivers : c ∈ (ofMethod ix followLambdas method).receivers ↔ ix.NamesReceiver method c := by
  rw [mem_ofMethod DirectUses.receivers (fun _ _ => rfl) rfl]
  constructor
  · rintro ⟨i, body, use⟩
    cases i with
    | invoke kind owner name desc => exact ⟨kind, owner, name, desc, body, by simpa [ofInstruction] using use⟩
    | instantiate | fieldAccess | loadConstant => simp [ofInstruction] at use
    | invokeDynamic => cases followLambdas <;> simp [ofInstruction] at use
  · rintro ⟨kind, owner, name, desc, body, named⟩
    exact ⟨_, body, by simp [ofInstruction, named]⟩

theorem mem_callees : c ∈ (ofMethod ix followLambdas method).callees ↔ ix.CallsMethod followLambdas method c := by
  rw [mem_ofMethod DirectUses.callees (fun _ _ => rfl) rfl]
  constructor
  · rintro ⟨i, body, use⟩
    cases i with
    | invoke kind owner name desc => exact .invoked body (by simpa [ofInstruction] using use)
    | instantiate | fieldAccess | loadConstant => simp [ofInstruction] at use
    | invokeDynamic name desc handles =>
      cases followLambdas with
      | false => simp [ofInstruction] at use
      | true =>
        obtain ⟨handle, member, resolved⟩ : ∃ h ∈ handles,
            ix.resolveMethod? (.ofInternal h.owner) h.name h.desc = some c := by
          simpa [ofInstruction] using use
        exact .captured rfl body member resolved
  · intro call
    cases call with
    | invoked body resolved => exact ⟨_, body, by simp [ofInstruction, resolved]⟩
    | captured followed body member resolved =>
      refine ⟨_, body, ?_⟩
      simp only [ofInstruction, followed, if_true]
      exact List.mem_filterMap.mpr ⟨_, member, resolved⟩

end DirectUses

end ClassAtlas
