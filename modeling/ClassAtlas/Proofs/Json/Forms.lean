import Mathlib.Data.List.Forall2
import ClassAtlas.Proofs.Json.Decoding
import ClassAtlas.Proofs.Ordered

/-! # Ways to write a record

An object gives the members of a record in any order. A member whose value is the one that readers
supply may be left out. Decoders look members up by name, so all ways to write a record decode alike.
-/

namespace ClassAtlas.Json

/-- A member of a record: the ways to write its value, and when it may be left out. -/
structure Field where
  name : String
  Form : Json → Prop
  Spare : Prop

namespace Field

def needed (name : String) (Form : Json → Prop) : Field := ⟨name, Form, False⟩

/-- A member that may be left out when its value is the default. -/
def spare {α : Type} (name : String) (Form : Json → Prop) (value default : α) : Field :=
  ⟨name, Form, value = default⟩

def tag (name alternative : String) : Field := needed name (· = .string alternative)

end Field

/-- The members of an object are those of a record. None is repeated, and each is written in one of its
    ways or left out where it may be. -/
structure Members.Hold (fields : List Field) (ms : Members) : Prop where
  once : (ms.map (·.1)).Nodup
  each : ∀ f ∈ fields, (∃ v, (f.name, v) ∈ ms ∧ f.Form v) ∨ f.Spare ∧ f.name ∉ ms.map (·.1)

/-- An object that gives the members of a record. -/
def Record (fields : List Field) (v : Json) : Prop := ∃ ms, v = .object ms ∧ Members.Hold fields ms

/-- Ways to write a list, given those of its items. -/
def ListForm {α : Type} (Form : α → Json → Prop) (xs : List α) (v : Json) : Prop :=
  ∃ vs, v = .array vs ∧ List.Forall₂ Form xs vs

/-- Ways to write a value that may be absent. -/
def OptionForm {α : Type} (Form : α → Json → Prop) : Option α → Json → Prop
  | none, v => v = .null
  | some a, v => Form a v

/-- Ways to write a map: its entries in any order. -/
def MapForm {α : Type} (Form : α → Json → Prop) (entries : List (String × α)) (v : Json) : Prop :=
  ∃ ordered ms, v = .object ms ∧ ordered.Perm entries ∧
    List.Forall₂ (fun e m => e.1 = m.1 ∧ Form e.2 m.2) ordered ms

/-! ## Looking members up -/

namespace Members

variable {ms : Members} {fields : List Field} {f : Field} {name : String}

theorem filter_of_not_mem (absent : name ∉ ms.map (·.1)) : ms.filter (·.1 == name) = [] := by
  simp only [List.filter_eq_nil_iff]
  intro m member same
  exact absent (List.mem_map.mpr ⟨m, member, by simpa using same⟩)

theorem filter_of_mem (once : (ms.map (·.1)).Nodup) {v : Json} (member : (name, v) ∈ ms) :
    ms.filter (·.1 == name) = [(name, v)] := by
  induction ms with
  | nil => cases member
  | cons m rest ih =>
    obtain ⟨new, once⟩ := List.nodup_cons.mp once
    rcases List.mem_cons.mp member with rfl | later
    · simp [filter_of_not_mem new]
    · have different : m.1 ≠ name := by
        rintro rfl
        exact new (List.mem_map_of_mem (f := (·.1)) later)
      simpa [different] using ih once later

theorem find?_eq_head? (name : String) : find? ms name = ((ms.filter (·.1 == name)).head?).map (·.2) := by
  rw [find?, List.head?_filter]

theorem find?_of_mem (once : (ms.map (·.1)).Nodup) {v : Json} (member : (name, v) ∈ ms) :
    find? ms name = some v := by
  rw [find?_eq_head?, filter_of_mem once member]
  rfl

theorem find?_of_not_mem (absent : name ∉ ms.map (·.1)) : find? ms name = none := by
  rw [find?_eq_head?, filter_of_not_mem absent]
  rfl

/-- What looking a member up gives. -/
def Look (ms : Members) (f : Field) : Prop :=
  (∃ v, find? ms f.name = some v ∧ (f.name, v) ∈ ms ∧ f.Form v) ∨ f.Spare ∧ find? ms f.name = none

/-- Members one by one in the forms of fields. -/
def InForm : Members → List Field → Prop
  | m :: ms, f :: fields => f.Form m.2 ∧ InForm ms fields
  | _, _ => True

def LookAll (ms : Members) : List Field → Prop
  | [] => True
  | f :: rest => ms.Look f ∧ ms.LookAll rest

namespace Look

variable {α : Type} {decode : Json → Option α} {name : String} {Form : Json → Prop}

theorem required {a : α} (h : ms.Look (.needed name Form))
    (back : ∀ v, (name, v) ∈ ms → Form v → decode v = some a) : ms.required name decode = some a := by
  rcases h with ⟨v, found, given, form⟩ | ⟨absurdity, -⟩
  · have found : Members.find? ms name = some v := found
    rw [Members.required, found, Option.bind_some, back v given form]
  · cases absurdity

theorem string {s : String} (h : ms.Look (.needed name (· = .string s))) :
    ms.required name string? = some s :=
  h.required fun _ _ same => same ▸ rfl

theorem defaulted {value default : α} (h : ms.Look (.spare name Form value default))
    (back : ∀ v, (name, v) ∈ ms → Form v → decode v = some value) :
    ms.defaulted name decode default = some value := by
  rcases h with ⟨v, found, given, form⟩ | ⟨same, absent⟩
  · have found : Members.find? ms name = some v := found
    simp only [Members.defaulted, found, back v given form]
  · have absent : Members.find? ms name = none := absent
    have same : value = default := same
    simp only [Members.defaulted, absent, same]

theorem bool {value default : Bool} (h : ms.Look (.spare name (· = .bool value) value default)) :
    ms.defaulted name bool? default = some value :=
  h.defaulted fun _ _ same => same ▸ rfl

theorem uint32 {value default : UInt32} (h : ms.Look (.spare name (· = .nat value.toNat) value default)) :
    ms.defaulted name uint32? default = some value :=
  h.defaulted fun _ _ same => same ▸ uint32?_toNat value

theorem optional {value : Option α} (h : ms.Look (.spare name Form value none))
    (back : ∀ v, (name, v) ∈ ms → Form v → option? decode v = some value) :
    ms.optional name decode = some value := by
  rcases h with ⟨v, found, given, form⟩ | ⟨same, absent⟩
  · have found : Members.find? ms name = some v := found
    rw [← back v given form]
    cases v <;> simp only [Members.optional, found, option?]
  · have absent : Members.find? ms name = none := absent
    have same : value = none := same
    simp only [Members.optional, absent, same]

end Look

namespace Hold

theorem look (h : Hold fields ms) : ms.LookAll fields := by
  obtain ⟨once, each⟩ := h
  induction fields with
  | nil => trivial
  | cons f rest ih =>
    refine ⟨?_, ih fun g member => each g (List.mem_cons_of_mem f member)⟩
    rcases each f List.mem_cons_self with ⟨v, given, form⟩ | ⟨spare, absent⟩
    · exact .inl ⟨v, find?_of_mem once given, given, form⟩
    · exact .inr ⟨spare, find?_of_not_mem absent⟩

theorem members? (h : Hold fields ms) (names : List String) (least : Nat) :
    Json.members? names least (.object ms) = some ms := by
  have single (name : String) : occurrences name ms ≤ 1 := by
    unfold occurrences
    by_cases given : name ∈ ms.map (·.1)
    · obtain ⟨⟨_, v⟩, member, rfl⟩ := List.mem_map.mp given
      rw [filter_of_mem h.once member]
      exact Nat.le_refl 1
    · rw [filter_of_not_mem given]
      exact Nat.zero_le 1
  simp [Json.members?, single]

theorem full (once : (ms.map (·.1)).Nodup) (names : ms.map (·.1) = fields.map (·.name)) (forms : ms.InForm fields) :
    Hold fields ms := by
  refine ⟨once, fun f member => .inl ?_⟩
  clear once
  induction fields generalizing ms with
  | nil => cases member
  | cons g fields ih =>
    cases ms with
    | nil => cases names
    | cons m ms =>
      obtain ⟨same, names⟩ := List.cons.inj names
      rcases List.mem_cons.mp member with rfl | later
      · have same : m.1 = f.name := same
        exact ⟨m.2, by simp [← same], forms.1⟩
      · obtain ⟨v, given, form⟩ := ih names forms.2 later
        exact ⟨v, List.mem_cons_of_mem _ given, form⟩

end Hold

end Members

namespace Record

variable {fields : List Field}

theorem tagged? {tag name : String} {v : Json} (h : Record (.tag tag name :: fields) v)
    (others : ∀ f ∈ fields, f.name ≠ tag) (spelling : Spelling) (names : List String) :
    ∃ rest, Json.tagged? spelling tag names v = some (name, .object rest) ∧ Members.Hold fields rest := by
  obtain ⟨ms, rfl, h⟩ := h
  rcases h.each _ List.mem_cons_self with ⟨v, given, rfl⟩ | ⟨absurdity, -⟩
  · have given : (tag, Json.string name) ∈ ms := given
    refine ⟨ms.filter (·.1 != tag), ?_, h.once.sublist (List.filter_sublist.map _), fun f member => ?_⟩
    · simp [Json.tagged?, Members.filter_of_mem h.once given, tagName?]
    · have different := others f member
      rcases h.each f (List.mem_cons_of_mem _ member) with ⟨v, given, form⟩ | ⟨spare, absent⟩
      · exact .inl ⟨v, List.mem_filter.mpr ⟨given, by simpa using different⟩, form⟩
      · exact .inr ⟨spare, fun given => absent ((List.filter_sublist.map _).subset given)⟩
  · cases absurdity

theorem full {ms : Members} (once : (ms.map (·.1)).Nodup) (names : ms.map (·.1) = fields.map (·.name))
    (forms : ms.InForm fields) : Record fields (.object ms) :=
  ⟨ms, rfl, .full once names forms⟩

theorem of_each {ms : Members} (once : (ms.map (·.1)).Nodup)
    (each : ∀ f ∈ fields, (∃ v, (f.name, v) ∈ ms ∧ f.Form v) ∨ f.Spare ∧ f.name ∉ ms.map (·.1)) :
    Record fields (.object ms) :=
  ⟨ms, rfl, once, each⟩

theorem ne_null {v : Json} (h : Record fields v) : v ≠ .null := by
  obtain ⟨ms, rfl, -⟩ := h
  exact nofun

end Record

/-! ## Nesting -/

theorem height_le_membersHeight {ms : Members} {name : String} {v : Json} (member : (name, v) ∈ ms) :
    v.height ≤ membersHeight ms := by
  induction ms with
  | nil => cases member
  | cons m rest ih =>
    obtain ⟨k, w⟩ := m
    rw [membersHeight]
    rcases List.mem_cons.mp member with same | later
    · cases same
      exact Nat.le_max_left _ _
    · exact Nat.le_trans (ih later) (Nat.le_max_right _ _)

theorem height_lt_object {ms : Members} {name : String} {v : Json} (member : (name, v) ∈ ms) :
    v.height < (Json.object ms).height := by
  rw [height]
  exact Nat.lt_succ_of_le (height_le_membersHeight member)

/-- A kind and a value of that kind. -/
def Labelled (kind : String) (Form : Json → Prop) : Json → Prop :=
  Record [.tag "kind" kind, .needed "value" Form]

theorem Labelled.labelled? {kind : String} {Form : Json → Prop} {v : Json} (h : Labelled kind Form v)
    (spelling : Spelling) (names : List String) :
    ∃ w, Form w ∧ w.height < v.height ∧ Json.labelled? spelling "kind" "value" names v = some (kind, w) := by
  obtain ⟨ms, rfl, h⟩ := h
  rcases h.each (.tag "kind" kind) (by simp) with ⟨t, label, rfl⟩ | ⟨absurdity, -⟩
  · rcases h.each (.needed "value" Form) (by simp) with ⟨w, given, form⟩ | ⟨absurdity, -⟩
    · have label : ("kind", Json.string kind) ∈ ms := label
      have given : ("value", w) ∈ ms := given
      refine ⟨w, form, height_lt_object given, ?_⟩
      simp [Json.labelled?, Members.filter_of_mem h.once label, Members.filter_of_mem h.once given, name?]
    · cases absurdity
  · cases absurdity

theorem Labelled.full {kind : String} {Form : Json → Prop} {w : Json} (form : Form w) :
    Labelled kind Form (.object [("kind", .string kind), ("value", w)]) :=
  Record.full (by simp) rfl ⟨rfl, form, trivial⟩

/-! ## Lists, options and maps -/

section Containers

variable {α : Type} {Form : α → Json → Prop} {encode : α → Json} {decode : Json → Option α}
  {entries : List (String × α)}

theorem ListForm.list {xs : List α} (each : ∀ a ∈ xs, Form a (encode a)) :
    ListForm Form xs (Json.list encode xs) := by
  refine ⟨xs.map encode, rfl, ?_⟩
  induction xs with
  | nil => exact .nil
  | cons a rest ih => exact .cons (each a (by simp)) (ih fun b member => each b (by simp [member]))

theorem ListForm.list? {xs : List α} {v : Json} (h : ListForm Form xs v)
    (back : ∀ a ∈ xs, ∀ w, Form a w → decode w = some a) : Json.list? decode v = some xs := by
  obtain ⟨vs, rfl, all⟩ := h
  induction all with
  | nil => rfl
  | @cons a w rest ws form _ ih =>
    exact list?_cons (back a (by simp) w form) (ih fun b member => back b (by simp [member]))

theorem OptionForm.option {o : Option α} (each : ∀ a ∈ o, Form a (encode a)) :
    OptionForm Form o (Json.option encode o) := by
  cases o with
  | none => rfl
  | some a => exact each a rfl

theorem OptionForm.option? {o : Option α} {v : Json} (h : OptionForm Form o v)
    (notNull : ∀ a ∈ o, ¬Form a .null) (back : ∀ a ∈ o, ∀ w, Form a w → decode w = some a) :
    Json.option? decode v = some o := by
  cases o with
  | none =>
    cases h
    rfl
  | some a =>
    rw [Json.option?, back a rfl v h, Option.map_some]
    rintro rfl
    exact notNull a rfl h

theorem MapForm.map (each : ∀ e ∈ entries, Form e.2 (encode e.2)) :
    MapForm Form entries (Json.map encode entries) := by
  refine ⟨entries, _, rfl, .refl _, ?_⟩
  induction entries with
  | nil => exact .nil
  | cons e rest ih => exact .cons ⟨rfl, each e (by simp)⟩ (ih fun b member => each b (by simp [member]))

theorem MapForm.map? {v : Json} (h : MapForm Form entries v) (sorted : Ordered.Named entries)
    (back : ∀ e ∈ entries, ∀ w, Form e.2 w → decode w = some e.2) : Json.map? decode v = some entries := by
  obtain ⟨ordered, ms, rfl, perm, all⟩ := h
  have inOrder : ms.mapM (fun m => (decode m.2).map (m.1, ·)) = some ordered := by
    have back : ∀ e ∈ ordered, ∀ w, Form e.2 w → decode w = some e.2 :=
      fun e member => back e (perm.mem_iff.mp member)
    clear perm
    induction all with
    | nil => rfl
    | @cons e m rest ms form _ ih =>
      have first := back e (by simp) m.2 form.2
      have later := ih fun b member => back b (by simp [member])
      simp [first, later, ← form.1]
  rw [Json.map?, inOrder, Option.map_some, sorted.byName_perm perm]

end Containers

end ClassAtlas.Json
