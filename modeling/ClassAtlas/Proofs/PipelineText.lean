import ClassAtlas.Pipeline.Codec
import ClassAtlas.Proofs.Json.Decoding
import ClassAtlas.Proofs.Json.Reading

/-! # Pipelines written and read

A pipeline whose literals are not floating-point numbers is read from its own text unchanged, unless the
text nests too deep to be read at all. Every encoder is undone by its decoder, however the decoder is
allowed to spell its alternatives; a decoder's fuel is the height of what it decodes.
-/

namespace ClassAtlas

/-! ## Literals and properties -/

/-- Numbers that a document may not give back as they were. -/
def Literal.isFloating : Literal → Bool
  | .float _ | .double _ => true
  | _ => false

def PropertyStrategy.literals : PropertyStrategy → List Literal
  | .literal value => [value]
  | _ => []

def Step.literals : Step → List Literal
  | .registerEntity _ _ properties | .updateEntity _ _ properties =>
    properties.flatMap (·.value.literals)
  | _ => []

namespace Action

mutual
def literals : Action → List Literal
  | .step s => s.literals
  | .chain actions => literalsOfAll actions
  | .compose first second => first.literals ++ second.literals
  | .fork _ onMatch otherwise => onMatch.literals ++ literalsOfOption otherwise
  | .nested body => body.literals
  | .outerScope _ body => body.literals
termination_by structural a => a
def literalsOfAll : List Action → List Literal
  | [] => []
  | a :: rest => a.literals ++ literalsOfAll rest
termination_by structural actions => actions
def literalsOfOption : Option Action → List Literal
  | none => []
  | some a => a.literals
termination_by structural a => a
end

end Action

def Pipeline.literals (p : Pipeline) : List Literal := p.action.literals

open Json (tagged?_bind)

/-- No literal is a floating-point number. -/
def Floatless (ls : List Literal) : Prop := ∀ l ∈ ls, l.isFloating = false

theorem Floatless.left {xs ys : List Literal} (h : Floatless (xs ++ ys)) : Floatless xs :=
  fun l member => h l (List.mem_append_left ys member)

theorem Floatless.right {xs ys : List Literal} (h : Floatless (xs ++ ys)) : Floatless ys :=
  fun l member => h l (List.mem_append_right xs member)

theorem Floatless.part {α : Type} {xs : List α} {constants : α → List Literal}
    (h : Floatless (xs.flatMap constants)) {a : α} (member : a ∈ xs) : Floatless (constants a) :=
  fun l inside => h l (List.mem_flatMap.mpr ⟨a, member, inside⟩)

theorem TypeName.ofJson?_toJson (t : TypeName) : TypeName.ofJson? t.toJson = some t := rfl

theorem optional_string (o : Option String) : Json.option? Json.string? (Json.option .string o) = some o :=
  Json.option?_option (fun _ _ => rfl) nofun

theorem Literal.decode_toJson {l : Literal} (exact : l.isFloating = false) (spelling : Json.Spelling) :
    Literal.decode spelling l.toJson = some l := by
  cases l with
  | float | double => cases exact
  | int n | long n => simp [decode, toJson, Json.labelled?, Json.name?, Json.int32?_toInt, Json.int64?_toInt]
  | str | bool | type => simp [decode, toJson, Json.labelled?, Json.name?, Json.string?, Json.bool?,
      TypeName.ofJson?_toJson]
  | char => simp [decode, toJson, Json.labelled?, Json.name?, Json.char?]

theorem PropertyStrategy.decode_toJson {s : PropertyStrategy} (exact : Floatless s.literals) (spelling : Json.Spelling) :
    PropertyStrategy.decode spelling s.toJson = some s := by
  cases s with
  | literal l =>
    have value := Literal.decode_toJson (exact l (by simp [literals])) .setAside
    rw [decode, toJson, tagged?_bind (by simp)]
    simp only
    simp [Json.members?, Json.occurrences, value]
  | name | label | resolvedType | erasedType =>
    rw [decode, toJson, tagged?_bind (by simp)]
    rfl
  | annotationValue =>
    rw [decode, toJson, tagged?_bind (by simp)]
    simp only
    simp [Json.members?, Json.occurrences, TypeName.ofJson?_toJson, Json.string?]

theorem PropertySpec.decode_toJson {s : PropertySpec} (exact : Floatless s.value.literals) (spelling : Json.Spelling) :
    PropertySpec.decode spelling s.toJson = some s := by
  have value := PropertyStrategy.decode_toJson exact spelling
  simp [decode, toJson, Json.members?, Json.occurrences, Json.string?, value]

/-! ## Predicates -/

namespace Predicate

mutual
theorem decode_toJson (p : Predicate) {fuel : Nat} (spelling : Json.Spelling)
    (enough : p.toJson.height < fuel) : decode fuel spelling p.toJson = some p := by
  cases fuel with
  | zero => cases enough
  | succ fuel =>
    match p with
    | .modifiers _ =>
      rw [decode, toJson, tagged?_bind (by simp)]
      simp only
      simp [Json.members?, Json.occurrences, Access.toJson, Json.uint32?_toNat]
    | .name _ | .annotatedBy _ | .implements _ | .typeIs _ | .hasEntity _ =>
      rw [decode, toJson, tagged?_bind (by simp)]
      simp only
      simp [Json.members?, Json.occurrences, Json.string?, TypeName.ofJson?_toJson, optional_string]
    | .synthetic =>
      rw [decode, toJson, tagged?_bind (by simp)]
      rfl
    | .negation p =>
      simp only [toJson, Json.height, Json.membersHeight] at enough
      have inner := decode_toJson p .setAside (by omega : _ < fuel)
      rw [decode, toJson, tagged?_bind (by simp)]
      simp only
      simp [Json.members?, Json.occurrences, inner]
    | .all ps | .any ps =>
      simp only [toJson, Json.height, Json.membersHeight] at enough
      have inner := decodeAll_toJson ps .setAside (by omega : _ < fuel)
      rw [decode, toJson, tagged?_bind (by simp)]
      simp only
      simp [Json.members?, Json.occurrences, inner]
termination_by structural p

theorem decodeAll_toJson (ps : List Predicate) {fuel : Nat} (spelling : Json.Spelling)
    (enough : Json.itemsHeight (listToJson ps) < fuel) :
    Json.list? (decode fuel spelling) (.array (listToJson ps)) = some ps := by
  match ps with
  | [] => rfl
  | p :: ps =>
    simp only [listToJson, Json.itemsHeight] at enough
    exact Json.list?_cons (decode_toJson p spelling (by omega)) (decodeAll_toJson ps spelling (by omega))
termination_by structural ps
end

end Predicate

/-! ## Actions -/

theorem ScopeKind.decode_toJson (kind : ScopeKind) (spelling : Json.Spelling) :
    ScopeKind.decode spelling kind.toJson = some kind := by
  cases kind with
  | template | unresolved => rfl
  | elements kind => cases kind <;> rfl

theorem RelationKind.choice?_name (kind : RelationKind) (spelling : Json.Spelling) :
    Json.choice? spelling RelationKind.names (.string kind.name) = some kind := by
  cases kind <;> rfl

theorem SynthesisTarget.ofJson?_toJson (t : SynthesisTarget) : SynthesisTarget.ofJson? t.toJson = some t := by
  have methods : Json.list? Json.string? (Json.list .string t.methods) = some t.methods :=
    Json.list?_list fun _ _ => rfl
  simp [ofJson?, toJson, Json.members?, Json.occurrences, TypeName.ofJson?_toJson, methods]

namespace Step

theorem entityMembers?_object (type : EntityType) (label : Option String) {properties : List PropertySpec}
    (exact : Floatless (properties.flatMap (·.value.literals))) :
    entityMembers? (.object [("entity", .string type), ("label", .option .string label),
      ("properties", .list PropertySpec.toJson properties)]) = some (type, label, properties) := by
  have specs : Json.list? (PropertySpec.decode .setAside) (Json.list PropertySpec.toJson properties) =
      some properties :=
    Json.list?_list fun s member => PropertySpec.decode_toJson (exact.part member) .setAside
  simp [entityMembers?, Json.members?, Json.occurrences, Json.string?, optional_string, specs]

theorem predicate?_toJson (p : Predicate) : predicate? p.toJson = some p :=
  Predicate.decode_toJson p .setAside (Nat.lt_succ_self _)

theorem decode_record {name : String} {ms : Json.Members}
    (plain : name ∉ ["chain", "compose", "fork", "nested", "outer_scope"])
    (absent : ∀ m ∈ ms, m.1 ≠ "action") (fuel : Nat) (spelling : Json.Spelling) :
    Action.decode (fuel + 1) spelling (record name ms) = (ofMembers? name (.object ms)).map .step := by
  rw [Action.decode, record, tagged?_bind absent]
  simp only [List.mem_cons, List.not_mem_nil, or_false, not_or] at plain
  simp [plain]

theorem decode_toJson {s : Step} (exact : Floatless s.literals) (fuel : Nat)
    (spelling : Json.Spelling) : Action.decode (fuel + 1) spelling s.toJson = some (.step s) := by
  cases s with
  | identity | classes | parameters | signature | typeArguments =>
    rw [toJson, decode_record (by simp) (by simp)]
    rfl
  | elementsOf | associate =>
    rw [toJson, decode_record (by simp) (by simp)]
    simp only [ofMembers?]
    simp [Json.members?, Json.occurrences, Json.string?]
  | methods | fields | explodeType =>
    rw [toJson, decode_record (by simp) (by simp)]
    simp only [ofMembers?]
    simp [switch?, Json.members?, Json.occurrences, Json.bool?]
  | annotations type =>
    have back : Json.option? TypeName.ofJson? (Json.option TypeName.toJson type) = some type :=
      Json.option?_option (fun _ _ => rfl) nofun
    rw [toJson, decode_record (by simp) (by simp)]
    simp only [ofMembers?]
    simp [Json.members?, Json.occurrences, back]
  | ascend | filter =>
    rw [toJson, decode_record (by simp) (by simp)]
    simp only [ofMembers?]
    simp [Json.members?, Json.occurrences, ScopeKind.decode_toJson, predicate?_toJson]
  | registerEntity type label properties | updateEntity type label properties =>
    rw [toJson, entityRecord, decode_record (by simp) (by simp)]
    simp only [ofMembers?, entityMembers?_object type label exact, Option.map_some]
  | synthesize targets =>
    have back : Json.list? SynthesisTarget.ofJson? (Json.list SynthesisTarget.toJson targets) = some targets :=
      Json.list?_list fun t _ => t.ofJson?_toJson
    rw [toJson, decode_record (by simp) (by simp)]
    simp only [ofMembers?]
    simp [Json.members?, Json.occurrences, back]
  | relate kind source target key backtrack =>
    rw [toJson, decode_record (by simp) (by simp)]
    simp only [ofMembers?]
    simp [Json.members?, Json.occurrences, RelationKind.choice?_name, Json.string?, Json.bool?,
      optional_string]

end Step

namespace Action

theorem toJson_ne_null (a : Action) : a.toJson ≠ .null := by
  cases a with
  | step s => cases s <;> nofun
  | _ => nofun

mutual
theorem decode_toJson (a : Action) (exact : Floatless a.literals) {fuel : Nat}
    (spelling : Json.Spelling) (enough : a.toJson.height < fuel) :
    decode fuel spelling a.toJson = some a := by
  cases fuel with
  | zero => cases enough
  | succ fuel =>
    match a with
    | .step s => exact Step.decode_toJson exact fuel spelling
    | .chain actions =>
      simp only [toJson, Step.record, Json.height, Json.membersHeight] at enough
      have inner := decodeAll_toJson actions exact .setAside (by omega : _ < fuel)
      rw [decode, toJson, Step.record, tagged?_bind (by simp)]
      simp only
      simp [Json.members?, Json.occurrences, inner]
    | .compose first second =>
      simp only [toJson, Step.record, Json.height, Json.membersHeight] at enough
      have left := decode_toJson first exact.left .setAside (by omega : _ < fuel)
      have right := decode_toJson second exact.right .setAside (by omega : _ < fuel)
      rw [decode, toJson, Step.record, tagged?_bind (by simp)]
      simp only
      simp [Json.members?, Json.occurrences, left, right]
    | .fork predicate onMatch otherwise =>
      simp only [toJson, Step.record, Json.height, Json.membersHeight] at enough
      have matching := decode_toJson onMatch exact.left .setAside (by omega : _ < fuel)
      have remaining := decodeOption_toJson otherwise exact.right .setAside (by omega : _ < fuel)
      rw [decode, toJson, Step.record, tagged?_bind (by simp)]
      simp only
      simp [Json.members?, Json.occurrences, Step.predicate?_toJson, matching, remaining]
    | .nested body | .outerScope _ body =>
      simp only [toJson, Step.record, Json.height, Json.membersHeight] at enough
      have inner := decode_toJson body exact .setAside (by omega : _ < fuel)
      rw [decode, toJson, Step.record, tagged?_bind (by simp)]
      simp only
      simp [Json.members?, Json.occurrences, ScopeKind.decode_toJson, inner]
termination_by structural a

theorem decodeAll_toJson (actions : List Action) (exact : Floatless (literalsOfAll actions))
    {fuel : Nat} (spelling : Json.Spelling) (enough : Json.itemsHeight (listToJson actions) < fuel) :
    Json.list? (decode fuel spelling) (.array (listToJson actions)) = some actions := by
  match actions with
  | [] => rfl
  | a :: rest =>
    simp only [listToJson, Json.itemsHeight] at enough
    exact Json.list?_cons (decode_toJson a exact.left spelling (by omega))
      (decodeAll_toJson rest exact.right spelling (by omega))
termination_by structural actions

theorem decodeOption_toJson (a : Option Action) (exact : Floatless (literalsOfOption a))
    {fuel : Nat} (spelling : Json.Spelling) (enough : (optionToJson a).height < fuel) :
    Json.option? (decode fuel spelling) (optionToJson a) = some a := by
  match a with
  | none => rfl
  | some a =>
    have inner := decode_toJson a exact spelling enough
    rw [optionToJson, Json.option?, inner, Option.map_some]
    exact a.toJson_ne_null
termination_by structural a
end

end Action

theorem Pipeline.ofJson?_toJson {p : Pipeline} (exact : Floatless p.literals) :
    Pipeline.ofJson? p.toJson = some p := by
  have action : Action.ofJson? p.action.toJson = some p.action :=
    Action.decode_toJson p.action exact .plain (Nat.lt_succ_self _)
  simp [ofJson?, toJson, Json.members?, memberNames, Json.occurrences, Json.string?, action]

/-! ## Documents without floating-point numbers -/

theorem Literal.toJson_exact {l : Literal} (exact : l.isFloating = false) : l.toJson.Exact := by
  cases l with
  | float | double => cases exact
  | str | bool | char | type => exact ⟨trivial, trivial, trivial⟩
  | int n =>
    have low := n.minValue_le_toInt
    have high := n.toInt_le
    simp only [Int32.toInt_minValue, Int32.toInt_maxValue] at low high
    exact ⟨trivial, ⟨by omega, by omega⟩, trivial⟩
  | long n =>
    have low := n.minValue_le_toInt
    have high := n.toInt_le
    simp only [Int64.toInt_minValue, Int64.toInt_maxValue] at low high
    exact ⟨trivial, ⟨by omega, by omega⟩, trivial⟩

theorem PropertySpec.toJson_exact {s : PropertySpec} (exact : Floatless s.value.literals) : s.toJson.Exact := by
  obtain ⟨key, value⟩ := s
  refine ⟨trivial, ?_, trivial⟩
  cases value with
  | literal l => exact ⟨trivial, Literal.toJson_exact (exact l (by simp [PropertyStrategy.literals])), trivial⟩
  | annotationValue => exact ⟨trivial, trivial, trivial, trivial⟩
  | name | label | resolvedType | erasedType => exact ⟨trivial, trivial⟩

theorem optional_exact {α : Type} (encode : α → Json) (exact : ∀ a, (encode a).Exact) (o : Option α) :
    (Json.option encode o).Exact := by
  cases o with
  | none => trivial
  | some a => exact exact a

namespace Predicate

mutual
theorem toJson_exact (p : Predicate) : p.toJson.Exact := by
  match p with
  | .name _ | .annotatedBy _ | .implements _ | .typeIs _ => exact ⟨trivial, trivial, trivial⟩
  | .synthetic => exact ⟨trivial, trivial⟩
  | .modifiers flags =>
    have bound := flags.toNat_lt
    exact ⟨trivial, ⟨by omega, by omega⟩, trivial⟩
  | .hasEntity type => exact ⟨trivial, optional_exact .string (fun _ => trivial) type, trivial⟩
  | .negation p => exact ⟨trivial, toJson_exact p, trivial⟩
  | .all ps | .any ps => exact ⟨trivial, listToJson_exact ps, trivial⟩
termination_by structural p

theorem listToJson_exact (ps : List Predicate) : Json.ExactItems (listToJson ps) := by
  match ps with
  | [] => trivial
  | p :: ps => exact ⟨toJson_exact p, listToJson_exact ps⟩
termination_by structural ps
end

end Predicate

theorem SynthesisTarget.toJson_exact (t : SynthesisTarget) : t.toJson.Exact :=
  ⟨trivial, Json.exactItems_map fun _ _ => trivial, trivial⟩

theorem Step.toJson_exact {s : Step} (exact : Floatless s.literals) : s.toJson.Exact := by
  cases s with
  | identity | classes | parameters | signature | typeArguments => exact ⟨trivial, trivial⟩
  | elementsOf | methods | fields | explodeType | ascend => exact ⟨trivial, trivial, trivial⟩
  | associate => exact ⟨trivial, trivial, trivial, trivial, trivial⟩
  | annotations type => exact ⟨trivial, optional_exact TypeName.toJson (fun _ => trivial) type, trivial⟩
  | filter predicate => exact ⟨trivial, predicate.toJson_exact, trivial⟩
  | registerEntity type label properties | updateEntity type label properties =>
    refine ⟨trivial, trivial, optional_exact .string (fun _ => trivial) label, ?_, trivial⟩
    exact Json.exactItems_map fun s member => PropertySpec.toJson_exact (exact.part member)
  | synthesize targets => exact ⟨trivial, Json.exactItems_map fun t _ => t.toJson_exact, trivial⟩
  | relate kind source target key =>
    exact ⟨trivial, trivial, trivial, trivial, optional_exact .string (fun _ => trivial) key, trivial, trivial⟩

namespace Action

mutual
theorem toJson_exact (a : Action) (exact : Floatless a.literals) : a.toJson.Exact := by
  match a with
  | .step s => exact Step.toJson_exact exact
  | .chain actions => exact ⟨trivial, listToJson_exact actions exact, trivial⟩
  | .compose first second =>
    exact ⟨trivial, toJson_exact first exact.left, toJson_exact second exact.right, trivial⟩
  | .fork predicate onMatch otherwise =>
    exact ⟨trivial, predicate.toJson_exact, toJson_exact onMatch exact.left,
      optionToJson_exact otherwise exact.right, trivial⟩
  | .nested body => exact ⟨trivial, toJson_exact body exact, trivial⟩
  | .outerScope kind body => exact ⟨trivial, trivial, toJson_exact body exact, trivial⟩
termination_by structural a

theorem listToJson_exact (actions : List Action) (exact : Floatless (literalsOfAll actions)) :
    Json.ExactItems (listToJson actions) := by
  match actions with
  | [] => trivial
  | a :: rest =>
    exact ⟨toJson_exact a exact.left, listToJson_exact rest exact.right⟩
termination_by structural actions

theorem optionToJson_exact (a : Option Action) (exact : Floatless (literalsOfOption a)) :
    (optionToJson a).Exact := by
  match a with
  | none => trivial
  | some a => exact toJson_exact a exact
termination_by structural a
end

end Action

/-! ## Whole pipelines -/

/-- Without floating-point literals a pipeline is read back from its text, and refused only if the text
    nests deeper than documents may. -/
theorem Pipeline.ofText_toText (p : Pipeline) (exact : ∀ l ∈ p.literals, l.isFloating = false) :
    Pipeline.ofText p.toText =
      if p.toJson.height ≤ Json.greatestDepth then .ok p else .error .serialization := by
  have written : p.toJson.Exact := ⟨trivial, Action.toJson_exact p.action exact, trivial⟩
  have known : ∀ m ∈ [("name", Json.string p.name), ("action", p.action.toJson)], m.1 ∈ memberNames := by
    simp [memberNames]
  have read : Json.readRecord? memberNames p.toJson.pretty =
      if p.toJson.height ≤ Json.greatestDepth then some p.toJson else none :=
    Json.readRecord?_pretty written known
  rw [ofText, toText, read]
  by_cases fits : p.toJson.height ≤ Json.greatestDepth
  · rw [if_pos fits, if_pos fits, Option.bind_some, ofJson?_toJson exact]
  · rw [if_neg fits, if_neg fits, Option.bind_none]

/-! ## A pipeline with marks to escape -/

namespace QuotedPipeline

/-- Has quotes, control characters and characters outside the first plane in its texts, absent members
    and the least of all literals. -/
def pipeline : Pipeline where
  name := "\"a\\b\"\n\x01\x7f é 😀"
  action := .chain [.step .classes,
    .fork (.all [.negation (.name "^\\d+$"), .modifiers 4294967295, .hasEntity none])
      (.step (.registerEntity "node" none
        [⟨"k", .literal (.long Int64.minValue)⟩, ⟨"", .annotationValue ⟨"a.B"⟩ "value"⟩]))
      none,
    .outerScope (.elements .annotationUse) (.step (.relate .invokes "a" "b" (some "") true))]

theorem read_back :
    (∀ l ∈ pipeline.literals, l.isFloating = false) ∧ pipeline.toJson.height ≤ Json.greatestDepth ∧
      Pipeline.ofText pipeline.toText = .ok pipeline := by
  have exact : ∀ l ∈ pipeline.literals, l.isFloating = false := by decide
  have fits : pipeline.toJson.height ≤ Json.greatestDepth := by decide
  have read := Pipeline.ofText_toText pipeline exact
  rw [if_pos fits] at read
  exact ⟨exact, fits, read⟩

end QuotedPipeline

end ClassAtlas
