import ClassAtlas.Signature.Codec
import ClassAtlas.Settings
import ClassAtlas.Snapshot.Basic
import ClassAtlas.Proofs.Json.Forms
import ClassAtlas.Proofs.PipelineText

/-! # Documents read back

The forms of class files, signatures, settings, measurements and snapshots in documents. A document of one
of these forms is read as the value that it was written from, in whatever order the members of its objects
stand and whichever members with default values are left out, at any depth. Encoders write one of the
forms.
-/

namespace ClassAtlas

variable {name : String} {ms : Json.Members} {fuel : Nat} {v : Json}

open Json (Record Labelled ListForm OptionForm MapForm)
open Json.Field (needed spare tag)
open Json.Members (required defaulted optional)

/-! ## Signatures -/

def TypeVariableOwner.WrittenAs : TypeVariableOwner → Json → Prop
  | .ofClass t => Record [tag "kind" "class", needed "class" (· = .string t.text)]
  | .ofMethod t name desc =>
    Record [tag "kind" "method", needed "class" (· = .string t.text), needed "name" (· = .string name),
      needed "desc" (· = .string desc)]

def TypeVariable.WrittenAs (v : TypeVariable) : Json → Prop :=
  Record [needed "name" (· = .string v.name), needed "owner" v.owner.WrittenAs]

def TypeHead.WrittenAs : TypeHead → Json → Prop
  | .named t, v => v = .object [("plain", .string t.text)]
  | .var x, v => ∃ w, v = .object [("var", w)] ∧ x.WrittenAs w

namespace TypeSignature

mutual
def WrittenAs : TypeSignature → Json → Prop
  | ⟨head, variance, depth, args⟩ =>
    Record [needed "arg" head.WrittenAs, spare "bound" (· = .string variance.name) variance .invariant,
      spare "array_depth" (· = .nat depth.toNat) depth 0,
      spare "args" (fun v => ∃ vs, v = .array vs ∧ AllWrittenAs args vs) args []]
termination_by structural s => s
def AllWrittenAs : List TypeSignature → List Json → Prop
  | [], vs => vs = []
  | s :: rest, vs => ∃ w ws, vs = w :: ws ∧ s.WrittenAs w ∧ AllWrittenAs rest ws
termination_by structural ss => ss
end

end TypeSignature

def FormalParameter.WrittenAs (p : FormalParameter) : Json → Prop :=
  Record [needed "name" (· = .string p.name),
    spare "bound" (OptionForm TypeSignature.WrittenAs p.bound) p.bound none,
    spare "interface_bounds" (ListForm TypeSignature.WrittenAs p.interfaceBounds) p.interfaceBounds []]

section Signatures

variable (spelling : Json.Spelling)

theorem TypeName.required_name {t : TypeName}
    (h : ms.Look (needed name (· = .string t.text))) : required ms name TypeName.ofJson? = some t :=
  h.required fun _ _ same => same ▸ rfl

theorem TypeVariableOwner.decode_of_writtenAs {o : TypeVariableOwner} (h : o.WrittenAs v) :
    decode spelling v = some o := by
  cases o with
  | ofClass t =>
    obtain ⟨rest, split, hold⟩ := h.tagged? (by simp [needed]) spelling ["class", "method"]
    obtain ⟨type, -⟩ := hold.look
    simp [decode, split, hold.members?, TypeName.required_name type]
  | ofMethod t name desc =>
    obtain ⟨rest, split, hold⟩ := h.tagged? (by simp [needed]) spelling ["class", "method"]
    obtain ⟨type, name, desc, -⟩ := hold.look
    simp [decode, split, hold.members?, TypeName.required_name type, name.string, desc.string]

theorem TypeVariable.decode_of_writtenAs {x : TypeVariable} (h : x.WrittenAs v) : decode spelling v = some x := by
  obtain ⟨ms, rfl, hold⟩ := h
  obtain ⟨name, owner, -⟩ := hold.look
  have owner : required ms "owner" (TypeVariableOwner.decode spelling) = some x.owner :=
    owner.required fun _ _ form => TypeVariableOwner.decode_of_writtenAs spelling form
  simp [decode, hold.members?, name.string, owner]

theorem TypeHead.decode_of_writtenAs {t : TypeHead} (h : t.WrittenAs v) : decode spelling v = some t := by
  cases t with
  | named t =>
    obtain rfl : v = .object [("plain", .string t.text)] := h
    rfl
  | var x =>
    obtain ⟨w, rfl, form⟩ := h
    simp [decode, Json.keyed?, TypeVariable.decode_of_writtenAs spelling form]

theorem Variance.choice?_name (variance : Variance) :
    Json.choice? spelling Variance.names (.string variance.name) = some variance := by
  cases variance <;> rfl

namespace TypeSignature

mutual
theorem decode_of_writtenAs (s : TypeSignature) {v : Json} (h : s.WrittenAs v) {fuel : Nat}
    (enough : v.height < fuel) : decode spelling fuel v = some s := by
  match s with
  | ⟨head, variance, depth, args⟩ =>
    obtain ⟨ms, rfl, hold⟩ := h
    obtain ⟨arg, bound, dimensions, arguments, -⟩ := hold.look
    cases fuel with
    | zero => cases enough
    | succ fuel =>
      have arg : required ms "arg" (TypeHead.decode spelling) = some head :=
        arg.required fun _ _ form => TypeHead.decode_of_writtenAs spelling form
      have bound : defaulted ms "bound" (Json.choice? spelling Variance.names) .invariant = some variance :=
        bound.defaulted fun _ _ same => same ▸ Variance.choice?_name spelling variance
      have arguments : defaulted ms "args" (Json.list? (decode spelling fuel)) [] = some args := by
        refine arguments.defaulted fun v given form => ?_
        obtain ⟨vs, rfl, all⟩ := form
        have smaller := Json.height_lt_object given
        rw [Json.height] at smaller
        exact decodeAll_of_writtenAs args all (by omega)
      simp [decode, hold.members?, arg, bound, dimensions.uint32, arguments]
termination_by structural s

theorem decodeAll_of_writtenAs (ss : List TypeSignature) {vs : List Json} (h : AllWrittenAs ss vs)
    {fuel : Nat} (enough : Json.itemsHeight vs < fuel) :
    Json.list? (decode spelling fuel) (.array vs) = some ss := by
  match ss with
  | [] =>
    obtain rfl : vs = [] := h
    rfl
  | s :: rest =>
    obtain ⟨w, ws, rfl, form, forms⟩ := h
    rw [Json.itemsHeight] at enough
    exact Json.list?_cons (decode_of_writtenAs s form (by omega))
      (decodeAll_of_writtenAs rest forms (by omega))
termination_by structural ss
end

theorem writtenAs_object {s : TypeSignature} : ¬s.WrittenAs .null := by
  obtain ⟨head, variance, depth, args⟩ := s
  exact fun h => h.ne_null rfl

end TypeSignature

theorem FormalParameter.decode_of_writtenAs {p : FormalParameter} (h : p.WrittenAs v) :
    decode spelling v = some p := by
  obtain ⟨ms, rfl, hold⟩ := h
  obtain ⟨name, bound, interfaces, -⟩ := hold.look
  have signature (s : TypeSignature) (w : Json) (form : s.WrittenAs w) :
      TypeSignature.decode spelling w.decodeFuel w = some s :=
    s.decode_of_writtenAs spelling form (Nat.lt_succ_self _)
  have bound : optional ms "bound" (fun w => TypeSignature.decode spelling w.decodeFuel w) = some p.bound :=
    bound.optional fun _ _ form => form.option? (fun _ _ => TypeSignature.writtenAs_object) fun s _ => signature s
  have interfaces : defaulted ms "interface_bounds"
      (Json.list? fun w => TypeSignature.decode spelling w.decodeFuel w) [] = some p.interfaceBounds :=
    interfaces.defaulted fun _ _ form => form.list? fun s _ => signature s
  simp [decode, hold.members?, name.string, bound, interfaces]

end Signatures

/-! ## Class files -/

def Literal.WrittenAs : Literal → Json → Prop
  | .str s => Labelled "str" (· = .string s)
  | .int n => Labelled "int" (· = .int n.toInt)
  | .long n => Labelled "long" (· = .int n.toInt)
  | .float x => Labelled "float" (· = .ofBinary32 x)
  | .double x => Labelled "double" (· = .ofBinary64 x)
  | .bool b => Labelled "bool" (· = .bool b)
  | .char c => Labelled "char" (· = .string (String.ofList [c]))
  | .type t => Labelled "type" (· = .string t.text)

namespace AnnotationValue

mutual
/-- All literals inside a value, those of nested annotations included. -/
def constants : AnnotationValue → List Literal
  | .literal l => [l]
  | .enumConstant _ _ => []
  | .array vs => constantsOfAll vs
  | .nested _ vs => constantsOfPairs vs
termination_by structural v => v
def constantsOfAll : List AnnotationValue → List Literal
  | [] => []
  | v :: rest => v.constants ++ constantsOfAll rest
termination_by structural vs => vs
def constantsOfPairs : List (String × AnnotationValue) → List Literal
  | [] => []
  | (_, v) :: rest => v.constants ++ constantsOfPairs rest
termination_by structural vs => vs
end

mutual
def WrittenAs : AnnotationValue → Json → Prop
  | .literal l => Labelled "literal" l.WrittenAs
  | .enumConstant desc constant =>
    Labelled "enum" (Record [needed "desc" (· = .string desc), needed "value" (· = .string constant)])
  | .array vs => Labelled "array" fun w => ∃ ws, w = .array ws ∧ AllWrittenAs vs ws
  | .nested desc vs =>
    Labelled "annotation" (Record [needed "desc" (· = .string desc),
      spare "values" (fun w => ∃ ws, w = .array ws ∧ PairsWrittenAs vs ws) vs []])
termination_by structural v => v
def AllWrittenAs : List AnnotationValue → List Json → Prop
  | [], ws => ws = []
  | v :: rest, ws => ∃ w later, ws = w :: later ∧ v.WrittenAs w ∧ AllWrittenAs rest later
termination_by structural vs => vs
def PairsWrittenAs : List (String × AnnotationValue) → List Json → Prop
  | [], ws => ws = []
  | (name, v) :: rest, ws => ∃ w later, ws = .array [.string name, w] :: later ∧ v.WrittenAs w ∧
      PairsWrittenAs rest later
termination_by structural vs => vs
end

end AnnotationValue

namespace AnnotationEntry

def constants (a : AnnotationEntry) : List Literal := AnnotationValue.constantsOfPairs a.values

def WrittenAs (a : AnnotationEntry) : Json → Prop :=
  Record [needed "desc" (· = .string a.desc),
    spare "values" (fun w => ∃ ws, w = .array ws ∧ AnnotationValue.PairsWrittenAs a.values ws) a.values []]

end AnnotationEntry

def MethodHandle.WrittenAs (h : MethodHandle) : Json → Prop :=
  Record [needed "owner" (· = .string h.owner), needed "name" (· = .string h.name),
    needed "desc" (· = .string h.desc)]

namespace Instruction

def constants : Instruction → List Literal
  | .loadConstant l => [l]
  | _ => []

def WrittenAs : Instruction → Json → Prop
  | .invoke kind owner name desc =>
    Record [tag "op" "invoke", needed "kind" (· = .string kind.name), needed "owner" (· = .string owner),
      needed "name" (· = .string name), needed "desc" (· = .string desc)]
  | .instantiate typeName => Record [tag "op" "new", needed "type_name" (· = .string typeName)]
  | .fieldAccess access owner name desc =>
    Record [tag "op" "field_access", needed "access" (· = .string access.name),
      needed "owner" (· = .string owner), needed "name" (· = .string name), needed "desc" (· = .string desc)]
  | .loadConstant l => Record [tag "op" "ldc", needed "value" l.WrittenAs]
  | .invokeDynamic name desc handles =>
    Record [tag "op" "invoke_dynamic", needed "name" (· = .string name), needed "desc" (· = .string desc),
      spare "handles" (ListForm MethodHandle.WrittenAs handles) handles []]

end Instruction

def OptionalText (o : Option String) : Json → Prop := OptionForm (fun s v => v = .string s) o

namespace FieldDeclaration

def constants (f : FieldDeclaration) : List Literal :=
  f.annotations.flatMap AnnotationEntry.constants ++ f.value.toList

def WrittenAs (f : FieldDeclaration) : Json → Prop :=
  Record [needed "name" (· = .string f.name), needed "desc" (· = .string f.desc),
    spare "access" (· = .nat f.access.toNat) f.access 0,
    spare "signature" (OptionalText f.signature) f.signature none,
    spare "annotations" (ListForm AnnotationEntry.WrittenAs f.annotations) f.annotations [],
    spare "value" (OptionForm Literal.WrittenAs f.value) f.value none]

end FieldDeclaration

namespace MethodDeclaration

def constants (m : MethodDeclaration) : List Literal :=
  m.annotations.flatMap AnnotationEntry.constants ++
    m.parameterAnnotations.flatMap (·.flatMap AnnotationEntry.constants) ++
    m.instructions.flatMap Instruction.constants

def WrittenAs (m : MethodDeclaration) : Json → Prop :=
  Record [needed "name" (· = .string m.name), needed "desc" (· = .string m.desc),
    spare "access" (· = .nat m.access.toNat) m.access 0,
    spare "signature" (OptionalText m.signature) m.signature none,
    spare "annotations" (ListForm AnnotationEntry.WrittenAs m.annotations) m.annotations [],
    spare "parameter_annotations" (ListForm (ListForm AnnotationEntry.WrittenAs) m.parameterAnnotations)
      m.parameterAnnotations [],
    spare "parameter_names" (ListForm (fun s v => v = .string s) m.parameterNames) m.parameterNames [],
    spare "instructions" (ListForm Instruction.WrittenAs m.instructions) m.instructions []]

end MethodDeclaration

namespace ClassDeclaration

def constants (c : ClassDeclaration) : List Literal :=
  c.annotations.flatMap AnnotationEntry.constants ++ c.fields.flatMap FieldDeclaration.constants ++
    c.methods.flatMap MethodDeclaration.constants

def WrittenAs (c : ClassDeclaration) : Json → Prop :=
  Record [needed "name" (· = .string c.name), spare "access" (· = .nat c.access.toNat) c.access 0,
    spare "super_name" (OptionalText c.superName) c.superName none,
    spare "interfaces" (ListForm (fun s v => v = .string s) c.interfaces) c.interfaces [],
    spare "signature" (OptionalText c.signature) c.signature none,
    spare "outer_class" (OptionalText c.outerClass) c.outerClass none,
    spare "annotations" (ListForm AnnotationEntry.WrittenAs c.annotations) c.annotations [],
    spare "fields" (ListForm FieldDeclaration.WrittenAs c.fields) c.fields [],
    spare "methods" (ListForm MethodDeclaration.WrittenAs c.methods) c.methods []]

end ClassDeclaration

section ClassFiles

theorem Literal.decode_of_writtenAs {l : Literal} (exact : l.isFloating = false)
    (h : l.WrittenAs v) (spelling : Json.Spelling) : decode spelling v = some l := by
  cases l with
  | float | double => cases exact
  | str | bool | type =>
    obtain ⟨w, rfl, -, split⟩ := Labelled.labelled? h spelling kinds
    simp [decode, split, Json.string?, Json.bool?, TypeName.ofJson?]
  | int n | long n =>
    obtain ⟨w, rfl, -, split⟩ := Labelled.labelled? h spelling kinds
    simp [decode, split, Json.int32?_toInt, Json.int64?_toInt]
  | char c =>
    obtain ⟨w, rfl, -, split⟩ := Labelled.labelled? h spelling kinds
    simp [decode, split, Json.char?]

theorem Literal.writtenAs_object {l : Literal} : ¬l.WrittenAs .null := by
  cases l <;> exact fun h => Record.ne_null h rfl

namespace AnnotationValue

theorem decodeEntry_of_record {desc : String} {vs : List (String × AnnotationValue)}
    (h : Record [needed "desc" (· = .string desc),
      spare "values" (fun w => ∃ ws, w = .array ws ∧ PairsWrittenAs vs ws) vs []] v)
    (enough : v.height < fuel + 1)
    (pairs : ∀ ws, Json.itemsHeight ws < fuel → PairsWrittenAs vs ws →
      Json.list? (Json.pair? Json.string? (decode fuel)) (.array ws) = some vs) :
    decodeEntry (fuel + 1) v = some (desc, vs) := by
  obtain ⟨ms, rfl, hold⟩ := h
  obtain ⟨desc, values, -⟩ := hold.look
  have values : defaulted ms "values" (Json.list? (Json.pair? Json.string? (decode fuel))) [] = some vs := by
    refine values.defaulted fun w given form => ?_
    obtain ⟨ws, rfl, all⟩ := form
    have smaller := Json.height_lt_object given
    rw [Json.height] at smaller
    exact pairs ws (by omega) all
  simp [decodeEntry, hold.members?, desc.string, values]

mutual
theorem decode_of_writtenAs (x : AnnotationValue) (exact : Floatless x.constants) {v : Json}
    (h : x.WrittenAs v) {fuel : Nat} (enough : v.height < fuel) : decode fuel v = some x := by
  cases fuel with
  | zero => cases enough
  | succ fuel =>
    match x with
    | .literal l =>
      obtain ⟨w, form, -, split⟩ := Labelled.labelled? h .plain kinds
      have value := Literal.decode_of_writtenAs (exact l (by simp [constants])) form .plain
      simp [decode, split, Literal.ofJson?, value]
    | .enumConstant _ _ =>
      obtain ⟨w, ⟨ms, rfl, hold⟩, -, split⟩ := Labelled.labelled? h .plain kinds
      obtain ⟨desc, value, -⟩ := hold.look
      simp [decode, split, hold.members?, desc.string, value.string]
    | .array vs =>
      obtain ⟨w, ⟨ws, rfl, all⟩, smaller, split⟩ := Labelled.labelled? h .plain kinds
      rw [Json.height] at smaller
      have values := decodeAll_of_writtenAs vs exact all (by omega : _ < fuel)
      simp [decode, split, values]
    | .nested desc vs =>
      obtain ⟨w, entry, smaller, split⟩ := Labelled.labelled? h .plain kinds
      -- The annotation inside takes a step of its own before its values are read.
      cases fuel with
      | zero => omega
      | succ fuel =>
        have inner : decodeEntry (fuel + 1) w = some (desc, vs) :=
          decodeEntry_of_record entry (by omega) fun ws enough all =>
            decodePairs_of_writtenAs vs exact all enough
        simp [decode, split, inner]
termination_by structural x

theorem decodeAll_of_writtenAs (xs : List AnnotationValue) (exact : Floatless (constantsOfAll xs))
    {ws : List Json} (h : AllWrittenAs xs ws) {fuel : Nat} (enough : Json.itemsHeight ws < fuel) :
    Json.list? (decode fuel) (.array ws) = some xs := by
  match xs with
  | [] =>
    obtain rfl : ws = [] := h
    rfl
  | x :: rest =>
    obtain ⟨w, later, rfl, form, forms⟩ := h
    rw [Json.itemsHeight] at enough
    exact Json.list?_cons (decode_of_writtenAs x exact.left form (by omega))
      (decodeAll_of_writtenAs rest exact.right forms (by omega))
termination_by structural xs

theorem decodePairs_of_writtenAs (xs : List (String × AnnotationValue))
    (exact : Floatless (constantsOfPairs xs)) {ws : List Json} (h : PairsWrittenAs xs ws) {fuel : Nat}
    (enough : Json.itemsHeight ws < fuel) :
    Json.list? (Json.pair? Json.string? (decode fuel)) (.array ws) = some xs := by
  match xs with
  | [] =>
    obtain rfl : ws = [] := h
    rfl
  | (name, x) :: rest =>
    obtain ⟨w, later, rfl, form, forms⟩ := h
    simp only [Json.itemsHeight, Json.height] at enough
    have first := decode_of_writtenAs x exact.left form (by omega : _ < fuel)
    exact Json.list?_cons (by simp [Json.pair?, Json.string?, first])
      (decodePairs_of_writtenAs rest exact.right forms (by omega))
termination_by structural xs
end

end AnnotationValue

theorem AnnotationEntry.ofJson?_of_writtenAs {a : AnnotationEntry} (exact : Floatless a.constants) {v : Json}
    (h : a.WrittenAs v) : ofJson? v = some a := by
  have entry := AnnotationValue.decodeEntry_of_record h (Nat.lt_succ_self _) fun ws enough all =>
    AnnotationValue.decodePairs_of_writtenAs a.values exact all enough
  simp [ofJson?, Json.decodeFuel, entry]

theorem MethodHandle.ofJson?_of_writtenAs {m : MethodHandle} (h : m.WrittenAs v) : ofJson? v = some m := by
  obtain ⟨ms, rfl, hold⟩ := h
  obtain ⟨owner, name, desc, -⟩ := hold.look
  simp [ofJson?, hold.members?, owner.string, name.string, desc.string]

theorem InvokeKind.choice?_name (kind : InvokeKind) (spelling : Json.Spelling) :
    Json.choice? spelling InvokeKind.names (.string kind.name) = some kind := by
  cases kind <;> rfl

theorem FieldAccess.choice?_name (access : FieldAccess) (spelling : Json.Spelling) :
    Json.choice? spelling FieldAccess.names (.string access.name) = some access := by
  cases access <;> rfl

theorem Instruction.ofJson?_of_writtenAs {i : Instruction} (exact : Floatless i.constants)
    (h : i.WrittenAs v) : ofJson? v = some i := by
  cases i with
  | invoke kind owner name desc =>
    obtain ⟨rest, split, hold⟩ := Record.tagged? h (by simp [needed]) .plain operations
    obtain ⟨how, owner, name, desc, -⟩ := hold.look
    have how : required rest "kind" (Json.choice? .setAside InvokeKind.names) = some kind :=
      how.required fun _ _ same => same ▸ kind.choice?_name .setAside
    simp [ofJson?, split, hold.members?, how, owner.string, name.string, desc.string]
  | instantiate typeName =>
    obtain ⟨rest, split, hold⟩ := Record.tagged? h (by simp [needed]) .plain operations
    obtain ⟨type, -⟩ := hold.look
    simp [ofJson?, split, hold.members?, type.string]
  | fieldAccess access owner name desc =>
    obtain ⟨rest, split, hold⟩ := Record.tagged? h (by simp [needed]) .plain operations
    obtain ⟨how, owner, name, desc, -⟩ := hold.look
    have how : required rest "access" (Json.choice? .setAside FieldAccess.names) = some access :=
      how.required fun _ _ same => same ▸ access.choice?_name .setAside
    simp [ofJson?, split, hold.members?, how, owner.string, name.string, desc.string]
  | loadConstant l =>
    obtain ⟨rest, split, hold⟩ := Record.tagged? h (by simp [needed]) .plain operations
    obtain ⟨value, -⟩ := hold.look
    have value : required rest "value" (Literal.decode .setAside) = some l :=
      value.required fun _ _ form => Literal.decode_of_writtenAs (exact l (by simp [constants])) form .setAside
    simp [ofJson?, split, hold.members?, value]
  | invokeDynamic name desc handles =>
    obtain ⟨rest, split, hold⟩ := Record.tagged? h (by simp [needed, spare]) .plain operations
    obtain ⟨name, desc, captured, -⟩ := hold.look
    have captured : defaulted rest "handles" (Json.list? MethodHandle.ofJson?) [] = some handles :=
      captured.defaulted fun _ _ form => form.list? fun _ _ _ => MethodHandle.ofJson?_of_writtenAs
    simp [ofJson?, split, hold.members?, name.string, desc.string, captured]

theorem optionalText {o : Option String}
    (h : ms.Look (spare name (OptionalText o) o none)) : optional ms name Json.string? = some o :=
  h.optional fun _ _ form => form.option? (fun _ _ => nofun) fun _ _ _ same => same ▸ rfl

theorem textList {xs : List String} (h : ms.Look (spare name (ListForm (fun s v => v = .string s) xs) xs [])) :
    defaulted ms name (Json.list? Json.string?) [] = some xs :=
  h.defaulted fun _ _ form => form.list? fun _ _ _ same => same ▸ rfl

theorem AnnotationEntry.defaulted_list {as : List AnnotationEntry}
    (exact : Floatless (as.flatMap constants)) (h : ms.Look (spare "annotations" (ListForm WrittenAs as) as [])) :
    defaulted ms "annotations" (Json.list? ofJson?) [] = some as :=
  h.defaulted fun _ _ form => form.list? fun _ member _ => ofJson?_of_writtenAs (exact.part member)

theorem FieldDeclaration.ofJson?_of_writtenAs {f : FieldDeclaration} (exact : Floatless f.constants)
    (h : f.WrittenAs v) : ofJson? v = some f := by
  obtain ⟨ms, rfl, hold⟩ := h
  obtain ⟨name, desc, access, signature, annotations, value, -⟩ := hold.look
  have value : optional ms "value" Literal.ofJson? = some f.value :=
    value.optional fun _ _ form => form.option? (fun _ _ => Literal.writtenAs_object) fun l given _ form =>
      Literal.decode_of_writtenAs (exact.right l (by simpa using given)) form .plain
  simp [ofJson?, hold.members?, name.string, desc.string, access.uint32,
    optionalText signature, AnnotationEntry.defaulted_list exact.left annotations, value]

theorem MethodDeclaration.ofJson?_of_writtenAs {m : MethodDeclaration} (exact : Floatless m.constants)
    (h : m.WrittenAs v) : ofJson? v = some m := by
  obtain ⟨ms, rfl, hold⟩ := h
  obtain ⟨name, desc, access, signature, annotations, marks, names, instructions, -⟩ := hold.look
  have marks : defaulted ms "parameter_annotations" (Json.list? (Json.list? AnnotationEntry.ofJson?)) [] =
      some m.parameterAnnotations := by
    refine marks.defaulted fun _ _ form => form.list? fun as inside _ form => form.list? fun a member _ => ?_
    exact AnnotationEntry.ofJson?_of_writtenAs ((exact.left.right.part inside).part member)
  have instructions : defaulted ms "instructions" (Json.list? Instruction.ofJson?) [] = some m.instructions :=
    instructions.defaulted fun _ _ form => form.list? fun _ member _ =>
      Instruction.ofJson?_of_writtenAs (exact.right.part member)
  simp [ofJson?, hold.members?, name.string, desc.string, access.uint32,
    optionalText signature, AnnotationEntry.defaulted_list exact.left.left annotations, marks, textList names,
    instructions]

theorem ClassDeclaration.ofJson?_of_writtenAs {c : ClassDeclaration} (exact : Floatless c.constants)
    (h : c.WrittenAs v) : ofJson? v = some c := by
  obtain ⟨ms, rfl, hold⟩ := h
  obtain ⟨name, access, superName, interfaces, signature, outerClass, annotations, fields, methods, -⟩ := hold.look
  have fields : defaulted ms "fields" (Json.list? FieldDeclaration.ofJson?) [] = some c.fields :=
    fields.defaulted fun _ _ form => form.list? fun _ member _ =>
      FieldDeclaration.ofJson?_of_writtenAs (exact.left.right.part member)
  have methods : defaulted ms "methods" (Json.list? MethodDeclaration.ofJson?) [] = some c.methods :=
    methods.defaulted fun _ _ form => form.list? fun _ member _ =>
      MethodDeclaration.ofJson?_of_writtenAs (exact.right.part member)
  simp [ofJson?, hold.members?, name.string, access.uint32, optionalText superName,
    textList interfaces, optionalText signature, optionalText outerClass,
    AnnotationEntry.defaulted_list exact.left.left annotations, fields, methods]

end ClassFiles

/-! ## Settings, measurements and snapshots -/

def Settings.WrittenAs (s : Settings) : Json → Prop :=
  Record [spare "follow_lambdas" (· = .bool s.followLambdas) s.followLambdas true,
    spare "record_measurements" (· = .bool s.recordMeasurements) s.recordMeasurements true,
    spare "strict_relations" (· = .bool s.strictRelations) s.strictRelations true]

namespace Measurement

mutual
def WrittenAs : Measurement → Json → Prop
  | ⟨action, scopeIn, scopeOut, input, output, durationUs, entitiesDelta, failed, children⟩ =>
    Record [needed "action" (· = .string action), needed "scope_in" (· = scopeIn.toJson),
      spare "scope_out" (OptionForm (fun k v => v = ScopeKind.toJson k) scopeOut) scopeOut none,
      needed "input" (· = .nat input), needed "output" (· = .nat output),
      needed "duration_us" (· = .nat durationUs), needed "entities_delta" (· = .int entitiesDelta),
      spare "failed" (· = .bool failed) failed false,
      spare "children" (fun v => ∃ vs, v = .array vs ∧ AllWrittenAs children vs) children []]
termination_by structural m => m
def AllWrittenAs : List Measurement → List Json → Prop
  | [], vs => vs = []
  | m :: rest, vs => ∃ w ws, vs = w :: ws ∧ m.WrittenAs w ∧ AllWrittenAs rest ws
termination_by structural ms => ms
end

mutual
/-- The numbers of every node are 64-bit words. -/
def Fits : Measurement → Prop
  | ⟨_, _, _, input, output, durationUs, entitiesDelta, _, children⟩ =>
    (∃ n : UInt64, n.toNat = input) ∧ (∃ n : UInt64, n.toNat = output) ∧ (∃ n : UInt64, n.toNat = durationUs) ∧
      (∃ n : Int64, n.toInt = entitiesDelta) ∧ AllFit children
termination_by structural m => m
def AllFit : List Measurement → Prop
  | [] => True
  | m :: rest => m.Fits ∧ AllFit rest
termination_by structural ms => ms
end

end Measurement

namespace Json

mutual
/-- Every object inside is a map: its names ascend. -/
def IsCanonical : Json → Prop
  | .array xs => AllCanonical xs
  | .object ms => Ordered.Named ms ∧ MembersCanonical ms
  | _ => True
termination_by structural v => v
def AllCanonical : List Json → Prop
  | [] => True
  | x :: xs => x.IsCanonical ∧ AllCanonical xs
termination_by structural xs => xs
def MembersCanonical : List (String × Json) → Prop
  | [] => True
  | (_, x) :: ms => x.IsCanonical ∧ MembersCanonical ms
termination_by structural ms => ms
end

end Json

def ElementId.Fits (e : ElementId) : Prop := ∃ n : Int32, n.toInt = e.val

def EntityId.Fits (e : EntityId) : Prop := ∃ n : UInt32, n.toNat = e.val

def PropertyValue.WrittenAs : PropertyValue → Json → Prop
  | .text s => Labelled "text" (· = .string s)
  | .number n => Labelled "number" (· = .int n.toInt)
  | .decimal x => Labelled "decimal" (· = .ofBinary64 x)
  | .bool b => Labelled "bool" (· = .bool b)
  | .type t => Labelled "type" (· = .string t.text)
  | .element e => Labelled "element" (· = e.toJson)

/-- The value is no floating-point number, and the number of an element is a 32-bit word. -/
def PropertyValue.Fits : PropertyValue → Prop
  | .decimal _ => False
  | .element e => e.Fits
  | _ => True

namespace EntityRecord

def WrittenAs (e : EntityRecord) : Json → Prop :=
  Record [needed "id" (· = e.id.toJson), needed "type" (· = .string e.type),
    needed "label" (· = .string e.label), needed "element" (· = e.element.toJson),
    spare "synthetic" (· = .bool e.synthetic) e.synthetic false,
    spare "properties" (MapForm (ListForm PropertyValue.WrittenAs) e.properties) e.properties [],
    spare "children" (MapForm (ListForm fun id v => v = EntityId.toJson id) e.children) e.children []]

structure Fits (e : EntityRecord) : Prop where
  id : e.id.Fits
  element : e.element.Fits
  properties : Ordered.Named e.properties
  values : ∀ p ∈ e.properties, ∀ v ∈ p.2, v.Fits
  children : Ordered.Named e.children
  ids : ∀ c ∈ e.children, ∀ id ∈ c.2, id.Fits

end EntityRecord

def RelationRecord.WrittenAs (r : RelationRecord) : Json → Prop :=
  Record [needed "source" (· = r.source.toJson), needed "target" (· = r.target.toJson),
    needed "key" (· = .string r.key)]

namespace Snapshot

def WrittenAs (s : Snapshot) : Json → Prop :=
  Record [spare "version" (· = .string s.version) s.version "1.0",
    spare "metadata" (MapForm (fun x v => v = x) s.metadata) s.metadata [],
    spare "stats" (MapForm (fun x v => v = x) s.stats) s.stats [],
    spare "entities" (ListForm EntityRecord.WrittenAs s.entities) s.entities [],
    spare "relations" (ListForm RelationRecord.WrittenAs s.relations) s.relations [],
    spare "measurements" (ListForm Measurement.WrittenAs s.measurements) s.measurements []]

/-- Maps are sorted, numbers are words of their width, and no property is a floating-point number. -/
structure Fits (s : Snapshot) : Prop where
  metadata : Ordered.Named s.metadata ∧ ∀ m ∈ s.metadata, m.2.IsCanonical
  stats : Ordered.Named s.stats ∧ ∀ m ∈ s.stats, m.2.IsCanonical
  entities : ∀ e ∈ s.entities, e.Fits
  relations : ∀ r ∈ s.relations, r.source.Fits ∧ r.target.Fits
  measurements : ∀ m ∈ s.measurements, m.Fits

end Snapshot

section Results

theorem Settings.ofJson?_of_writtenAs {s : Settings} (h : s.WrittenAs v) : ofJson? v = some s := by
  obtain ⟨ms, rfl, hold⟩ := h
  obtain ⟨lambdas, measurements, relations, -⟩ := hold.look
  simp [ofJson?, hold.members?, lambdas.bool, measurements.bool, relations.bool]

theorem Json.nat?_toNat (n : UInt64) : Json.nat? (.nat n.toNat) = some n.toNat := by
  have bound := n.toNat_lt_size
  simp only [UInt64.size] at bound
  rw [Json.nat?, Json.nat, Json.intBetween?_int (by omega) (by omega), Option.map_some, Int.toNat_natCast]

theorem ScopeKind.ofJson?_toJson (kind : ScopeKind) : ofJson? kind.toJson = some kind :=
  kind.decode_toJson .plain

namespace Measurement

mutual
theorem decode_of_writtenAs (m : Measurement) (fits : m.Fits) {v : Json} (h : m.WrittenAs v) {fuel : Nat}
    (enough : v.height < fuel) : decode fuel v = some m := by
  match m with
  | ⟨action, scopeIn, scopeOut, _, _, _, _, failed, children⟩ =>
    obtain ⟨ms, rfl, hold⟩ := h
    obtain ⟨name, before, after, taken, given, time, delta, failure, parts, -⟩ := hold.look
    obtain ⟨⟨input, rfl⟩, ⟨output, rfl⟩, ⟨duration, rfl⟩, ⟨change, rfl⟩, inner⟩ := fits
    cases fuel with
    | zero => cases enough
    | succ fuel =>
      have before : required ms "scope_in" ScopeKind.ofJson? = some scopeIn :=
        before.required fun _ _ same => same ▸ scopeIn.ofJson?_toJson
      have after : optional ms "scope_out" ScopeKind.ofJson? = some scopeOut :=
        after.optional fun _ _ form => form.option? (fun _ _ => nofun) fun k _ _ same =>
          same ▸ k.ofJson?_toJson
      have taken : required ms "input" Json.nat? = some input.toNat :=
        taken.required fun _ _ same => same ▸ Json.nat?_toNat input
      have given : required ms "output" Json.nat? = some output.toNat :=
        given.required fun _ _ same => same ▸ Json.nat?_toNat output
      have time : required ms "duration_us" Json.nat? = some duration.toNat :=
        time.required fun _ _ same => same ▸ Json.nat?_toNat duration
      have delta : required ms "entities_delta" Json.int64? = some change :=
        delta.required fun _ _ same => same ▸ Json.int64?_toInt change
      have parts : defaulted ms "children" (Json.list? (decode fuel)) [] = some children := by
        refine parts.defaulted fun v given form => ?_
        obtain ⟨vs, rfl, all⟩ := form
        have smaller := Json.height_lt_object given
        rw [Json.height] at smaller
        exact decodeAll_of_writtenAs children inner all (by omega)
      simp [decode, hold.members?, name.string, before, after, taken, given, time, delta, failure.bool, parts]
termination_by structural m

theorem decodeAll_of_writtenAs (xs : List Measurement) (fits : AllFit xs) {vs : List Json}
    (h : AllWrittenAs xs vs) {fuel : Nat} (enough : Json.itemsHeight vs < fuel) :
    Json.list? (decode fuel) (.array vs) = some xs := by
  match xs with
  | [] =>
    obtain rfl : vs = [] := h
    rfl
  | m :: rest =>
    obtain ⟨w, ws, rfl, form, forms⟩ := h
    rw [Json.itemsHeight] at enough
    exact Json.list?_cons (decode_of_writtenAs m fits.1 form (by omega))
      (decodeAll_of_writtenAs rest fits.2 forms (by omega))
termination_by structural xs
end

end Measurement

namespace Json

mutual
theorem canonical_of_isCanonical (v : Json) (h : v.IsCanonical) : v.canonical = v := by
  match v with
  | .array xs => rw [canonical, canonicalItems_of_all xs h]
  | .object ms => rw [canonical, canonicalMembers_of_all ms h.2, h.1.byName_perm (.refl ms)]
  | .null | .bool _ | .int _ | .double _ | .single _ | .string _ => rfl
termination_by structural v
theorem canonicalItems_of_all (xs : List Json) (h : AllCanonical xs) : canonicalItems xs = xs := by
  match xs with
  | [] => rfl
  | x :: xs => rw [canonicalItems, canonical_of_isCanonical x h.1, canonicalItems_of_all xs h.2]
termination_by structural xs
theorem canonicalMembers_of_all (ms : List (String × Json)) (h : MembersCanonical ms) :
    canonicalMembers ms = ms := by
  match ms with
  | [] => rfl
  | (k, v) :: ms => rw [canonicalMembers, canonical_of_isCanonical v h.1, canonicalMembers_of_all ms h.2]
termination_by structural ms
end

end Json

theorem ElementId.ofJson?_toJson {e : ElementId} (fits : e.Fits) : ofJson? e.toJson = some e := by
  obtain ⟨_⟩ := e
  obtain ⟨n, rfl⟩ := fits
  simp [ofJson?, toJson, Json.int32?_toInt]

theorem EntityId.ofJson?_toJson {e : EntityId} (fits : e.Fits) : ofJson? e.toJson = some e := by
  obtain ⟨_⟩ := e
  obtain ⟨n, rfl⟩ := fits
  simp [ofJson?, toJson, Json.uint32?_toNat]

theorem PropertyValue.ofJson?_of_writtenAs {p : PropertyValue} (fits : p.Fits) (h : p.WrittenAs v) :
    ofJson? v = some p := by
  cases p with
  | decimal x => cases fits
  | text s | bool b | type t =>
    obtain ⟨w, rfl, -, split⟩ := h.labelled? .plain kinds
    rw [ofJson?, split]
    rfl
  | number n =>
    obtain ⟨w, rfl, -, split⟩ := h.labelled? .plain kinds
    simp [ofJson?, split, Json.int64?_toInt]
  | element e =>
    obtain ⟨w, rfl, -, split⟩ := h.labelled? .plain kinds
    simp [ofJson?, split, ElementId.ofJson?_toJson fits]

theorem EntityRecord.ofJson?_of_writtenAs {e : EntityRecord} (fits : e.Fits) (h : e.WrittenAs v) :
    ofJson? v = some e := by
  obtain ⟨ms, rfl, hold⟩ := h
  obtain ⟨id, type, label, element, synthetic, properties, children, -⟩ := hold.look
  have id : required ms "id" EntityId.ofJson? = some e.id :=
    id.required fun _ _ same => same ▸ EntityId.ofJson?_toJson fits.id
  have element : required ms "element" ElementId.ofJson? = some e.element :=
    element.required fun _ _ same => same ▸ ElementId.ofJson?_toJson fits.element
  have properties : defaulted ms "properties" (Json.map? (Json.list? PropertyValue.ofJson?)) [] =
      some e.properties :=
    properties.defaulted fun _ _ form => form.map? fits.properties fun p member _ form =>
      form.list? fun x inside _ => PropertyValue.ofJson?_of_writtenAs (fits.values p member x inside)
  have children : defaulted ms "children" (Json.map? (Json.list? EntityId.ofJson?)) [] = some e.children :=
    children.defaulted fun _ _ form => form.map? fits.children fun c member _ form =>
      form.list? fun id inside _ same => same ▸ EntityId.ofJson?_toJson (fits.ids c member id inside)
  simp [ofJson?, hold.members?, id, type.string, label.string, element, synthetic.bool, properties, children]

theorem RelationRecord.ofJson?_of_writtenAs {r : RelationRecord} (fits : r.source.Fits ∧ r.target.Fits)
    (h : r.WrittenAs v) : ofJson? v = some r := by
  obtain ⟨ms, rfl, hold⟩ := h
  obtain ⟨source, target, key, -⟩ := hold.look
  have source : required ms "source" EntityId.ofJson? = some r.source :=
    source.required fun _ _ same => same ▸ EntityId.ofJson?_toJson fits.1
  have target : required ms "target" EntityId.ofJson? = some r.target :=
    target.required fun _ _ same => same ▸ EntityId.ofJson?_toJson fits.2
  simp [ofJson?, hold.members?, source, target, key.string]

namespace Snapshot

theorem defaulted_figures {figures : List (String × Json)}
    (fits : Ordered.Named figures ∧ ∀ m ∈ figures, m.2.IsCanonical)
    (h : ms.Look (spare name (MapForm (fun x v => v = x) figures) figures [])) :
    defaulted ms name (Json.map? figure?) [] = some figures := by
  refine h.defaulted fun _ _ form => form.map? fits.1 fun m member _ same => ?_
  rw [same, figure?, Json.canonical_of_isCanonical m.2 (fits.2 m member)]

theorem ofJson?_of_writtenAs {s : Snapshot} (fits : s.Fits) (h : s.WrittenAs v) : ofJson? v = some s := by
  obtain ⟨ms, rfl, hold⟩ := h
  obtain ⟨version, metadata, stats, entities, relations, measurements, -⟩ := hold.look
  have version : defaulted ms "version" Json.string? "1.0" = some s.version :=
    version.defaulted fun _ _ same => same ▸ rfl
  have entities : defaulted ms "entities" (Json.list? EntityRecord.ofJson?) [] = some s.entities :=
    entities.defaulted fun _ _ form => form.list? fun e member _ =>
      EntityRecord.ofJson?_of_writtenAs (fits.entities e member)
  have relations : defaulted ms "relations" (Json.list? RelationRecord.ofJson?) [] = some s.relations :=
    relations.defaulted fun _ _ form => form.list? fun r member _ =>
      RelationRecord.ofJson?_of_writtenAs (fits.relations r member)
  have measurements : defaulted ms "measurements" (Json.list? Measurement.ofJson?) [] = some s.measurements :=
    measurements.defaulted fun _ _ form => form.list? fun m member _ form =>
      m.decode_of_writtenAs (fits.measurements m member) form (Nat.lt_succ_self _)
  simp [ofJson?, hold.members?, version, defaulted_figures fits.metadata metadata,
    defaulted_figures fits.stats stats, entities, relations, measurements]

end Snapshot

end Results

/-! ## Encoders leave nothing out -/

section Encoders

theorem TypeVariable.writtenAs_toJson (x : TypeVariable) : x.WrittenAs x.toJson := by
  have owner : x.owner.WrittenAs x.owner.toJson := by
    cases x.owner with
    | ofClass t => exact Record.full (by simp) rfl ⟨rfl, rfl, trivial⟩
    | ofMethod t name desc =>
      exact Record.full (by simp) rfl ⟨rfl, rfl, rfl, rfl, trivial⟩
  exact Record.full (by simp) rfl ⟨rfl, owner, trivial⟩

namespace TypeSignature

mutual
theorem writtenAs_toJson (s : TypeSignature) : s.WrittenAs s.toJson := by
  match s with
  | ⟨head, variance, depth, args⟩ =>
    have first : head.WrittenAs head.toJson := by
      cases head with
      | named t => rfl
      | var x => exact ⟨_, rfl, x.writtenAs_toJson⟩
    exact Record.full (by simp) rfl ⟨first, rfl, rfl, ⟨_, rfl, allWrittenAs_toJson args⟩, trivial⟩
termination_by structural s

theorem allWrittenAs_toJson (ss : List TypeSignature) : AllWrittenAs ss (listToJson ss) := by
  match ss with
  | [] => rfl
  | s :: rest => exact ⟨_, _, rfl, writtenAs_toJson s, allWrittenAs_toJson rest⟩
termination_by structural ss
end

end TypeSignature

theorem FormalParameter.writtenAs_toJson (p : FormalParameter) : p.WrittenAs p.toJson :=
  Record.full (by simp) rfl ⟨rfl, .option fun s _ => s.writtenAs_toJson, .list fun s _ => s.writtenAs_toJson, trivial⟩

theorem Literal.writtenAs_toJson (l : Literal) : l.WrittenAs l.toJson := by
  cases l <;> exact Labelled.full rfl

namespace AnnotationValue

mutual
theorem writtenAs_toJson (v : AnnotationValue) : v.WrittenAs v.toJson := by
  match v with
  | .literal l => exact Labelled.full l.writtenAs_toJson
  | .enumConstant desc constant =>
    exact Labelled.full (Record.full (by simp) rfl ⟨rfl, rfl, trivial⟩)
  | .array vs => exact Labelled.full ⟨_, rfl, allWrittenAs_toJson vs⟩
  | .nested desc vs =>
    exact Labelled.full (Record.full (by simp) rfl ⟨rfl, ⟨_, rfl, pairsWrittenAs_toJson vs⟩, trivial⟩)
termination_by structural v

theorem allWrittenAs_toJson (vs : List AnnotationValue) : AllWrittenAs vs (listToJson vs) := by
  match vs with
  | [] => rfl
  | v :: rest => exact ⟨_, _, rfl, writtenAs_toJson v, allWrittenAs_toJson rest⟩
termination_by structural vs

theorem pairsWrittenAs_toJson (vs : List (String × AnnotationValue)) : PairsWrittenAs vs (pairsToJson vs) := by
  match vs with
  | [] => rfl
  | (_, v) :: rest => exact ⟨_, _, rfl, writtenAs_toJson v, pairsWrittenAs_toJson rest⟩
termination_by structural vs
end

end AnnotationValue

theorem AnnotationEntry.writtenAs_toJson (a : AnnotationEntry) : a.WrittenAs a.toJson :=
  Record.full (by simp) rfl ⟨rfl, ⟨_, rfl, AnnotationValue.pairsWrittenAs_toJson a.values⟩, trivial⟩

theorem Instruction.writtenAs_toJson (i : Instruction) : i.WrittenAs i.toJson := by
  cases i with
  | invoke kind owner name desc | fieldAccess access owner name desc =>
    exact Record.full (by simp) rfl ⟨rfl, rfl, rfl, rfl, rfl, trivial⟩
  | instantiate typeName => exact Record.full (by simp) rfl ⟨rfl, rfl, trivial⟩
  | loadConstant l => exact Record.full (by simp) rfl ⟨rfl, l.writtenAs_toJson, trivial⟩
  | invokeDynamic name desc handles =>
    have handle (h : MethodHandle) : h.WrittenAs h.toJson :=
      Record.full (by simp) rfl ⟨rfl, rfl, rfl, trivial⟩
    exact Record.full (by simp) rfl ⟨rfl, rfl, rfl, .list fun h _ => handle h, trivial⟩

theorem OptionalText.option (o : Option String) : OptionalText o (.option .string o) :=
  OptionForm.option fun _ _ => rfl

theorem FieldDeclaration.writtenAs_toJson (f : FieldDeclaration) : f.WrittenAs f.toJson :=
  Record.full (by simp) rfl ⟨rfl, rfl, rfl, .option f.signature, .list fun a _ => a.writtenAs_toJson,
    .option fun l _ => l.writtenAs_toJson, trivial⟩

theorem MethodDeclaration.writtenAs_toJson (m : MethodDeclaration) : m.WrittenAs m.toJson :=
  Record.full (by simp) rfl ⟨rfl, rfl, rfl, .option m.signature, .list fun a _ => a.writtenAs_toJson,
    .list fun _ _ => .list fun a _ => a.writtenAs_toJson, .list fun _ _ => rfl, .list fun i _ => i.writtenAs_toJson,
    trivial⟩

theorem ClassDeclaration.writtenAs_toJson (c : ClassDeclaration) : c.WrittenAs c.toJson :=
  Record.full (by simp) rfl ⟨rfl, rfl, .option c.superName, .list fun _ _ => rfl, .option c.signature,
    .option c.outerClass, .list fun a _ => a.writtenAs_toJson, .list fun f _ => f.writtenAs_toJson,
    .list fun m _ => m.writtenAs_toJson, trivial⟩

theorem Settings.writtenAs_toJson (s : Settings) : s.WrittenAs s.toJson :=
  Record.full (by simp) rfl ⟨rfl, rfl, rfl, trivial⟩

namespace Measurement

mutual
theorem writtenAs_toJson (m : Measurement) : m.WrittenAs (encode true m) := by
  match m with
  | ⟨action, scopeIn, scopeOut, input, output, durationUs, entitiesDelta, failed, children⟩ =>
    exact Record.full (by simp) rfl ⟨rfl, rfl, .option fun _ _ => rfl, rfl, rfl, rfl, rfl, rfl,
      ⟨_, rfl, allWrittenAs_toJson children⟩, trivial⟩
termination_by structural m

theorem allWrittenAs_toJson (ms : List Measurement) : AllWrittenAs ms (encodeAll true ms) := by
  match ms with
  | [] => rfl
  | m :: rest => exact ⟨_, _, rfl, writtenAs_toJson m, allWrittenAs_toJson rest⟩
termination_by structural ms
end

end Measurement

theorem PropertyValue.writtenAs_toJson (p : PropertyValue) : p.WrittenAs p.toJson := by
  cases p <;> exact Labelled.full rfl

theorem EntityRecord.writtenAs_toJson (e : EntityRecord) : e.WrittenAs e.toJson :=
  Record.full (by simp) rfl ⟨rfl, rfl, rfl, rfl, rfl, .map fun _ _ => .list fun p _ => p.writtenAs_toJson,
    .map fun _ _ => .list fun _ _ => rfl, trivial⟩

theorem RelationRecord.writtenAs_toJson (r : RelationRecord) : r.WrittenAs r.toJson :=
  Record.full (by simp) rfl ⟨rfl, rfl, rfl, trivial⟩

theorem Snapshot.writtenAs_toJson (s : Snapshot) : s.WrittenAs s.toJson := by
  have figures (entries : List (String × Json)) : MapForm (fun x v => v = x) entries (.object entries) := by
    have form : MapForm (fun x v => v = x) entries (.map id entries) := .map fun _ _ => rfl
    simpa [Json.map] using form
  exact Record.full (by simp) rfl ⟨rfl, figures s.metadata, figures s.stats, .list fun e _ => e.writtenAs_toJson,
    .list fun r _ => r.writtenAs_toJson, .list fun m _ => m.writtenAs_toJson, trivial⟩

end Encoders

/-! ## Reading back -/

/-- The encoder writes one of the forms of a value, and the decoder takes each of them for it. -/
structure ReadsBack {α : Type} (Written : α → Json → Prop) (encode : α → Json) (decode : Json → Option α)
    (a : α) : Prop where
  written : Written a (encode a)
  back : decode (encode a) = some a
  abridged : ∀ v, Written a v → decode v = some a

theorem ReadsBack.of_forms {α : Type} {Written : α → Json → Prop} {encode : α → Json}
    {decode : Json → Option α} {a : α} (written : Written a (encode a))
    (all : ∀ v, Written a v → decode v = some a) : ReadsBack Written encode decode a :=
  ⟨written, all _ written, all⟩

/-- Class files, signatures, settings, measurements and snapshots without floating-point numbers are read
    back as they were written, also where members with default values were left out. -/
theorem documents_read_back :
    (∀ c : ClassDeclaration, Floatless c.constants →
      ReadsBack ClassDeclaration.WrittenAs ClassDeclaration.toJson ClassDeclaration.ofJson? c) ∧
    (∀ s, ReadsBack TypeSignature.WrittenAs TypeSignature.toJson TypeSignature.ofJson? s) ∧
    (∀ spelling p,
      ReadsBack FormalParameter.WrittenAs FormalParameter.toJson (FormalParameter.decode spelling) p) ∧
    (∀ spelling x, ReadsBack TypeVariable.WrittenAs TypeVariable.toJson (TypeVariable.decode spelling) x) ∧
    (∀ s, ReadsBack Settings.WrittenAs Settings.toJson Settings.ofJson? s) ∧
    (∀ m : Measurement, m.Fits → ReadsBack Measurement.WrittenAs Measurement.toJson Measurement.ofJson? m) ∧
    ∀ s : Snapshot, s.Fits → ReadsBack Snapshot.WrittenAs Snapshot.toJson Snapshot.ofJson? s := by
  refine ⟨fun c exact => ?_, fun s => ?_, fun spelling p => ?_, fun spelling x => ?_, fun s => ?_,
    fun m fits => ?_, fun s fits => ?_⟩
  · exact .of_forms c.writtenAs_toJson fun _ => ClassDeclaration.ofJson?_of_writtenAs exact
  · exact .of_forms s.writtenAs_toJson fun _ form => s.decode_of_writtenAs .plain form (Nat.lt_succ_self _)
  · exact .of_forms p.writtenAs_toJson fun _ => FormalParameter.decode_of_writtenAs spelling
  · exact .of_forms x.writtenAs_toJson fun _ => TypeVariable.decode_of_writtenAs spelling
  · exact .of_forms s.writtenAs_toJson fun _ => Settings.ofJson?_of_writtenAs
  · exact .of_forms m.writtenAs_toJson fun _ form => m.decode_of_writtenAs fits form (Nat.lt_succ_self _)
  · exact .of_forms s.writtenAs_toJson fun _ => Snapshot.ofJson?_of_writtenAs fits

/-- A document may leave all defaults out and give the members that remain in another order, also in an
    annotation inside an annotation. -/
theorem abridged_class_reads_back :
    let parts : List (String × AnnotationValue) :=
      [("none", .nested "Lapp/None;" []), ("xs", .array [.literal (.int 3)])]
    let values : List (String × AnnotationValue) := [("deep", .nested "Lapp/Deep;" parts)]
    let c : ClassDeclaration :=
      { name := "app/Pet", access := 0, annotations := [⟨"Lapp/Doc;", values⟩] }
    let none : Json := .object [("kind", .string "annotation"), ("value", .object [("desc", .string "Lapp/None;")])]
    let xs : Json := .object [("kind", .string "array"), ("value", .array [.object [("kind", .string "literal"),
      ("value", .object [("kind", .string "int"), ("value", .int 3)])]])]
    let deep : Json := .object [("value", .object [
      ("values", .array [.array [.string "none", none], .array [.string "xs", xs]]), ("desc", .string "Lapp/Deep;")]),
      ("kind", .string "annotation")]
    let v : Json := .object [("annotations", .array [.object [("values", .array [.array [.string "deep", deep]]),
      ("desc", .string "Lapp/Doc;")]]), ("name", .string "app/Pet")]
    let m : Measurement := ⟨"classes", .template, .none, 0, 4, 7, -1, true, []⟩
    let s : Snapshot :=
      { stats := [("n", .int 1)], relations := [⟨⟨1⟩, ⟨2⟩, "uses"⟩], measurements := [m] }
    (Floatless c.constants ∧ c.WrittenAs v ∧ ClassDeclaration.ofJson? v = some c) ∧
      (m.Fits ∧ Measurement.ofJson? m.toJson = some m) ∧ s.Fits ∧ Snapshot.ofJson? s.toJson = some s := by
  intro parts values c none xs deep v m s
  have exact : Floatless c.constants := by
    simp [Floatless, c, values, parts, ClassDeclaration.constants, AnnotationEntry.constants,
      AnnotationValue.constantsOfPairs, AnnotationValue.constants, AnnotationValue.constantsOfAll,
      Literal.isFloating]
  have written : c.WrittenAs v := by
    have noneWritten : AnnotationValue.WrittenAs (.nested "Lapp/None;" []) none :=
      Labelled.full (.of_each (by simp) (by simp [needed, spare]))
    have xsWritten : AnnotationValue.WrittenAs (.array [.literal (.int 3)]) xs :=
      AnnotationValue.writtenAs_toJson _
    have inner : AnnotationValue.PairsWrittenAs parts [.array [.string "none", none], .array [.string "xs", xs]] :=
      ⟨_, _, rfl, noneWritten, _, _, rfl, xsWritten, rfl⟩
    have deepWritten : AnnotationValue.WrittenAs (.nested "Lapp/Deep;" parts) deep :=
      .of_each (by simp) (by simpa [needed, tag] using .of_each (by simp) (by simpa [needed, spare] using inner))
    have outer : AnnotationValue.PairsWrittenAs values [.array [.string "deep", deep]] :=
      ⟨_, _, rfl, deepWritten, rfl⟩
    have entry : AnnotationEntry.WrittenAs ⟨"Lapp/Doc;", values⟩
        (.object [("values", .array [.array [.string "deep", deep]]), ("desc", .string "Lapp/Doc;")]) :=
      .of_each (by simp) (by simpa [needed, spare] using outer)
    exact .of_each (by simp) (by simpa [c, needed, spare, ListForm] using entry)
  have measured : m.Fits := ⟨⟨0, rfl⟩, ⟨4, rfl⟩, ⟨7, rfl⟩, ⟨-1, rfl⟩, trivial⟩
  have fits : s.Fits := by
    refine ⟨by simp [s, Ordered.Named], by simp [s, Ordered.Named, Json.IsCanonical], by simp [s], ?_,
      by simpa [s] using measured⟩
    simp only [s, List.mem_singleton, forall_eq]
    exact ⟨⟨1, rfl⟩, ⟨2, rfl⟩⟩
  exact ⟨⟨exact, written, (documents_read_back.1 c exact).abridged v written⟩,
    ⟨measured, (documents_read_back.2.2.2.2.2.1 m measured).back⟩,
    fits, (documents_read_back.2.2.2.2.2.2 s fits).back⟩

end ClassAtlas
