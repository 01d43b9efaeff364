import ClassAtlas.Pipeline.Evaluation

/-! # Labels from templates

`Rendered` says what a template stands for, character by character from the left: a placeholder is replaced,
and a character that starts none is copied. Whatever a placeholder stands for goes to the label as it is. Two
templates in a row are rendered one after the other, unless a placeholder may be under way between them.
-/

namespace ClassAtlas

namespace Properties

theorem values?_eq_some_iff {properties : Properties} {key : String} {vs : List PropertyValue} :
    properties.values? key = some vs ↔
      ∃ before after, (∀ p ∈ before, p.1 ≠ key) ∧ properties = before ++ (key, vs) :: after := by
  simp only [values?, Option.map_eq_some_iff, List.find?_eq_some_iff_append, beq_iff_eq]
  constructor
  · rintro ⟨⟨_, _⟩, ⟨rfl, before, after, whole, first⟩, rfl⟩
    exact ⟨before, after, by simpa using first, whole⟩
  · rintro ⟨before, after, first, whole⟩
    exact ⟨(key, vs), ⟨rfl, before, after, whole, by simpa using first⟩, rfl⟩

theorem values?_eq_none_iff {properties : Properties} {key : String} :
    properties.values? key = none ↔ ∀ p ∈ properties, p.1 ≠ key := by
  simp [values?]

end Properties

namespace LabelTemplate

/-! ## Placeholders -/

def KeyChar (c : Char) : Prop :=
  ('A' ≤ c ∧ c ≤ 'Z') ∨ ('a' ≤ c ∧ c ≤ 'z') ∨ ('0' ≤ c ∧ c ≤ '9') ∨ c = '_' ∨ c = '.' ∨ c = '-'

instance (c : Char) : Decidable (KeyChar c) := inferInstanceAs (Decidable (_ ∨ _))

/-- A placeholder of that key. -/
structure Placeholder (key written : List Char) : Prop where
  nonempty : key ≠ []
  chars : ∀ c ∈ key, KeyChar c
  written_eq : written = '$' :: '\x7b' :: (key ++ ['\x7d'])

/-- A placeholder may be under way at the end: the text ends in a dollar sign, or in an opening and characters
    of a key. -/
def Unfinished (text : List Char) : Prop :=
  ∃ before, text = before ++ ['$'] ∨ ∃ key, (∀ c ∈ key, KeyChar c) ∧ text = before ++ '$' :: '\x7b' :: key

theorem isKeyChar_iff {c : Char} : isKeyChar c = true ↔ KeyChar c := by
  have upper : c.isUpper = true ↔ 'A' ≤ c ∧ c ≤ 'Z' := decide_eq_true_iff
  have lower : c.isLower = true ↔ 'a' ≤ c ∧ c ≤ 'z' :=
    Bool.and_eq_true_iff.trans (and_congr decide_eq_true_iff decide_eq_true_iff)
  have digit : c.isDigit = true ↔ '0' ≤ c ∧ c ≤ '9' :=
    Bool.and_eq_true_iff.trans (and_congr decide_eq_true_iff decide_eq_true_iff)
  have letter : c.isAlpha = true ↔ c.isUpper = true ∨ c.isLower = true := Bool.or_eq_true_iff
  have alphanumeric : c.isAlphanum = true ↔ c.isAlpha = true ∨ c.isDigit = true := Bool.or_eq_true_iff
  simp only [isKeyChar, KeyChar, Bool.or_eq_true, beq_iff_eq, alphanumeric, letter, upper, lower, digit, or_assoc]

theorem KeyChar.ne_dollar {c : Char} (h : KeyChar c) : c ≠ '$' := by
  rintro rfl
  revert h
  decide

theorem key_unique {key key' rest rest' : List Char} (chars : ∀ c ∈ key, KeyChar c)
    (chars' : ∀ c ∈ key', KeyChar c) (stops : ∀ c ∈ rest.head?, ¬ KeyChar c)
    (same : key ++ rest = key' ++ '\x7d' :: rest') : key = key' ∧ rest = '\x7d' :: rest' := by
  induction key generalizing key' with
  | nil =>
    cases key' with
    | nil => exact ⟨rfl, same⟩
    | cons c key' =>
      obtain rfl : rest = c :: (key' ++ '\x7d' :: rest') := same
      exact absurd (chars' c (by simp)) (stops c (by simp))
  | cons c key ih =>
    cases key' with
    | nil =>
      obtain rfl : c = '\x7d' := (List.cons.inj same).1
      exact absurd (chars '\x7d' (by simp)) (by decide)
    | cons c' key' =>
      obtain ⟨rfl, tails⟩ := List.cons.inj same
      obtain ⟨rfl, rfl⟩ := ih (fun d hd => chars d (by simp [hd])) (fun d hd => chars' d (by simp [hd])) tails
      exact ⟨rfl, rfl⟩

theorem Placeholder.unique {key key' written written' rest rest' : List Char} (h : Placeholder key written)
    (h' : Placeholder key' written') (same : written ++ rest = written' ++ rest') : key = key' ∧ rest = rest' := by
  rw [h.written_eq, h'.written_eq] at same
  have same : key ++ '\x7d' :: rest = key' ++ '\x7d' :: rest' := by simpa using same
  obtain ⟨rfl, rest_eq⟩ := key_unique h.chars h'.chars (by simpa using by decide) same
  exact ⟨rfl, (List.cons.inj rest_eq).2⟩

theorem Placeholder.unfinished {key written text : List Char} (h : Placeholder key written)
    (start : text <+: written) (nonempty : text ≠ []) (shorter : text ≠ written) : Unfinished text := by
  obtain ⟨more, whole⟩ := start
  rw [h.written_eq] at whole shorter
  rcases text with _ | ⟨c, _ | ⟨d, text⟩⟩
  · exact absurd rfl nonempty
  · obtain ⟨rfl, -⟩ := List.cons.inj whole
    exact ⟨[], .inl rfl⟩
  · obtain ⟨rfl, tails⟩ := List.cons.inj whole
    obtain ⟨rfl, tails⟩ := List.cons.inj tails
    -- Whatever is missing, the closing brace is.
    obtain rfl | ⟨more, b, rfl⟩ := List.eq_nil_or_concat more
    · exact absurd (by simpa using whole) shorter
    · have tails : (text ++ more) ++ [b] = key ++ ['\x7d'] := by simpa using tails
      have within : text ++ more = key := (List.append_inj' tails rfl).1
      exact ⟨[], .inr ⟨text, fun c hc => h.chars c (by simp [← within, hc]), rfl⟩⟩

theorem Unfinished.append {text : List Char} (before : List Char) (h : Unfinished text) :
    Unfinished (before ++ text) := by
  obtain ⟨start, rfl | ⟨key, chars, rfl⟩⟩ := h
  · exact ⟨before ++ start, .inl (by simp)⟩
  · exact ⟨before ++ start, .inr ⟨key, chars, by simp⟩⟩

theorem not_unfinished {text : List Char} {c : Char} (last : text.getLast? = some c)
    (ends : c ≠ '$' ∧ c ≠ '\x7b' ∧ ¬ KeyChar c) : ¬ Unfinished text := by
  rintro ⟨before, rfl | ⟨key, chars, rfl⟩⟩
  · exact ends.1 (by simpa using last.symm)
  · obtain rfl | ⟨key, d, rfl⟩ := List.eq_nil_or_concat key
    · exact ends.2.1 (by simpa using last.symm)
    · have last : (before ++ '$' :: '\x7b' :: key ++ [d]).getLast? = some c := by simpa using last
      obtain rfl : d = c := by simpa only [List.getLast?_concat, Option.some.injEq] using last
      exact ends.2.2 (chars d (by simp))

/-! ## One pass over a template -/

/-- The text that a template stands for when placeholders stand for texts. -/
inductive Rendered (stands : String → String → Prop) : List Char → List Char → Prop where
  | done : Rendered stands [] []
  | replace {key written rest out : List Char} {text : String} (placeholder : Placeholder key written)
      (means : stands (String.ofList key) text) (onward : Rendered stands rest out) :
      Rendered stands (written ++ rest) (text.toList ++ out)
  | copy {c : Char} {rest out : List Char} (plain : ∀ key written, Placeholder key written → ¬ written <+: c :: rest)
      (onward : Rendered stands rest out) : Rendered stands (c :: rest) (c :: out)

namespace Rendered

variable {stands : String → String → Prop}

theorem unique (functional : ∀ key text text', stands key text → stands key text' → text = text')
    {template out out' : List Char} (h : Rendered stands template out) (h' : Rendered stands template out') :
    out = out' := by
  induction h generalizing out' with
  | done =>
    generalize none : [] = template at h'
    cases h' with
    | done => rfl
    | replace placeholder => simp [placeholder.written_eq] at none
    | copy => exact absurd none (by simp)
  | @replace key written rest out text placeholder means _ ih =>
    generalize whole : written ++ rest = template at h'
    cases h' with
    | done => simp [placeholder.written_eq] at whole
    | replace placeholder' means' onward' =>
      obtain ⟨rfl, rfl⟩ := placeholder.unique placeholder' whole
      rw [functional _ _ _ means means', ih onward']
    | copy plain => exact absurd ⟨_, whole⟩ (plain _ _ placeholder)
  | @copy c rest out plain _ ih =>
    generalize whole : c :: rest = template at h'
    cases h' with
    | done => exact absurd whole (by simp)
    | replace placeholder => exact absurd ⟨_, whole.symm⟩ (plain _ _ placeholder)
    | copy _ onward' =>
      obtain ⟨rfl, rfl⟩ := List.cons.inj whole
      rw [ih onward']

theorem keep {text rest out : List Char} (plain : ∀ c ∈ text, c ≠ '$') (h : Rendered stands rest out) :
    Rendered stands (text ++ rest) (text ++ out) := by
  induction text with
  | nil => exact h
  | cons c text ih =>
    refine .copy (fun key written placeholder begins => ?_) (ih fun d hd => plain d (by simp [hd]))
    rw [placeholder.written_eq] at begins
    exact plain c (by simp) (List.cons_prefix_cons.mp begins).1.symm

theorem unclosed {key rest out : List Char} (chars : ∀ c ∈ key, KeyChar c) (stops : ∀ c ∈ rest.head?, ¬ KeyChar c)
    (unclosed : ∀ more, rest = '\x7d' :: more → key = []) (h : Rendered stands rest out) :
    Rendered stands ('$' :: '\x7b' :: (key ++ rest)) ('$' :: '\x7b' :: (key ++ out)) := by
  have later : Rendered stands (('\x7b' :: key) ++ rest) (('\x7b' :: key) ++ out) :=
    h.keep (List.forall_mem_cons.mpr ⟨by decide, fun c hc => (chars c hc).ne_dollar⟩)
  refine .copy (fun key' written placeholder begins => ?_) later
  obtain ⟨more, whole⟩ := begins
  rw [placeholder.written_eq] at whole
  have same : key ++ rest = key' ++ '\x7d' :: more := by simpa using whole.symm
  obtain ⟨rfl, closes⟩ := key_unique chars placeholder.chars stops same
  exact placeholder.nonempty (unclosed more closes)

theorem append {first second out out' : List Char} (h : Rendered stands first out)
    (finished : ¬ Unfinished first) (h' : Rendered stands second out') :
    Rendered stands (first ++ second) (out ++ out') := by
  induction h with
  | done => exact h'
  | @replace key written rest out text placeholder means _ ih =>
    rw [List.append_assoc, List.append_assoc]
    exact .replace placeholder means (ih fun under => finished (under.append written))
  | @copy c rest out plain _ ih =>
    refine .copy (fun key written placeholder begins => ?_) (ih fun under => finished (under.append [c]))
    rcases List.prefix_or_prefix_of_prefix begins (List.prefix_append (c :: rest) second) with within | across
    · exact plain key written placeholder within
    · refine finished (placeholder.unfinished across (by simp) ?_)
      rintro rfl
      exact plain key _ placeholder List.prefix_rfl

end Rendered

/-! ## Rendering -/

def begun : Option (List Char) → List Char
  | none => []
  | some key => '$' :: '\x7b' :: key.reverse

theorem not_prefix_of_no_opening {c : Char} {rest : List Char}
    (plain : ∀ more, c = '$' → rest = '\x7b' :: more → False) (key written : List Char)
    (placeholder : Placeholder key written) : ¬ written <+: c :: rest := by
  rintro ⟨more, whole⟩
  rw [placeholder.written_eq] at whole
  obtain ⟨dollar, brace⟩ := List.cons.inj whole
  exact plain _ dollar.symm brace.symm

/-- A step for each character: with a placeholder under way, its text and what follows are rendered. -/
theorem renderChars_rendered {value : String → String} {stands : String → String → Prop}
    (sound : ∀ key, stands key (value key)) (held : Option (List Char)) (template : List Char)
    (chars : ∀ key ∈ held, ∀ c ∈ key.reverse, KeyChar c) :
    Rendered stands (begun held ++ template) (renderChars value held template) := by
  fun_induction renderChars value held template with
  | case1 => exact .done
  | case2 key => simpa [begun, opening] using Rendered.unclosed (chars key rfl) (by simp) (by simp) .done
  | case3 rest ih => exact ih (by simp)
  | case4 c rest plain ih => exact .copy (not_prefix_of_no_opening plain) (ih (by simp))
  | case5 key rest ih =>
    have onward : Rendered stands ('$' :: '\x7b' :: rest) (renderChars value (some []) rest) := ih (by simp)
    have stops : ∀ c ∈ ('$' :: '\x7b' :: rest).head?, ¬ KeyChar c := by simpa using by decide
    simpa [begun, opening] using onward.unclosed (chars key rfl) stops (by simp)
  | case6 key c rest plain isKey ih =>
    simpa [begun] using ih (by simpa [isKeyChar_iff.mp isKey] using chars key rfl)
  | case7 key c rest plain notKey closes ih =>
    obtain ⟨rfl, nonempty⟩ := closes
    have placeholder : Placeholder key.reverse ('$' :: '\x7b' :: (key.reverse ++ ['\x7d'])) :=
      ⟨by simpa using nonempty, chars key rfl, rfl⟩
    simpa [begun] using Rendered.replace placeholder (sound _) (ih (by simp))
  | case8 key c rest plain notKey notClosed ih =>
    have onward : Rendered stands (c :: rest) (c :: renderChars value none rest) :=
      .copy (not_prefix_of_no_opening plain) (ih (by simp))
    have stops : ∀ d ∈ (c :: rest).head?, ¬ KeyChar d := by simpa [isKeyChar_iff] using notKey
    have unclosed : ∀ more, c :: rest = '\x7d' :: more → key.reverse = [] := fun more closes => by
      simpa [(List.cons.inj closes).1] using notClosed
    simpa [begun, opening] using onward.unclosed (chars key rfl) stops unclosed

/-! ## Values of placeholders -/

/-- What a placeholder stands for: the name or the label of the element, or the first value of the first
    property with its key. -/
inductive Stands (ix : ElementIndex) (id : ElementId) (properties : Properties) : String → String → Prop where
  | name : Stands ix id properties "name" (ix.name id)
  | label : Stands ix id properties "label" (ix.label id)
  | property {key : String} {v : PropertyValue} {vs : List PropertyValue} {before after : Properties}
      (other : key ≠ "name" ∧ key ≠ "label") (first : ∀ p ∈ before, p.1 ≠ key)
      (found : properties = before ++ (key, v :: vs) :: after) : Stands ix id properties key v.shown
  | valueless {key : String} {before after : Properties} (other : key ≠ "name" ∧ key ≠ "label")
      (first : ∀ p ∈ before, p.1 ≠ key) (found : properties = before ++ (key, []) :: after) :
      Stands ix id properties key ""
  | unknown {key : String} (other : key ≠ "name" ∧ key ≠ "label") (missing : ∀ p ∈ properties, p.1 ≠ key) :
      Stands ix id properties key ""

theorem value_eq_text {ix : ElementIndex} {id : ElementId} {properties : Properties} {key : String}
    (other : key ≠ "name" ∧ key ≠ "label") :
    value ix id properties key = (properties.text? key).getD "" := by
  rw [value, if_neg other.1, if_neg other.2]

theorem stands_value (ix : ElementIndex) (id : ElementId) (properties : Properties) (key : String) :
    Stands ix id properties key (value ix id properties key) := by
  by_cases isName : key = "name"
  · subst isName
    exact .name
  by_cases isLabel : key = "label"
  · subst isLabel
    exact .label
  rw [value_eq_text ⟨isName, isLabel⟩, Properties.text?]
  cases values : properties.values? key with
  | none => exact .unknown ⟨isName, isLabel⟩ (Properties.values?_eq_none_iff.mp values)
  | some vs =>
    obtain ⟨before, after, first, found⟩ := Properties.values?_eq_some_iff.mp values
    cases vs with
    | nil => exact .valueless ⟨isName, isLabel⟩ first found
    | cons v vs => exact .property ⟨isName, isLabel⟩ first found

theorem Stands.value_eq {ix : ElementIndex} {id : ElementId} {properties : Properties} {key text : String}
    (h : Stands ix id properties key text) : value ix id properties key = text := by
  cases h with
  | name | label => rfl
  | property other first found =>
    rw [value_eq_text other, Properties.text?, Properties.values?_eq_some_iff.mpr ⟨_, _, first, found⟩]
    rfl
  | valueless other first found =>
    rw [value_eq_text other, Properties.text?, Properties.values?_eq_some_iff.mpr ⟨_, _, first, found⟩]
    rfl
  | unknown other missing =>
    rw [value_eq_text other, Properties.text?, Properties.values?_eq_none_iff.mpr missing]
    rfl

/-! ## Labels -/

theorem labelOf_rendered (ix : ElementIndex) (id : ElementId) (properties : Properties) (template : String) :
    Rendered (Stands ix id properties) template.toList (labelOf ix id properties template).toList := by
  rw [labelOf, render, String.toList_ofList]
  exact renderChars_rendered (stands_value ix id properties) none template.toList (by simp)

theorem labelOf_eq_of_rendered {ix : ElementIndex} {id : ElementId} {properties : Properties}
    {template label : String} (h : Rendered (Stands ix id properties) template.toList label.toList) :
    labelOf ix id properties template = label := by
  have functional : ∀ key text text', Stands ix id properties key text → Stands ix id properties key text' →
      text = text' := fun key text text' means means' => means.value_eq.symm.trans means'.value_eq
  exact String.toList_inj.mp ((labelOf_rendered ix id properties template).unique functional h)

/-- A template gives the one label that a pass over it renders. Templates in a row are rendered one after the
    other, whatever the properties say, unless a placeholder may be under way between them. -/
theorem labelOf_one_pass (ix : ElementIndex) (id : ElementId) (properties : Properties) :
    (∀ template label, labelOf ix id properties template = label ↔
      Rendered (Stands ix id properties) template.toList label.toList) ∧
    ∀ first second, ¬ Unfinished first.toList →
      labelOf ix id properties (first ++ second) =
        labelOf ix id properties first ++ labelOf ix id properties second := by
  refine ⟨fun template label => ⟨?_, labelOf_eq_of_rendered⟩, fun first second finished => ?_⟩
  · rintro rfl
    exact labelOf_rendered ix id properties template
  · apply labelOf_eq_of_rendered
    rw [String.toList_append, String.toList_append]
    exact (labelOf_rendered ix id properties first).append finished (labelOf_rendered ix id properties second)

-- A dollar sign before a brace: rendered on their own, both are copied.
example : render id ("$" ++ "\x7bname\x7d") = "name" ∧
    render id "$" ++ render id "\x7bname\x7d" = "$\x7bname\x7d" := by
  decide +kernel

namespace InsertedPlaceholders

def index : ElementIndex := .ofClasses [{ name := "a/Order" }]

def properties : Properties := [("tag", [.text "$\x7bname\x7d", .text "second"]), ("tag", [.text "later"])]

def first : String := "$\x7btag\x7d$\x7b\x7d$\x7ba b\x7d"

def second : String := "$\x7ba$\x7blabel\x7d"

/-- The value of the property looks like a placeholder, and its text stays. So does what is none. -/
theorem stay_as_they_are :
    labelOf index ⟨1⟩ properties first = "$\x7bname\x7d$\x7b\x7d$\x7ba b\x7d" ∧
    labelOf index ⟨1⟩ properties second = "$\x7baOrder" ∧
    ¬ Unfinished first.toList ∧
    labelOf index ⟨1⟩ properties (first ++ second) =
      labelOf index ⟨1⟩ properties first ++ labelOf index ⟨1⟩ properties second :=
  have finished : ¬ Unfinished first.toList := not_unfinished (c := '\x7d') (by decide +kernel) (by decide)
  ⟨by decide +kernel, by decide +kernel, finished, (labelOf_one_pass index ⟨1⟩ properties).2 first second finished⟩

end InsertedPlaceholders

end LabelTemplate

end ClassAtlas
