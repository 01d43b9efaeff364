import ClassAtlas.Proofs.Causes

/-! # Tracing made-up classes

A class that was not given is there because a step named it, or because a step took the type of an element. In the
second case the element is recorded as a cause of the class, and going back from the class leads to it. Every state of
a run can be traced in this way, whatever steps were taken before.
-/

namespace ClassAtlas

/-! ## Classes behind the given ones -/

theorem ClassPool.mem_of_withClasses {requests : List SynthesisTarget} {pool : ClassPool} {k : Nat}
    {d : ClassDeclaration} (beyond : pool.length ≤ k) (declared : (requests.foldl withClass pool)[k]? = some d) :
    ∃ r ∈ requests, d = ElementIndex.stub r.type r.methods := by
  induction requests generalizing pool with
  | nil =>
    have inside := (List.getElem?_eq_some_iff.mp declared).1
    exact absurd inside (Nat.not_lt.mpr beyond)
  | cons request rest ih =>
    by_cases later : (pool.withClass request).length ≤ k
    · obtain ⟨r, member, same⟩ := ih later declared
      exact ⟨r, List.mem_cons_of_mem request member, same⟩
    · -- Only the first request can have added a class here.
      obtain ⟨more, grown⟩ := begins_withClasses rest (pool.withClass request)
      rw [List.foldl_cons, ← grown, List.getElem?_append_left (Nat.lt_of_not_le later)] at declared
      refine ⟨request, List.mem_cons_self, ?_⟩
      unfold withClass at declared
      split at declared
      · have inside := (List.getElem?_eq_some_iff.mp declared).1
        exact absurd inside (Nat.not_lt.mpr beyond)
      · rw [List.getElem?_append_right beyond] at declared
        exact List.mem_singleton.mp (List.mem_of_getElem? declared)

theorem SignatureResolver.declaredType_stored {ix : ElementIndex} {id : ElementId} {r : SignatureResolver}
    {s : TypeSignature} (given : (declaredType ix id r).1 = some s) : ∃ element, ix.get? id = some element := by
  cases found : ix.get? id with
  | none => simp [declaredType, found] at given
  | some element => exact ⟨element, rfl⟩

theorem Step.classNamed_cases (create : Bool) (t : TypeName) {ix : ElementIndex} (complete : ix.Complete) :
    (classNamed create t ix).2 = ix ∨
      (classNamed create t ix).2.classes.length = ix.classes.length + 1 ∧
        (classNamed create t ix).2.find? (.classDef ix.classes.length) = (classNamed create t ix).1 := by
  cases known : ix.classByName? t with
  | some x =>
    left
    simp only [classNamed, known]
  | none =>
    have unknown : ix.classes.indexOf? t = none := by
      cases position : ix.classes.indexOf? t with
      | none => rfl
      | some c =>
        obtain ⟨x, -, found⟩ := complete.classByName? position
        cases known.symm.trans found
    obtain ⟨classes, found⟩ := ElementIndex.synthesizeClass_unknown unknown []
    simp only [classNamed, known]
    split
    · refine .inr ⟨?_, found⟩
      simp [classes]
    · exact .inl rfl

/-! ## What a step adds -/

namespace Model

/-- A later model, in which no cause is forgotten. -/
structure Continues (m m' : Model) : Prop where
  state : m.indexState.Precedes m'.indexState
  causes : ∀ x, m.provenance.causes x ⊆ m'.provenance.causes x

/-- Classes are only added at the end, and those that are new have a property. -/
def Gains (Q : Model → Nat → Prop) (m m' : Model) : Prop :=
  m.indexState.Orderly → m'.indexState.Orderly ∧ m.Continues m' ∧
    ∀ k, m.index.classes.length ≤ k → k < m'.index.classes.length → Q m' k

namespace Gains

variable {a b c : Model} {Q T U : Model → Nat → Prop}

theorem nothing (operates : a.Operates b) (causes : ∀ x, a.provenance.causes x ⊆ b.provenance.causes x)
    (same : b.index.classes = a.index.classes) : Gains Q a b := by
  intro h
  obtain ⟨orderly, precedes⟩ := operates.orderly h
  refine ⟨orderly, ⟨precedes, causes⟩, fun k beyond inside => ?_⟩
  rw [same] at inside
  omega

theorem refl (Q : Model → Nat → Prop) (m : Model) : Gains Q m m :=
  .nothing (Operates.change.refl m) (fun _ => List.Subset.refl _) rfl

theorem trans (first : Gains Q a b) (second : Gains T b c) (earlier : b.Continues c → ∀ k, Q b k → U c k)
    (last : ∀ k, T c k → U c k) : Gains U a c := by
  intro h
  obtain ⟨middle, there, new⟩ := first h
  obtain ⟨orderly, onward, newer⟩ := second middle
  refine ⟨orderly, ⟨there.state.trans onward.state, fun x => List.Subset.trans (there.causes x) (onward.causes x)⟩, ?_⟩
  intro k beyond inside
  by_cases old : k < b.index.classes.length
  · exact earlier onward k (new k beyond old)
  · exact last k (newer k (Nat.le_of_not_lt old) inside)

theorem change (lasts : ∀ {m m' k}, m.Continues m' → Q m k → Q m' k) : Change (Gains Q) :=
  ⟨refl Q, fun first second => first.trans second (fun onward _ => lasts onward) fun _ h => h⟩

end Gains

/-- The class at a position has a cause. -/
def Caused (m : Model) (k : Nat) : Prop :=
  ∃ x cause, m.index.find? (.classDef k) = some x ∧ cause ∈ m.provenance.causes x

theorem Caused.later {m m' : Model} {k : Nat} (onward : m.Continues m') (h : m.Caused k) : m'.Caused k := by
  obtain ⟨x, cause, home, listed⟩ := h
  exact ⟨x, cause, onward.state.index.keys home, onward.causes x listed⟩

end Model

theorem Step.explode_gains (create : Bool) (id : ElementId) : Keeps (Model.Gains Model.Caused) (explode create id) := by
  intro m
  have operates := explode_operates create id m
  obtain ⟨result, r, done⟩ | ⟨s, x, typed, concrete, named, done⟩ := explode_cases create id m
  · rw [done] at operates ⊢
    exact .nothing operates (fun _ => List.Subset.refl _) rfl
  · rw [done] at operates ⊢
    intro h
    obtain ⟨orderly, precedes⟩ := operates.orderly h
    refine ⟨orderly, ⟨precedes, Provenance.causes_subset_record _ _ _⟩, fun k beyond inside => ?_⟩
    have complete : m.index.Complete := h.listed.complete
    obtain ⟨element, stored⟩ := SignatureResolver.declaredType_stored typed
    generalize (m.caches.resolver.declaredType m.index id).2.erasure m.index.classes s = erased at *
    obtain ⟨t, r⟩ := erased
    simp only at inside
    rcases classNamed_cases create t complete with same | ⟨longer, home⟩
    · rw [same] at inside
      omega
    · have last : k = m.index.classes.length := by omega
      have found : (classNamed create t m.index).2.find? (.classDef k) = some x := by rw [last, home, named]
      refine ⟨x, id, found, Provenance.mem_record fun same => ?_⟩
      -- The class is new, and the element whose type was taken is not.
      subst same
      have cls := orderly.coherent.get?_classDef.mpr found
      cases (precedes.index.get? stored).symm.trans cls
      have earlier : k < m.index.classes.length := h.coherent.class_lt (h.coherent.get?_classDef.mp stored)
      omega

/-! ## Why a class is there -/

namespace StepCall

def after (c : StepCall) : Model := (c.step.apply c.scope c.model).2

def Makes (c : StepCall) (k : Nat) : Prop :=
  c.model.index.classes.length ≤ k ∧ k < c.after.index.classes.length

/-- Why a step made up the class at a position: one of its targets named the class, or it took the type of an
    element, which is now a cause of the class. -/
inductive Accounts (c : StepCall) (m : Model) (k : Nat) : Prop where
  | named {targets : List SynthesisTarget} {target : SynthesisTarget} (step : c.step = .synthesize targets)
      (asked : target ∈ targets) (stub : m.index.classes[k]? = some (ElementIndex.stub target.type target.methods))
  | typed {create : Bool} (step : c.step = .explodeType create) (caused : m.Caused k)

theorem Accounts.later {c : StepCall} {m m' : Model} {k : Nat} (h : c.Accounts m k) (onward : m.Continues m') :
    c.Accounts m' k := by
  cases h with
  | named step asked stub =>
    have there := (List.getElem?_eq_some_iff.mp stub).1
    exact .named step asked ((onward.state.classes.getElem? there).trans stub)
  | typed step caused => exact .typed step (caused.later onward)

end StepCall

namespace Model

/-- The classes that some steps have made up are accounted for. -/
def Gathers (m : Model) (calls : List StepCall) (m' : Model) : Prop :=
  Gains (fun m k => ∃ c ∈ calls, c.Makes k ∧ c.Accounts m k) m m'

theorem Gathers.history : History Gathers where
  refl m := Gains.refl _ m
  trans {_ _ _ xs ys} first second := by
    refine Gains.trans first second (fun onward k => ?_) fun k => ?_
    · rintro ⟨c, member, made, accounts⟩
      exact ⟨c, List.mem_append_left ys member, made, accounts.later onward⟩
    · rintro ⟨c, member, accounted⟩
      exact ⟨c, List.mem_append_right xs member, accounted⟩

end Model

theorem Step.apply_gathers (s : Step) (scope : Scope) (m : Model) :
    m.Gathers [⟨s, scope, m⟩] (s.apply scope m).2 := by
  have operates := s.apply_operates scope m
  have causes (untyped : ∀ create, s ≠ .explodeType create) (x : ElementId) :
      m.provenance.causes x ⊆ (s.apply scope m).2.provenance.causes x := by
    rw [s.apply_provenance scope m untyped]
    exact List.Subset.refl _
  cases s with
  | explodeType create =>
    have change := Model.Gains.change (Q := Model.Caused) Model.Caused.later
    have whole : Keeps (Model.Gains Model.Caused) ((Step.explodeType create).apply scope) :=
      .checked change (collect_keeps change (explode_gains create))
    intro h
    obtain ⟨orderly, onward, new⟩ := whole m h
    refine ⟨orderly, onward, fun k beyond inside => ?_⟩
    exact ⟨_, List.mem_singleton_self _, ⟨beyond, inside⟩, .typed rfl (new k beyond inside)⟩
  | synthesize targets =>
    intro h
    obtain ⟨orderly, precedes⟩ := operates.orderly h
    refine ⟨orderly, ⟨precedes, causes (by simp)⟩, fun k beyond inside => ?_⟩
    refine ⟨_, List.mem_singleton_self _, ⟨beyond, inside⟩, ?_⟩
    have complete : m.index.Complete := h.listed.complete
    have pool := (Step.synthesize targets).apply_classes scope complete
    obtain ⟨d, declared⟩ : ∃ d, ((Step.synthesize targets).apply scope m).2.index.classes[k]? = some d :=
      ⟨_, List.getElem?_eq_getElem inside⟩
    have request := declared
    rw [pool] at request
    obtain ⟨target, asked, rfl⟩ := ClassPool.mem_of_withClasses beyond request
    cases scope with
    | elements kind ids => cases asked
    | template => exact .named rfl asked declared
  | _ => exact .nothing operates (causes (by simp)) (quiet_classes.step scope _ (by simp) (by simp) m)

/-! ## Every state of a run -/

/-- What a cause says: its type is that of the class, and who asks why the class is there is told of it. -/
structure Model.Explains (m : Model) (cause x : ElementId) : Prop where
  cls : m.index.kind? x = some .classDef
  present : (m.index.kind? cause).isSome
  other : cause ≠ x
  once : (m.provenance.causes x).count cause = 1
  type : ∃ t, (m.caches.declaredClass? m.index cause).1 = some t ∧ m.index.classByName? t = some x
  told : cause.text ++ " " ++ ((m.index.kind? cause).map ElementKind.name).getD "?" ++ " " ++ m.index.label cause ∈
    m.provenance.explain m.index x

/-- All causes explain what they are recorded for, and all classes behind the given ones are accounted for by one of
    the steps that were taken. -/
structure Model.Traced (classes : List ClassDeclaration) (calls : List StepCall) (m : Model) : Prop where
  sound : ∀ x cause, cause ∈ m.provenance.causes x → m.Explains cause x
  complete : ∀ k, classes.length ≤ k → k < m.index.classes.length → ∃ c ∈ calls, c.Makes k ∧ c.Accounts m k

theorem Model.Grounded.explains {m : Model} (h : m.Grounded) {x cause : ElementId}
    (listed : cause ∈ m.provenance.causes x) : m.Explains cause x := by
  have names := h.causes x cause listed
  obtain ⟨t, declared, named⟩ := names.declaredClass? h.orderly
  obtain ⟨k, -, home⟩ := Option.bind_eq_some_iff.mp named
  have stored : m.index.get? x = some (.classDef k) := h.orderly.coherent.get?_classDef.mpr home
  obtain ⟨element, known⟩ := names.valueless.stored
  have above : cause ∈ m.ancestors x := mem_ancestors.mpr ⟨names.other, 0, .cause .self listed⟩
  refine ⟨?_, ?_, names.other, List.count_eq_one_of_mem (h.once x) listed, ⟨t, declared, named⟩, ?_⟩
  · rw [ElementIndex.kind?, stored]
    rfl
  · rw [ElementIndex.kind?, known]
    rfl
  · exact List.mem_map.mpr ⟨cause, List.mem_cons_of_mem x above, rfl⟩

theorem Model.Grounded.traced {classes : List ClassDeclaration} {calls : List StepCall} {start m : Model}
    (h : m.Grounded) (begun : start.indexState.Orderly) (given : start.index.classes = classes)
    (gathers : start.Gathers calls m) : m.Traced classes calls := by
  refine ⟨fun x cause listed => h.explains listed, fun k beyond inside => ?_⟩
  obtain ⟨-, -, accounted⟩ := gathers begun
  rw [given] at accounted
  exact accounted k beyond inside

/-- In every state of a run, before and after each step and at the end, a cause of an element is another element of
    the index, listed once, whose declared type erases to the name of a class, and the element is this class. Every
    class behind the given ones was made up by a step that was taken: by one with a target for it, or by one that takes
    types, and then it has a cause. -/
theorem Pipeline.states_traced (settings : Settings) (classes : List ClassDeclaration) (p : Pipeline) :
    let start : Execution := .ofClasses settings classes
    let calls := p.action.stepCalls .template start
    (∀ before c later, calls = before ++ c :: later →
      c.model.Traced classes before ∧ c.after.Traced classes (before ++ [c])) ∧
    (p.action.execute .template start).2.model.Traced classes calls := by
  intro start calls
  have begun : start.model.Grounded := Model.grounded_ofClasses settings classes
  have given : start.model.index.classes = classes := (ElementIndex.discoverAll_fills _ _).sameClasses
  have tests (predicate : Predicate) (ids : List ElementId) (m : Model) : m.Gathers [] (predicate.splitIn ids m).2 :=
    .nothing (predicate.splitIn_operates ids m) (fun _ => List.Subset.refl _) rfl
  obtain ⟨stays, confined⟩ := p.action.execute_confined Model.grounded_confining .template start begun nofun
  refine ⟨fun before c later split => ?_, ?_⟩
  · have member : c ∈ calls := by simp [split]
    obtain ⟨grounded, all⟩ := confined c member
    have reached := Action.stepCalls_follow Model.Gathers.history Step.apply_gathers tests split
    have taken := Model.Gathers.history.trans reached (c.step.apply_gathers c.scope c.model)
    have after : c.after.Grounded := c.step.apply_grounded c.scope grounded all
    exact ⟨grounded.traced begun.orderly given reached, after.traced begun.orderly given taken⟩
  · have whole := Action.execute_follows Model.Gathers.history Step.apply_gathers tests p.action .template start
    exact stays.model.traced begun.orderly given whole

namespace TypeOfField

def classes : List ClassDeclaration :=
  [{ name := "app/Order", fields := [{ name := "item", desc := "Lext/Item;" }] }]

/-- Names one class and takes the types of fields for others. -/
def pipeline : Pipeline :=
  { name := "types"
    action := .chain
      [.nested (.step (.synthesize [{ type := ⟨"ext.Tool"⟩ }])), .step .classes, .step (.fields false),
        .step (.explodeType true)] }

def calls : List StepCall := pipeline.action.stepCalls .template (.ofClasses {} classes)

def last : Model := (pipeline.action.execute .template (.ofClasses {} classes)).2.model

theorem calls_ne_nil : calls ≠ [] := List.ne_nil_of_length_pos (by decide +kernel)

/-- The last step makes up the class of the field's type, and from the class one is led back to the field. -/
theorem item_traced :
    (∃ before c, calls = before ++ [c] ∧ c.Makes 2 ∧ c.after.Traced classes calls) ∧ last.Traced classes calls ∧
      last.index.find? (.classDef 2) = some ⟨-1⟩ ∧ last.provenance.causes ⟨-1⟩ = [⟨2⟩] ∧
      last.provenance.explain last.index ⟨-1⟩ = ["#-1 class Item", "#2 field Order.item", "#1 class Order"] := by
  obtain ⟨steps, finished⟩ := Pipeline.states_traced {} classes pipeline
  have split : calls = calls.dropLast ++ [calls.getLast calls_ne_nil] := (List.dropLast_append_getLast _).symm
  obtain ⟨-, after⟩ := steps _ _ [] split
  have made : (calls.getLast calls_ne_nil).model.index.classes.length ≤ 2 ∧
      2 < (calls.getLast calls_ne_nil).after.index.classes.length ∧
      last.index.find? (.classDef 2) = some ⟨-1⟩ ∧ last.provenance.causes ⟨-1⟩ = [⟨2⟩] ∧
      last.provenance.explain last.index ⟨-1⟩ =
        ["#-1 class Item", "#2 field Order.item", "#1 class Order"] := by decide +kernel
  rw [← split] at after
  exact ⟨⟨_, _, split, ⟨made.1, made.2.1⟩, after⟩, finished, made.2.2⟩

end TypeOfField

end ClassAtlas
