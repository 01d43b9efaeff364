import ClassAtlas.Proofs.ScopeKinds
import ClassAtlas.Proofs.StepCalls

/-! # Measurement trees

The recorder sees actions begin and end and nothing of how they hang together. Still the tree that it
builds has a node for every call, below it the nodes of the calls that this one made, in order. A call
that fails leaves its node open with the nodes of the calls before it, and so does every call around it.
-/

namespace ClassAtlas

/-! ## The calls that a call makes -/

namespace ActionCall

open Execution (followedBy)

variable {c : ActionCall} {e : Execution}

def result (c : ActionCall) : Except ModelError Scope := (c.action.execute c.scope c.start).1

def sequence : List Action → Scope → Execution → List ActionCall
  | [], _, _ => []
  | a :: rest, scope, e => ⟨a, scope, e⟩ :: followedBy (a.execute scope) (sequence rest) e

def branch (a : Action) (kind : ScopeKind) (ids : List ElementId) (e : Execution) : List ActionCall :=
  if ids.isEmpty then [] else [⟨a, .ofIds kind ids, e⟩]

def branchOption (a : Option Action) (kind : ScopeKind) (ids : List ElementId) (e : Execution) :
    List ActionCall :=
  match a with
  | none => []
  | some a => branch a kind ids e

/-- The calls that a call makes directly, in order. -/
def calls : ActionCall → List ActionCall
  | ⟨.step _, _, _⟩ => []
  | ⟨.chain actions, scope, e⟩ => sequence actions scope (e.enter (Action.chain actions).describe scope)
  | ⟨.compose a b, scope, e⟩ =>
    let begun := e.enter (Action.compose a b).describe scope
    ⟨a, scope, begun⟩ :: followedBy (a.execute scope) (fun _ e' => [⟨b, scope, e'⟩]) begun
  | ⟨.fork p a b, scope, e⟩ =>
    match scope.expectElements with
    | .error _ => []
    | .ok ids =>
      followedBy (Execution.onModel (p.splitIn ids))
        (fun parts e' =>
          branch a scope.kind parts.1 e' ++
            followedBy (Action.unitedWith (.elements scope.kind []) scope.kind parts.1 a.execute)
              (fun _ e'' => branchOption b scope.kind parts.2 e'') e')
        (e.enter (Action.fork p a b).describe scope)
  | ⟨.nested body, scope, e⟩ => [⟨body, scope, e.enter (Action.nested body).describe scope⟩]
  | ⟨.outerScope kind body, scope, e⟩ =>
    followedBy (Execution.onModel ((Step.ascend kind).apply scope)) (fun outer e' => [⟨body, outer, e'⟩])
      (e.enter (Action.outerScope kind body).describe scope)

theorem mem_followedBy {α : Type} {f : ExecutionM α} {next : α → Execution → List ActionCall}
    (member : c ∈ followedBy f next e) : ∃ a e', f e = (.ok a, e') ∧ c ∈ next a e' := by
  unfold followedBy at member
  split at member
  · next a e' ran => exact ⟨a, e', ran, member⟩
  · cases member

theorem mem_branch {a : Action} {kind : ScopeKind} {ids : List ElementId} (member : c ∈ branch a kind ids e) :
    ids ≠ [] ∧ c = ⟨a, .ofIds kind ids, e⟩ := by
  unfold branch at member
  split at member
  · cases member
  · next nonempty =>
      refine ⟨?_, List.mem_singleton.mp member⟩
      simpa using nonempty

theorem inSequence_of_mem {actions : List Action} {scope : Scope} (member : c ∈ sequence actions scope e) :
    InSequence actions scope e c := by
  induction actions generalizing scope e with
  | nil => cases member
  | cons a rest ih =>
    rcases List.mem_cons.mp member with rfl | later
    · exact .head
    · obtain ⟨out, e', ran, later⟩ := mem_followedBy later
      exact .tail ran (ih later)

theorem makes_of_mem_calls {c c' : ActionCall} (member : c' ∈ c.calls) : Makes c c' := by
  obtain ⟨action, scope, e⟩ := c
  cases action with
  | step s => cases member
  | chain actions => exact .chain (inSequence_of_mem member)
  | compose a b =>
    rcases List.mem_cons.mp member with rfl | later
    · exact .first
    · obtain ⟨left, e', ran, later⟩ := mem_followedBy later
      obtain rfl := List.mem_singleton.mp later
      exact .second ran
  | fork p a b =>
    simp only [calls] at member
    split at member
    · cases member
    · next ids elements =>
        obtain ⟨⟨yes, no⟩, e', split, member⟩ := mem_followedBy member
        rcases List.mem_append.mp member with first | second
        · obtain ⟨nonempty, rfl⟩ := mem_branch first
          exact .matching elements split nonempty
        · obtain ⟨out, e'', ran, second⟩ := mem_followedBy second
          cases b with
          | none => cases second
          | some b =>
            obtain ⟨nonempty, rfl⟩ := mem_branch second
            exact .remaining elements split ran nonempty
  | nested body =>
    obtain rfl := List.mem_singleton.mp member
    exact .nested
  | outerScope kind body =>
    obtain ⟨outer, e', ran, member⟩ := mem_followedBy member
    obtain rfl := List.mem_singleton.mp member
    exact .outerScope ran

theorem InSequence.action_mem {actions : List Action} {scope : Scope} (inside : InSequence actions scope e c) :
    c.action ∈ actions := by
  induction inside with
  | head => exact List.mem_cons_self
  | tail _ _ ih => exact List.mem_cons_of_mem _ ih

theorem Makes.smaller {c c' : ActionCall} (made : Makes c c') : sizeOf c'.action < sizeOf c.action := by
  cases made with
  | chain inside =>
    have part := List.sizeOf_lt_of_mem inside.action_mem
    simp only [Action.chain.sizeOf_spec]
    omega
  | first | second | matching | remaining | nested | outerScope =>
    simp only [Action.compose.sizeOf_spec, Action.fork.sizeOf_spec, Action.nested.sizeOf_spec,
      Action.outerScope.sizeOf_spec, Option.some.sizeOf_spec]
    omega

end ActionCall

/-! ## What happens between calls -/

/-- Nothing that the journal could note. -/
structure Execution.Unseen (e e' : Execution) : Prop where
  path : e'.path = e.path
  recorder : e'.recorder = e.recorder

/-- Nothing that the journal could note, and no entities added. -/
structure Execution.Quiet (e e' : Execution) : Prop extends Unseen e e' where
  entityCount : e'.entityCount = e.entityCount

theorem Execution.Quiet.change : Change Execution.Quiet where
  refl _ := ⟨⟨rfl, rfl⟩, rfl⟩
  trans h h' := ⟨⟨h'.path.trans h.path, h'.recorder.trans h.recorder⟩, h'.entityCount.trans h.entityCount⟩

def problem? {α : Type} : Except ModelError α → Option ModelError
  | .ok _ => none
  | .error problem => some problem

/-- Calls are made one after the other, and between them nothing happens but `Q`. All but the last pass.
    There may be an error without a call that fails, but not the other way round. -/
inductive Course (Q : Execution → Execution → Prop) :
    Execution → List ActionCall → Option ModelError → Execution → Prop where
  | done {e e' problem} (between : Q e e') : Course Q e [] problem e'
  | failing {e c problem} (between : Q e c.start) (failed : c.result = .error problem) :
      Course Q e [c] (some problem) c.finish
  | passing {e c rest out problem e'} (between : Q e c.start) (passed : c.result = .ok out)
      (later : Course Q c.finish rest problem e') : Course Q e (c :: rest) problem e'

namespace Course

variable {Q : Execution → Execution → Prop} {e e' e'' : Execution} {problem : Option ModelError}
  {calls : List ActionCall}

theorem mono {Q' : Execution → Execution → Prop} (weaker : ∀ {e e'}, Q e e' → Q' e e')
    (course : Course Q e calls problem e') : Course Q' e calls problem e' := by
  induction course with
  | done between => exact .done (weaker between)
  | failing between failed => exact .failing (weaker between) failed
  | passing between passed _ ih => exact .passing (weaker between) passed ih

theorem after (change : Change Q) (between : Q e e') (course : Course Q e' calls problem e'') :
    Course Q e calls problem e'' := by
  cases course with
  | done between' => exact .done (change.trans between between')
  | failing between' failed => exact .failing (change.trans between between') failed
  | passing between' passed later => exact .passing (change.trans between between') passed later

theorem append (change : Change Q) {first second : List ActionCall} (course : Course Q e first none e')
    (course' : Course Q e' second problem e'') : Course Q e (first ++ second) problem e'' := by
  generalize passed : (none : Option ModelError) = outcome at course
  induction course with
  | done between => exact .after change between course'
  | failing => cases passed
  | passing between passes _ ih => exact .passing between passes (ih course' passed)

end Course

/-- Whatever state it starts from, an operation makes these calls and adds no entities between them. -/
def Performs {α : Type} (f : ExecutionM α) (calls : Execution → List ActionCall) : Prop :=
  ∀ e, Course Execution.Quiet e (calls e) (problem? (f e).1) (f e).2

namespace Performs

open Execution (Quiet followedBy)

variable {α β : Type}

theorem pure (a : α) : Performs (Pure.pure a) fun _ => [] :=
  fun e => .done (Quiet.change.refl e)

theorem call (a : Action) (scope : Scope) : Performs (a.execute scope) fun e => [⟨a, scope, e⟩] := by
  intro e
  let c : ActionCall := ⟨a, scope, e⟩
  change Course Quiet e [c] (problem? c.result) c.finish
  cases outcome : c.result with
  | ok out => exact .passing (Quiet.change.refl e) outcome (.done (Quiet.change.refl _))
  | error problem => exact .failing (Quiet.change.refl e) outcome

theorem bind {f : ExecutionM α} {g : α → ExecutionM β} {first : Execution → List ActionCall}
    {second : α → Execution → List ActionCall} (hf : Performs f first) (hg : ∀ a, Performs (g a) (second a)) :
    Performs (f >>= g) fun e => first e ++ followedBy f second e := by
  intro e
  have begins := hf e
  rw [Operation.bind_apply]
  simp only [followedBy]
  generalize f e = outcome at begins ⊢
  obtain ⟨result, e'⟩ := outcome
  cases result with
  | ok a => exact begins.append Quiet.change (hg a e')
  | error problem =>
    rw [List.append_nil]
    exact begins

theorem map {f : ExecutionM α} {calls : Execution → List ActionCall} (hf : Performs f calls) (g : α → β) :
    Performs (f >>= fun a => Pure.pure (g a)) calls := by
  intro e
  have begins := hf e
  rw [Operation.bind_apply]
  generalize f e = outcome at begins ⊢
  obtain ⟨result, e'⟩ := outcome
  cases result <;> exact begins

theorem silent {f : ModelM α} (same : Keeps (fun m m' => m'.entities = m.entities) f) :
    Performs (Execution.onModel f) fun _ => [] :=
  fun e => .done ⟨⟨rfl, rfl⟩, congrArg EntityStore.size (same e.model)⟩

theorem unitedWith (out : Scope) (kind : ScopeKind) (ids : List ElementId)
    {run : Scope → ExecutionM Scope} {calls : Scope → Execution → List ActionCall}
    (hrun : ∀ scope, Performs (run scope) (calls scope)) :
    Performs (Action.unitedWith out kind ids run) fun e =>
      if ids.isEmpty then [] else calls (.ofIds kind ids) e := by
  unfold Action.unitedWith
  cases ids.isEmpty with
  | true => exact .pure out
  | false => exact .map (hrun (.ofIds kind ids)) _

theorem sequence (actions : List Action) (scope : Scope) :
    Performs (Action.executeAll actions scope) (ActionCall.sequence actions scope) := by
  induction actions generalizing scope with
  | nil => exact .pure scope
  | cons a rest ih => exact .bind (.call a scope) ih

theorem otherwise (a : Option Action) (out : Scope) (kind : ScopeKind) (ids : List ElementId) :
    Performs (Action.unitedWith out kind ids (Action.executeOption a))
      (ActionCall.branchOption a kind ids) := by
  cases a with
  | none =>
    intro e
    unfold Action.unitedWith
    cases ids.isEmpty <;> exact .done (Quiet.change.refl e)
  | some a => exact .unitedWith out kind ids (.call a)

end Performs

namespace ActionCall

open Execution (Quiet Unseen)

def begun (c : ActionCall) : Execution := c.start.enter c.action.describe c.scope

/-- A call notes itself and makes its calls. Only steps add entities, and they make no calls. -/
structure Runs (c : ActionCall) (body : ExecutionM Scope) : Prop where
  noted : c.action.execute c.scope = Execution.noted c.action.describe c.scope body
  course : Course Unseen c.begun c.calls (problem? (body c.begun).1) (body c.begun).2
  counted : c.calls ≠ [] → Course Quiet c.begun c.calls (problem? (body c.begun).1) (body c.begun).2

theorem Runs.ofQuiet {c : ActionCall} {body : ExecutionM Scope}
    (noted : c.action.execute c.scope = Execution.noted c.action.describe c.scope body)
    (course : Course Quiet c.begun c.calls (problem? (body c.begun).1) (body c.begun).2) : c.Runs body :=
  ⟨noted, course.mono Quiet.toUnseen, fun _ => course⟩

theorem runs (c : ActionCall) : ∃ body, c.Runs body := by
  obtain ⟨action, scope, e⟩ := c
  cases action with
  | step s => exact ⟨_, rfl, .done ⟨rfl, rfl⟩, fun some => absurd rfl some⟩
  | chain actions => exact ⟨_, .ofQuiet rfl (Performs.sequence actions scope _)⟩
  | compose a b =>
    have both := Performs.bind (.call a scope) fun left => Performs.map (.call b scope) left.union
    exact ⟨_, .ofQuiet rfl (both _)⟩
  | fork p a b =>
    refine ⟨_, .ofQuiet rfl ?_⟩
    cases scope with
    | template => exact .done (Quiet.change.refl _)
    | elements kind ids =>
      have tests := Performs.silent (Step.splitIn_keeps Step.selection_entities p ids)
      have whole := tests.bind fun parts =>
        (Performs.unitedWith (.elements kind []) kind parts.1 (Performs.call a)).bind fun out =>
          .otherwise b out kind parts.2
      exact whole _
  | nested body => exact ⟨_, .ofQuiet rfl (Performs.map (.call body scope) (fun _ => scope) _)⟩
  | outerScope kind body =>
    have ascends := Performs.silent (Step.selecting_keeps Step.selection_entities scope (s := .ascend kind) rfl)
    have whole := ascends.bind fun outer => Performs.map (.call body outer) fun _ => scope
    exact ⟨_, .ofQuiet rfl (whole _)⟩

end ActionCall

/-! ## What the recorder makes of calls -/

namespace MeasurementRecorder

def add (r : MeasurementRecorder) (m : Measurement) : MeasurementRecorder :=
  { r with
    pending := (attach m r.pending r.roots).1
    roots := (attach m r.pending r.roots).2 }

def addAll (r : MeasurementRecorder) (ms : List Measurement) : MeasurementRecorder := ms.foldl add r

theorem addAll_pending (enabled : Bool) (o : OpenMeasurement) (rest : List OpenMeasurement)
    (roots ms : List Measurement) :
    addAll ⟨enabled, o :: rest, roots⟩ ms = ⟨enabled, { o with children := o.children ++ ms } :: rest, roots⟩ := by
  induction ms generalizing o with
  | nil => simp [addAll]
  | cons m ms ih =>
    refine (ih { o with children := o.children ++ [m] }).trans ?_
    simp

end MeasurementRecorder

namespace ActionCall

open Execution (Quiet Unseen)

variable {c : ActionCall}

/-- How many entities a call adds, as a signed 64-bit word. -/
def entitiesAdded (c : ActionCall) : Int :=
  (Int64.ofNat c.finish.entityCount - Int64.ofNat c.start.entityCount).toInt

def measurement (c : ActionCall) (out : Scope) (children : List Measurement) : Measurement :=
  ⟨c.action.describe, c.scope.kind, some out.kind, c.scope.size, out.size, 0, c.entitiesAdded, false, children⟩

def opened (c : ActionCall) (children : List Measurement) : OpenMeasurement :=
  ⟨c.action.describe, c.scope.kind, c.scope.size, c.start.entityCount, children⟩

/-- A tree records a call and all calls inside it, which pass. -/
inductive Recorded : ActionCall → Measurement → Prop where
  | node {c : ActionCall} {out : Scope} {children : List Measurement} (passed : c.result = .ok out)
      (inside : List.Forall₂ Recorded c.calls children) : Recorded c (c.measurement out children)

/-- Nodes of calls that an error left under way. The calls are given outermost first, each made by the
    one before, and the nodes innermost first. What a call made before the error is below its node. -/
inductive Unfinished (problem : ModelError) : List ActionCall → List OpenMeasurement → Prop where
  | raised {c : ActionCall} {children : List Measurement} (failed : c.result = .error problem)
      (inside : List.Forall₂ Recorded c.calls children) : Unfinished problem [c] [c.opened children]
  | passedOn {c call : ActionCall} {path before : List ActionCall} {children : List Measurement}
      {nodes : List OpenMeasurement} (failed : c.result = .error problem) (calls : c.calls = before ++ [call])
      (inside : List.Forall₂ Recorded before children) (rest : Unfinished problem (call :: path) nodes) :
      Unfinished problem (c :: call :: path) (nodes ++ [c.opened children])

/-- What a call leaves in the journal: a closed node, or the nodes of the calls that an error left under
    way. -/
structure Journaled (c : ActionCall) : Prop where
  passed : ∀ {out}, c.result = .ok out → ∃ m, Recorded c m ∧ c.finish.path = c.start.path ∧
    c.finish.recorder = c.start.recorder.add m
  failed : ∀ {problem}, c.result = .error problem → ∃ path nodes, Unfinished problem (c :: path) nodes ∧
    c.finish.path = c.start.path ++ (c :: path).map (·.action.describe) ∧
    c.finish.recorder = { c.start.recorder with pending := nodes ++ c.start.recorder.pending }

theorem course_journaled {e e' : Execution} {calls : List ActionCall} {outcome : Option ModelError}
    (course : Course Unseen e calls outcome e')
    (each : ∀ c ∈ calls, c.start.recorder.enabled = e.recorder.enabled → c.Journaled) :
    (∃ ms, List.Forall₂ Recorded calls ms ∧ e'.path = e.path ∧ e'.recorder = e.recorder.addAll ms) ∨
      ∃ before call ms path nodes problem, outcome = some problem ∧ calls = before ++ [call] ∧
        List.Forall₂ Recorded before ms ∧ Unfinished problem (call :: path) nodes ∧
        e'.path = e.path ++ (call :: path).map (·.action.describe) ∧
        e'.recorder = { e.recorder.addAll ms with pending := nodes ++ (e.recorder.addAll ms).pending } := by
  induction course with
  | done between => exact .inl ⟨[], .nil, between.path, between.recorder⟩
  | @failing e c problem between failed =>
    have journaled := each c (by simp) (by rw [between.recorder])
    obtain ⟨path, nodes, unfinished, samePath, recorder⟩ := journaled.failed failed
    refine .inr ⟨[], c, [], path, nodes, problem, rfl, rfl, .nil, unfinished, ?_, ?_⟩
    · rw [samePath, between.path]
    · rw [recorder, between.recorder]
      rfl
  | @passing e c rest out outcome e' between passed _ ih =>
    have journaled := each c (by simp) (by rw [between.recorder])
    obtain ⟨m, recorded, samePath, recorder⟩ := journaled.passed passed
    have path : c.finish.path = e.path := samePath.trans between.path
    have added : c.finish.recorder = e.recorder.add m := by rw [recorder, between.recorder]
    have later := ih fun c' member enabled => each c' (by simp [member]) (by rw [enabled, added]; rfl)
    rw [path, added] at later
    obtain ⟨ms, rest, path, recorder⟩ | ⟨before, call, ms, path, nodes, problem, failed, split, rest, unfinished⟩ :=
      later
    · exact .inl ⟨m :: ms, .cons recorded rest, path, recorder⟩
    · refine .inr ⟨c :: before, call, m :: ms, path, nodes, problem, failed, ?_, .cons recorded rest, unfinished⟩
      rw [split, List.cons_append]

theorem begun_recorder (enabled : c.start.recorder.enabled = true) :
    c.begun.recorder = { c.start.recorder with pending := c.opened [] :: c.start.recorder.pending } := by
  change c.start.recorder.begin _ _ _ _ = _
  unfold MeasurementRecorder.begin
  rw [if_pos enabled]
  rfl

theorem Runs.outcome {body : ExecutionM Scope} (h : c.Runs body) :
    (c.result, c.finish) =
      match body c.begun with
      | (.ok out, e') => (.ok out, e'.leave out)
      | (.error problem, e') => (.error problem, e') := by
  change c.action.execute c.scope c.start = _
  rw [h.noted, Execution.noted_apply]
  rfl

theorem begun_addAll (enabled : c.start.recorder.enabled = true) (ms : List Measurement) :
    c.begun.recorder.addAll ms = { c.start.recorder with pending := c.opened ms :: c.start.recorder.pending } := by
  rw [begun_recorder enabled, MeasurementRecorder.addAll_pending]
  rfl

theorem journaled (c : ActionCall) (enabled : c.start.recorder.enabled = true) : c.Journaled := by
  obtain ⟨body, runs⟩ := c.runs
  -- The calls inside see a recorder that is on as well: only nodes have been added to it.
  have inside := course_journaled runs.course fun c' member same => by
    have smaller := (makes_of_mem_calls member).smaller
    exact journaled c' (by rw [same, begun_recorder enabled]; exact enabled)
  have path : c.begun.path = c.start.path ++ [c.action.describe] := rfl
  have outcome := runs.outcome
  generalize body c.begun = ran at inside outcome
  obtain ⟨result, e'⟩ := ran
  cases result with
  | ok out =>
    obtain ⟨result, finish⟩ := Prod.mk.inj outcome
    obtain ⟨ms, recorded, samePath, recorder⟩ | ⟨_, _, _, _, _, _, failed, _⟩ := inside
    · refine ⟨fun {out'} passed => ?_, fun {_} failed => ?_⟩
      · obtain rfl : out = out' := Except.ok.inj (result.symm.trans passed)
        refine ⟨c.measurement out ms, .node passed recorded, ?_, ?_⟩
        · rw [finish]
          change e'.path.dropLast = _
          rw [samePath, path, List.dropLast_concat]
        · have entities : c.finish.entityCount = e'.entityCount := by
            rw [finish]
            rfl
          have closed : c.finish.recorder = e'.recorder.finishAction out.kind out.size e'.entityCount :=
            congrArg Execution.recorder finish
          rw [closed, recorder, begun_addAll enabled, ← entities]
          rfl
      · cases result.symm.trans failed
    · cases failed
  | error problem =>
    obtain ⟨result, finish⟩ := Prod.mk.inj outcome
    refine ⟨fun {_} passed => ?_, fun {problem'} failed => ?_⟩
    · cases result.symm.trans passed
    · obtain rfl : problem = problem' := Except.error.inj (result.symm.trans failed)
      obtain ⟨ms, recorded, samePath, recorder⟩ |
        ⟨before, call, ms, later, nodes, problem', same, calls, recorded, unfinished, laterPath, recorder⟩ := inside
      · refine ⟨[], [c.opened ms], .raised failed recorded, ?_, ?_⟩
        · rw [finish, samePath, path]
          rfl
        · rw [finish, recorder, begun_addAll enabled]
          rfl
      · -- The last call passed the error on, so its open nodes stay above the one of this call.
        obtain rfl : problem = problem' := Option.some.inj same
        refine ⟨call :: later, nodes ++ [c.opened ms], .passedOn failed calls recorded unfinished, ?_, ?_⟩
        · rw [finish, laterPath, path, List.append_assoc]
          rfl
        · rw [finish, recorder, begun_addAll enabled, List.append_assoc]
          rfl
termination_by sizeOf c.action

end ActionCall

/-! ## Trees that mirror actions -/

namespace Measurement

def taken (m : Measurement) : Option ScopeKind × Nat := (some m.scopeIn, m.input)

def given (m : Measurement) : Option ScopeKind × Nat := (m.scopeOut, m.output)

/-- Each node in a row takes what the one before gave; the last gives what comes out in the end. -/
def Linked : (start : Option ScopeKind × Nat) → List Measurement → (final : Option ScopeKind × Nat) → Prop
  | start, [], final => final = start
  | start, m :: ms, final => m.taken = start ∧ Linked m.given ms final

def totalInput : List Measurement → Nat
  | [] => 0
  | m :: ms => m.input + totalInput ms

def totalDelta : List Measurement → Int
  | [] => 0
  | m :: ms => m.entitiesDelta + totalDelta ms

/-- An action of this description that did not fail. -/
structure Passed (description : String) (m : Measurement) : Prop where
  action : m.action = description
  passed : m.failed = false

/-- The node of one branch of a fork, missing when no elements go that way. -/
def Branch (P : Measurement → Prop) (fork : Measurement) (nodes : List Measurement) : Prop :=
  nodes = [] ∨ ∃ child, nodes = [child] ∧ P child ∧ child.scopeIn = fork.scopeIn ∧ 0 < child.input

mutual
/-- A tree has the shape of an action that was carried out. -/
def Mirrors : Action → Measurement → Prop
  | .step s, m => m.Passed s.describe ∧ m.children = []
  | .chain actions, m =>
    m.Passed (Action.chain actions).describe ∧ MirrorsAll actions m.children ∧
      Linked m.taken m.children m.given
  | .compose first second, m =>
    m.Passed (Action.compose first second).describe ∧ ∃ left right, m.children = [left, right] ∧
      (Mirrors first left ∧ left.taken = m.taken) ∧ Mirrors second right ∧ right.taken = m.taken
  | .fork predicate onMatch otherwise, m =>
    m.Passed (Action.fork predicate onMatch otherwise).describe ∧ ∃ yes no, m.children = yes ++ no ∧
      Branch (Mirrors onMatch) m yes ∧ MirrorsOption otherwise m no ∧
      (otherwise.isSome → totalInput m.children = m.input)
  | .nested body, m =>
    m.Passed (Action.nested body).describe ∧ (∃ child, m.children = [child] ∧ Mirrors body child) ∧
      m.given = m.taken
  | .outerScope kind body, m =>
    m.Passed (Action.outerScope kind body).describe ∧ (∃ child, m.children = [child] ∧ Mirrors body child) ∧
      m.given = m.taken
termination_by structural a => a
def MirrorsAll : List Action → List Measurement → Prop
  | [], ms => ms = []
  | a :: rest, ms => ∃ m later, ms = m :: later ∧ Mirrors a m ∧ MirrorsAll rest later
termination_by structural actions => actions
def MirrorsOption : Option Action → (fork : Measurement) → (nodes : List Measurement) → Prop
  | none, _, nodes => nodes = []
  | some a, fork, nodes => Branch (Mirrors a) fork nodes
termination_by structural a => a
end

mutual
/-- In every node of a tree, the entities that were added are those that its children added, if it has
    any, and never fewer than none. -/
def Balanced : Measurement → Prop
  | ⟨_, _, _, _, _, _, delta, _, children⟩ =>
    0 ≤ delta ∧ (children ≠ [] → delta = totalDelta children) ∧ AllBalanced children
termination_by structural m => m
def AllBalanced : List Measurement → Prop
  | [] => True
  | m :: ms => m.Balanced ∧ AllBalanced ms
termination_by structural ms => ms
end

end Measurement

/-! ### Entities are only added -/

def Model.KeepsEntities (m m' : Model) : Prop := m.entities.size ≤ m'.entities.size

theorem Model.KeepsEntities.change : Change Model.KeepsEntities :=
  ⟨fun _ => Nat.le_refl _, Nat.le_trans⟩

theorem EntityStore.Evolves.size_le {s s' : EntityStore} (evolution : s.Evolves s') : s.size ≤ s'.size := by
  simpa [EntityStore.size] using evolution.identities.length_le

theorem Model.KeepsEntities.running : Running Model.KeepsEntities := by
  refine .ofAdvances change (fun advance => advance.entities.size_le) fun kind source target key backtrack m => ?_
  have linked := CallScanner.relate_relinked m.index kind source target (key.getD kind.name) backtrack m.entities
    m.scanner
  exact Nat.le_of_eq (congrArg List.length linked.entities).symm

namespace ActionCall

variable {ms : List Measurement} {e : Execution} {scope out : Scope} {body : ExecutionM Scope}
  {ids : List ElementId} {fork : Measurement} {kind : ScopeKind} {calls : List ActionCall} {c : ActionCall}
  {a : Action}

theorem entityCount_le (c : ActionCall) : c.start.entityCount ≤ c.finish.entityCount :=
  Action.execute_keeps Model.KeepsEntities.running c.action c.scope c.start

theorem entitiesAdded_eq (small : (c.finish.entityCount : Int) ≤ Int64.maxValue.toInt) :
    c.entitiesAdded = (c.finish.entityCount : Int) - c.start.entityCount := by
  have le := c.entityCount_le
  have limit : Int64.maxValue.toInt = 9223372036854775807 := rfl
  unfold entitiesAdded
  rw [Int64.toInt_sub, Int64.toInt_ofNat_of_lt (by omega), Int64.toInt_ofNat_of_lt (by omega)]
  exact Int.bmod_eq_of_le (by omega) (by omega)

theorem course_counted {e e' : Execution} (course : Course Execution.Quiet e calls none e')
    (recorded : List.Forall₂ Recorded calls ms) (small : (e'.entityCount : Int) ≤ Int64.maxValue.toInt) :
    Measurement.totalDelta ms = (e'.entityCount : Int) - e.entityCount ∧ e.entityCount ≤ e'.entityCount ∧
      ∀ c ∈ calls, c.finish.entityCount ≤ e'.entityCount := by
  generalize passed : (none : Option ModelError) = outcome at course
  induction course generalizing ms with
  | done between =>
    cases recorded
    rw [between.entityCount]
    simp [Measurement.totalDelta]
  | failing => cases passed
  | @passing e c rest out problem e' between passes later ih =>
    cases recorded with
    | cons first others =>
      obtain ⟨total, le, each⟩ := ih others small passed
      have grown := c.entityCount_le
      have same := between.entityCount
      have added : c.entitiesAdded = (c.finish.entityCount : Int) - c.start.entityCount :=
        entitiesAdded_eq (by omega)
      obtain ⟨-, -⟩ := first
      refine ⟨?_, by omega, fun c' member => ?_⟩
      · rw [Measurement.totalDelta, total]
        change c.entitiesAdded + _ = _
        omega
      · rcases List.mem_cons.mp member with rfl | inside
        · exact le
        · exact each c' inside

theorem Runs.passed (runs : c.Runs body) {out : Scope} (passed : c.result = .ok out) :
    ∃ e', body c.begun = (.ok out, e') ∧ c.finish = e'.leave out := by
  have outcome := runs.outcome
  rw [passed] at outcome
  generalize body c.begun = ran at outcome
  obtain ⟨result, e'⟩ := ran
  cases result with
  | ok out' =>
    obtain ⟨same, finish⟩ := Prod.mk.inj outcome
    cases same
    exact ⟨e', rfl, finish⟩
  | error problem => cases (Prod.mk.inj outcome).1

theorem allBalanced (recorded : List.Forall₂ Recorded calls ms)
    (each : ∀ c ∈ calls, ∀ {m}, Recorded c m → m.Balanced) : Measurement.AllBalanced ms := by
  induction recorded with
  | nil => trivial
  | @cons c m calls ms first _ ih =>
    exact ⟨each c (by simp) first, ih fun c' member => each c' (by simp [member])⟩

theorem Recorded.balanced {c : ActionCall} {m : Measurement} (recorded : Recorded c m)
    (small : (c.finish.entityCount : Int) ≤ Int64.maxValue.toInt) : m.Balanced := by
  obtain @⟨_, out, children, passed, inside⟩ := recorded
  have added := entitiesAdded_eq small
  have grown := c.entityCount_le
  obtain ⟨body, runs⟩ := c.runs
  obtain ⟨e', ran, finish⟩ := runs.passed passed
  have counted : c.calls ≠ [] → Course Execution.Quiet c.begun c.calls none e' := by
    have counted := runs.counted
    rw [ran] at counted
    exact counted
  have same : e'.entityCount = c.finish.entityCount := by
    rw [finish]
    rfl
  refine ⟨?_, fun some => ?_, ?_⟩
  · omega
  · have calls : c.calls ≠ [] := by
      intro none
      rw [none] at inside
      cases inside
      exact some rfl
    obtain ⟨total, -⟩ := course_counted (counted calls) inside (by omega)
    have begun : c.begun.entityCount = c.start.entityCount := rfl
    omega
  · -- A step adds entities by itself, but it has no children that would have to add up.
    by_cases none : c.calls = []
    · rw [none] at inside
      cases inside
      trivial
    · obtain ⟨-, -, each⟩ := course_counted (counted none) inside (by omega)
      refine allBalanced inside fun c' member {m} recorded => ?_
      have smaller := (makes_of_mem_calls member).smaller
      have le := each c' member
      exact recorded.balanced (by omega)
termination_by sizeOf c.action

theorem followedBy_ok {α β : Type} {f : ExecutionM α} {next : α → Execution → List β} {e e' : Execution}
    {a : α} (ran : f e = (.ok a, e')) : Execution.followedBy f next e = next a e' := by
  unfold Execution.followedBy
  rw [ran]

theorem Recorded.passed {m : Measurement} (recorded : Recorded c m) :
    ∃ out, c.action.execute c.scope c.start = (.ok out, c.finish) ∧ m.taken = (some c.scope.kind, c.scope.size) ∧
      m.given = (some out.kind, out.size) := by
  obtain @⟨_, out, children, passed, inside⟩ := recorded
  exact ⟨out, Prod.ext passed rfl, rfl, rfl⟩

theorem sequence_mirrors {actions : List Action} {e e' : Execution}
    (ran : Action.executeAll actions scope e = (.ok out, e'))
    (recorded : List.Forall₂ Recorded (sequence actions scope e) ms)
    (each : ∀ c ∈ sequence actions scope e, ∀ {m}, Recorded c m → m.Mirrors c.action) :
    Measurement.MirrorsAll actions ms ∧
      Measurement.Linked (some scope.kind, scope.size) ms (some out.kind, out.size) := by
  induction actions generalizing scope e ms with
  | nil =>
    cases recorded
    cases ran
    exact ⟨rfl, rfl⟩
  | cons a rest ih =>
    cases recorded with
    | @cons _ m _ later first others =>
      obtain ⟨middle, done, taken, given⟩ := first.passed
      have remaining : Execution.followedBy (a.execute scope) (sequence rest) e =
          sequence rest middle _ := followedBy_ok done
      have split := Operation.bind_apply (a.execute scope) (Action.executeAll rest) e
      change Action.executeAll (a :: rest) scope e = _ at split
      change a.execute scope e = _ at done
      rw [done] at split
      rw [remaining] at others
      obtain ⟨mirrors, linked⟩ := ih (split.symm.trans ran) others fun c member =>
        each c (List.mem_cons_of_mem _ (remaining ▸ member))
      rw [← given] at linked
      exact ⟨⟨m, later, rfl, each _ List.mem_cons_self first, mirrors⟩, taken, linked⟩

theorem branches_recorded {b : Option Action} {yes no : List ElementId}
    (recorded : List.Forall₂ Recorded (branch a kind yes e ++
      Execution.followedBy (Action.unitedWith (.elements kind []) kind yes a.execute)
        (fun _ e' => branchOption b kind no e') e) ms) :
    ∃ first second e', ms = first ++ second ∧ List.Forall₂ Recorded (branch a kind yes e) first ∧
      List.Forall₂ Recorded (branchOption b kind no e') second ∧
      Execution.followedBy (Action.unitedWith (.elements kind []) kind yes a.execute)
        (fun _ e' => branchOption b kind no e') e = branchOption b kind no e' := by
  unfold branch Action.unitedWith at *
  cases empty : yes.isEmpty with
  | true =>
    simp only [empty] at recorded
    exact ⟨[], ms, e, rfl, .nil, recorded, rfl⟩
  | false =>
    simp only [empty, Bool.false_eq_true, if_false] at recorded ⊢
    cases recorded with
    | cons first others =>
      obtain ⟨out, done, -⟩ := first.passed
      have united := Operation.bind_apply (a.execute (.ofIds kind yes))
        (fun more => pure ((Scope.elements kind []).union more)) e
      change a.execute (.ofIds kind yes) e = _ at done
      rw [done] at united
      change List.Forall₂ Recorded (Execution.followedBy _ _ e) _ at others
      rw [followedBy_ok united] at others
      exact ⟨[_], _, _, rfl, .cons first .nil, others, followedBy_ok united⟩

theorem size_ofIds (kind : ScopeKind) (distinct : ids.Nodup) : (Scope.ofIds kind ids).size = ids.length := by
  have same : (Search.fresh [] ids).Perm ids :=
    (List.perm_ext_iff_of_nodup (Search.fresh_nodup [] ids) distinct).mpr fun id => by simp [Search.mem_fresh]
  exact same.length_eq

theorem branch_mirrors (distinct : ids.Nodup) (same : fork.scopeIn = kind)
    (recorded : List.Forall₂ Recorded (branch a kind ids e) ms)
    (each : ∀ c ∈ branch a kind ids e, ∀ {m}, Recorded c m → m.Mirrors c.action) :
    Measurement.Branch (Measurement.Mirrors a) fork ms ∧ Measurement.totalInput ms = ids.length := by
  have size := size_ofIds kind distinct
  unfold branch at recorded each
  cases ids with
  | nil =>
    cases recorded
    exact ⟨.inl rfl, rfl⟩
  | cons id rest =>
    cases recorded with
    | @cons _ m _ _ first others =>
      cases others
      obtain ⟨out, -, taken, -⟩ := first.passed
      obtain ⟨scopeIn, input⟩ := Prod.mk.inj taken
      simp only [size] at input
      refine ⟨.inr ⟨m, rfl, each _ (by simp) first, ?_, ?_⟩, ?_⟩
      · rw [same]
        exact Option.some.inj scopeIn
      · simp [input]
      · simp [Measurement.totalInput, input]

theorem branchOption_mirrors {a : Option Action} (distinct : ids.Nodup) (same : fork.scopeIn = kind)
    (recorded : List.Forall₂ Recorded (branchOption a kind ids e) ms)
    (each : ∀ c ∈ branchOption a kind ids e, ∀ {m}, Recorded c m → m.Mirrors c.action) :
    Measurement.MirrorsOption a fork ms ∧ (a.isSome → Measurement.totalInput ms = ids.length) := by
  cases a with
  | none =>
    cases recorded
    exact ⟨rfl, nofun⟩
  | some a =>
    obtain ⟨branch, total⟩ := branch_mirrors distinct same recorded each
    exact ⟨branch, fun _ => total⟩

theorem totalInput_append (xs ys : List Measurement) :
    Measurement.totalInput (xs ++ ys) = Measurement.totalInput xs + Measurement.totalInput ys := by
  induction xs with
  | nil => simp [Measurement.totalInput]
  | cons x xs ih => simp [Measurement.totalInput, ih, Nat.add_assoc]

theorem split_perm (ix : ElementIndex) (entities : EntityStore) (p : Predicate) (ids : List ElementId) :
    Yields (fun _ => True) (p.split ix entities ids) fun parts _ => (parts.1 ++ parts.2).Perm ids := by
  induction ids with
  | nil => exact .pure fun _ _ => .refl _
  | cons id rest ih =>
    refine .bind .any fun passes => .bind ih fun parts => .pure fun _ perm => ?_
    cases passes with
    | true => exact perm.cons id
    | false => exact List.perm_middle.trans (perm.cons id)

theorem splitIn_perm (p : Predicate) (ids : List ElementId) :
    Yields (fun _ => True) (p.splitIn ids) fun parts _ => (parts.1 ++ parts.2).Perm ids :=
  fun m _ parts given => split_perm m.index m.entities p ids m.caches trivial parts given

theorem noted_ok {description : String} (passed : (Execution.noted description scope body e).1 = .ok out) :
    ∃ e', body (e.enter description scope) = (.ok out, e') := by
  rw [Execution.noted_apply] at passed
  generalize body (e.enter description scope) = ran at passed
  obtain ⟨result, e'⟩ := ran
  cases result with
  | ok out' =>
    cases passed
    exact ⟨e', rfl⟩
  | error problem => cases passed

theorem noted_back {description : String} (passed : (Execution.noted description scope body e).1 = .ok out)
    (back : Yields (fun _ => True) body fun out _ => out = scope) : out = scope := by
  obtain ⟨e', ran⟩ := noted_ok passed
  exact back.ran trivial ran

theorem fork_mirrors {p : Predicate} {b : Option Action} {children : List Measurement} (distinct : scope.ids.Nodup)
    (passed : (ActionCall.mk (.fork p a b) scope e).result = .ok out)
    (inside : List.Forall₂ Recorded (ActionCall.mk (.fork p a b) scope e).calls children)
    (each : ∀ c ∈ (ActionCall.mk (.fork p a b) scope e).calls, ∀ {m}, Recorded c m → m.Mirrors c.action)
    (kind : fork.scopeIn = scope.kind) (input : fork.input = scope.size) :
    ∃ yes no, children = yes ++ no ∧ Measurement.Branch (Measurement.Mirrors a) fork yes ∧
      Measurement.MirrorsOption b fork no ∧ (b.isSome → Measurement.totalInput children = fork.input) := by
  obtain ⟨e', ran⟩ := noted_ok passed
  cases scope with
  | template => cases ran
  | elements own ids =>
    obtain ⟨ids', _, elements, ran⟩ := Operation.bind_ok ran
    cases elements
    obtain ⟨⟨yes, no⟩, e₁, split, -⟩ := Operation.bind_ok ran
    have parts : (yes ++ no).Perm ids :=
      splitIn_perm p ids (e.enter _ _).model trivial (yes, no) (congrArg Prod.fst split)
    have calls : (ActionCall.mk (.fork p a b) (.elements own ids) e).calls = _ := followedBy_ok split
    rw [calls] at inside each
    obtain ⟨yesNodes, noNodes, e₂, rfl, yesRecorded, noRecorded, otherwise⟩ := branches_recorded inside
    rw [otherwise] at each
    have nodup : (yes ++ no).Nodup := parts.nodup_iff.mpr distinct
    obtain ⟨yesBranch, yesTotal⟩ := branch_mirrors nodup.of_append_left kind yesRecorded fun c member =>
      each c (List.mem_append_left _ member)
    obtain ⟨noBranch, noTotal⟩ := branchOption_mirrors nodup.of_append_right kind noRecorded fun c member =>
      each c (List.mem_append_right _ member)
    refine ⟨yesNodes, noNodes, rfl, yesBranch, noBranch, fun some => ?_⟩
    rw [totalInput_append, yesTotal, noTotal some, input, ← List.length_append]
    exact parts.length_eq

theorem Recorded.mirrors {c : ActionCall} {m : Measurement} (recorded : Recorded c m)
    (ready : c.scope.Ready c.start) : m.Mirrors c.action := by
  obtain @⟨_, out, children, passed, inside⟩ := recorded
  have each : ∀ c' ∈ c.calls, ∀ {m}, Recorded c' m → m.Mirrors c'.action := by
    intro c' member m recorded
    have made := makes_of_mem_calls member
    have smaller := made.smaller
    exact recorded.mirrors (made.ready ready)
  have node : (c.measurement out children).Passed c.action.describe := ⟨rfl, rfl⟩
  obtain ⟨action, scope, e⟩ := c
  cases action with
  | step s =>
    cases inside
    exact ⟨node, rfl⟩
  | chain actions =>
    obtain ⟨e', ran⟩ := noted_ok passed
    exact ⟨node, sequence_mirrors ran inside each⟩
  | compose a b =>
    cases inside with
    | @cons _ left _ others first rest =>
      obtain ⟨middle, done, taken, -⟩ := first.passed
      have remaining : (ActionCall.mk (.compose a b) scope e).calls =
          [⟨a, scope, _⟩, ⟨b, scope, _⟩] := congrArg (List.cons _) (followedBy_ok done)
      rw [followedBy_ok done] at rest
      cases rest with
      | @cons _ right _ _ second rest =>
        cases rest
        obtain ⟨_, -, taken', -⟩ := second.passed
        exact ⟨node, left, right, rfl, ⟨each _ (by simp [remaining]) first, taken⟩,
          each _ (by simp [remaining]) second, taken'⟩
  | fork p a b => exact ⟨node, fork_mirrors ready.well.distinct passed inside each rfl rfl⟩
  | nested body =>
    obtain rfl : out = scope := noted_back passed (.bind .any fun _ => .pure fun _ _ => rfl)
    cases inside with
    | @cons _ child _ _ first rest =>
      cases rest
      exact ⟨node, ⟨child, rfl, each _ List.mem_cons_self first⟩, rfl⟩
  | outerScope kind body =>
    obtain rfl : out = scope := noted_back passed (.bind .any fun _ => .bind .any fun _ => .pure fun _ _ => rfl)
    obtain ⟨e', ran⟩ := noted_ok passed
    obtain ⟨outer, e₁, ascended, -⟩ := Operation.bind_ok ran
    have calls : (ActionCall.mk (.outerScope kind body) out e).calls = [⟨body, outer, e₁⟩] :=
      followedBy_ok ascended
    rw [calls] at inside each
    cases inside with
    | @cons _ child _ _ first rest =>
      cases rest
      exact ⟨node, ⟨child, rfl, each _ List.mem_cons_self first⟩, rfl⟩
termination_by sizeOf c.action

end ActionCall

/-! ## Runs -/

namespace Pipeline

def call (settings : Settings) (classes : List ClassDeclaration) (p : Pipeline) : ActionCall :=
  ⟨p.action, .template, .ofClasses settings classes⟩

theorem call_ready (settings : Settings) (classes : List ClassDeclaration) (p : Pipeline) :
    (p.call settings classes).scope.Ready (p.call settings classes).start :=
  ⟨Model.ofClasses_sound settings classes, .template _⟩

/-- A run that gets to its end leaves one tree, and it mirrors the pipeline's action. Its nodes are those
    of the calls that were made, and as long as the number of entities fits in a signed 64-bit word, the
    entities that a node says were added are those of its children. -/
theorem measurements_mirror_action (settings : Settings) (classes : List ClassDeclaration) (p : Pipeline)
    (recording : settings.recordMeasurements = true) {r : RunResult} (ran : p.run settings classes = .ok r) :
    ∃ root, r.measurements = [root] ∧ root.Mirrors p.action ∧
      (p.call settings classes).Recorded root ∧
      ((r.entities.size : Int) ≤ Int64.maxValue.toInt → root.Balanced) := by
  have journaled := (p.call settings classes).journaled recording
  unfold run at ran
  split at ran
  · next out e done =>
      have passed : (p.call settings classes).result = .ok out := congrArg Prod.fst done
      have finish : (p.call settings classes).finish = e := congrArg Prod.snd done
      obtain ⟨root, recorded, -, recorder⟩ := journaled.passed passed
      rw [finish] at recorder
      cases ran
      refine ⟨root, congrArg MeasurementRecorder.roots recorder, recorded.mirrors (p.call_ready settings classes),
        recorded, fun small => recorded.balanced ?_⟩
      rw [finish]
      exact small
  · cases ran

end Pipeline

/-! ## A fork with two branches -/

namespace ForkedRun

def classes : List ClassDeclaration := [{ name := "a/A" }, { name := "a/B", access := 0 }]

/-- Registers the public classes and passes the others through. -/
def pipeline : Pipeline :=
  { name := "forked"
    action := .chain [.step .classes, .fork (.modifiers Access.publicFlag)
      (.step (.registerEntity "node" none [])) (some (.nested (.step .identity)))] }

/-- The nodes of both branches are there. -/
theorem both_branches_measured : ∃ r root, pipeline.run {} classes = .ok r ∧ r.measurements = [root] ∧
    root.nodeCount = 6 ∧ root.Mirrors pipeline.action ∧ root.Balanced := by
  have facts : (match pipeline.run {} classes with
      | .ok r => (r.entities.size, Measurement.totalCount r.measurements)
      | .error _ => (0, 0)) = (1, 6) := by decide +kernel
  cases ran : pipeline.run {} classes with
  | error failure =>
      rw [ran] at facts
      cases facts
  | ok r =>
      rw [ran] at facts
      obtain ⟨size, count⟩ := Prod.mk.inj facts
      obtain ⟨root, single, mirrors, -, balanced⟩ :=
        Pipeline.measurements_mirror_action {} classes pipeline rfl ran
      rw [single] at count
      refine ⟨r, root, rfl, single, count, mirrors, balanced ?_⟩
      rw [size]
      decide

end ForkedRun

end ClassAtlas
