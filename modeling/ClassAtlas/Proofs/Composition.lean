import ClassAtlas.Proofs.Effects

/-! # What actions are made of

An action is put together from steps and tests in a few ways. So what these ways preserve, and steps and
tests have, every action has. The steps that an action takes are kept in view, in their order, since
what is known of an action may depend on them.
-/

namespace ClassAtlas

/-- A step that is taken, the scope it gets and the model it finds. -/
structure StepCall where
  step : Step
  scope : Scope
  model : Model

namespace Execution

/-- What comes after an operation. After one that fails there is nothing. -/
def followedBy {α β : Type} (f : ExecutionM α) (next : α → Execution → List β) (e : Execution) : List β :=
  match f e with
  | (.ok a, e') => next a e'
  | (.error _, _) => []

theorem followedBy_nothing {α β : Type} (f : ExecutionM α) (e : Execution) :
    followedBy f (fun _ _ => ([] : List β)) e = [] := by
  unfold followedBy
  split <;> rfl

end Execution

namespace Action

open Execution (followedBy)

mutual
def stepCalls : Action → Scope → Execution → List StepCall
  | .step s, scope, e => [⟨s, scope, e.model⟩]
  | .chain actions, scope, e =>
    stepCallsOfAll actions scope (e.enter (Action.chain actions).describe scope)
  | .compose first second, scope, e =>
    let begun := e.enter (Action.compose first second).describe scope
    first.stepCalls scope begun ++
      followedBy (first.execute scope) (fun _ => second.stepCalls scope) begun
  | .fork predicate onMatch otherwise, scope, e =>
    match scope.expectElements with
    | .error _ => []
    | .ok ids =>
      followedBy (Execution.onModel (predicate.splitIn ids))
        (fun parts e =>
          (if parts.1.isEmpty then [] else onMatch.stepCalls (.ofIds scope.kind parts.1) e) ++
            followedBy (unitedWith (.elements scope.kind []) scope.kind parts.1 onMatch.execute)
              (fun _ e =>
                if parts.2.isEmpty then []
                else stepCallsOfOption otherwise (.ofIds scope.kind parts.2) e) e)
        (e.enter (Action.fork predicate onMatch otherwise).describe scope)
  | .nested body, scope, e => body.stepCalls scope (e.enter (Action.nested body).describe scope)
  | .outerScope kind body, scope, e =>
    followedBy (Execution.onModel ((Step.ascend kind).apply scope)) body.stepCalls
      (e.enter (Action.outerScope kind body).describe scope)
termination_by structural a => a
def stepCallsOfAll : List Action → Scope → Execution → List StepCall
  | [], _, _ => []
  | a :: rest, scope, e =>
    a.stepCalls scope e ++ followedBy (a.execute scope) (stepCallsOfAll rest) e
termination_by structural actions => actions
def stepCallsOfOption : Option Action → Scope → Execution → List StepCall
  | none, _, _ => []
  | some a, scope, e => a.stepCalls scope e
termination_by structural a => a
end

end Action

open Execution (followedBy)

/-- A property of operations and of the steps they take, which steps and tests have and which the ways to
    put actions together preserve. To ascend to an outer scope is not counted among the steps. -/
structure Compositional (Q : (α : Type) → ExecutionM α → (Execution → List StepCall) → Prop) : Prop where
  pure : ∀ {α : Type} (a : α), Q α (Pure.pure a) fun _ => []
  throw : ∀ {α : Type} (problem : ModelError), Q α (MonadExcept.throw problem) fun _ => []
  bind : ∀ {α β : Type} {f : ExecutionM α} {g : α → ExecutionM β} {before : Execution → List StepCall}
    {after : α → Execution → List StepCall}, Q α f before → (∀ a, Q β (g a) (after a)) →
      Q β (f >>= g) fun e => before e ++ followedBy f after e
  noted : ∀ {body : ExecutionM Scope} {calls : Execution → List StepCall} (description : String)
    (scope : Scope), Q Scope body calls →
      Q Scope (Execution.noted description scope body) fun e => calls (e.enter description scope)
  steps : ∀ (s : Step) (scope : Scope), Q Scope (Execution.onModel (s.apply scope)) fun e => [⟨s, scope, e.model⟩]
  ascents : ∀ (kind : ScopeKind) (scope : Scope),
    Q Scope (Execution.onModel ((Step.ascend kind).apply scope)) fun _ => []
  tests : ∀ (p : Predicate) (ids : List ElementId), Q _ (Execution.onModel (p.splitIn ids)) fun _ => []

namespace Compositional

variable {Q : (α : Type) → ExecutionM α → (Execution → List StepCall) → Prop}

theorem map (rules : Compositional Q) {α β : Type} {f : ExecutionM α} {calls : Execution → List StepCall}
    (hf : Q α f calls) (g : α → β) : Q β (f >>= fun a => Pure.pure (g a)) calls := by
  have mapped := rules.bind hf fun a => rules.pure (g a)
  simpa only [Execution.followedBy_nothing, List.append_nil] using mapped

theorem unitedWith (rules : Compositional Q) (out : Scope) (kind : ScopeKind) (ids : List ElementId)
    {run : Scope → ExecutionM Scope} {calls : Scope → Execution → List StepCall}
    (hrun : ∀ scope, Q Scope (run scope) (calls scope)) :
    Q Scope (Action.unitedWith out kind ids run) fun e => if ids.isEmpty then [] else calls (.ofIds kind ids) e := by
  unfold Action.unitedWith
  cases ids.isEmpty with
  | true => exact rules.pure out
  | false => exact rules.map (hrun (.ofIds kind ids)) _

mutual
theorem execute (rules : Compositional Q) (a : Action) (scope : Scope) :
    Q Scope (a.execute scope) (a.stepCalls scope) := by
  match a with
  | .step s => exact rules.noted s.describe scope (rules.steps s scope)
  | .chain actions => exact rules.noted _ scope (executeAll rules actions scope)
  | .compose first second =>
    have both := rules.bind (execute rules first scope) fun left =>
      rules.map (execute rules second scope) fun right => left.union right
    exact rules.noted _ scope both
  | .fork predicate onMatch otherwise =>
    cases scope with
    | template =>
      exact rules.noted (Action.fork predicate onMatch otherwise).describe .template (rules.throw _)
    | elements kind ids =>
      have matching := fun parts : List ElementId × List ElementId =>
        rules.unitedWith (.elements kind []) kind parts.1 (execute rules onMatch)
      have rest := fun (parts : List ElementId × List ElementId) out =>
        rules.unitedWith out kind parts.2 (executeOption rules otherwise)
      have whole := rules.bind (rules.tests predicate ids) fun parts => rules.bind (matching parts) (rest parts)
      exact rules.noted (Action.fork predicate onMatch otherwise).describe (.elements kind ids) whole
  | .nested body => exact rules.noted _ scope (rules.map (execute rules body scope) fun _ => scope)
  | .outerScope kind body =>
    have whole := rules.bind (rules.ascents kind scope) fun outer =>
      rules.map (execute rules body outer) fun _ => scope
    exact rules.noted (Action.outerScope kind body).describe scope whole
termination_by structural a

theorem executeAll (rules : Compositional Q) (actions : List Action) (scope : Scope) :
    Q Scope (Action.executeAll actions scope) (Action.stepCallsOfAll actions scope) := by
  match actions with
  | [] => exact rules.pure scope
  | a :: rest => exact rules.bind (execute rules a scope) (executeAll rules rest)
termination_by structural actions

theorem executeOption (rules : Compositional Q) (a : Option Action) (scope : Scope) :
    Q Scope (Action.executeOption a scope) (Action.stepCallsOfOption a scope) := by
  match a with
  | none => exact rules.pure scope
  | some a => exact execute rules a scope
termination_by structural a
end

end Compositional

end ClassAtlas
