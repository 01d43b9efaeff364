import ClassAtlas.Proofs.Runs

/-! # The steps of a run in order

A run takes its steps one after the other, each on the model that the one before left, up to the end
or to the first that fails. Tests lie between them and only remember work. So what is known of one
step and of tests is known of a whole run and the list of its steps.
-/

namespace ClassAtlas

/-- A relation between two models and the steps that lead from one to the other. -/
structure History (R : Model → List StepCall → Model → Prop) : Prop where
  refl : ∀ m, R m [] m
  trans : ∀ {a b c xs ys}, R a xs b → R b ys c → R a (xs ++ ys) c

/-- The steps of an operation lead from its model to the one it leaves. -/
def Follows {α : Type} (R : Model → List StepCall → Model → Prop) (f : ExecutionM α)
    (calls : Execution → List StepCall) : Prop :=
  ∀ e, R e.model (calls e) (f e).2.model

namespace Follows

variable {α β : Type} {R : Model → List StepCall → Model → Prop} {calls : Execution → List StepCall}

theorem pure (history : History R) (a : α) : Follows R (Pure.pure a) fun _ => [] :=
  fun e => history.refl e.model

theorem bind (history : History R) {f : ExecutionM α} {g : α → ExecutionM β}
    {before : Execution → List StepCall} {after : α → Execution → List StepCall}
    (hf : Follows R f before) (hg : ∀ a, Follows R (g a) (after a)) :
    Follows R (f >>= g) fun e => before e ++ Execution.followedBy f after e := by
  intro e
  have first := hf e
  rw [Operation.bind_apply]
  simp only [Execution.followedBy]
  generalize f e = outcome at first ⊢
  obtain ⟨result, e'⟩ := outcome
  cases result with
  | ok a => exact history.trans first (hg a e')
  | error problem => simpa using first

theorem noted (description : String) (scope : Scope) {body : ExecutionM Scope} (hbody : Follows R body calls) :
    Follows R (Execution.noted description scope body) fun e => calls (e.enter description scope) := by
  intro e
  have inside := hbody (e.enter description scope)
  rw [Execution.noted_apply]
  generalize body (e.enter description scope) = outcome at inside ⊢
  obtain ⟨result, e'⟩ := outcome
  cases result <;> exact inside

theorem silent {f : ModelM α} (h : ∀ m, R m [] (f m).2) :
    Follows R (Execution.onModel f) fun _ => [] :=
  fun e => h e.model

end Follows

theorem Step.ascend_model (kind : ScopeKind) (scope : Scope) (m : Model) :
    ((Step.ascend kind).apply scope m).2 = m := by
  cases scope <;> rfl

namespace Action

section Following

variable {R : Model → List StepCall → Model → Prop}

theorem execute_follows (history : History R)
    (steps : ∀ (s : Step) scope m, R m [⟨s, scope, m⟩] (s.apply scope m).2)
    (tests : ∀ (p : Predicate) ids m, R m [] (p.splitIn ids m).2) (a : Action) (scope : Scope) :
    Follows R (a.execute scope) (a.stepCalls scope) := by
  have rules : Compositional fun _ f calls => Follows R f calls :=
    { pure := .pure history
      throw := fun _ e => history.refl e.model
      bind := .bind history
      noted := fun description scope hbody => hbody.noted description scope
      steps := fun s scope e => steps s scope e.model
      ascents := fun kind scope => .silent fun m => by
        rw [Step.ascend_model]
        exact history.refl m
      tests := fun p ids => .silent (tests p ids) }
  exact rules.execute a scope

/-- What is known of steps and tests is known up to every step of an action: the steps before it lead to the
    model that it finds. -/
theorem stepCalls_follow (history : History R)
    (steps : ∀ (s : Step) scope m, R m [⟨s, scope, m⟩] (s.apply scope m).2)
    (tests : ∀ (p : Predicate) ids m, R m [] (p.splitIn ids m).2) {a : Action} {scope : Scope} {e : Execution}
    {before later : List StepCall} {c : StepCall} (calls : a.stepCalls scope e = before ++ c :: later) :
    R e.model before c.model := by
  -- The relation to the end of the steps is not enough for an induction, so every step is kept in view.
  have throughout : History fun m xs m' => R m xs m' ∧
      ∀ before c later, xs = before ++ c :: later → R m before c.model := by
    refine ⟨fun m => ⟨history.refl m, by simp⟩, fun {m m' m'' xs ys} first second =>
      ⟨history.trans first.1 second.1, fun before c later split => ?_⟩⟩
    obtain ⟨rest, rfl, inside⟩ | ⟨rest, rfl, inside⟩ := List.append_eq_append_iff.mp split
    · exact history.trans first.1 (second.2 rest c later inside)
    · cases rest with
      | nil => simpa using history.trans first.1 (second.2 [] c later (by simpa using inside.symm))
      | cons x rest =>
        obtain ⟨rfl, -⟩ := List.cons.inj inside
        exact first.2 before _ rest rfl
  refine (execute_follows throughout (fun s scope m => ⟨steps s scope m, fun before c later split => ?_⟩)
    (fun p ids m => ⟨tests p ids m, by simp⟩) a scope e).2 before c later calls
  cases before with
  | nil =>
    obtain ⟨rfl, -⟩ := List.cons.inj split
    exact history.refl m
  | cons x before => simp at split

end Following

end Action

end ClassAtlas
