import ClassAtlas.Proofs.Composition
import ClassAtlas.Proofs.LevelOrder

/-! # Regrouping actions

How combinators are nested shows in the journal of a run and nowhere else. What an action does to the model
does not depend on the journal, and uniting scopes is associative: an empty scope leaves the kind to the
other, and scopes of several kinds stay so. So both ways to compose three actions give the same, and a
chain inside a chain is as good as its parts.
-/

namespace ClassAtlas

/-! ## Items each once -/

namespace Search

variable {α : Type} [BEq α] [LawfulBEq α]

theorem fresh_fresh (seen seen' xs : List α) : fresh seen (fresh seen' xs) = fresh (seen ++ seen') xs := by
  induction xs generalizing seen seen' with
  | nil => rfl
  | cons x rest ih =>
    by_cases before : x ∈ seen' <;> by_cases earlier : x ∈ seen
    all_goals simp only [fresh, List.contains_iff_mem, List.mem_append, before, earlier, if_true, if_false,
      or_true, true_or, or_self, ih]
    · refine fresh_congr (fun y => ?_) rest
      grind
    · refine congrArg (x :: ·) (fresh_congr (fun y => ?_) rest)
      grind

theorem fresh_eq_self_iff {xs : List α} : fresh [] xs = xs ↔ xs.Nodup := by
  have kept : ∀ (seen : List α), xs.Nodup → (∀ x ∈ xs, x ∉ seen) → fresh seen xs = xs := by
    induction xs with
    | nil => exact fun _ _ _ => rfl
    | cons x rest ih =>
      intro seen distinct new
      rw [List.nodup_cons] at distinct
      rw [fresh, if_neg (by simp [new])]
      refine congrArg (x :: ·) (ih _ distinct.2 fun y later => ?_)
      have other : y ≠ x := fun same => distinct.1 (same ▸ later)
      simp [other, new y (List.mem_cons_of_mem x later)]
  exact ⟨fun same => same ▸ fresh_nodup [] xs, fun distinct => kept [] distinct (by simp)⟩

omit [LawfulBEq α] in
theorem fresh_isEmpty (xs : List α) : (fresh [] xs).isEmpty = xs.isEmpty := by
  cases xs <;> rfl

theorem fresh_append_left (xs ys : List α) : fresh [] (fresh [] xs ++ ys) = fresh [] (xs ++ ys) := by
  rw [fresh_append, fresh_append, fresh_fresh]
  refine congrArg (_ ++ ·) (fresh_congr (fun x => ?_) ys)
  simp [mem_fresh]

theorem fresh_append_right (xs ys : List α) : fresh [] (xs ++ fresh [] ys) = fresh [] (xs ++ ys) := by
  rw [fresh_append, fresh_append, fresh_fresh, List.append_nil, List.append_nil]

end Search

/-! ## Uniting scopes -/

namespace Scope

theorem unionKind_assoc (a b c : ScopeKind) (left middle right : List ElementId) :
    unionKind (unionKind a left b middle) (Search.fresh [] (left ++ middle)) c right =
      unionKind a left (unionKind b middle c right) (Search.fresh [] (middle ++ right)) := by
  unfold unionKind
  rw [Search.fresh_isEmpty, Search.fresh_isEmpty]
  cases left <;> cases middle <;> cases right <;> grind

theorem union_assoc (a b c : Scope) : (a.union b).union c = a.union (b.union c) := by
  match a, b, c with
  | .template, _, _ | .elements _ _, .template, _ | .elements _ _, .elements _ _, .template => rfl
  | .elements a left, .elements b middle, .elements c right =>
    simp only [union, ofIds, unionKind_assoc, Search.fresh_append_left, Search.fresh_append_right,
      List.append_assoc]

theorem union_template (s : Scope) : s.union .template = s := by
  cases s <;> rfl

theorem union_self_iff (s : Scope) : s.union s = s ↔ s.ids.Nodup := by
  cases s with
  | template => simp [union, ids]
  | elements kind ids =>
    have nothing : Search.fresh ids ids = [] := by
      rw [List.eq_nil_iff_forall_not_mem]
      intro x member
      obtain ⟨here, new⟩ := Search.mem_fresh.mp member
      exact new here
    have kinds : unionKind kind ids kind ids = kind := by
      unfold unionKind
      grind
    have twice : (elements kind ids).union (elements kind ids) = elements kind (Search.fresh [] ids) := by
      rw [union, ofIds, kinds, Search.fresh_append, List.append_nil, nothing, List.append_nil]
    rw [twice, elements.injEq, ← Search.fresh_eq_self_iff]
    exact and_iff_right rfl

end Scope

/-! ## Actions without their journals -/

/-- Two operations do the same to one model, whatever is in the journals: both fail with one error or give
    one result, and they leave one model. -/
def Agree {α : Type} (f g : ExecutionM α) : Prop :=
  ∀ e e' : Execution, e.model = e'.model → (f e).1 = (g e').1 ∧ (f e).2.model = (g e').2.model

namespace Agree

variable {α β : Type} {f g h : ExecutionM α} {body body' : ExecutionM Scope}

theorem symm (same : Agree f g) : Agree g f := by
  intro e e' models
  obtain ⟨results, after⟩ := same e' e models.symm
  exact ⟨results.symm, after.symm⟩

theorem trans (first : Agree f g) (second : Agree g h) : Agree f h := by
  intro e e' models
  obtain ⟨results, after⟩ := first e e' models
  obtain ⟨results', after'⟩ := second e' e' rfl
  exact ⟨results.trans results', after.trans after'⟩

theorem pure (a : α) : Agree (Pure.pure a) (Pure.pure a) := fun _ _ models => ⟨rfl, models⟩

theorem onModel (f : ModelM α) : Agree (Execution.onModel f) (Execution.onModel f) := by
  intro e e' models
  simp only [Execution.onModel, models]
  exact ⟨rfl, rfl⟩

theorem bind {next next' : α → ExecutionM β} (first : Agree f g) (second : ∀ a, Agree (next a) (next' a)) :
    Agree (f >>= next) (g >>= next') := by
  intro e e' models
  obtain ⟨results, after⟩ := first e e' models
  rw [Operation.bind_apply, Operation.bind_apply, ← results]
  cases (f e).1 with
  | ok a => exact second a _ _ after
  | error problem => exact ⟨rfl, after⟩

theorem unnoted (same : Agree body body') (description : String) (scope : Scope) :
    Agree (Execution.noted description scope body) body' := by
  have left : Agree (body >>= fun out => do modify (Execution.leave out); return out) (body' >>= Pure.pure) :=
    same.bind fun out _ _ models => ⟨rfl, models⟩
  rw [bind_pure] at left
  exact fun e e' models => left (e.enter description scope) e' models

theorem noted (same : Agree body body') (description description' : String) (scope : Scope) :
    Agree (Execution.noted description scope body) (Execution.noted description' scope body') :=
  ((same.unnoted description scope).symm.unnoted description' scope).symm

end Agree

namespace Action

/-- What an action does to a model does not depend on the journal. -/
theorem agree_compositional : Compositional fun _ f _ => Agree f f where
  pure := .pure
  throw _ := fun _ _ models => ⟨rfl, models⟩
  bind hf hg := hf.bind hg
  noted description scope hbody := hbody.noted description description scope
  steps s scope := .onModel (s.apply scope)
  ascents kind scope := .onModel ((Step.ascend kind).apply scope)
  tests p ids := .onModel (p.splitIn ids)

theorem execute_agree (a : Action) (scope : Scope) : Agree (a.execute scope) (a.execute scope) :=
  agree_compositional.execute a scope

theorem executeAll_agree (actions : List Action) (scope : Scope) :
    Agree (executeAll actions scope) (executeAll actions scope) :=
  agree_compositional.executeAll actions scope

/-! ## Regrouping -/

theorem executeAll_append (actions others : List Action) (scope : Scope) :
    executeAll (actions ++ others) scope = executeAll actions scope >>= executeAll others := by
  induction actions generalizing scope with
  | nil => exact (pure_bind scope _).symm
  | cons a rest ih =>
    change (a.execute scope >>= executeAll (rest ++ others)) =
      (a.execute scope >>= executeAll rest) >>= executeAll others
    rw [bind_assoc, funext ih]

theorem compose_regroups (a b c : Action) (scope : Scope) :
    Agree ((compose (compose a b) c).execute scope) ((compose a (compose b c)).execute scope) := by
  have inner (a b : Action) : Agree ((compose a b).execute scope)
      (a.execute scope >>= fun left => b.execute scope >>= fun right => pure (left.union right)) :=
    Agree.unnoted (.bind (execute_agree a scope) fun left => .bind (execute_agree b scope) fun right => .pure _) _ scope
  have left := Agree.unnoted (Agree.bind (inner a b) fun left =>
    Agree.bind (execute_agree c scope) fun right => .pure (left.union right))
    (compose (compose a b) c).describe scope
  have right := Agree.unnoted (Agree.bind (execute_agree a scope) fun left =>
    Agree.bind (inner b c) fun right => .pure (left.union right))
    (compose a (compose b c)).describe scope
  -- Without the notes both are the three actions in turn.
  simp only [bind_assoc, pure_bind] at left right
  simp only [Scope.union_assoc] at left
  exact left.trans right.symm

theorem chain_regroups (before inner after : List Action) (scope : Scope) :
    Agree ((chain (before ++ [chain inner] ++ after)).execute scope)
      ((chain (before ++ inner ++ after)).execute scope) := by
  have single (a : Action) : executeAll [a] = a.execute := funext fun scope => bind_pure (a.execute scope)
  have parts (scope : Scope) : Agree ((chain inner).execute scope) (executeAll inner scope) :=
    Agree.unnoted (executeAll_agree inner scope) _ scope
  have whole : Agree (executeAll (before ++ [chain inner] ++ after) scope)
      (executeAll (before ++ inner ++ after) scope) := by
    rw [executeAll_append, executeAll_append before, single, executeAll_append _ after, executeAll_append before]
    exact .bind (.bind (executeAll_agree before scope) parts) (executeAll_agree after)
  exact whole.noted _ _ scope

/-- Regrouping keeps the meaning of actions. On whatever model and scope, and whatever is in the journals,
    both ways to compose three actions, and a chain with and without another chain inside, end with one error
    or one scope and leave one model. Uniting scopes is associative, the template adds nothing, and a
    scope united with itself is itself if and only if it holds no element twice. -/
theorem regrouping_keeps_meaning :
    (∀ a b c scope, Agree ((compose (compose a b) c).execute scope) ((compose a (compose b c)).execute scope)) ∧
    (∀ xs ys zs scope, Agree ((chain (xs ++ [chain ys] ++ zs)).execute scope)
      ((chain (xs ++ ys ++ zs)).execute scope)) ∧
    (∀ a b c : Scope, (a.union b).union c = a.union (b.union c)) ∧
    (∀ s : Scope, Scope.template.union s = s ∧ s.union .template = s) ∧
    ∀ s : Scope, s.union s = s ↔ s.ids.Nodup :=
  ⟨compose_regroups, chain_regroups, Scope.union_assoc, fun s => ⟨rfl, s.union_template⟩, Scope.union_self_iff⟩

end Action

end ClassAtlas
