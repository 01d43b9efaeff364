import Mathlib.Logic.Relation
import ClassAtlas.Pipeline.Execution

/-! # What operations do to their state

An operation that may fail gives the state it leaves in either case. So what it does to the state is a
relation between the states before and after, and relations that hold of the parts of an operation
hold of the whole.
-/

namespace ClassAtlas

variable {ε σ α β : Type}

/-- An operation with a state that it leaves behind also when it fails. -/
abbrev Operation (ε σ α : Type) := ExceptT ε (StateM σ) α

theorem Operation.bind_apply (f : Operation ε σ α) (g : α → Operation ε σ β) (s : σ) :
    (f >>= g) s = match (f s).1 with | .ok a => g a (f s).2 | .error e => (.error e, (f s).2) := by
  change (match f s with
    | (v, s') => (ExceptT.bindCont g v : StateM σ (Except ε β)) s') = _
  obtain ⟨value, s'⟩ := f s
  cases value <;> rfl

theorem Operation.bind_ok {f : Operation ε σ α} {g : α → Operation ε σ β} {s s' : σ} {b : β}
    (ran : (f >>= g) s = (.ok b, s')) : ∃ a s₁, f s = (.ok a, s₁) ∧ g a s₁ = (.ok b, s') := by
  rw [Operation.bind_apply] at ran
  generalize f s = outcome at ran
  obtain ⟨result, s₁⟩ := outcome
  cases result with
  | ok a => exact ⟨a, s₁, rfl, ran⟩
  | error problem => cases ran

theorem Operation.lift_bind_apply (x : Except ε α) (g : α → Operation ε σ β) (s : σ) :
    ((liftM x : Operation ε σ α) >>= g) s = match x with | .ok a => g a s | .error e => (.error e, s) := by
  cases x <;> rfl

section Apply

variable {ε σ α : Type} (s : σ)

@[simp] theorem Operation.pure_apply (a : α) : (pure a : Operation ε σ α) s = (.ok a, s) := rfl

@[simp] theorem Operation.throw_apply (e : ε) : (throw e : Operation ε σ α) s = (.error e, s) := rfl

@[simp] theorem Operation.get_apply : (get : Operation ε σ σ) s = (.ok s, s) := rfl

@[simp] theorem Operation.set_apply (s' : σ) : (set s' : Operation ε σ PUnit) s = (.ok ⟨⟩, s') := rfl

@[simp] theorem Operation.modify_apply (f : σ → σ) :
    (modify f : Operation ε σ PUnit) s = (.ok ⟨⟩, f s) := rfl

end Apply

/-- A kind of change that includes no change and one change after another. -/
structure Change {σ : Type} (R : σ → σ → Prop) : Prop where
  refl : ∀ s, R s s
  trans : ∀ {a b c}, R a b → R b c → R a c

/-- An operation changes its state in this way only, whether it fails or not. -/
def Keeps {ε σ α : Type} (R : σ → σ → Prop) (f : Operation ε σ α) : Prop := ∀ s, R s (f s).2

namespace Keeps

variable {ε σ α β : Type} {R : σ → σ → Prop} {g : α → Operation ε σ β}

theorem pure (change : Change R) (a : α) : Keeps R (Pure.pure a : Operation ε σ α) :=
  fun s => change.refl s

theorem throw (change : Change R) (e : ε) : Keeps R (MonadExcept.throw e : Operation ε σ α) :=
  fun s => change.refl s

theorem lift (change : Change R) (x : Except ε α) : Keeps R (liftM x : Operation ε σ α) := by
  intro s
  cases x <;> exact change.refl s

theorem get (change : Change R) : Keeps R (MonadState.get : Operation ε σ σ) :=
  fun s => change.refl s

theorem update {f : σ → σ} (h : ∀ s, R s (f s)) : Keeps R (modify f : Operation ε σ PUnit) :=
  fun s => h s

theorem bind (change : Change R) {f : Operation ε σ α} (hf : Keeps R f) (hg : ∀ a, Keeps R (g a)) :
    Keeps R (f >>= g) := by
  intro s
  have first := hf s
  rw [Operation.bind_apply]
  split
  · next a _ => exact change.trans first (hg a _)
  · exact first

theorem liftBind (change : Change R) {x : Except ε α} (hg : ∀ a, x = .ok a → Keeps R (g a)) :
    Keeps R (liftM x >>= g : Operation ε σ β) := by
  intro s
  rw [Operation.lift_bind_apply]
  cases x with
  | error e => exact change.refl s
  | ok a => exact hg a rfl s

theorem checked (change : Change R) {x : Except ε α} {γ : Type} {result : α → β → γ} (keeps : ∀ a, Keeps R (g a)) :
    Keeps R (liftM x >>= fun a => g a >>= fun b => Pure.pure (result a b) : Operation ε σ γ) :=
  .bind change (.lift change x) fun a => .bind change (keeps a) fun _ => .pure change _

theorem getBind {g : σ → Operation ε σ β} (h : ∀ s, R s (g s s).2) :
    Keeps R (MonadState.get >>= g : Operation ε σ β) :=
  fun s => h s

end Keeps

/-- From a state with `P`, an operation that succeeds gives a result with `Q` of it and of the state it
    leaves. -/
def Yields {ε σ α : Type} (P : σ → Prop) (f : Operation ε σ α) (Q : α → σ → Prop) : Prop :=
  ∀ s, P s → ∀ a, (f s).1 = .ok a → Q a (f s).2

namespace Yields

variable {ε σ α β : Type} {P : σ → Prop} {Q : α → σ → Prop} {T : β → σ → Prop} {f : Operation ε σ α}
  {g : α → Operation ε σ β}

theorem pure {a : α} (h : ∀ s, P s → Q a s) : Yields P (Pure.pure a : Operation ε σ α) Q := by
  intro s holds a' given
  cases given
  exact h s holds

theorem throw {e : ε} : Yields P (MonadExcept.throw e : Operation ε σ α) Q :=
  fun _ _ _ given => nomatch given

theorem ran (yields : Yields P f Q) {s s' : σ} (holds : P s) {a : α} (given : f s = (.ok a, s')) : Q a s' := by
  have result := yields s holds a
  rw [given] at result
  exact result rfl

theorem any : Yields P f fun _ _ => True :=
  fun _ _ _ _ => trivial

theorem bind (first : Yields P f Q) (second : ∀ a, Yields (Q a) (g a) T) : Yields P (f >>= g) T := by
  intro s holds b given
  have middle := first s holds
  rw [Operation.bind_apply] at given ⊢
  generalize f s = outcome at middle given ⊢
  obtain ⟨result, s'⟩ := outcome
  cases result with
  | error e => cases given
  | ok a => exact second a s' (middle a rfl) b given

theorem liftBind {x : Except ε α} (second : ∀ a, x = .ok a → Yields P (g a) T) :
    Yields P (liftM x >>= g : Operation ε σ β) T := by
  intro s holds b given
  rw [Operation.lift_bind_apply] at given ⊢
  cases x with
  | error e => cases given
  | ok a => exact second a rfl s holds b given

theorem getBind {g : σ → Operation ε σ β} (h : ∀ seen, Yields (fun s => s = seen ∧ P s) (g seen) T) :
    Yields P (MonadState.get >>= g : Operation ε σ β) T :=
  fun s holds b given => h s s ⟨rfl, holds⟩ b given

theorem update {f : σ → σ} {Q : PUnit → σ → Prop} (h : ∀ s, P s → Q ⟨⟩ (f s)) :
    Yields P (modify f : Operation ε σ PUnit) Q :=
  fun s holds _ _ => h s holds

theorem weaken {P' : σ → Prop} {Q' : α → σ → Prop} (yields : Yields P f Q) (before : ∀ s, P' s → P s)
    (after : ∀ a s, Q a s → Q' a s) : Yields P' f Q' :=
  fun s holds a given => after a _ (yields s (before s holds) a given)

theorem frame {R : σ → σ → Prop} {F : σ → Prop} (yields : Yields P f Q) (keeps : Keeps R f)
    (stable : ∀ {s s'}, R s s' → F s → F s') : Yields (fun s => P s ∧ F s) f fun a s => Q a s ∧ F s :=
  fun s holds a given => ⟨yields s holds.1 a given, stable (keeps s) holds.2⟩

end Yields

theorem Execution.noted_apply (description : String) (scope : Scope) (body : ExecutionM Scope) (e : Execution) :
    noted description scope body e =
      match body (e.enter description scope) with
      | (.ok out, e') => (.ok out, e'.leave out)
      | (.error problem, e') => (.error problem, e') := by
  have whole : noted description scope body e =
      (body >>= fun out => do modify (leave out); return out) (e.enter description scope) := rfl
  rw [whole, Operation.bind_apply]
  generalize body (e.enter description scope) = outcome
  obtain ⟨result, e'⟩ := outcome
  cases result <;> rfl

end ClassAtlas
