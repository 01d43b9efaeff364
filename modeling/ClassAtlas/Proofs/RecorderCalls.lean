import ClassAtlas.Proofs.FailurePaths

/-! # Every call of a recorder is accounted for

A recorder can be called in any order: actions need not end, may end when none is under way, and may all fail at
once. Still the trees tell what was called. Taken from left to right and from the top down, the nodes closed and
under way are the actions in the order in which they began. A node that is closed moves below another one, but it
keeps its line in this order, and its line changes in one thing only, that it is not under way any more.
-/

namespace ClassAtlas

inductive RecorderCall where
  | begin (action : String) (scopeIn : ScopeKind) (input entities : Nat)
  | finish (scopeOut : ScopeKind) (output entities : Nat)
  | fail (entities : Nat)

namespace RecorderCall

def isFail : RecorderCall → Bool
  | .begin _ _ _ _ => false
  | .finish _ _ _ => false
  | .fail _ => true

end RecorderCall

namespace MeasurementRecorder

def perform (r : MeasurementRecorder) : RecorderCall → MeasurementRecorder
  | .begin action scopeIn input entities => r.begin action scopeIn input entities
  | .finish scopeOut output entities => r.finishAction scopeOut output entities
  | .fail entities => r.fail entities

def after (calls : List RecorderCall) : MeasurementRecorder := calls.foldl perform { enabled := true }

/-- How many nodes are under way before the call at this position. -/
def openBefore (calls : List RecorderCall) (i : Nat) : Nat := (after (calls.take i)).pending.length

/-- The node begun by one call is closed by a later one: until then there were always more nodes under way than
    when it began, and then no longer. -/
structure Closes (calls : List RecorderCall) (i j : Nat) : Prop where
  later : i < j
  underWay : ∀ k, i < k → k ≤ j → openBefore calls i < openBefore calls k
  closed : openBefore calls (j + 1) ≤ openBefore calls i

end MeasurementRecorder

namespace Measurement

mutual
def preorder (depth : Nat) : Measurement → List (Nat × Measurement)
  | ⟨action, scopeIn, scopeOut, input, output, durationUs, entitiesDelta, failed, children⟩ =>
    (depth, ⟨action, scopeIn, scopeOut, input, output, durationUs, entitiesDelta, failed, children⟩) ::
      preorderAll (depth + 1) children
termination_by structural m => m
def preorderAll (depth : Nat) : List Measurement → List (Nat × Measurement)
  | [] => []
  | m :: ms => preorder depth m ++ preorderAll depth ms
termination_by structural ms => ms
end

end Measurement

/-! ## The lines of a recorder -/

/-- A node without what is below it. -/
structure NodeLine where
  depth : Nat
  action : String
  scopeIn : ScopeKind
  input : Nat
  /-- Missing as long as the node is under way. -/
  failed : Option Bool

namespace NodeLine

/-- The line when only so many nodes are left under way. -/
def settle (left : Nat) (failed : Bool) (l : NodeLine) : NodeLine :=
  if l.failed = none ∧ left ≤ l.depth then { l with failed := some failed } else l

end NodeLine

namespace MeasurementRecorder

open NodeLine

section Calls

variable {calls : List RecorderCall} (call : RecorderCall)

theorem after_concat (calls : List RecorderCall) : after (calls ++ [call]) = (after calls).perform call := by
  rw [after, List.foldl_append]
  rfl

theorem openBefore_length (calls : List RecorderCall) : openBefore calls calls.length = (after calls).pending.length := by
  rw [openBefore, List.take_length]

theorem openBefore_concat {k : Nat} (within : k ≤ calls.length) :
    openBefore (calls ++ [call]) k = openBefore calls k := by
  rw [openBefore, List.take_append_of_le_length within]
  rfl

theorem openBefore_last (calls : List RecorderCall) :
    openBefore (calls ++ [call]) (calls.length + 1) = ((after calls).perform call).pending.length := by
  rw [← after_concat, ← openBefore_length, List.length_append, List.length_singleton]

end Calls

namespace Closes

variable {calls : List RecorderCall} {i j j' : Nat}

theorem concat (h : Closes calls i j) (within : j < calls.length) (call : RecorderCall) :
    Closes (calls ++ [call]) i j := by
  have first := h.later
  refine ⟨first, fun k later earlier => ?_, ?_⟩
  · rw [openBefore_concat call (by omega), openBefore_concat call (by omega)]
    exact h.underWay k later earlier
  · rw [openBefore_concat call (by omega), openBefore_concat call (by omega)]
    exact h.closed

theorem not_lt (h : Closes calls i j) (h' : Closes calls i j') : ¬ j < j' := by
  intro earlier
  have stillOpen := h'.underWay (j + 1) (Nat.lt_succ_of_lt h.later) earlier
  exact absurd h.closed (Nat.not_le_of_lt stillOpen)

theorem unique (h : Closes calls i j) (h' : Closes calls i j') : j = j' := by
  have first := h.not_lt h'
  have second := h'.not_lt h
  omega

end Closes

/-- What a line tells about the call that began its node and the call that closed it. -/
structure Recounts (calls : List RecorderCall) (i : Nat) (l : NodeLine) : Prop where
  begun : ∃ entities, calls[i]? = some (.begin l.action l.scopeIn l.input entities)
  depth : l.depth = openBefore calls i
  underWay : l.failed = none → ∀ k, i < k → k ≤ calls.length → openBefore calls i < openBefore calls k
  closed : ∀ failed, l.failed = some failed → ∃ j call, Closes calls i j ∧ calls[j]? = some call ∧ call.isFail = failed

namespace Recounts

variable {calls : List RecorderCall} {i : Nat} {l : NodeLine}

theorem lt_length (h : Recounts calls i l) : i < calls.length := by
  obtain ⟨entities, begun⟩ := h.begun
  exact (List.getElem?_eq_some_iff.mp begun).1

theorem settle (h : Recounts calls i l) (call : RecorderCall) :
    Recounts (calls ++ [call]) i (l.settle ((after calls).perform call).pending.length call.isFail) := by
  have inside := h.lt_length
  have begun : ∃ entities, (calls ++ [call])[i]? = some (.begin l.action l.scopeIn l.input entities) := by
    rw [List.getElem?_append_left inside]
    exact h.begun
  have depth : l.depth = openBefore (calls ++ [call]) i := by
    rw [openBefore_concat call (Nat.le_of_lt inside), h.depth]
  have openSoFar (pending : l.failed = none) (k : Nat) (later : i < k) (within : k ≤ calls.length) :
      openBefore (calls ++ [call]) i < openBefore (calls ++ [call]) k := by
    rw [openBefore_concat call (Nat.le_of_lt inside), openBefore_concat call within]
    exact h.underWay pending k later within
  rw [← openBefore_last]
  by_cases closes : l.failed = none ∧ openBefore (calls ++ [call]) (calls.length + 1) ≤ l.depth
  · rw [NodeLine.settle, if_pos closes]
    have closed : Closes (calls ++ [call]) i calls.length := ⟨inside, openSoFar closes.1, depth ▸ closes.2⟩
    refine ⟨begun, depth, fun pending => absurd pending (Option.some_ne_none _), fun failed same => ?_⟩
    exact ⟨calls.length, call, closed, List.getElem?_concat_length, Option.some.inj same⟩
  · rw [NodeLine.settle, if_neg closes]
    refine ⟨begun, depth, fun pending k later within => ?_, fun failed same => ?_⟩
    · rw [List.length_append, List.length_singleton] at within
      rcases Nat.lt_or_eq_of_le within with earlier | rfl
      · exact openSoFar pending k later (Nat.le_of_lt_succ earlier)
      · apply Nat.lt_of_not_le
        intro less
        exact closes ⟨pending, depth ▸ less⟩
    · obtain ⟨j, closing, closed, called, fails⟩ := h.closed failed same
      have within := (List.getElem?_eq_some_iff.mp called).1
      refine ⟨j, closing, closed.concat within call, ?_, fails⟩
      rw [List.getElem?_append_left within, called]

end Recounts

end MeasurementRecorder

/-! ## Failed nodes stand below failed nodes -/

namespace Measurement

/-- No failed node stands below one that has not failed. -/
def FailsUpward (m : Measurement) : Prop :=
  ∀ a b above below, m.node? a = some above → above.node? b = some below → below.failed = true → above.failed = true

theorem node?_append (m : Measurement) (a b : List Nat) : m.node? (a ++ b) = (m.node? a).bind (·.node? b) := by
  induction a generalizing m with
  | nil => rfl
  | cons i a ih =>
    rw [List.cons_append, node?, node?, Option.bind_assoc]
    exact congrArg _ (funext fun child => ih child)

theorem Intact.failsUpward {m : Measurement} (intact : m.Intact) : m.FailsUpward := by
  intro a b above below found found' failed
  have passed := intact (a ++ b) below (by rw [node?_append, found]; exact found')
  rw [passed] at failed
  cases failed

theorem intact_of_children {m : Measurement} (passed : m.failed = false) (intact : ∀ child ∈ m.children, child.Intact) :
    m.Intact := by
  intro a node found
  cases a with
  | nil =>
    cases found
    exact passed
  | cons i a =>
    obtain ⟨child, there, found⟩ := node?_cons_eq_some found
    exact intact child (List.mem_of_getElem? there) a node found

theorem failsUpward_of_failed {m : Measurement} (failed : m.failed = true)
    (children : ∀ child ∈ m.children, child.FailsUpward) : m.FailsUpward := by
  intro a b above below found found' failed'
  cases a with
  | nil =>
    cases found
    exact failed
  | cons i a =>
    obtain ⟨child, there, found⟩ := node?_cons_eq_some found
    exact children child (List.mem_of_getElem? there) a b above below found found' failed'

end Measurement

namespace MeasurementRecorder

/-- Nothing below a node under way has failed, and failures go up to the roots. -/
structure Upward (r : MeasurementRecorder) : Prop where
  pending : ∀ o ∈ r.pending, ∀ child ∈ o.children, child.Intact
  roots : ∀ root ∈ r.roots, root.FailsUpward

namespace Upward

variable {r : MeasurementRecorder}

theorem begin (h : r.Upward) (action : String) (scopeIn : ScopeKind) (input entities : Nat) :
    (r.begin action scopeIn input entities).Upward := by
  rw [MeasurementRecorder.begin]
  split
  · refine ⟨fun o member => ?_, h.roots⟩
    rcases List.mem_cons.mp member with rfl | member
    · exact List.forall_mem_nil _
    · exact h.pending o member
  · exact h

theorem attach {m : Measurement} {rest : List OpenMeasurement} {roots : List Measurement} (enabled : Bool)
    (intact : m.Intact) (h : Upward ⟨enabled, rest, roots⟩) :
    Upward ⟨enabled, (attach m rest roots).1, (MeasurementRecorder.attach m rest roots).2⟩ := by
  cases rest with
  | nil =>
    refine ⟨h.pending, fun root member => ?_⟩
    rcases List.mem_append.mp member with there | last
    · exact h.roots root there
    · rw [List.mem_singleton.mp last]
      exact intact.failsUpward
  | cons p rest =>
    obtain ⟨parent, others⟩ := List.forall_mem_cons.mp h.pending
    refine ⟨List.forall_mem_cons.mpr ⟨fun child member => ?_, others⟩, h.roots⟩
    rcases List.mem_append.mp member with there | last
    · exact parent child there
    · rw [List.mem_singleton.mp last]
      exact intact

theorem finishAction (h : r.Upward) (scopeOut : ScopeKind) (output entities : Nat) :
    (r.finishAction scopeOut output entities).Upward := by
  obtain ⟨enabled, pending, roots⟩ := r
  cases pending with
  | nil => exact h
  | cons o rest =>
    obtain ⟨children, others⟩ := List.forall_mem_cons.mp h.pending
    exact attach enabled (Measurement.intact_of_children rfl children) ⟨others, h.roots⟩

theorem failAll (entities : Nat) {closed : List Measurement} {pending : List OpenMeasurement}
    (below : ∀ m ∈ closed, m.FailsUpward) (intact : ∀ o ∈ pending, ∀ child ∈ o.children, child.Intact) :
    ∀ m ∈ failAll entities closed pending, m.FailsUpward := by
  induction pending generalizing closed with
  | nil => exact below
  | cons o rest ih =>
    obtain ⟨children, others⟩ := List.forall_mem_cons.mp intact
    apply ih _ others
    intro m member
    rw [List.mem_singleton.mp member]
    apply Measurement.failsUpward_of_failed rfl
    intro child inside
    rcases List.mem_append.mp inside with there | last
    · exact (children child there).failsUpward
    · exact below child last

theorem perform (h : r.Upward) (call : RecorderCall) : (r.perform call).Upward := by
  cases call with
  | begin action scopeIn input entities => exact h.begin action scopeIn input entities
  | finish scopeOut output entities => exact h.finishAction scopeOut output entities
  | fail entities =>
    refine ⟨List.forall_mem_nil _, List.forall_mem_append.mpr ⟨h.roots, ?_⟩⟩
    exact failAll entities (List.forall_mem_nil _) h.pending

end Upward

/-- A node with its depth comes from the call at a position. -/
structure ComesFrom (calls : List RecorderCall) (i : Nat) (node : Nat × Measurement) : Prop where
  begun : ∃ entities, calls[i]? = some (.begin node.2.action node.2.scopeIn node.2.input entities)
  depth : node.1 = openBefore calls i
  failed : node.2.failed = true ↔ ∃ j entities, Closes calls i j ∧ calls[j]? = some (.fail entities)

namespace UnevenCalls

/-- An end without a beginning, an action that passes and one that does not, and one more that never ends. -/
def calls : List RecorderCall :=
  [.finish .unresolved 1 0, .begin "chain" .template 0 0, .begin "classes" .template 0 0,
    .finish (.elements .classDef) 3 0, .begin "register_entity" (.elements .classDef) 3 0, .fail 2,
    .begin "relate" .unresolved 3 2]

def trees : List Measurement := (after (calls ++ [.fail 2])).finish

end UnevenCalls

end MeasurementRecorder

end ClassAtlas
