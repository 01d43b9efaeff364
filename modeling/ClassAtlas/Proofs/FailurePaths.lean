import ClassAtlas.Proofs.Measurements

/-! # The path to a failure

A run that fails is told twice where it failed: the journal keeps the descriptions of the actions under
way, and the recorder closes their nodes as failed. Both come from the calls that the error went through,
so they agree, and no other node of the tree has failed.
-/

namespace ClassAtlas

/-! ## Trees with one way of failed nodes -/

namespace Measurement

/-- The node at the end of a way down, which is given by positions among children. -/
def node? : Measurement → List Nat → Option Measurement
  | m, [] => some m
  | m, i :: rest => m.children[i]?.bind fun child => child.node? rest
termination_by structural _ address => address

def Intact (m : Measurement) : Prop := ∀ a node, m.node? a = some node → node.failed = false

/-- The nodes on the way down to an address are those that failed, the way keeps to the last children,
    and these are the actions along it. -/
structure FailsAlong (root : Measurement) (address : List Nat) (actions : List String) : Prop where
  failed_iff : ∀ {a node}, root.node? a = some node → (node.failed = true ↔ a <+: address)
  last : ∀ {a i}, a ++ [i] <+: address → ∃ node, root.node? a = some node ∧ i + 1 = node.children.length
  actions : actions.map some = address.inits.map fun a => (root.node? a).map (·.action)

theorem Intact.failurePath? {m : Measurement} (intact : m.Intact) : m.failurePath? = none := by
  have passed : m.failed = false := intact [] m rfl
  obtain ⟨action, scopeIn, scopeOut, input, output, durationUs, delta, failed, children⟩ := m
  cases passed
  rfl

theorem firstFailure_append {before : List Measurement} (intact : ∀ m ∈ before, m.Intact)
    (later : List Measurement) : firstFailure (before ++ later) = firstFailure later := by
  induction before with
  | nil => rfl
  | cons m before ih =>
    have passed := (intact m List.mem_cons_self).failurePath?
    rw [List.cons_append, firstFailure, passed, Option.none_or]
    exact ih fun m' member => intact m' (List.mem_cons_of_mem _ member)

theorem node?_cons_eq_some {m node : Measurement} {i : Nat} {rest : List Nat}
    (found : m.node? (i :: rest) = some node) :
    ∃ child, m.children[i]? = some child ∧ child.node? rest = some node :=
  Option.bind_eq_some_iff.mp found

namespace FailsAlong

theorem here {m : Measurement} (failed : m.failed = true) (intact : ∀ child ∈ m.children, child.Intact) :
    m.FailsAlong [] [m.action] where
  failed_iff := by
    intro a node found
    cases a with
    | nil =>
      cases found
      simp [failed]
    | cons i rest =>
      obtain ⟨child, member, found⟩ := node?_cons_eq_some found
      have passed := intact child (List.mem_of_getElem? member) rest node found
      simp [passed]
  last := by
    intro a i within
    simp at within
  actions := rfl

theorem above {m child : Measurement} {before : List Measurement} (failed : m.failed = true)
    (children : m.children = before ++ [child]) (intact : ∀ sibling ∈ before, sibling.Intact)
    {address : List Nat} {actions : List String} (inside : child.FailsAlong address actions) :
    m.FailsAlong (before.length :: address) (m.action :: actions) where
  failed_iff := by
    intro a node found
    cases a with
    | nil =>
      cases found
      simp [failed]
    | cons i rest =>
      obtain ⟨child', member, found⟩ := node?_cons_eq_some found
      rw [List.cons_prefix_cons]
      rw [children] at member
      by_cases sibling : i < before.length
      · rw [List.getElem?_append_left sibling] at member
        have passed := intact child' (List.mem_of_getElem? member) rest node found
        have other : i ≠ before.length := by omega
        simp [passed, other]
      · have bound := (List.getElem?_eq_some_iff.mp member).1
        simp only [List.length_append, List.length_singleton] at bound
        obtain rfl : i = before.length := by omega
        rw [List.getElem?_concat_length] at member
        cases member
        simpa using inside.failed_iff found
  last := by
    intro a i within
    cases a with
    | nil =>
      obtain ⟨rfl, -⟩ := List.cons_prefix_cons.mp within
      exact ⟨m, rfl, by simp [children]⟩
    | cons j rest =>
      obtain ⟨rfl, below⟩ := List.cons_prefix_cons.mp within
      obtain ⟨node, found, last⟩ := inside.last below
      refine ⟨node, ?_, last⟩
      simp only [node?, children, List.getElem?_concat_length, Option.bind_some]
      exact found
  actions := by
    have below : (fun a => (m.node? (before.length :: a)).map (·.action)) =
        fun a => (child.node? a).map (·.action) := by
      funext a
      simp only [node?, children, List.getElem?_concat_length, Option.bind_some]
    rw [List.inits_cons, List.map_cons, List.map_cons, List.map_map, inside.actions]
    exact congrArg _ (congrArg (List.map · _) below.symm)

end FailsAlong

end Measurement

/-! ## What the recorder makes of an error -/

theorem MeasurementRecorder.failAll_concat (entities : Nat) (closed : List Measurement)
    (nodes : List OpenMeasurement) (o : OpenMeasurement) :
    failAll entities closed (nodes ++ [o]) =
      [{ o with children := o.children ++ failAll entities closed nodes }.close none 0 entities true] := by
  induction nodes generalizing closed with
  | nil => rfl
  | cons node nodes ih => exact ih _

namespace ActionCall

variable {nodes : List OpenMeasurement} {calls path : List ActionCall}

/-- The calls that an error went through, from a call to the one that raised it: each is the last that
    the one before made, all fail with the error, and what the innermost one called passed. -/
structure ErrorPath (c : ActionCall) (problem : ModelError) (path : List ActionCall) : Prop where
  first : path.head? = some c
  linked : path.IsChain fun c c' => c.calls.getLast? = some c'
  failed : ∀ c' ∈ path, c'.result = .error problem
  raised : ∀ c' ∈ path.getLast?, ∀ call ∈ c'.calls, ∃ out, call.result = .ok out

theorem Recorded.intact {c : ActionCall} {m : Measurement} (recorded : Recorded c m) : m.Intact := by
  intro a node found
  induction a generalizing c m with
  | nil =>
    obtain ⟨-, -⟩ := recorded
    cases found
    rfl
  | cons i rest ih =>
    obtain @⟨_, out, children, passed, inside⟩ := recorded
    obtain ⟨child, member, found⟩ := Measurement.node?_cons_eq_some found
    obtain ⟨bound, rfl⟩ := List.getElem?_eq_some_iff.mp member
    have call := inside.get (i := i) (by rw [inside.length_eq]; exact bound) bound
    exact ih call found

theorem all_intact {ms : List Measurement} (recorded : List.Forall₂ Recorded calls ms) : ∀ m ∈ ms, m.Intact := by
  induction recorded with
  | nil => simp
  | cons first _ ih =>
    intro m member
    rcases List.mem_cons.mp member with rfl | later
    · exact first.intact
    · exact ih m later

theorem all_passed {ms : List Measurement} (recorded : List.Forall₂ Recorded calls ms) :
    ∀ c ∈ calls, ∃ out, c.result = .ok out := by
  induction recorded with
  | nil => simp
  | cons first _ ih =>
    intro c member
    rcases List.mem_cons.mp member with rfl | later
    · obtain ⟨out, ran, -⟩ := first.passed
      exact ⟨out, congrArg Prod.fst ran⟩
    · exact ih c later

theorem Unfinished.errorPath {problem : ModelError} {c : ActionCall}
    (unfinished : Unfinished problem (c :: path) nodes) : c.ErrorPath problem (c :: path) := by
  generalize whole : c :: path = calls at unfinished
  induction unfinished generalizing c path with
  | raised failed inside =>
    cases whole
    refine ⟨rfl, .singleton _, ?_, ?_⟩
    · simpa using failed
    · simpa using all_passed inside
  | passedOn failed calls inside rest ih =>
    cases whole
    have inner := ih rfl
    refine ⟨rfl, ?_, ?_, ?_⟩
    · refine .cons_cons ?_ inner.linked
      rw [calls, List.getLast?_concat]
    · intro c' member
      rcases List.mem_cons.mp member with rfl | later
      · exact failed
      · exact inner.failed c' later
    · exact inner.raised

/-- Closing the nodes that an error left under way makes one tree, which failed along the calls that the
    error went through. By induction on these, from the innermost one outwards. -/
theorem Unfinished.fails {problem : ModelError} (unfinished : Unfinished problem path nodes) (entities : Nat) :
    ∃ root address, MeasurementRecorder.failAll entities [] nodes = [root] ∧
      root.failurePath? = some (path.map (·.action.describe)) ∧
      root.FailsAlong address (path.map (·.action.describe)) := by
  induction unfinished with
  | @raised c children failed inside =>
    have intact := all_intact inside
    refine ⟨(c.opened children).close none 0 entities true, [], ?_, ?_, ?_⟩
    · simp [MeasurementRecorder.failAll, opened]
    · have none := Measurement.firstFailure_append intact []
      rw [List.append_nil] at none
      change some (_ :: (Measurement.firstFailure children).getD []) = _
      rw [none]
      rfl
    · exact .here rfl intact
  | @passedOn c call path before children nodes failed calls inside rest ih =>
    have intact := all_intact inside
    obtain ⟨child, address, closed, failurePath, along⟩ := ih
    refine ⟨(c.opened (children ++ [child])).close none 0 entities true, children.length :: address, ?_, ?_, ?_⟩
    · rw [MeasurementRecorder.failAll_concat, closed]
      rfl
    · -- All children but the last are intact, so the search ends in the last one.
      have first := Measurement.firstFailure_append intact [child]
      change some (_ :: (Measurement.firstFailure (children ++ [child])).getD []) = _
      rw [first, Measurement.firstFailure, failurePath]
      rfl
    · exact .above rfl rfl intact along

end ActionCall

/-! ## Runs that fail -/

namespace Pipeline

/-- A run that fails leaves one tree. The text that says where it failed and the tree's failure path are
    both the descriptions of the calls that the error went through, and the nodes that failed are those
    on the way down to the one of the call that raised it, last child by last child. -/
theorem failure_follows_error (settings : Settings) (classes : List ClassDeclaration) (p : Pipeline)
    (recording : settings.recordMeasurements = true) {f : RunFailure}
    (ran : p.run settings classes = .error f) :
    ∃ root path address, f.measurements = [root] ∧
      (p.call settings classes).ErrorPath f.error path ∧
      root.failurePath? = some (path.map (·.action.describe)) ∧
      f.action = " > ".intercalate (path.map (·.action.describe)) ∧
      root.FailsAlong address (path.map (·.action.describe)) := by
  have journaled := (p.call settings classes).journaled recording
  unfold run at ran
  split at ran
  · cases ran
  · next problem e done =>
      have failed : (p.call settings classes).result = .error problem := congrArg Prod.fst done
      have finish : (p.call settings classes).finish = e := congrArg Prod.snd done
      obtain ⟨path, nodes, unfinished, journal, recorder⟩ := journaled.failed failed
      obtain ⟨root, address, closed, failurePath, along⟩ := unfinished.fails e.entityCount
      rw [finish] at journal recorder
      cases ran
      refine ⟨root, p.call settings classes :: path, address, ?_, unfinished.errorPath, failurePath, ?_, along⟩
      · change e.recorder.roots ++ MeasurementRecorder.failAll e.entityCount [] e.recorder.pending = [root]
        rw [recorder]
        change [] ++ MeasurementRecorder.failAll e.entityCount [] (nodes ++ []) = [root]
        rw [List.append_nil, List.nil_append, closed]
      · exact congrArg (" > ".intercalate ·) journal

end Pipeline

/-! ## A failure below a fork -/

namespace FailedBranch

def classes : List ClassDeclaration := [{ name := "a/A" }]

/-- Asks for entities that no element was registered as. -/
def pipeline : Pipeline :=
  { name := "failing"
    action := .chain [.step .classes, .fork (.modifiers Access.publicFlag)
      (.nested (.chain [.step .identity, .step (.updateEntity "node" none [])])) none] }

/-- The error goes through the fork and stops at the update; the classes and the identity passed. -/
theorem update_fails : ∃ f root address, pipeline.run {} classes = .error f ∧ f.measurements = [root] ∧
    f.action = "chain[2] > fork > nested > chain[2] > update_entity(node)" ∧ root.nodeCount = 7 ∧
    root.FailsAlong address ["chain[2]", "fork", "nested", "chain[2]", "update_entity(node)"] := by
  have facts : (match pipeline.run {} classes with
      | .ok _ => ([], "", 0)
      | .error f => (f.measurements.map (·.failurePath?), f.action, Measurement.totalCount f.measurements)) =
      ([some ["chain[2]", "fork", "nested", "chain[2]", "update_entity(node)"]],
        "chain[2] > fork > nested > chain[2] > update_entity(node)", 7) := by decide +kernel
  cases ran : pipeline.run {} classes with
  | ok r =>
      rw [ran] at facts
      cases facts
  | error f =>
      obtain ⟨root, path, address, one, -, failurePath, -, along⟩ :=
        Pipeline.failure_follows_error {} classes pipeline rfl ran
      simp only [ran, one, Prod.mk.injEq] at facts
      obtain ⟨paths, action, count⟩ := facts
      have same : path.map (·.action.describe) =
          ["chain[2]", "fork", "nested", "chain[2]", "update_entity(node)"] :=
        Option.some.inj (failurePath.symm.trans (List.cons.inj paths).1)
      rw [same] at along
      exact ⟨f, root, address, rfl, one, action, count, along⟩

end FailedBranch

end ClassAtlas
