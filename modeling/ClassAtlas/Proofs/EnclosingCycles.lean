import ClassAtlas.Proofs.Resolution
import ClassAtlas.Proofs.ResolverMemory

/-! # Classes that enclose one another

Each class names at most one class around it, so that the classes around a class form a chain that ends or
runs into a cycle. Resolving a class resolves the whole chain and touches nothing else: it reads and
changes what is remembered of these classes alone. Inside a cycle every class is around every other.
-/

namespace ClassAtlas

namespace ClassPool

/-! ## Chains and cycles -/

/-- The second class is the first, or it encloses the first directly or through others. -/
def Around (pool : ClassPool) (c x : Nat) : Prop :=
  Relation.ReflTransGen (fun inner outer => pool.outerClass? inner = some outer) c x

end ClassPool

namespace Search

theorem walk_visits {α : Type} [BEq α] [LawfulBEq α] (next : α → Option α) (fuel : Nat) {visited : List α}
    {a : α} (distinct : visited.Nodup) (here : a ∈ visited)
    (followed : ∀ v ∈ visited, v ≠ a → ∀ n, next v = some n → n ∈ visited) :
    (walk next fuel visited a).Nodup ∧ visited <+: walk next fuel visited a ∧
      (∀ x ∈ walk next fuel visited a,
        x ∈ visited ∨ Relation.TransGen (fun x y => next x = some y) a x) ∧
      ((∀ v ∈ walk next fuel visited a, ∀ n, next v = some n → n ∈ walk next fuel visited a) ∨
        (walk next fuel visited a).length = visited.length + fuel) := by
  induction fuel generalizing visited a with
  | zero => exact ⟨distinct, List.prefix_rfl, fun x member => .inl member, .inr rfl⟩
  | succ fuel ih =>
    unfold walk
    cases link : next a with
    | none =>
      refine ⟨distinct, List.prefix_rfl, fun x member => .inl member, .inl ?_⟩
      intro v member n onward
      by_cases same : v = a
      · rw [same, link] at onward
        cases onward
      · exact followed v member same n onward
    | some n =>
      by_cases seen : n ∈ visited
      · simp only [List.contains_iff_mem.mpr seen, if_true]
        refine ⟨distinct, List.prefix_rfl, fun x member => .inl member, .inl ?_⟩
        intro v member n' onward
        by_cases same : v = a
        · rw [same, link] at onward
          exact Option.some.inj onward ▸ seen
        · exact followed v member same n' onward
      · have unseen : visited.contains n = false := by simpa using seen
        simp only [unseen, Bool.false_eq_true, if_false]
        have longer : (visited ++ [n]).Nodup := by
          rw [← List.concat_eq_append]
          exact distinct.concat seen
        obtain ⟨nodup, more, sound, ended⟩ := ih longer (List.mem_append_right _ (List.mem_singleton_self n)) (by
          intro v member other n' onward
          rcases List.mem_append.mp member with old | new
          · by_cases same : v = a
            · rw [same, link] at onward
              exact Option.some.inj onward ▸ List.mem_append_right _ (List.mem_singleton_self _)
            · exact List.mem_append_left _ (followed v old same n' onward)
          · exact absurd (List.mem_singleton.mp new) other)
        refine ⟨nodup, (List.prefix_append _ _).trans more, fun x member => ?_, ?_⟩
        · rcases sound x member with old | reached
          · rcases List.mem_append.mp old with old | new
            · exact .inl old
            · rw [List.mem_singleton.mp new]
              exact .inr (.single link)
          · exact .inr (.head link reached)
        · refine ended.imp_right fun length => ?_
          rw [length, List.length_append, List.length_singleton]
          omega

/-- With fuel for all positions that links join, a walk visits everything that links lead to. -/
theorem walk_reaches {next : Nat → Option Nat} {bound : Nat}
    (inside : ∀ {a b}, next a = some b → a < bound ∧ b < bound) (c : Nat) :
    (walk next bound [c] c).Nodup ∧ (∃ rest, walk next bound [c] c = c :: rest) ∧
      ∀ x, x ∈ walk next bound [c] c ↔ Relation.ReflTransGen (fun a b => next a = some b) c x := by
  obtain ⟨nodup, ⟨rest, begins⟩, sound, ended⟩ :=
    walk_visits next bound (List.nodup_singleton c) (List.mem_singleton_self c)
      fun v member other => absurd (List.mem_singleton.mp member) other
  have reached : ∀ x ∈ walk next bound [c] c, Relation.ReflTransGen (fun a b => next a = some b) c x := by
    intro x member
    rcases sound x member with start | path
    · rw [List.mem_singleton.mp start]
    · exact path.to_reflTransGen
  -- Fuel is left, since there are not that many different positions.
  have closed : ∀ v ∈ walk next bound [c] c, ∀ n, next v = some n → n ∈ walk next bound [c] c := by
    rcases ended with closed | long
    · exact closed
    · intro v member n link
      have within : walk next bound [c] c ⊆ List.range bound := by
        intro x member'
        rw [List.mem_range]
        have known : c < bound := by
          rcases (reached v member).cases_head with same | ⟨_, first, -⟩
          · exact same ▸ (inside link).1
          · exact (inside first).1
        rcases (reached x member').cases_tail with same | ⟨before, -, last⟩
        · exact same ▸ known
        · exact (inside last).2
      have bound := (nodup.subperm within).length_le
      rw [long, List.length_range, List.length_singleton] at bound
      omega
  refine ⟨nodup, ⟨rest, begins.symm⟩, fun x => ⟨reached x, fun path => ?_⟩⟩
  induction path with
  | refl => exact begins ▸ List.mem_cons_self
  | tail _ link ih => exact closed _ ih _ link

end Search

namespace ClassPool

variable {pool : ClassPool} {c o x : Nat}

theorem walk_outerClass (pool : ClassPool) (c : Nat) :
    (Search.walk pool.outerClass? pool.length [c] c).Nodup ∧
      (∃ rest, Search.walk pool.outerClass? pool.length [c] c = c :: rest) ∧
      ∀ x, x ∈ Search.walk pool.outerClass? pool.length [c] c ↔ pool.Around c x :=
  Search.walk_reaches outerClass?_lt c

theorem mem_outerChain_iff : x ∈ pool.outerChain c ↔ pool.Around c x ∧ x ≠ c := by
  obtain ⟨nodup, ⟨rest, begins⟩, visited⟩ := walk_outerClass pool c
  rw [← visited, outerChain, List.mem_reverse, begins, List.tail_cons, List.mem_cons]
  rw [begins] at nodup
  have new : c ∉ rest := (List.nodup_cons.mp nodup).1
  constructor
  · intro member
    exact ⟨.inr member, fun same => new (same ▸ member)⟩
  · rintro ⟨same | member, other⟩
    · exact absurd same other
    · exact member

theorem outerChain_nodup (pool : ClassPool) (c : Nat) : (pool.outerChain c).Nodup := by
  obtain ⟨nodup, ⟨rest, begins⟩, -⟩ := walk_outerClass pool c
  rw [outerChain, List.nodup_reverse, begins, List.tail_cons]
  rw [begins] at nodup
  exact (List.nodup_cons.mp nodup).2

theorem Around.of_mem (member : x ∈ pool.outerChain c) : pool.Around c x := (mem_outerChain_iff.mp member).1

theorem Around.cycle (there : pool.Around c o) (back : pool.Around o c) (other : o ≠ c)
    (around : pool.Around c x) : pool.Around x c := by
  induction around with
  | refl => exact .refl
  | tail _ link ih =>
    rename_i y z _
    rcases ih.cases_head with same | ⟨next, first, rest⟩
    · subst same
      rcases there.cases_head with same | ⟨next, first, rest⟩
      · exact absurd same.symm other
      · obtain rfl : next = z := Option.some.inj (first.symm.trans link)
        exact rest.trans back
    · obtain rfl : next = z := Option.some.inj (first.symm.trans link)
      exact rest

def InCycle (pool : ClassPool) (c : Nat) : Prop := ∃ o ∈ pool.outerChain c, c ∈ pool.outerChain o

theorem InCycle.back (inCycle : pool.InCycle c) (around : pool.Around c x) : pool.Around x c := by
  obtain ⟨o, there, back⟩ := inCycle
  exact Around.cycle (.of_mem there) (.of_mem back) (mem_outerChain_iff.mp there).2 around

theorem outerChain_shorter (outside : ¬ pool.InCycle c) (member : x ∈ pool.outerChain c) :
    ¬ pool.Around x c ∧ (pool.outerChain x).length < (pool.outerChain c).length := by
  obtain ⟨there, other⟩ := mem_outerChain_iff.mp member
  have away : ¬ pool.Around x c := fun back => outside ⟨x, member, mem_outerChain_iff.mpr ⟨back, Ne.symm other⟩⟩
  refine ⟨away, ?_⟩
  have distinct : (x :: pool.outerChain x).Nodup :=
    List.nodup_cons.mpr ⟨fun again => (mem_outerChain_iff.mp again).2 rfl, outerChain_nodup pool x⟩
  have inside : x :: pool.outerChain x ⊆ pool.outerChain c := by
    intro y listed
    rcases List.mem_cons.mp listed with same | further
    · exact same ▸ member
    · have around := Around.of_mem further
      exact mem_outerChain_iff.mpr ⟨there.trans around, fun same => away (same ▸ around)⟩
  exact (distinct.subperm inside).length_le

end ClassPool

/-! ## What resolving a class touches -/

namespace SignatureResolver

def known (r : SignatureResolver) (c : Nat) : Option ClassSignature := Ordered.get? c r.classes

theorem known_setClass_self (c : Nat) (s : ClassSignature) (r : SignatureResolver) :
    (r.setClass c s).known c = some s :=
  Ordered.get?_put_self _ _ _

theorem known_setClass_ne {c x : Nat} (other : x ≠ c) (s : ClassSignature) (r : SignatureResolver) :
    (r.setClass c s).known x = r.known x :=
  Ordered.get?_put_ne other _ _

def AgreeOn (S : Nat → Prop) (r r' : SignatureResolver) : Prop := ∀ x, S x → r.known x = r'.known x

/-- An operation reads and changes what is remembered of certain classes, counts refused signatures and
    does nothing else. -/
structure ActsOn {α : Type} (S : Nat → Prop) (f : SignatureResolver → α × SignatureResolver) : Prop where
  frame : ∀ r x, ¬ S x → (f r).2.known x = r.known x
  fields : ∀ r, (f r).2.fields = r.fields
  result : ∀ {r r'}, AgreeOn S r r' → (f r).1 = (f r').1
  known : ∀ {r r'}, AgreeOn S r r' → AgreeOn S (f r).2 (f r').2
  /-- As many signatures are refused. -/
  fallbacks : ∀ {r r'}, AgreeOn S r r' → (f r).2.fallbacks + r'.fallbacks = (f r').2.fallbacks + r.fallbacks

namespace ActsOn

variable {α β : Type} {S T : Nat → Prop}

theorem pure (a : α) : ActsOn S fun r => (a, r) where
  frame _ _ _ := rfl
  fields _ := rfl
  result _ := rfl
  known agree := agree
  fallbacks _ := Nat.add_comm _ _

theorem bind {f : SignatureResolver → α × SignatureResolver} {g : α → SignatureResolver → β × SignatureResolver}
    (hf : ActsOn S f) (hg : ∀ a, ActsOn S (g a)) : ActsOn S fun r => g (f r).1 (f r).2 where
  frame r x outside := ((hg _).frame _ x outside).trans (hf.frame r x outside)
  fields r := ((hg _).fields _).trans (hf.fields r)
  result agree := by
    rw [hf.result agree]
    exact (hg _).result (hf.known agree)
  known agree := by
    rw [hf.result agree]
    exact (hg _).known (hf.known agree)
  fallbacks := by
    intro r r' agree
    have first := hf.fallbacks agree
    have second := (hg (f r').1).fallbacks (hf.known agree)
    rw [hf.result agree]
    omega

theorem mono {f : SignatureResolver → α × SignatureResolver} (hf : ActsOn S f) (wider : ∀ x, S x → T x) :
    ActsOn T f where
  frame r x outside := hf.frame r x fun inside => outside (wider x inside)
  fields := hf.fields
  result agree := hf.result fun x inside => agree x (wider x inside)
  known := by
    intro r r' agree x inside
    by_cases touched : S x
    · exact hf.known (fun x inside => agree x (wider x inside)) x touched
    · rw [hf.frame r x touched, hf.frame r' x touched]
      exact agree x inside
  fallbacks agree := hf.fallbacks fun x inside => agree x (wider x inside)

theorem setClass (c : Nat) (inside : S c) (s : ClassSignature) (a : α) :
    ActsOn S fun r => (a, r.setClass c s) where
  frame r x outside := by
    have other : x ≠ c := fun same => outside (same ▸ inside)
    exact known_setClass_ne other s r
  fields _ := rfl
  result _ := rfl
  known := by
    intro r r' agree x among
    by_cases same : x = c
    · rw [same, known_setClass_self, known_setClass_self]
    · rw [known_setClass_ne same, known_setClass_ne same]
      exact agree x among
  fallbacks _ := Nat.add_comm _ _

theorem lookup {c : Nat} (inside : S c) {f : SignatureResolver → α × SignatureResolver}
    {found : ClassSignature → α} (absent : ActsOn S f) :
    ActsOn S fun r => match r.known c with
      | some s => (found s, r)
      | none => f r where
  frame r x outside := by
    cases r.known c with
    | some s => rfl
    | none => exact absent.frame r x outside
  fields r := by
    cases r.known c with
    | some s => rfl
    | none => exact absent.fields r
  result := by
    intro r r' agree
    rw [agree c inside]
    cases r'.known c with
    | some s => rfl
    | none => exact absent.result agree
  known := by
    intro r r' agree
    rw [agree c inside]
    cases r'.known c with
    | some s => exact agree
    | none => exact absent.known agree
  fallbacks := by
    intro r r' agree
    rw [agree c inside]
    cases r'.known c with
    | some s => exact Nat.add_comm _ _
    | none => exact absent.fallbacks agree

end ActsOn

theorem parseClass_actsOn (pool : ClassPool) (S : Nat → Prop) (c : Nat) (scope : TypeScope) :
    ActsOn S (parseClass pool c scope) := by
  unfold parseClass
  split
  · exact .pure _
  · split
    · exact .pure _
    · split
      · exact .pure _
      · exact ⟨fun _ _ _ => rfl, fun _ => rfl, fun _ => rfl, fun agree => agree, fun _ => by simp only; omega⟩

theorem pushClasses_actsOn (pool : ClassPool) {S : Nat → Prop}
    {resolve : Nat → SignatureResolver → ClassSignature × SignatureResolver} {cs : List Nat}
    (each : ∀ c ∈ cs, ActsOn S (resolve c)) (scope : TypeScope) :
    ActsOn S (pushClasses pool resolve cs scope) := by
  induction cs generalizing scope with
  | nil => exact .pure scope
  | cons c rest ih =>
    have later := ih fun c' member => each c' (List.mem_cons_of_mem _ member)
    have first := each c List.mem_cons_self
    cases entry : pool[c]? with
    | none =>
      have step : pushClasses pool resolve (c :: rest) scope =
          fun r => pushClasses pool resolve rest scope (resolve c r).2 := by
        funext r
        simp only [pushClasses, entry]
      rw [step]
      exact first.bind fun _ => later scope
    | some d =>
      have step : pushClasses pool resolve (c :: rest) scope = fun r =>
          pushClasses pool resolve rest (scope.push (.ofClass d.typeName) (resolve c r).1.parameters)
            (resolve c r).2 := by
        funext r
        simp only [pushClasses, entry]
      rw [step]
      exact first.bind fun s => later (scope.push (.ofClass d.typeName) s.parameters)

theorem resolveClass_actsOn (pool : ClassPool) (fuel c : Nat) :
    ActsOn (pool.Around c) (resolveClass pool fuel c) := by
  induction fuel generalizing c with
  | zero => exact .pure _
  | succ fuel ih =>
    have around : ActsOn (pool.Around c)
        (pushClasses pool (resolveClass pool fuel) (pool.outerChain c) .empty) := by
      refine pushClasses_actsOn pool (fun o member => ?_) .empty
      exact (ih o).mono fun x further => (ClassPool.Around.of_mem member).trans further
    have absent := ActsOn.bind (.setClass c .refl (erasedClass pool c) ()) fun _ =>
      around.bind fun scope => (parseClass_actsOn pool _ c scope).bind fun s => .setClass c .refl s s
    exact .lookup .refl absent

theorem classSignature_actsOn (pool : ClassPool) (c : Nat) :
    ActsOn (pool.Around c) (classSignature pool c) :=
  resolveClass_actsOn pool _ c

/-! ## Fuel -/

def missing (pool : ClassPool) (r : SignatureResolver) : Nat :=
  (List.range pool.length).countP fun x => (r.known x).isNone

theorem missing_le (pool : ClassPool) (r : SignatureResolver) : missing pool r ≤ pool.length := by
  have bound := List.countP_le_length (l := List.range pool.length) (p := fun x => (r.known x).isNone)
  rwa [List.length_range] at bound

theorem Extends.missing_le {r r' : SignatureResolver} (h : r.Extends r') (pool : ClassPool) :
    missing pool r' ≤ missing pool r := by
  refine List.countP_mono_left fun x _ absent => ?_
  cases found : r.known x with
  | none => rfl
  | some s =>
    have later : r'.known x = some s := h.classes x s found
    rw [later] at absent
    cases absent

theorem missing_setClass {pool : ClassPool} {c : Nat} (inside : c < pool.length) {r : SignatureResolver}
    (absent : r.known c = none) (s : ClassSignature) :
    missing pool (r.setClass c s) < missing pool r := by
  refine Ordered.countP_lt (fun x _ gone => ?_) (List.mem_range.mpr inside) ?_ ?_
  · by_cases same : x = c
    · rw [same, absent]
      rfl
    · rwa [known_setClass_ne same] at gone
  · rw [known_setClass_self]
    rfl
  · rw [absent]
    rfl

theorem pushClasses_stable {pool : ClassPool} {fuel : Nat}
    (stable : ∀ c r, missing pool r < fuel → resolveClass pool fuel c r = resolveClass pool (fuel + 1) c r)
    (cs : List Nat) (scope : TypeScope) {r : SignatureResolver} (enough : missing pool r < fuel) :
    pushClasses pool (resolveClass pool fuel) cs scope r =
      pushClasses pool (resolveClass pool (fuel + 1)) cs scope r := by
  induction cs generalizing scope r with
  | nil => rfl
  | cons c rest ih =>
    have less := (resolveClass_extends pool (fuel + 1) c r).missing_le pool
    simp only [pushClasses, stable c r enough]
    exact ih _ (Nat.lt_of_le_of_lt less enough)

theorem outerChain_stable {pool : ClassPool} {fuel : Nat}
    (stable : ∀ c r, missing pool r < fuel → resolveClass pool fuel c r = resolveClass pool (fuel + 1) c r)
    {c : Nat} {r : SignatureResolver} (absent : r.known c = none) (enough : missing pool r < fuel + 1)
    (s : ClassSignature) (scope : TypeScope) :
    pushClasses pool (resolveClass pool fuel) (pool.outerChain c) scope (r.setClass c s) =
      pushClasses pool (resolveClass pool (fuel + 1)) (pool.outerChain c) scope (r.setClass c s) := by
  by_cases inside : c < pool.length
  · have less := missing_setClass inside absent s
    exact pushClasses_stable stable _ scope (by omega)
  · have alone : pool.outerChain c = [] := by
      refine List.eq_nil_iff_forall_not_mem.mpr fun o member => ?_
      obtain ⟨there, other⟩ := ClassPool.mem_outerChain_iff.mp member
      rcases there.cases_head with same | ⟨next, link, -⟩
      · exact other same.symm
      · exact inside (ClassPool.outerClass?_lt link).1
    rw [alone]
    rfl

theorem resolveClass_stable (pool : ClassPool) (fuel c : Nat) (r : SignatureResolver)
    (enough : missing pool r < fuel) : resolveClass pool fuel c r = resolveClass pool (fuel + 1) c r := by
  induction fuel generalizing c r with
  | zero => cases enough
  | succ fuel ih =>
    rw [resolveClass, resolveClass]
    cases found : Ordered.get? c r.classes with
    | some s => rfl
    | none => simp only [outerChain_stable ih found enough]

/-- A class that is not resolved yet is remembered by its erased signature while the classes around it are
    resolved, and then it is parsed in their scope. -/
theorem classSignature_absent {pool : ClassPool} {c : Nat} {r : SignatureResolver} (absent : r.known c = none) :
    classSignature pool c r =
      let (scope, r) := pushClasses pool (classSignature pool) (pool.outerChain c) .empty
        (r.setClass c (erasedClass pool c))
      let (s, r) := parseClass pool c scope r
      (s, r.setClass c s) := by
  have found : Ordered.get? c r.classes = none := absent
  have enough : missing pool r < pool.length + 1 := Nat.lt_succ_of_le (missing_le pool r)
  have same := outerChain_stable (resolveClass_stable pool pool.length) absent enough (erasedClass pool c) .empty
  unfold classSignature
  rw [resolveClass, found]
  simp only [same]

/-! ## Settled classes -/

def settle (pool : ClassPool) (c : Nat) (r : SignatureResolver) : SignatureResolver := (classSignature pool c r).2

def settleAll (pool : ClassPool) : List Nat → SignatureResolver → SignatureResolver
  | [], r => r
  | c :: cs, r => settleAll pool cs (settle pool c r)

def scopeOf (pool : ClassPool) (r : SignatureResolver) : List Nat → TypeScope → TypeScope
  | [], scope => scope
  | c :: cs, scope =>
    scopeOf pool r cs (match pool[c]? with
      | none => scope
      | some d => scope.push (.ofClass d.typeName) (((r.known c).map (·.parameters)).getD []))

variable {pool : ClassPool} {c x : Nat} {r r' : SignatureResolver}

theorem settle_of_known {s : ClassSignature} (there : r.known c = some s) : settle pool c r = r := by
  have found : Ordered.get? c r.classes = some s := there
  rw [settle, classSignature, resolveClass, found]

theorem settle_extends (pool : ClassPool) (c : Nat) (r : SignatureResolver) : r.Extends (settle pool c r) :=
  classSignature_extends pool c r

theorem known_settle (pool : ClassPool) (c : Nat) (r : SignatureResolver) :
    (settle pool c r).known c = some (classSignature pool c r).1 :=
  classSignature_remembered pool c r

theorem settleAll_extends (pool : ClassPool) (cs : List Nat) (r : SignatureResolver) :
    r.Extends (settleAll pool cs r) := by
  induction cs generalizing r with
  | nil => exact .refl r
  | cons c cs ih => exact (settle_extends pool c r).trans (ih _)

theorem known_settleAll (pool : ClassPool) {cs : List Nat} (member : c ∈ cs) (r : SignatureResolver) :
    ((settleAll pool cs r).known c).isSome := by
  induction cs generalizing r with
  | nil => cases member
  | cons c' cs ih =>
    rcases List.mem_cons.mp member with rfl | later
    · have kept := (settleAll_extends pool cs (settle pool c r)).classes c _ (known_settle pool c r)
      exact Option.isSome_iff_exists.mpr ⟨_, kept⟩
    · exact ih later _

theorem pushClasses_eq (cs : List Nat) (scope : TypeScope) (r : SignatureResolver) :
    pushClasses pool (classSignature pool) cs scope r =
      (scopeOf pool (settleAll pool cs r) cs scope, settleAll pool cs r) := by
  induction cs generalizing scope r with
  | nil => rfl
  | cons c cs ih =>
    have kept : (settleAll pool cs (settle pool c r)).known c = some (classSignature pool c r).1 :=
      (settleAll_extends pool cs _).classes c _ (known_settle pool c r)
    rw [pushClasses]
    simp only [settleAll, scopeOf, kept, Option.map_some, Option.getD_some]
    exact ih _ _

theorem settle_around (absent : r.known c = none) (around : pool.Around c x) :
    ((settle pool c r).known x).isSome := by
  by_cases same : x = c
  · rw [same, known_settle]
    rfl
  · have member := ClassPool.mem_outerChain_iff.mpr ⟨around, same⟩
    have resolved : ((settleAll pool (pool.outerChain c) (r.setClass c (erasedClass pool c))).known x).isSome :=
      known_settleAll pool member _
    rw [settle, classSignature_absent absent]
    simp only [pushClasses_eq]
    rw [known_setClass_ne same, (parseClass_actsOn pool (fun _ => False) c _).frame _ x not_false]
    exact resolved

end SignatureResolver

end ClassAtlas
