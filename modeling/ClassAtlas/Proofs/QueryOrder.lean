import ClassAtlas.Proofs.EnclosingCycles

/-! # The order of queries

A resolver is asked for signatures in some order. Two queries may change places if both orders leave the
same behind, and that is so unless both ask for classes of one cycle: there the class that is asked for first
is the one at which the cycle is cut. So the order makes no difference exactly if in no cycle it makes a
difference at which class it is cut.
-/

namespace ClassAtlas

namespace SignatureResolver

variable {pool : ClassPool} {c o x : Nat} {r r' r'' : SignatureResolver}

/-- Two resolvers remember the same of classes and fields and have refused as many signatures. -/
structure Same (r r' : SignatureResolver) : Prop where
  known : ∀ x, r.known x = r'.known x
  fields : ∀ key, Ordered.get? key r.fields = Ordered.get? key r'.fields
  fallbacks : r.fallbacks = r'.fallbacks

theorem Same.refl (r : SignatureResolver) : r.Same r := ⟨fun _ => rfl, fun _ => rfl, rfl⟩

theorem Same.symm (h : r.Same r') : r'.Same r :=
  ⟨fun x => (h.known x).symm, fun key => (h.fields key).symm, h.fallbacks.symm⟩

theorem Same.trans (h : r.Same r') (h' : r'.Same r'') : r.Same r'' :=
  ⟨fun x => (h.known x).trans (h'.known x), fun key => (h.fields key).trans (h'.fields key),
    h.fallbacks.trans h'.fallbacks⟩

theorem ActsOn.same {α : Type} {S : Nat → Prop} {f : SignatureResolver → α × SignatureResolver} (hf : ActsOn S f)
    (h : r.Same r') : (f r).2.Same (f r').2 where
  known x := by
    by_cases touched : S x
    · exact hf.known (fun x _ => h.known x) x touched
    · rw [hf.frame r x touched, hf.frame r' x touched, h.known]
  fields key := by rw [hf.fields, hf.fields, h.fields]
  fallbacks := by
    have equally := hf.fallbacks fun x _ => h.known x
    have before := h.fallbacks
    omega

/-- All classes are remembered that are around a remembered one or around one with a remembered field. -/
structure Closed (pool : ClassPool) (r : SignatureResolver) : Prop where
  classes : ∀ c x, (r.known c).isSome → pool.Around c x → (r.known x).isSome
  fields : ∀ c f, (Ordered.get? (c, f) r.fields).isSome → (r.known c).isSome

theorem Closed.initial (pool : ClassPool) : Closed pool {} where
  classes _ _ there := by cases there
  fields _ _ there := by cases there

theorem Extends.isSome (h : r.Extends r') (there : (r.known x).isSome) : (r'.known x).isSome := by
  obtain ⟨s, found⟩ := Option.isSome_iff_exists.mp there
  exact Option.isSome_iff_exists.mpr ⟨s, h.classes x s found⟩

theorem settle_of_isSome (there : (r.known c).isSome) : settle pool c r = r := by
  obtain ⟨s, found⟩ := Option.isSome_iff_exists.mp there
  exact settle_of_known found

theorem Closed.settle (closed : Closed pool r) (c : Nat) : Closed pool (settle pool c r) := by
  cases found : r.known c with
  | some s => rwa [settle_of_known found]
  | none =>
    have acts := classSignature_actsOn pool c
    refine ⟨fun c' x there around => ?_, fun c' f there => ?_⟩
    · by_cases inside : pool.Around c x
      · exact settle_around found inside
      · have outside : ¬ pool.Around c c' := fun further => inside (further.trans around)
        rw [SignatureResolver.settle, acts.frame r c' outside] at there
        rw [SignatureResolver.settle, acts.frame r x inside]
        exact closed.classes c' x there around
    · rw [SignatureResolver.settle, acts.fields] at there
      exact (settle_extends pool c r).isSome (closed.fields c' f there)

theorem Closed.settleAll (closed : Closed pool r) (cs : List Nat) : Closed pool (settleAll pool cs r) := by
  induction cs generalizing r with
  | nil => exact closed
  | cons c cs ih => exact ih (closed.settle c)

theorem settle_same (pool : ClassPool) (c : Nat) (h : r.Same r') : (settle pool c r).Same (settle pool c r') :=
  (classSignature_actsOn pool c).same h

theorem settleAll_same (pool : ClassPool) (cs : List Nat) (h : r.Same r') :
    (settleAll pool cs r).Same (settleAll pool cs r') := by
  induction cs generalizing r r' with
  | nil => exact h
  | cons c cs ih => exact ih (settle_same pool c h)

theorem settleAll_of_isSome {cs : List Nat} (there : ∀ c ∈ cs, (r.known c).isSome) : settleAll pool cs r = r := by
  induction cs with
  | nil => rfl
  | cons c cs ih =>
    rw [settleAll, settle_of_isSome (there c List.mem_cons_self)]
    exact ih fun c' member => there c' (List.mem_cons_of_mem _ member)

theorem scopeOf_congr {cs : List Nat} (agree : ∀ c ∈ cs, r.known c = r'.known c) (scope : TypeScope) :
    scopeOf pool r cs scope = scopeOf pool r' cs scope := by
  induction cs generalizing scope with
  | nil => rfl
  | cons c cs ih =>
    rw [scopeOf, scopeOf, agree c List.mem_cons_self]
    exact ih (fun c' member => agree c' (List.mem_cons_of_mem _ member)) _

theorem scopeOf_extends (pool : ClassPool) {cs : List Nat} (later : r.Extends r')
    (there : ∀ c ∈ cs, (r.known c).isSome) (scope : TypeScope) :
    scopeOf pool r' cs scope = scopeOf pool r cs scope := by
  refine scopeOf_congr (fun c member => ?_) scope
  obtain ⟨s, found⟩ := Option.isSome_iff_exists.mp (there c member)
  rw [found]
  exact later.classes c s found

/-! ## Queries that change places -/

/-- Two changes to a resolver leave the same behind in either order. -/
def Commute (pool : ClassPool) (f g : SignatureResolver → SignatureResolver) : Prop :=
  ∀ r, Closed pool r → (f (g r)).Same (g (f r))

theorem Commute.symm {f g : SignatureResolver → SignatureResolver} (h : Commute pool f g) : Commute pool g f :=
  fun r closed => (h r closed).symm

theorem Commute.all {f : SignatureResolver → SignatureResolver} {cs : List Nat}
    (each : ∀ c ∈ cs, Commute pool f (settle pool c)) : Commute pool f (settleAll pool cs) := by
  induction cs with
  | nil => exact fun r _ => .refl _
  | cons c cs ih =>
    intro r closed
    have rest := ih (fun c' member => each c' (List.mem_cons_of_mem _ member)) _ (closed.settle c)
    exact rest.trans (settleAll_same pool cs (each c List.mem_cons_self r closed))

/-- A query that settles classes and then does something that another query does not get in the way of. -/
theorem Commute.finish {f query last : SignatureResolver → SignatureResolver} {cs : List Nat}
    (queries : ∀ r, Closed pool r → (query r).Same (last (settleAll pool cs r)))
    (stays : ∀ r, Closed pool r → Closed pool (f r))
    (same : ∀ {r r'}, r.Same r' → (f r).Same (f r')) (lastSame : ∀ {r r'}, r.Same r' → (last r).Same (last r'))
    (passes : ∀ r, Closed pool r → (∀ c ∈ cs, (r.known c).isSome) → (f (last r)).Same (last (f r)))
    (each : ∀ c ∈ cs, Commute pool f (settle pool c)) : Commute pool f query := by
  intro r closed
  have first := same (queries r closed)
  have second := passes _ (closed.settleAll cs) fun c member => known_settleAll pool member r
  have third := lastSame (Commute.all each r closed)
  have fourth := queries (f r) (stays r closed)
  exact ((first.trans second).trans third).trans fourth.symm

/-! ## Classes outside cycles -/

def declareClass (pool : ClassPool) (c : Nat) (scope : TypeScope) (r : SignatureResolver) : SignatureResolver :=
  let (s, r) := parseClass pool c scope r
  r.setClass c s

theorem known_declareClass_self (c : Nat) (scope : TypeScope) (r : SignatureResolver) :
    (declareClass pool c scope r).known c = some (parseClass pool c scope {}).1 := by
  have parsed : (parseClass pool c scope r).1 = (parseClass pool c scope {}).1 :=
    (parseClass_actsOn pool (fun _ => False) c scope).result fun _ => False.elim
  rw [← parsed]
  exact known_setClass_self c _ _

theorem known_declareClass_ne (other : x ≠ c) (scope : TypeScope) (r : SignatureResolver) :
    (declareClass pool c scope r).known x = r.known x :=
  (known_setClass_ne other _ _).trans
    ((parseClass_actsOn pool (fun _ => False) c scope).frame r x not_false)

theorem declareClass_fields (c : Nat) (scope : TypeScope) (r : SignatureResolver) :
    (declareClass pool c scope r).fields = r.fields :=
  (parseClass_actsOn pool (fun _ => False) c scope).fields r

theorem declareClass_fallbacks (c : Nat) (scope : TypeScope) (r : SignatureResolver) :
    (declareClass pool c scope r).fallbacks = (parseClass pool c scope {}).2.fallbacks + r.fallbacks := by
  have agree : AgreeOn (fun _ => False) r {} := fun _ => False.elim
  exact (parseClass_actsOn pool (fun _ => False) c scope).fallbacks agree

theorem declareClass_same (scope : TypeScope) (others : ∀ x, x ≠ c → r.known x = r'.known x)
    (fields : ∀ key, Ordered.get? key r.fields = Ordered.get? key r'.fields)
    (fallbacks : r.fallbacks = r'.fallbacks) :
    (declareClass pool c scope r).Same (declareClass pool c scope r') where
  known x := by
    by_cases same : x = c
    · rw [same, known_declareClass_self, known_declareClass_self]
    · rw [known_declareClass_ne same, known_declareClass_ne same, others x same]
  fields key := by rw [declareClass_fields, declareClass_fields, fields]
  fallbacks := by rw [declareClass_fallbacks, declareClass_fallbacks, fallbacks]

/-- Declare a class in the scope of the classes around it, unless it is remembered. -/
def finishClass (pool : ClassPool) (c : Nat) (r : SignatureResolver) : SignatureResolver :=
  if (r.known c).isSome then r else declareClass pool c (scopeOf pool r (pool.outerChain c) .empty) r

theorem finishClass_same (pool : ClassPool) (c : Nat) (h : r.Same r') :
    (finishClass pool c r).Same (finishClass pool c r') := by
  unfold finishClass
  rw [h.known c, scopeOf_congr fun o _ => h.known o]
  split
  · exact h
  · exact declareClass_same _ (fun x _ => h.known x) h.fields h.fallbacks

/-- Nobody asks for a class outside cycles while it is resolved. So the classes around it might as well be
    resolved before it is begun. -/
theorem settle_eq_finishClass (closed : Closed pool r) (outside : ¬ pool.InCycle c) :
    (settle pool c r).Same (finishClass pool c (settleAll pool (pool.outerChain c) r)) := by
  cases found : r.known c with
  | some s =>
    have there : (r.known c).isSome := Option.isSome_iff_exists.mpr ⟨s, found⟩
    have around : ∀ o ∈ pool.outerChain c, (r.known o).isSome :=
      fun o member => closed.classes c o there (.of_mem member)
    rw [settle_of_known found, settleAll_of_isSome around, finishClass, if_pos there]
    exact .refl r
  | none =>
    have acts : ActsOn (fun x => ∃ o ∈ pool.outerChain c, pool.Around o x)
        (pushClasses pool (classSignature pool) (pool.outerChain c) .empty) :=
      pushClasses_actsOn pool (fun o member =>
        (classSignature_actsOn pool o).mono fun x around => ⟨o, member, around⟩) .empty
    -- The placeholder is not read, since the class is around none of those around it.
    have untouched : ¬ ∃ o ∈ pool.outerChain c, pool.Around o c := by
      rintro ⟨o, member, back⟩
      exact (ClassPool.outerChain_shorter outside member).1 back
    have agree : AgreeOn (fun x => ∃ o ∈ pool.outerChain c, pool.Around o x)
        (r.setClass c (erasedClass pool c)) r := by
      intro x touched
      have other : x ≠ c := fun same => untouched (same ▸ touched)
      exact known_setClass_ne other _ r
    have scope := acts.result agree
    have known := acts.known agree
    have fallbacks := acts.fallbacks agree
    have frame := acts.frame (r.setClass c (erasedClass pool c))
    have frame' := acts.frame r
    have fields := acts.fields (r.setClass c (erasedClass pool c))
    have fields' := acts.fields r
    simp only [pushClasses_eq] at scope known fallbacks frame frame' fields fields'
    have absent : ((settleAll pool (pool.outerChain c) r).known c).isSome = false := by
      rw [frame' c untouched, found]
      rfl
    rw [settle, classSignature_absent found, finishClass, absent]
    simp only [pushClasses_eq, scope, Bool.false_eq_true, if_false]
    refine declareClass_same _ (fun x other => ?_) (fun key => ?_) ?_
    · by_cases touched : ∃ o ∈ pool.outerChain c, pool.Around o x
      · exact known x touched
      · rw [frame x touched, frame' x touched, known_setClass_ne other]
    · rw [fields, fields']
      rfl
    · exact Nat.add_right_cancel fallbacks

theorem settle_finishClass (around : ∀ y ∈ pool.outerChain o, (r.known y).isSome) (away : ¬ pool.Around c o) :
    (settle pool c (finishClass pool o r)).Same (finishClass pool o (settle pool c r)) := by
  have acts := classSignature_actsOn pool c
  have sameScope := scopeOf_extends pool (settle_extends pool c r) around .empty
  have untouched : (settle pool c r).known o = r.known o := acts.frame r o away
  unfold finishClass
  rw [untouched, sameScope]
  split
  · exact .refl _
  · generalize scopeOf pool r (pool.outerChain o) .empty = scope
    have agree : AgreeOn (pool.Around c) (declareClass pool o scope r) r := by
      intro x around
      have other : x ≠ o := fun same => away (same ▸ around)
      exact known_declareClass_ne other scope r
    refine ⟨fun x => ?_, fun key => ?_, ?_⟩
    · by_cases touched : pool.Around c x
      · have other : x ≠ o := fun same => away (same ▸ touched)
        rw [known_declareClass_ne other]
        exact acts.known agree x touched
      · rw [settle, acts.frame _ x touched]
        by_cases same : x = o
        · rw [same, known_declareClass_self, known_declareClass_self]
        · rw [known_declareClass_ne same, known_declareClass_ne same, settle, acts.frame r x touched]
    · rw [settle, acts.fields, declareClass_fields, declareClass_fields, settle, acts.fields]
    · have equally := acts.fallbacks agree
      rw [declareClass_fallbacks] at equally
      rw [declareClass_fallbacks, settle, settle]
      omega

theorem settle_commute_outside (outside : ¬ pool.InCycle o) (away : ¬ pool.Around c o)
    (each : ∀ y ∈ pool.outerChain o, Commute pool (settle pool c) (settle pool y)) :
    Commute pool (settle pool c) (settle pool o) :=
  .finish (fun _ closed => settle_eq_finishClass closed outside) (fun _ closed => closed.settle c)
    (settle_same pool c) (finishClass_same pool o) (fun _ _ around => settle_finishClass around away) each

/-! ## Classes in cycles -/

theorem settle_commute_disjoint (disjoint : ∀ x, pool.Around c x → ¬ pool.Around o x) :
    Commute pool (settle pool c) (settle pool o) := by
  intro r _
  have acts := classSignature_actsOn pool c
  have acts' := classSignature_actsOn pool o
  have agree : AgreeOn (pool.Around c) (settle pool o r) r :=
    fun x around => acts'.frame r x (disjoint x around)
  have agree' : AgreeOn (pool.Around o) (settle pool c r) r :=
    fun x around => acts.frame r x fun inside => disjoint x inside around
  refine ⟨fun x => ?_, fun key => ?_, ?_⟩
  · by_cases touched : pool.Around c x
    · rw [settle, acts.known agree x touched]
      exact (acts'.frame _ x (disjoint x touched)).symm
    · rw [settle, acts.frame _ x touched]
      by_cases touched' : pool.Around o x
      · exact (acts'.known agree' x touched').symm
      · rw [settle, acts'.frame r x touched', settle, acts'.frame _ x touched', settle, acts.frame r x touched]
  · rw [settle, acts.fields, settle, acts'.fields, settle, acts'.fields, settle, acts.fields]
  · have equally := acts.fallbacks agree
    have equally' := acts'.fallbacks agree'
    simp only [settle] at equally equally' ⊢
    omega

/-- At whichever class of a cycle resolving starts, it leaves the same behind. -/
def EnteredAlike (pool : ClassPool) : Prop :=
  ∀ c o, o ∈ pool.outerChain c → c ∈ pool.outerChain o →
    (∀ x, (classSignature pool c {}).2.known x = (classSignature pool o {}).2.known x) ∧
      (classSignature pool c {}).2.fallbacks = (classSignature pool o {}).2.fallbacks

theorem enteredAlike_iff : EnteredAlike pool ↔ ∀ c < pool.length, ∀ o ∈ pool.outerChain c, c ∈ pool.outerChain o →
    (∀ x ∈ pool.outerChain c ++ [c],
        (classSignature pool c {}).2.known x = (classSignature pool o {}).2.known x) ∧
      (classSignature pool c {}).2.fallbacks = (classSignature pool o {}).2.fallbacks := by
  constructor
  · intro alike c _ o there back
    obtain ⟨known, fallbacks⟩ := alike c o there back
    exact ⟨fun x _ => known x, fallbacks⟩
  · intro onChains c o there back
    have around := ClassPool.Around.of_mem there
    have inside : c < pool.length := by
      rcases around.cases_head with same | ⟨_, link, -⟩
      · exact absurd same.symm (ClassPool.mem_outerChain_iff.mp there).2
      · exact (ClassPool.outerClass?_lt link).1
    obtain ⟨known, fallbacks⟩ := onChains c inside o there back
    refine ⟨fun x => ?_, fallbacks⟩
    by_cases touched : pool.Around c x
    · refine known x ?_
      by_cases same : x = c
      · exact List.mem_append_right _ (List.mem_singleton.mpr same)
      · exact List.mem_append_left _ (ClassPool.mem_outerChain_iff.mpr ⟨touched, same⟩)
    · have touched' : ¬ pool.Around o x := fun further => touched (around.trans further)
      rw [(classSignature_actsOn pool c).frame _ x touched, (classSignature_actsOn pool o).frame _ x touched']

instance (pool : ClassPool) : Decidable (EnteredAlike pool) :=
  decidable_of_iff _ enteredAlike_iff.symm

theorem settle_cycle (closed : Closed pool r) (inCycle : pool.InCycle c) (absent : r.known c = none) :
    (∀ x, pool.Around c x → (settle pool c r).known x = (settle pool c {}).known x) ∧
      (settle pool c r).fallbacks = (settle pool c {}).fallbacks + r.fallbacks := by
  have acts := classSignature_actsOn pool c
  have agree : AgreeOn (pool.Around c) r {} := by
    intro x around
    cases found : r.known x with
    | none => rfl
    | some s =>
      have there := closed.classes x c (Option.isSome_iff_exists.mpr ⟨s, found⟩) (inCycle.back around)
      rw [absent] at there
      cases there
  exact ⟨acts.known agree, acts.fallbacks agree⟩

theorem settle_commute_cycle (alike : EnteredAlike pool) (there : o ∈ pool.outerChain c)
    (back : c ∈ pool.outerChain o) : Commute pool (settle pool c) (settle pool o) := by
  intro r closed
  cases found : r.known c with
  | some s =>
    rw [settle_of_known found, settle_of_known ((settle_extends pool o r).classes c s found)]
    exact .refl _
  | none =>
    cases found' : r.known o with
    | some s =>
      rw [settle_of_known found', settle_of_known ((settle_extends pool c r).classes o s found')]
      exact .refl _
    | none =>
      -- Whichever is resolved first, the other is resolved with it.
      have around := ClassPool.Around.of_mem there
      have around' := ClassPool.Around.of_mem back
      rw [settle_of_isSome (settle_around found' around'), settle_of_isSome (settle_around found around)]
      obtain ⟨known, fallbacks⟩ := settle_cycle closed ⟨o, there, back⟩ found
      obtain ⟨known', fallbacks'⟩ := settle_cycle closed ⟨c, back, there⟩ found'
      obtain ⟨sameKnown, sameFallbacks⟩ := alike c o there back
      refine ⟨fun x => ?_, fun key => ?_, ?_⟩
      · by_cases touched : pool.Around c x
        · rw [known x touched, known' x (around'.trans touched)]
          exact (sameKnown x).symm
        · have touched' : ¬ pool.Around o x := fun inside => touched (around.trans inside)
          rw [settle, (classSignature_actsOn pool o).frame r x touched', settle,
            (classSignature_actsOn pool c).frame r x touched]
      · rw [settle, (classSignature_actsOn pool o).fields, settle, (classSignature_actsOn pool c).fields]
      · rw [fallbacks, fallbacks']
        simp only [settle, sameFallbacks]

theorem settle_commute (alike : EnteredAlike pool) (c o : Nat) : Commute pool (settle pool c) (settle pool o) := by
  by_cases same : c = o
  · rw [same]
    exact fun r _ => .refl _
  -- A class outside cycles is declared after the classes around it, and their chains are shorter.
  by_cases outside : ¬ pool.InCycle o ∧ ¬ pool.Around c o
  · refine settle_commute_outside outside.1 outside.2 fun y member => ?_
    have shorter := (ClassPool.outerChain_shorter outside.1 member).2
    exact settle_commute alike c y
  by_cases outside' : ¬ pool.InCycle c ∧ ¬ pool.Around o c
  · refine (settle_commute_outside outside'.1 outside'.2 fun y member => ?_).symm
    have shorter := (ClassPool.outerChain_shorter outside'.1 member).2
    exact settle_commute alike o y
  -- Otherwise the two are in one cycle, or no class is around both.
  have back : pool.Around c o → pool.Around o c := by
    intro around
    by_contra away
    have inCycle : pool.InCycle c := by
      by_contra no
      exact outside' ⟨no, away⟩
    exact away (inCycle.back around)
  by_cases around : pool.Around c o
  · exact settle_commute_cycle alike (ClassPool.mem_outerChain_iff.mpr ⟨around, Ne.symm same⟩)
      (ClassPool.mem_outerChain_iff.mpr ⟨back around, same⟩)
  · have inCycle : pool.InCycle o := by
      by_contra no
      exact outside ⟨no, around⟩
    exact settle_commute_disjoint fun x first second => around (first.trans (inCycle.back second))
termination_by (pool.outerChain c).length + (pool.outerChain o).length

/-! ## Fields -/

def fieldIn (pool : ClassPool) (c f : Nat) (scope : TypeScope) : Option TypeSignature × Bool :=
  match pool[c]?.bind fun d => d.fields[f]? with
  | none => (none, false)
  | some field => parseDeclared (Signature.parseField scope) field.signature field.desc

def declareField (pool : ClassPool) (c f : Nat) (scope : TypeScope) (r : SignatureResolver) : SignatureResolver :=
  let (s, refused) := fieldIn pool c f scope
  let r := r.countIf refused
  { r with fields := Ordered.put (c, f) s r.fields }

theorem known_declareField (c f : Nat) (scope : TypeScope) (r : SignatureResolver) (x : Nat) :
    (declareField pool c f scope r).known x = r.known x := by
  unfold declareField countIf
  rcases fieldIn pool c f scope with ⟨s, _ | _⟩ <;> rfl

theorem declareField_fields (c f : Nat) (scope : TypeScope) (r : SignatureResolver) :
    (declareField pool c f scope r).fields = Ordered.put (c, f) (fieldIn pool c f scope).1 r.fields := by
  unfold declareField countIf
  rcases fieldIn pool c f scope with ⟨s, _ | _⟩ <;> rfl

theorem declareField_fallbacks (c f : Nat) (scope : TypeScope) (r : SignatureResolver) :
    (declareField pool c f scope r).fallbacks = (fieldIn pool c f scope).2.toNat + r.fallbacks := by
  unfold declareField countIf
  rcases fieldIn pool c f scope with ⟨s, _ | _⟩
  · exact (Nat.zero_add _).symm
  · exact Nat.add_comm _ _

/-- Declare a field in the scope inside its class, unless it is remembered. -/
def finishField (pool : ClassPool) (c f : Nat) (r : SignatureResolver) : SignatureResolver :=
  if (Ordered.get? (c, f) r.fields).isSome then r
  else declareField pool c f (scopeOf pool r (pool.outerChain c ++ [c]) .empty) r

def settleField (pool : ClassPool) (c f : Nat) (r : SignatureResolver) : SignatureResolver :=
  (fieldSignature pool c f r).2

theorem settleAll_fields (cs : List Nat) (r : SignatureResolver) : (settleAll pool cs r).fields = r.fields := by
  induction cs generalizing r with
  | nil => rfl
  | cons c cs ih => exact (ih _).trans ((classSignature_actsOn pool c).fields r)

theorem settleField_unfold (pool : ClassPool) (c f : Nat) (r : SignatureResolver) :
    settleField pool c f r = if (Ordered.get? (c, f) r.fields).isSome then r
      else finishField pool c f (settleAll pool (pool.outerChain c ++ [c]) r) := by
  unfold settleField fieldSignature finishField
  rw [settleAll_fields]
  cases Ordered.get? (c, f) r.fields with
  | some s => rfl
  | none =>
    simp only [classScope, pushClasses_eq]
    rfl

theorem settleField_eq (closed : Closed pool r) (c f : Nat) :
    settleField pool c f r = finishField pool c f (settleAll pool (pool.outerChain c ++ [c]) r) := by
  rw [settleField_unfold]
  split
  · next remembered =>
      have there := closed.fields c f remembered
      have inside : ∀ o ∈ pool.outerChain c ++ [c], (r.known o).isSome := by
        intro o member
        rcases List.mem_append.mp member with outer | own
        · exact closed.classes c o there (.of_mem outer)
        · rwa [List.mem_singleton.mp own]
      rw [settleAll_of_isSome inside, finishField, if_pos remembered]
  · rfl

theorem settleField_finishes (closed : Closed pool r) (c f : Nat) :
    (settleField pool c f r).Same (finishField pool c f (settleAll pool (pool.outerChain c ++ [c]) r)) := by
  rw [settleField_eq closed]
  exact .refl _

theorem finishField_same (pool : ClassPool) (c f : Nat) (h : r.Same r') :
    (finishField pool c f r).Same (finishField pool c f r') := by
  unfold finishField
  rw [h.fields, scopeOf_congr fun o _ => h.known o]
  split
  · exact h
  · refine ⟨fun x => ?_, fun key => ?_, ?_⟩
    · rw [known_declareField, known_declareField, h.known]
    · rw [declareField_fields, declareField_fields]
      by_cases same : key = (c, f)
      · rw [same, Ordered.get?_put_self, Ordered.get?_put_self]
      · rw [Ordered.get?_put_ne same, Ordered.get?_put_ne same, h.fields]
    · rw [declareField_fallbacks, declareField_fallbacks, h.fallbacks]

theorem finishField_known (c f : Nat) (r : SignatureResolver) (x : Nat) :
    (finishField pool c f r).known x = r.known x := by
  unfold finishField
  split
  · rfl
  · exact known_declareField c f _ r x

theorem settle_finishField (f : Nat) (inside : ∀ y ∈ pool.outerChain c ++ [c], (r.known y).isSome) (o : Nat) :
    (settle pool o (finishField pool c f r)).Same (finishField pool c f (settle pool o r)) := by
  have acts := classSignature_actsOn pool o
  have sameScope := scopeOf_extends pool (settle_extends pool o r) inside .empty
  have fields : (settle pool o r).fields = r.fields := acts.fields r
  unfold finishField
  rw [fields, sameScope]
  split
  · exact .refl _
  · generalize scopeOf pool r (pool.outerChain c ++ [c]) .empty = scope
    have agree : AgreeOn (pool.Around o) (declareField pool c f scope r) r :=
      fun x _ => known_declareField c f scope r x
    refine ⟨fun x => ?_, fun key => ?_, ?_⟩
    · rw [known_declareField]
      by_cases touched : pool.Around o x
      · exact acts.known agree x touched
      · rw [settle, acts.frame _ x touched, known_declareField, settle, acts.frame r x touched]
    · rw [settle, acts.fields, declareField_fields, declareField_fields, fields]
    · have equally := acts.fallbacks agree
      rw [declareField_fallbacks] at equally
      rw [declareField_fallbacks, settle, settle]
      omega

theorem settleAll_finishField (f : Nat) (inside : ∀ y ∈ pool.outerChain c ++ [c], (r.known y).isSome)
    (cs : List Nat) :
    (settleAll pool cs (finishField pool c f r)).Same (finishField pool c f (settleAll pool cs r)) := by
  induction cs generalizing r with
  | nil => exact .refl _
  | cons o cs ih =>
    have first := settleAll_same pool cs (settle_finishField f inside o)
    exact first.trans (ih fun y member => (settle_extends pool o r).isSome (inside y member))

theorem get?_finishField_ne (pool : ClassPool) {key : Nat × Nat} {f : Nat} (other : key ≠ (c, f))
    (r : SignatureResolver) :
    Ordered.get? key (finishField pool c f r).fields = Ordered.get? key r.fields := by
  unfold finishField
  split
  · rfl
  · rw [declareField_fields, Ordered.get?_put_ne other]

theorem finishField_comm {c' f f' : Nat} (other : (c, f) ≠ (c', f')) (r : SignatureResolver) :
    (finishField pool c' f' (finishField pool c f r)).Same (finishField pool c f (finishField pool c' f' r)) := by
  have kept := get?_finishField_ne pool other.symm r
  have kept' := get?_finishField_ne pool other r
  by_cases done : (Ordered.get? (c, f) r.fields).isSome
  · have first : finishField pool c f r = r := if_pos done
    have second : finishField pool c f (finishField pool c' f' r) = finishField pool c' f' r :=
      if_pos (by rwa [kept'])
    rw [first, second]
    exact .refl _
  by_cases done' : (Ordered.get? (c', f') r.fields).isSome
  · have first : finishField pool c' f' r = r := if_pos done'
    have second : finishField pool c' f' (finishField pool c f r) = finishField pool c f r :=
      if_pos (by rwa [kept])
    rw [first, second]
    exact .refl _
  have scope : ∀ c f cs, scopeOf pool (finishField pool c f r) cs .empty = scopeOf pool r cs .empty :=
    fun c f cs => scopeOf_congr (fun o _ => finishField_known c f r o) .empty
  have second : finishField pool c' f' (finishField pool c f r) = _ := if_neg (by rwa [kept])
  have second' : finishField pool c f (finishField pool c' f' r) = _ := if_neg (by rwa [kept'])
  have first : finishField pool c f r = _ := if_neg done
  have first' : finishField pool c' f' r = _ := if_neg done'
  rw [second, second', scope, scope, first, first']
  refine ⟨fun x => ?_, fun key => ?_, ?_⟩
  · rw [known_declareField, known_declareField, known_declareField, known_declareField]
  · rw [declareField_fields, declareField_fields, declareField_fields, declareField_fields]
    by_cases same : key = (c, f)
    · rw [same, Ordered.get?_put_ne other, Ordered.get?_put_self, Ordered.get?_put_self]
    · rw [Ordered.get?_put_ne same]
      by_cases same' : key = (c', f')
      · rw [same', Ordered.get?_put_self, Ordered.get?_put_self]
      · rw [Ordered.get?_put_ne same', Ordered.get?_put_ne same, Ordered.get?_put_ne same']
  · rw [declareField_fallbacks, declareField_fallbacks, declareField_fallbacks, declareField_fallbacks]
    omega

theorem Closed.finishField (closed : Closed pool r) (there : (r.known c).isSome) (f : Nat) :
    Closed pool (finishField pool c f r) where
  classes c' x := by
    rw [finishField_known, finishField_known]
    exact closed.classes c' x
  fields c' f' := by
    rw [finishField_known]
    intro remembered
    by_cases same : (c', f') = (c, f)
    · cases same
      exact there
    · rw [get?_finishField_ne pool same] at remembered
      exact closed.fields c' f' remembered

theorem mem_scope (pool : ClassPool) (c : Nat) : c ∈ pool.outerChain c ++ [c] :=
  List.mem_append_right _ (List.mem_singleton_self c)

theorem Closed.settleField (closed : Closed pool r) (c f : Nat) : Closed pool (settleField pool c f r) := by
  rw [settleField_eq closed]
  exact (closed.settleAll _).finishField (known_settleAll pool (mem_scope pool c) r) f

theorem settleField_same (pool : ClassPool) (c f : Nat) (h : r.Same r') :
    (settleField pool c f r).Same (settleField pool c f r') := by
  rw [settleField_unfold, settleField_unfold, h.fields]
  split
  · exact h
  · exact finishField_same pool c f (settleAll_same pool _ h)

theorem settle_commute_field (alike : EnteredAlike pool) (o c f : Nat) :
    Commute pool (settle pool o) (settleField pool c f) :=
  .finish (fun _ closed => settleField_finishes closed c f) (fun _ closed => closed.settle o) (settle_same pool o)
    (finishField_same pool c f) (fun _ _ inside => settle_finishField f inside o) fun y _ => settle_commute alike o y

theorem settleField_commute (alike : EnteredAlike pool) (c f c' f' : Nat) :
    Commute pool (settleField pool c f) (settleField pool c' f') := by
  by_cases same : (c', f') = (c, f)
  · cases same
    exact fun r _ => .refl _
  refine .finish (fun _ closed => settleField_finishes closed c' f') (fun _ closed => closed.settleField c f)
    (settleField_same pool c f) (finishField_same pool c' f') (fun r closed inside => ?_)
    fun y _ => (settle_commute_field alike y c f).symm
  rw [settleField_eq (closed.finishField (inside c' (mem_scope pool c')) f'), settleField_eq closed]
  have first := finishField_same pool c f (settleAll_finishField f' inside (pool.outerChain c ++ [c]))
  exact first.trans (finishField_comm same _)

/-! ## Lists of queries -/

/-- A query for the signature of a class or of a field. -/
inductive DeclarationQuery where
  | ofClass (c : Nat)
  | ofField (c position : Nat)
  deriving DecidableEq

namespace DeclarationQuery

def query : DeclarationQuery → Query
  | .ofClass c => .classSignature c
  | .ofField c position => .fieldSignature c position

def settle (pool : ClassPool) : DeclarationQuery → SignatureResolver → SignatureResolver
  | .ofClass c => SignatureResolver.settle pool c
  | .ofField c position => settleField pool c position

def settleEach (pool : ClassPool) : List DeclarationQuery → SignatureResolver → SignatureResolver
  | [], r => r
  | q :: qs, r => settleEach pool qs (q.settle pool r)

def remembered (r : SignatureResolver) : DeclarationQuery → Option Reply
  | .ofClass c => (r.known c).map .classSignature
  | .ofField c position => (Ordered.get? (c, position) r.fields).map .fieldSignature

theorem settle_closed (q : DeclarationQuery) (closed : Closed pool r) : Closed pool (q.settle pool r) := by
  cases q with
  | ofClass c => exact closed.settle c
  | ofField c position => exact closed.settleField c position

theorem settle_commute (alike : EnteredAlike pool) (q q' : DeclarationQuery) :
    Commute pool (q.settle pool) (q'.settle pool) := by
  cases q with
  | ofClass c =>
    cases q' with
    | ofClass o => exact SignatureResolver.settle_commute alike c o
    | ofField o position => exact settle_commute_field alike c o position
  | ofField c position =>
    cases q' with
    | ofClass o => exact (settle_commute_field alike o c position).symm
    | ofField o position' => exact settleField_commute alike c position o position'

theorem settle_same (pool : ClassPool) (q : DeclarationQuery) (h : r.Same r') :
    (q.settle pool r).Same (q.settle pool r') := by
  cases q with
  | ofClass c => exact SignatureResolver.settle_same pool c h
  | ofField c position => exact settleField_same pool c position h

theorem settle_extends (pool : ClassPool) (q : DeclarationQuery) (r : SignatureResolver) :
    r.Extends (q.settle pool r) := by
  cases q with
  | ofClass c => exact classSignature_extends pool c r
  | ofField c position => exact fieldSignature_extends pool c position r

theorem remembered_extends {q : DeclarationQuery} {a : Reply} (later : r.Extends r')
    (given : q.remembered r = some a) : q.remembered r' = some a := by
  cases q with
  | ofClass c =>
    obtain ⟨s, found, rfl⟩ := Option.map_eq_some_iff.mp given
    exact Option.map_eq_some_iff.mpr ⟨s, later.classes c s found, rfl⟩
  | ofField c position =>
    obtain ⟨s, found, rfl⟩ := Option.map_eq_some_iff.mp given
    exact Option.map_eq_some_iff.mpr ⟨s, later.fields (c, position) s found, rfl⟩

theorem remembered_same (q : DeclarationQuery) (h : r.Same r') : q.remembered r = q.remembered r' := by
  cases q with
  | ofClass c => rw [remembered, remembered, h.known]
  | ofField c position => rw [remembered, remembered, h.fields]

theorem settle_of_remembered {q : DeclarationQuery} (there : (q.remembered r).isSome) : q.settle pool r = r := by
  cases q with
  | ofClass c => exact settle_of_isSome (by simpa [remembered] using there)
  | ofField c position =>
    rw [settle, settleField_unfold, if_pos (by simpa [remembered] using there)]

theorem remembered_settle (ix : ElementIndex) (q : DeclarationQuery) (r : SignatureResolver) :
    q.remembered (q.settle ix.classes r) = some (ask ix q.query r).1 := by
  cases q with
  | ofClass c =>
    rw [remembered, settle, known_settle]
    rfl
  | ofField c position =>
    rw [remembered, settle, settleField, fieldSignature_remembered]
    rfl

theorem settleEach_append (qs qs' : List DeclarationQuery) (r : SignatureResolver) :
    settleEach pool (qs ++ qs') r = settleEach pool qs' (settleEach pool qs r) := by
  induction qs generalizing r with
  | nil => rfl
  | cons q qs ih => exact ih _

theorem settleEach_same (qs : List DeclarationQuery) (h : r.Same r') :
    (settleEach pool qs r).Same (settleEach pool qs r') := by
  induction qs generalizing r r' with
  | nil => exact h
  | cons q qs ih => exact ih (settle_same pool q h)

theorem settleEach_extends (pool : ClassPool) (qs : List DeclarationQuery) (r : SignatureResolver) :
    r.Extends (settleEach pool qs r) := by
  induction qs generalizing r with
  | nil => exact .refl r
  | cons q qs ih => exact (settle_extends pool q r).trans (ih _)

theorem settleEach_perm (alike : EnteredAlike pool) {qs qs' : List DeclarationQuery} (perm : qs.Perm qs')
    (closed : Closed pool r) : (settleEach pool qs r).Same (settleEach pool qs' r) := by
  induction perm generalizing r with
  | nil => exact .refl r
  | cons q _ ih => exact ih (settle_closed q closed)
  | swap q q' rest => exact settleEach_same rest (settle_commute alike q q' r closed)
  | trans _ _ first second => exact (first closed).trans (second closed)

theorem settleEach_of_remembered {qs : List DeclarationQuery} (there : ∀ q ∈ qs, (q.remembered r).isSome) :
    settleEach pool qs r = r := by
  induction qs with
  | nil => rfl
  | cons q qs ih =>
    rw [settleEach, settle_of_remembered (there q List.mem_cons_self)]
    exact ih fun q' member => there q' (List.mem_cons_of_mem _ member)

theorem askAll_remembered (ix : ElementIndex) (qs : List DeclarationQuery) (r : SignatureResolver) :
    (askAll ix (qs.map query) r).2 = settleEach ix.classes qs r ∧
      ∀ q a, (q, a) ∈ qs.zip (askAll ix (qs.map query) r).1 → q.remembered (settleEach ix.classes qs r) = some a := by
  induction qs generalizing r with
  | nil => exact ⟨rfl, fun q a member => by cases member⟩
  | cons q qs ih =>
    have next : (ask ix q.query r).2 = q.settle ix.classes r := by cases q <;> rfl
    obtain ⟨settled, replies⟩ := ih (q.settle ix.classes r)
    rw [List.map_cons, askAll]
    simp only [next]
    refine ⟨settled, fun q' a member => ?_⟩
    rcases List.mem_cons.mp member with here | later
    · cases here
      exact remembered_extends (settleEach_extends _ qs _) (remembered_settle ix q r)
    · exact replies q' a later

theorem exists_reply {q : DeclarationQuery} {qs : List DeclarationQuery} (member : q ∈ qs) (ix : ElementIndex)
    (r : SignatureResolver) : ∃ a, (q, a) ∈ qs.zip (askAll ix (qs.map query) r).1 := by
  induction qs generalizing r with
  | nil => cases member
  | cons q' qs ih =>
    rcases List.mem_cons.mp member with rfl | later
    · exact ⟨_, List.mem_cons_self⟩
    · obtain ⟨a, given⟩ := ih later (ask ix q'.query r).2
      exact ⟨a, List.mem_cons_of_mem _ given⟩

theorem remembered_settleEach {q : DeclarationQuery} {qs : List DeclarationQuery} (member : q ∈ qs)
    (ix : ElementIndex) (r : SignatureResolver) : (q.remembered (settleEach ix.classes qs r)).isSome := by
  induction qs generalizing r with
  | nil => cases member
  | cons q' qs ih =>
    rcases List.mem_cons.mp member with rfl | later
    · have kept := remembered_extends (settleEach_extends ix.classes qs _) (remembered_settle ix q r)
      exact Option.isSome_iff_exists.mpr ⟨_, kept⟩
    · exact ih later _

theorem settleEach_set {ix : ElementIndex} (alike : EnteredAlike ix.classes) {qs qs' : List DeclarationQuery}
    (same : ∀ q, q ∈ qs ↔ q ∈ qs') : (settleEach ix.classes qs {}).Same (settleEach ix.classes qs' {}) := by
  -- To put all queries of both lists changes nothing, and that can be done in either order.
  have again : ∀ {qs qs' : List DeclarationQuery}, (∀ q ∈ qs', q ∈ qs) →
      settleEach ix.classes (qs ++ qs') {} = settleEach ix.classes qs {} := by
    intro qs qs' asked
    rw [settleEach_append]
    exact settleEach_of_remembered fun q member => remembered_settleEach (asked q member) ix {}
  rw [← again fun q member => (same q).mpr member, ← again fun q member => (same q).mp member]
  exact settleEach_perm alike List.perm_append_comm (.initial _)

end DeclarationQuery

/-- Whatever classes and fields a new resolver is asked for, in whatever order and how often, its reply to
    each query is the same, and so is the number of refused signatures. -/
def OrderIrrelevant (ix : ElementIndex) : Prop :=
  ∀ qs qs' : List DeclarationQuery, (∀ q, q ∈ qs ↔ q ∈ qs') →
    (∀ q a a', (q, a) ∈ qs.zip (askAll ix (qs.map (·.query)) {}).1 →
        (q, a') ∈ qs'.zip (askAll ix (qs'.map (·.query)) {}).1 → a = a') ∧
      (askAll ix (qs.map (·.query)) {}).2.fallbacks = (askAll ix (qs'.map (·.query)) {}).2.fallbacks

theorem EnteredAlike.orderIrrelevant {ix : ElementIndex} (alike : EnteredAlike ix.classes) : OrderIrrelevant ix := by
  intro qs qs' same
  obtain ⟨settled, replies⟩ := DeclarationQuery.askAll_remembered ix qs {}
  obtain ⟨settled', replies'⟩ := DeclarationQuery.askAll_remembered ix qs' {}
  have alikeEnds := DeclarationQuery.settleEach_set alike same
  refine ⟨fun q a a' given given' => ?_, ?_⟩
  · have reply := replies q a given
    rw [q.remembered_same alikeEnds, replies' q a' given'] at reply
    exact (Option.some.inj reply).symm
  · change (askAll ix (qs.map DeclarationQuery.query) {}).2.fallbacks =
      (askAll ix (qs'.map DeclarationQuery.query) {}).2.fallbacks
    rw [settled, settled', alikeEnds.fallbacks]

theorem OrderIrrelevant.remembered {ix : ElementIndex} (irrelevant : OrderIrrelevant ix)
    {qs qs' : List DeclarationQuery} (same : ∀ q, q ∈ qs ↔ q ∈ qs') {q : DeclarationQuery} (member : q ∈ qs) :
    q.remembered (DeclarationQuery.settleEach ix.classes qs {}) =
      q.remembered (DeclarationQuery.settleEach ix.classes qs' {}) := by
  obtain ⟨a, given⟩ := DeclarationQuery.exists_reply member ix {}
  obtain ⟨a', given'⟩ := DeclarationQuery.exists_reply ((same q).mp member) ix {}
  rw [(DeclarationQuery.askAll_remembered ix qs {}).2 q a given,
    (DeclarationQuery.askAll_remembered ix qs' {}).2 q a' given', (irrelevant qs qs' same).1 q a a' given given']

theorem OrderIrrelevant.enteredAlike {ix : ElementIndex} (irrelevant : OrderIrrelevant ix) :
    EnteredAlike ix.classes := by
  intro c o there back
  have around := ClassPool.Around.of_mem there
  have around' := ClassPool.Around.of_mem back
  -- After the first class of the cycle, queries around it change nothing.
  have first : ∀ {c o x}, ix.classes.Around c o → ix.classes.Around c x →
      DeclarationQuery.settleEach ix.classes [.ofClass c, .ofClass o, .ofClass x] {} =
        (classSignature ix.classes c {}).2 := by
    intro c o x around further
    change DeclarationQuery.settleEach ix.classes [.ofClass o, .ofClass x] (settle ix.classes c {}) =
      settle ix.classes c {}
    refine DeclarationQuery.settleEach_of_remembered fun q member => ?_
    have inside : ∀ y, ix.classes.Around c y → ((settle ix.classes c {}).known y).isSome :=
      fun y => settle_around rfl
    rcases List.mem_cons.mp member with rfl | member
    · simpa [DeclarationQuery.remembered] using inside o around
    · rw [List.mem_singleton.mp member]
      simpa [DeclarationQuery.remembered] using inside x further
  have swapped : ∀ x (q : DeclarationQuery),
      q ∈ [.ofClass c, .ofClass o, .ofClass x] ↔ q ∈ [.ofClass o, .ofClass c, .ofClass x] :=
    fun x q => (List.Perm.swap _ _ _).mem_iff
  refine ⟨fun x => ?_, ?_⟩
  · by_cases inside : ix.classes.Around c x
    · have reply := irrelevant.remembered (swapped x) (q := .ofClass x) (by simp)
      rw [first around inside, first around' (around'.trans inside)] at reply
      exact Option.map_injective (fun s s' same => Reply.classSignature.inj same) reply
    · have inside' : ¬ ix.classes.Around o x := fun further => inside (around.trans further)
      rw [(classSignature_actsOn ix.classes c).frame _ x inside,
        (classSignature_actsOn ix.classes o).frame _ x inside']
  · have counts := (irrelevant _ _ (swapped c)).2
    change (askAll ix (List.map DeclarationQuery.query _) {}).2.fallbacks =
      (askAll ix (List.map DeclarationQuery.query _) {}).2.fallbacks at counts
    rwa [(DeclarationQuery.askAll_remembered ix _ {}).1, (DeclarationQuery.askAll_remembered ix _ {}).1,
      first around .refl, first around' around'] at counts

/-- The order of queries makes no difference if and only if in every cycle of enclosing classes it makes none
    at which class resolving starts. Without cycles it never makes a difference. -/
theorem query_order_irrelevant_iff (ix : ElementIndex) :
    (OrderIrrelevant ix ↔ EnteredAlike ix.classes) ∧ (ix.classes.Acyclic → OrderIrrelevant ix) := by
  refine ⟨⟨OrderIrrelevant.enteredAlike, EnteredAlike.orderIrrelevant⟩, fun acyclic => ?_⟩
  refine EnteredAlike.orderIrrelevant fun c o there back => ?_
  obtain ⟨around, other⟩ := ClassPool.mem_outerChain_iff.mp there
  rcases Relation.reflTransGen_iff_eq_or_transGen.mp around with same | path
  · exact absurd same other
  · exact absurd (path.trans_left (ClassPool.Around.of_mem back)) (acyclic c)

end SignatureResolver

namespace ParameterlessEnclosing

/-- Two classes that enclose each other, of which only the first has a signature. -/
def classes : List ClassDeclaration :=
  [{ name := "a/A", outerClass := some "a/B", signature := some "<X:Ljava/lang/Object;>Ljava/lang/Object;"
     fields := [{ name := "x", desc := "Ljava/lang/Object;", signature := some "TX;" }] },
   { name := "a/B", outerClass := some "a/A" }]

/-- This cycle can be cut at either class, and without cycles nothing is cut. -/
theorem order_irrelevant : SignatureResolver.OrderIrrelevant (.ofClasses classes) ∧
    SignatureResolver.OrderIrrelevant (.ofClasses NestedGenerics.classes) := by
  have alike : SignatureResolver.EnteredAlike (ElementIndex.ofClasses classes).classes := by decide +kernel
  have same : (ElementIndex.ofClasses NestedGenerics.classes).classes = NestedGenerics.classes :=
    (ElementIndex.discoverAll_fills _ _).sameClasses
  exact ⟨(SignatureResolver.query_order_irrelevant_iff _).1.mpr alike,
    (SignatureResolver.query_order_irrelevant_iff _).2 (same ▸ NestedGenerics.classes_acyclic)⟩

end ParameterlessEnclosing

namespace MutuallyEnclosed

/-- Two classes that enclose each other. The second is bounded by the type variable of the first. -/
def classes : List ClassDeclaration :=
  [{ name := "a/A", outerClass := some "a/B", signature := some "<X:Ljava/lang/Object;>Ljava/lang/Object;" },
   { name := "a/B", outerClass := some "a/A", signature := some "<Y:TX;>Ljava/lang/Object;" }]

/-- Whether the signature of the second class is read or refused depends on which class is asked for first. -/
theorem first_query_decides : ¬ SignatureResolver.OrderIrrelevant (.ofClasses classes) := by
  intro irrelevant
  have refused : (SignatureResolver.askAll (.ofClasses classes)
      [.classSignature 0, .classSignature 1] {}).2.fallbacks = 1 := by decide +kernel
  have read : (SignatureResolver.askAll (.ofClasses classes)
      [.classSignature 1, .classSignature 0] {}).2.fallbacks = 0 := by decide +kernel
  have swapped := (irrelevant [.ofClass 0, .ofClass 1] [.ofClass 1, .ofClass 0] fun q =>
    (List.Perm.swap _ _ _).mem_iff).2
  simp only [List.map_cons, List.map_nil, SignatureResolver.DeclarationQuery.query] at swapped
  rw [refused, read] at swapped
  cases swapped

end MutuallyEnclosed

end ClassAtlas
