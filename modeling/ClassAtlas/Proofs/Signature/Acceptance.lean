import ClassAtlas.Proofs.Signature.Unambiguity

/-! # The parser accepts exactly its grammar

A text is accepted as a signature if and only if the grammar derives it and all its type variables are
declared, and then the result is the tree of the derivation. Type parameters are read twice: the first
reading is for their names only, and both readings see one derivation.
-/

namespace ClassAtlas.Signature

abbrev Reader (α : Type) := List Char → Except Fault (Parsed α)

/-! ## Items with a key before each -/

/-- A loop that reads an item after each key. -/
structure EachAfter {α : Type} (c : Char) (one : Nat → Reader α) (all : Nat → Reader (List α)) : Prop where
  zero : ∀ s, all 0 s = .ok ([], s)
  none : ∀ f s, s.head? ≠ some c → all f s = .ok ([], s)
  more : ∀ f rest, all (f + 1) (c :: rest) = (one (f + 1) rest >>= fun (v, rest) =>
    all f rest >>= fun (vs, rest) => .ok (v :: vs, rest))

section EachAfter

variable {resolve : Resolve} {owner : String → TypeVariableOwner} {α σ : Type} {c : Char} {one : Nat → Reader α}
  {all : Nat → Reader (List α)} {text : σ → List Char} {names : σ → List String} {tree : σ → α} {fuel : Nat}
  {s rest : List Char}

theorem interfaceBounds_each (resolve : Resolve) : EachAfter ':' (reference resolve) (interfaceBounds resolve) := by
  refine ⟨fun _ => rfl, fun f s ends => ?_, fun _ _ => rfl⟩
  unfold interfaceBounds
  split
  · exact absurd rfl ends
  · rfl

theorem exceptionTypes_each (resolve : Resolve) : EachAfter '^' (exceptionType resolve) (exceptionTypes resolve) := by
  refine ⟨fun _ => rfl, fun f s ends => ?_, fun _ _ => rfl⟩
  unfold exceptionTypes
  split
  · exact absurd rfl ends
  · rfl

theorem EachAfter.reads (h : EachAfter c one all) (ds : List σ)
    (owned : OwnedBy resolve owner (ds.flatMap names)) (fuel : Nat)
    (enough : (ds.flatMap fun d => c :: text d).length ≤ fuel) (ends : rest.head? ≠ some c)
    (reads : ∀ d, OwnedBy resolve owner (names d) → ∀ fuel, (text d).length ≤ fuel → ∀ rest,
      one fuel (text d ++ rest) = .ok (tree d, rest)) :
    all fuel ((ds.flatMap fun d => c :: text d) ++ rest) = .ok (ds.map tree, rest) := by
  induction ds generalizing fuel with
  | nil => exact h.none fuel rest ends
  | cons d ds ih =>
    cases fuel with
    | zero => simp at enough
    | succ fuel =>
      simp only [List.flatMap_cons, List.length_append, List.length_cons] at enough
      have first := reads d owned.left (fuel + 1) (by omega)
        ((ds.flatMap fun d => c :: text d) ++ rest)
      have others := ih owned.right fuel (by omega)
      simp only [List.flatMap_cons, List.cons_append, List.append_assoc, h.more, first, bind, Except.bind, others,
        List.map_cons]

theorem EachAfter.derived (h : EachAfter c one all) {ts : List α} (read : all fuel s = .ok (ts, rest))
    (derived : ∀ fuel s t rest, one fuel s = .ok (t, rest) → ∃ d, s = text d ++ rest ∧
      OwnedBy resolve owner (names d) ∧ t = tree d) :
    ∃ ds : List σ, s = (ds.flatMap fun d => c :: text d) ++ rest ∧
      OwnedBy resolve owner (ds.flatMap names) ∧ ts = ds.map tree := by
  induction fuel generalizing s ts with
  | zero =>
    rw [h.zero] at read
    cases read
    exact ⟨[], rfl, .nil, rfl⟩
  | succ fuel ih =>
    by_cases key : s.head? = some c
    · obtain ⟨tail, rfl⟩ := List.head?_eq_some_iff.mp key
      rw [h.more] at read
      obtain ⟨⟨t, after⟩, first, others⟩ := bind_eq_ok.mp read
      obtain ⟨⟨more, after'⟩, list, result⟩ := bind_eq_ok.mp others
      cases result
      obtain ⟨d, rfl, ownedD, rfl⟩ := derived _ _ _ _ first
      obtain ⟨ds, same, ownedDs, rfl⟩ := ih list
      exact ⟨d :: ds, by simp [same], ownedD.append ownedDs, rfl⟩
    · rw [h.none _ _ key] at read
      cases read
      exact ⟨[], rfl, .nil, rfl⟩

end EachAfter

/-! ## Derived declarations are read -/

section Reading

variable {resolve : Resolve} {owner : String → TypeVariableOwner} {rest : List Char}

theorem FormalSyntax.reads (f : FormalSyntax) (owned : OwnedBy resolve owner f.variableNames)
    (fuel : Nat) (enough : f.text.length ≤ fuel) (ends : rest.head? ≠ some ':')
    (unmistakable : f.bound = none → startsReference (f.interfaceText ++ rest) = false) :
    formalParameter resolve fuel (f.text ++ rest) = .ok (f.tree owner, rest) := by
  obtain ⟨name, opening, bound, interfaces⟩ := f
  simp only [FormalSyntax.text, FormalSyntax.interfaceText, List.length_append, List.length_cons] at enough
  have bounds := (interfaceBounds_each resolve).reads interfaces
    owned.right fuel (by omega) ends RefSyntax.reads
  have named := identifier_name name (List.mem_singleton_self ':') "type parameter name"
  cases bound with
  | none =>
    have absent := unmistakable rfl
    simp only [FormalSyntax.interfaceText] at absent
    simp only [FormalSyntax.text, FormalSyntax.interfaceText, Option.elim_none, List.nil_append,
      List.append_assoc, List.cons_append, formalParameter, named, bind, Except.bind, expect, if_true,
      absent, Bool.false_eq_true, if_false, bounds]
    rfl
  | some r =>
    have first := r.reads owned.left fuel
      (by simp only [Option.elim_some] at enough; omega)
      ((interfaces.flatMap fun r => ':' :: r.text) ++ rest)
    simp only [FormalSyntax.text, FormalSyntax.interfaceText, Option.elim_some,
      List.append_assoc, List.cons_append, formalParameter, named, bind, Except.bind, expect, if_true,
      startsReference_ref, first, Except.map, bounds]
    rfl

theorem formalParameters_cons (f : FormalSyntax) (fuel : Nat) (rest : List Char) :
    formalParameters resolve (fuel + 1) (f.text ++ rest) =
      (formalParameter resolve (fuel + 1) (f.text ++ rest) >>= fun (p, rest) =>
        formalParameters resolve fuel rest >>= fun (ps, rest) => .ok (p :: ps, rest)) := by
  obtain ⟨c, tail, chars⟩ := List.exists_cons_of_ne_nil f.name.nonempty
  have opening : c ≠ '>' := by
    have start := f.opening
    rw [chars] at start
    simpa using start
  simp only [FormalSyntax.text, chars, List.cons_append]
  rw [formalParameters]
  · exact List.cons_ne_nil _ _
  · exact fun _ same => opening (List.cons.inj same).1

theorem formalParameters_reads (fs : List FormalSyntax) (unmistakable : FormalSyntax.Unmistakable fs)
    (owned : OwnedBy resolve owner (fs.flatMap FormalSyntax.variableNames)) (fuel : Nat)
    (enough : (FormalSyntax.listText fs).length ≤ fuel) (rest : List Char) :
    formalParameters resolve fuel (FormalSyntax.listText fs ++ rest) =
      .ok (fs.map (·.tree owner), rest) := by
  induction fs generalizing fuel with
  | nil =>
    cases fuel with
    | zero => simp [FormalSyntax.listText] at enough
    | succ fuel => rfl
  | cons f fs ih =>
    cases fuel with
    | zero => simp [FormalSyntax.listText, FormalSyntax.text] at enough
    | succ fuel =>
      have text : 0 < f.text.length := by
        simp only [FormalSyntax.text, List.length_append, List.length_cons]
        omega
      simp only [FormalSyntax.listText, List.length_append] at enough
      have first := f.reads owned.left (fuel + 1)
        (by omega) (FormalSyntax.listText_head fs rest) (unmistakable.ahead rest)
      have others := ih unmistakable.2 owned.right fuel
        (by omega)
      simp only [FormalSyntax.listText, List.append_assoc, formalParameters_cons, first, bind, Except.bind,
        others, List.map_cons]

theorem ClassTypeSyntax.reads (c : ClassTypeSyntax)
    (owned : OwnedBy resolve owner c.ref.variableNames) (fuel : Nat)
    (enough : c.ref.text.length ≤ fuel) (rest : List Char) :
    classType resolve fuel (c.ref.text ++ rest) = .ok (c.ref.tree owner, rest) :=
  c.ref.reads owned fuel enough rest

theorem ExceptionSyntax.reads (e : ExceptionSyntax)
    (owned : OwnedBy resolve owner e.ref.variableNames) (fuel : Nat)
    (enough : e.ref.text.length ≤ fuel) (rest : List Char) :
    exceptionType resolve fuel (e.ref.text ++ rest) = .ok (e.ref.tree owner, rest) := by
  have inside := e.ref.reads owned fuel enough rest
  cases e <;> exact inside

theorem classTypes_cons (c : ClassTypeSyntax) (fuel : Nat) (rest : List Char) :
    classTypes resolve (fuel + 1) (c.ref.text ++ rest) =
      (classType resolve (fuel + 1) (c.ref.text ++ rest) >>= fun (t, rest) =>
        classTypes resolve fuel rest >>= fun (ts, rest) => .ok (t :: ts, rest)) := rfl

theorem classTypes_reads (cs : List ClassTypeSyntax)
    (owned : OwnedBy resolve owner (cs.flatMap (·.ref.variableNames))) (fuel : Nat)
    (enough : (cs.flatMap (·.ref.text)).length ≤ fuel) :
    classTypes resolve fuel (cs.flatMap (·.ref.text)) = .ok (cs.map (·.ref.tree owner), []) := by
  induction cs generalizing fuel with
  | nil => cases fuel <;> rfl
  | cons c cs ih =>
    have positive := c.ref.text_length_pos
    simp only [List.flatMap_cons, List.length_append] at enough
    cases fuel with
    | zero => omega
    | succ fuel =>
      have first := c.reads owned.left (fuel + 1)
        (by omega) (cs.flatMap (·.ref.text))
      have others := ih owned.right fuel (by omega)
      simp only [List.flatMap_cons, classTypes_cons, first, bind, Except.bind, others, List.map_cons]

theorem TypeSyntax.text_length_pos (d : TypeSyntax) : 0 < d.text.length := by
  cases d with
  | base => simp [TypeSyntax.text]
  | ref r => exact r.text_length_pos

theorem parameterTypes_cons (d : TypeSyntax) (fuel : Nat) (rest : List Char) :
    parameterTypes resolve (fuel + 1) (d.text ++ rest) =
      (javaType resolve (fuel + 1) (d.text ++ rest) >>= fun (t, rest) =>
        parameterTypes resolve fuel rest >>= fun (ts, rest) => .ok (t :: ts, rest)) := by
  cases d with
  | base b => cases b <;> rfl
  | ref r => cases r <;> rfl

theorem parameterTypes_reads (ds : List TypeSyntax)
    (owned : OwnedBy resolve owner (ds.flatMap TypeSyntax.variableNames)) (fuel : Nat)
    (enough : (ds.flatMap TypeSyntax.text).length < fuel) (rest : List Char) :
    parameterTypes resolve fuel (ds.flatMap TypeSyntax.text ++ ')' :: rest) =
      .ok (ds.map (·.tree owner), rest) := by
  induction ds generalizing fuel with
  | nil =>
    cases fuel with
    | zero => simp at enough
    | succ fuel => rfl
  | cons d ds ih =>
    have positive := d.text_length_pos
    simp only [List.flatMap_cons, List.length_append] at enough
    cases fuel with
    | zero => omega
    | succ fuel =>
      have first := d.reads owned.left (fuel + 1)
        (by omega) (ds.flatMap TypeSyntax.text ++ ')' :: rest)
      have others := ih owned.right fuel (by omega)
      simp only [List.flatMap_cons, List.append_assoc, parameterTypes_cons, first, bind, Except.bind,
        others, List.map_cons]

theorem returnType_reads (d : Option TypeSyntax)
    (owned : OwnedBy resolve owner (d.elim [] TypeSyntax.variableNames)) (fuel : Nat)
    (enough : (d.elim ['V'] TypeSyntax.text).length ≤ fuel) (rest : List Char) :
    returnType resolve fuel (d.elim ['V'] TypeSyntax.text ++ rest) =
      .ok (d.elim (.ofType .void) (·.tree owner), rest) := by
  cases d with
  | none => rfl
  | some d =>
    have inside := d.reads owned fuel enough rest
    have notVoid : returnType resolve fuel (d.text ++ rest) = javaType resolve fuel (d.text ++ rest) := by
      cases d with
      | base b => cases b <;> rfl
      | ref r => cases r <;> rfl
    exact notVoid.trans inside

end Reading

/-! ## Names in scope -/

section Scope

variable {scope : TypeScope} {owner : TypeVariableOwner} {names : List String} {o : TypeVariableOwner} {x : String}

theorem resolveIn_eq_some :
    resolveIn scope owner names x = some o ↔ Declared scope names x ∧ ownerIn scope owner names x = o := by
  unfold resolveIn Declared ownerIn
  by_cases member : x ∈ names
  · simp [member]
  · cases found : scope.lookup? x <;> simp [member]

theorem resolveIn_declared (declared : Declared scope names x) :
    resolveIn scope owner names x = some (ownerIn scope owner names x) :=
  resolveIn_eq_some.mpr ⟨declared, rfl⟩

theorem ownedBy_declared (owner : TypeVariableOwner) {used : List String} (declared : ∀ x ∈ used, Declared scope names x) :
    OwnedBy (resolveIn scope owner names) (ownerIn scope owner names) used :=
  fun x member => resolveIn_declared (declared x member)

theorem ownerIn_agrees (found : resolveIn scope owner names x = some o) : ownerIn scope owner names x = o :=
  (resolveIn_eq_some.mp found).2

theorem declared_of_resolved (found : resolveIn scope owner names x = some o) : Declared scope names x :=
  (resolveIn_eq_some.mp found).1

theorem typeParameters_absent (scope : TypeScope) (owner : TypeVariableOwner) (fuel : Nat)
    {rest : List Char} (starts : rest.head? ≠ some '<') :
    typeParameters scope owner fuel rest = .ok (([], resolveIn scope owner []), rest) := by
  unfold typeParameters
  split
  · exact absurd rfl starts
  · rfl

theorem typeParameters_reads (formals : Option FormalsSyntax)
    (declared : ∀ x ∈ formals.elim [] FormalsSyntax.variableNames, Declared scope (declaredNames formals) x)
    (fuel : Nat) (enough : (formals.elim [] FormalsSyntax.text).length ≤ fuel) {rest : List Char}
    (starts : rest.head? ≠ some '<') :
    typeParameters scope owner fuel (formals.elim [] FormalsSyntax.text ++ rest) =
      .ok ((formals.elim [] (·.trees (ownerIn scope owner (declaredNames formals))),
        resolveIn scope owner (declaredNames formals)), rest) := by
  cases formals with
  | none => exact typeParameters_absent scope owner fuel starts
  | some fs =>
    have shorter : (FormalSyntax.listText fs.list).length ≤ fuel := by
      simp only [Option.elim_some, FormalsSyntax.text, List.length_cons] at enough
      omega
    have first : formalParameters (fun _ => some owner) fuel (FormalSyntax.listText fs.list ++ rest) =
        .ok (fs.list.map (·.tree fun _ => owner), rest) :=
      formalParameters_reads fs.list fs.unmistakable (fun _ _ => rfl) fuel shorter rest
    have second : formalParameters (resolveIn scope owner (declaredNames (some fs))) fuel
        (FormalSyntax.listText fs.list ++ rest) =
        .ok (fs.list.map (·.tree (ownerIn scope owner (declaredNames (some fs)))), rest) :=
      formalParameters_reads fs.list fs.unmistakable
        (ownedBy_declared owner declared) fuel shorter rest
    have names : (fs.list.map (·.tree fun _ => owner)).map (·.name) = declaredNames (some fs) := by
      rw [List.map_map]
      rfl
    simp only [Option.elim_some, FormalsSyntax.text, List.cons_append, typeParameters, first, bind,
      Except.bind, names, second]
    rfl

end Scope

/-! ## What is read was derived -/

section Derived

variable {resolve : Resolve} {owner : String → TypeVariableOwner} {fuel : Nat} {t : TypeSignature}
  {s rest : List Char} {ts : List TypeSignature}

theorem expect_derived {c : Char} {expected : String} {u : Unit} (read : expect c expected s = .ok (u, rest)) :
    s = c :: rest := by
  cases s with
  | nil => cases read
  | cons d tail =>
    simp only [expect] at read
    split at read
    · next same =>
        cases read
        rw [same]
    · cases read

variable (agree : ∀ x o, resolve x = some o → owner x = o)
include agree

theorem formalParameter_derived {p : FormalParameter}
    (opening : s.head? ≠ some '>') (read : formalParameter resolve fuel s = .ok (p, rest)) :
    ∃ f : FormalSyntax, s = f.text ++ rest ∧
      (f.bound = none → startsReference (f.interfaceText ++ rest) = false) ∧
      OwnedBy resolve owner f.variableNames ∧ p = f.tree owner := by
  obtain ⟨⟨name, afterName⟩, named, read⟩ := bind_eq_ok.mp read
  obtain ⟨n, c, tail, stop, rfl, rfl, rfl⟩ := name_of_identifier named
  obtain ⟨⟨_, afterColon⟩, colon, read⟩ := bind_eq_ok.mp read
  have started := expect_derived colon
  cases started
  have opening' : n.chars.head? ≠ some '>' := by
    obtain ⟨d, ds, chars⟩ := List.exists_cons_of_ne_nil n.nonempty
    rw [chars] at opening ⊢
    exact opening
  simp only at read
  split at read
  · obtain ⟨⟨bound, afterBound⟩, first, read⟩ := bind_eq_ok.mp read
    obtain ⟨⟨interfaces, after⟩, list, result⟩ := bind_eq_ok.mp read
    cases result
    cases inner : reference resolve fuel tail with
    | error e =>
      rw [inner] at first
      cases first
    | ok value =>
      obtain ⟨t, rest'⟩ := value
      rw [inner] at first
      cases first
      obtain ⟨r, rfl, ownedR, rfl⟩ := (types_derived agree fuel).1 inner
      obtain ⟨rs, same, ownedRs, rfl⟩ := (interfaceBounds_each _).derived list fun fuel _ _ _ => (types_derived agree fuel).1
      simp only at same
      refine ⟨⟨n, opening', some r, rs⟩, ?_, by simp, ownedR.append ownedRs, rfl⟩
      simp [FormalSyntax.text, FormalSyntax.interfaceText, same]
  · next absent =>
      obtain ⟨⟨bound, afterBound⟩, first, read⟩ := bind_eq_ok.mp read
      cases first
      obtain ⟨⟨interfaces, after⟩, list, result⟩ := bind_eq_ok.mp read
      cases result
      obtain ⟨rs, rfl, ownedRs, rfl⟩ := (interfaceBounds_each _).derived list fun fuel _ _ _ => (types_derived agree fuel).1
      exact ⟨⟨n, opening', none, rs⟩, by simp [FormalSyntax.text, FormalSyntax.interfaceText],
        fun _ => Bool.eq_false_iff.mpr absent, ownedRs, rfl⟩

theorem formalParameters_derived {ps : List FormalParameter}
    (read : formalParameters resolve fuel s = .ok (ps, rest)) :
    ∃ fs : List FormalSyntax, FormalSyntax.Unmistakable fs ∧ s = FormalSyntax.listText fs ++ rest ∧
      OwnedBy resolve owner (fs.flatMap FormalSyntax.variableNames) ∧
      ps = fs.map (·.tree owner) := by
  induction fuel generalizing s ps with
  | zero => cases read
  | succ fuel ih =>
    simp only [formalParameters] at read
    split at read
    · cases read
    · cases read
      exact ⟨[], trivial, rfl, .nil, rfl⟩
    · next notEmpty notEnd =>
        obtain ⟨⟨p, after⟩, first, others⟩ := bind_eq_ok.mp read
        obtain ⟨⟨more, after'⟩, list, result⟩ := bind_eq_ok.mp others
        cases result
        have opening : s.head? ≠ some '>' := by
          intro starts
          obtain ⟨tail, rfl⟩ := List.head?_eq_some_iff.mp starts
          exact notEnd tail rfl
        obtain ⟨f, rfl, ahead, ownedF, rfl⟩ := formalParameter_derived agree opening first
        obtain ⟨fs, unmistakable, rfl, ownedFs, rfl⟩ := ih list
        refine ⟨f :: fs, ⟨fun absent => ?_, unmistakable⟩, by simp [FormalSyntax.listText],
          ownedF.append ownedFs, rfl⟩
        have free := ahead absent
        rwa [← List.append_assoc, startsReference_append (by simp [FormalSyntax.listText_nonempty])] at free

theorem classType_derived (read : classType resolve fuel s = .ok (t, rest)) :
    ∃ c : ClassTypeSyntax, s = c.ref.text ++ rest ∧
      OwnedBy resolve owner c.ref.variableNames ∧ t = c.ref.tree owner := by
  unfold classType at read
  split at read
  · obtain ⟨r, same, owned, rfl⟩ := (types_derived agree fuel).1 read
    cases r with
    | cls name tail => exact ⟨⟨name, tail⟩, same, owned, rfl⟩
    | var | array => cases same
  · cases read

theorem exceptionType_derived (read : exceptionType resolve fuel s = .ok (t, rest)) :
    ∃ e : ExceptionSyntax, s = e.ref.text ++ rest ∧
      OwnedBy resolve owner e.ref.variableNames ∧ t = e.ref.tree owner := by
  unfold exceptionType at read
  split at read
  · obtain ⟨r, same, owned, rfl⟩ := (types_derived agree fuel).1 read
    cases r with
    | cls name tail => exact ⟨.cls ⟨name, tail⟩, same, owned, rfl⟩
    | var | array => cases same
  · obtain ⟨r, same, owned, rfl⟩ := (types_derived agree fuel).1 read
    cases r with
    | var name => exact ⟨.var name, same, owned, rfl⟩
    | cls | array => cases same
  · cases read

theorem classTypes_derived (read : classTypes resolve fuel s = .ok (ts, rest)) :
    ∃ cs : List ClassTypeSyntax, s = cs.flatMap (·.ref.text) ++ rest ∧
      OwnedBy resolve owner (cs.flatMap (·.ref.variableNames)) ∧
      ts = cs.map (·.ref.tree owner) := by
  induction fuel generalizing s ts with
  | zero =>
    cases s with
    | nil =>
      cases read
      exact ⟨[], rfl, .nil, rfl⟩
    | cons => cases read
  | succ fuel ih =>
    cases s with
    | nil =>
      cases read
      exact ⟨[], rfl, .nil, rfl⟩
    | cons c tail =>
      simp only [classTypes] at read
      obtain ⟨⟨t, after⟩, first, others⟩ := bind_eq_ok.mp read
      obtain ⟨⟨more, after'⟩, list, result⟩ := bind_eq_ok.mp others
      cases result
      obtain ⟨c, same, ownedC, rfl⟩ := classType_derived agree first
      obtain ⟨cs, rfl, ownedCs, rfl⟩ := ih list
      exact ⟨c :: cs, by simp [same], ownedC.append ownedCs, rfl⟩

theorem parameterTypes_derived (read : parameterTypes resolve fuel s = .ok (ts, rest)) :
    ∃ ds : List TypeSyntax, s = ds.flatMap TypeSyntax.text ++ ')' :: rest ∧
      OwnedBy resolve owner (ds.flatMap TypeSyntax.variableNames) ∧ ts = ds.map (·.tree owner) := by
  induction fuel generalizing s ts with
  | zero => cases read
  | succ fuel ih =>
    simp only [parameterTypes] at read
    split at read
    · cases read
    · cases read
      exact ⟨[], rfl, .nil, rfl⟩
    · obtain ⟨⟨t, after⟩, first, others⟩ := bind_eq_ok.mp read
      obtain ⟨⟨more, after'⟩, list, result⟩ := bind_eq_ok.mp others
      cases result
      obtain ⟨d, rfl, ownedD, rfl⟩ := javaType_derived agree first
      obtain ⟨ds, rfl, ownedDs, rfl⟩ := ih list
      exact ⟨d :: ds, by simp, ownedD.append ownedDs, rfl⟩

theorem returnType_derived (read : returnType resolve fuel s = .ok (t, rest)) :
    ∃ d : Option TypeSyntax, s = d.elim ['V'] TypeSyntax.text ++ rest ∧
      OwnedBy resolve owner (d.elim [] TypeSyntax.variableNames) ∧
      t = d.elim (.ofType .void) (·.tree owner) := by
  unfold returnType at read
  split at read
  · cases read
    exact ⟨none, rfl, .nil, rfl⟩
  · obtain ⟨d, rfl, owned, rfl⟩ := javaType_derived agree read
    exact ⟨some d, rfl, owned, rfl⟩

end Derived

/-! ## Whole signatures -/

section Whole

variable {scope : TypeScope} {owner : TypeVariableOwner} {fuel : Nat}

/-- The names that the first reading collects are those of the derivation that the second one finds. -/
theorem typeParameters_derived {s rest : List Char} {ps : List FormalParameter} {resolve : Resolve}
    (enough : s.length ≤ fuel) (read : typeParameters scope owner fuel s = .ok ((ps, resolve), rest)) :
    ∃ formals : Option FormalsSyntax, s = formals.elim [] FormalsSyntax.text ++ rest ∧
      resolve = resolveIn scope owner (declaredNames formals) ∧
      (∀ x ∈ formals.elim [] FormalsSyntax.variableNames, Declared scope (declaredNames formals) x) ∧
      ps = formals.elim [] (·.trees (ownerIn scope owner (declaredNames formals))) := by
  unfold typeParameters at read
  split at read
  · next tail =>
      obtain ⟨⟨collected, after⟩, first, others⟩ := bind_eq_ok.mp read
      obtain ⟨⟨more, after'⟩, second, result⟩ := bind_eq_ok.mp others
      cases result
      obtain ⟨fs, unmistakable, rfl, owned, rfl⟩ :=
        formalParameters_derived (fun _ _ => ownerIn_agrees) second
      have shorter : (FormalSyntax.listText fs).length ≤ fuel := by
        simp only [List.length_cons, List.length_append] at enough
        omega
      have again : formalParameters (fun _ => some owner) fuel (FormalSyntax.listText fs ++ rest) =
          .ok (fs.map (·.tree fun _ => owner), rest) :=
        formalParameters_reads fs unmistakable (fun _ _ => rfl) fuel shorter rest
      have names : collected.map (·.name) = declaredNames (some ⟨fs, unmistakable⟩) := by
        have same := Except.ok.inj (first.symm.trans again)
        rw [(Prod.mk.inj same).1, List.map_map]
        rfl
      rw [names] at owned ⊢
      exact ⟨some ⟨fs, unmistakable⟩, rfl, rfl, fun x member => declared_of_resolved (owned x member), rfl⟩
  · cases read
    exact ⟨none, rfl, rfl, by simp, rfl⟩

theorem classSignature_reads (d : ClassSigSyntax)
    (declared : ∀ x ∈ d.variableNames, Declared scope (declaredNames d.formals) x)
    (enough : d.text.length ≤ fuel) :
    classSignature scope owner fuel d.text =
      .ok (d.tree (ownerIn scope owner (declaredNames d.formals)), []) := by
  have owned := ownedBy_declared owner declared
  simp only [ClassSigSyntax.text, List.length_append] at enough
  have formals : typeParameters scope owner fuel d.text = _ :=
    typeParameters_reads d.formals (fun x member => declared x (List.mem_append_left _ member)) fuel
      (by omega) (by simp [ClassTypeSyntax.ref, RefSyntax.text])
  have superclass := d.superclass.reads owned.right.left fuel (by omega)
      (d.interfaces.flatMap (·.ref.text))
  have interfaces := classTypes_reads d.interfaces
    owned.right.right fuel (by omega)
  simp only [classSignature, formals, bind, Except.bind, superclass, interfaces]
  rfl

theorem classSignature_derived {s : List Char} {t : ClassSignature} (enough : s.length ≤ fuel)
    (read : classSignature scope owner fuel s = .ok (t, [])) :
    ∃ d : ClassSigSyntax, d.text = s ∧ (∀ x ∈ d.variableNames, Declared scope (declaredNames d.formals) x) ∧
      d.tree (ownerIn scope owner (declaredNames d.formals)) = t := by
  obtain ⟨⟨⟨ps, resolve⟩, afterFormals⟩, parameters, read⟩ := bind_eq_ok.mp read
  obtain ⟨formals, rfl, rfl, declared, rfl⟩ := typeParameters_derived enough parameters
  have agree : ∀ x o, resolveIn scope owner (declaredNames formals) x = some o →
      ownerIn scope owner (declaredNames formals) x = o := fun _ _ => ownerIn_agrees
  obtain ⟨⟨superclass, afterClass⟩, first, read⟩ := bind_eq_ok.mp read
  obtain ⟨⟨interfaces, rest⟩, list, result⟩ := bind_eq_ok.mp read
  cases result
  obtain ⟨c, rfl, ownedC, rfl⟩ := classType_derived agree first
  obtain ⟨cs, rfl, ownedCs, rfl⟩ := classTypes_derived agree list
  refine ⟨⟨formals, c, cs⟩, by simp [ClassSigSyntax.text], fun x member => ?_, rfl⟩
  rcases List.mem_append.mp member with member | member
  · exact declared x member
  · exact declared_of_resolved ((List.mem_append.mp member).elim (ownedC x) (ownedCs x))

theorem methodSignature_reads (d : MethodSigSyntax)
    (declared : ∀ x ∈ d.variableNames, Declared scope (declaredNames d.formals) x)
    (enough : d.text.length ≤ fuel) :
    methodSignature scope owner fuel d.text =
      .ok (d.tree (ownerIn scope owner (declaredNames d.formals)), []) := by
  have owned := ownedBy_declared owner declared
  simp only [MethodSigSyntax.text, List.length_append, List.length_cons] at enough
  have formals : typeParameters scope owner fuel d.text = _ :=
    typeParameters_reads d.formals (fun x member => declared x (List.mem_append_left _ member)) fuel
      (by omega) (by simp)
  have parameters := parameterTypes_reads d.parameters owned.right.left fuel (by omega)
      (d.result.elim ['V'] TypeSyntax.text ++ d.exceptions.flatMap fun e => '^' :: e.ref.text)
  have result := returnType_reads d.result owned.right.right.left fuel (by omega)
      (d.exceptions.flatMap fun e => '^' :: e.ref.text)
  have exceptions := (exceptionTypes_each _).reads d.exceptions owned.right.right.right fuel (by omega)
    (by simp : [].head? ≠ some '^') ExceptionSyntax.reads
  rw [List.append_nil] at exceptions
  simp only [methodSignature, formals, bind, Except.bind, expect, if_true, parameters, result, exceptions]
  rfl

theorem methodSignature_derived {s : List Char} {t : MethodSignature} (enough : s.length ≤ fuel)
    (read : methodSignature scope owner fuel s = .ok (t, [])) :
    ∃ d : MethodSigSyntax, d.text = s ∧ (∀ x ∈ d.variableNames, Declared scope (declaredNames d.formals) x) ∧
      d.tree (ownerIn scope owner (declaredNames d.formals)) = t := by
  obtain ⟨⟨⟨ps, resolve⟩, afterFormals⟩, parameters, read⟩ := bind_eq_ok.mp read
  obtain ⟨formals, rfl, rfl, declared, rfl⟩ := typeParameters_derived enough parameters
  have agree : ∀ x o, resolveIn scope owner (declaredNames formals) x = some o →
      ownerIn scope owner (declaredNames formals) x = o := fun _ _ => ownerIn_agrees
  obtain ⟨⟨_, inside⟩, opened, body⟩ := bind_eq_ok.mp read
  obtain rfl := expect_derived opened
  obtain ⟨⟨types, afterTypes⟩, list, body⟩ := bind_eq_ok.mp body
  obtain ⟨⟨result, afterResult⟩, returned, body⟩ := bind_eq_ok.mp body
  obtain ⟨⟨exceptions, rest⟩, thrown, whole⟩ := bind_eq_ok.mp body
  cases whole
  obtain ⟨ds, rfl, ownedDs, rfl⟩ := parameterTypes_derived agree list
  obtain ⟨r, rfl, ownedR, rfl⟩ := returnType_derived agree returned
  obtain ⟨es, rfl, ownedEs, rfl⟩ := (exceptionTypes_each _).derived thrown fun _ _ _ _ => exceptionType_derived agree
  refine ⟨⟨formals, ds, r, es⟩, by simp [MethodSigSyntax.text], fun x member => ?_, rfl⟩
  rcases List.mem_append.mp member with member | member
  · exact declared x member
  · rcases List.mem_append.mp member with member | member
    · exact declared_of_resolved (ownedDs x member)
    · exact declared_of_resolved ((List.mem_append.mp member).elim (ownedR x) (ownedEs x))

theorem parseWith_eq_ok {α : Type} {read : Nat → List Char → Except Fault (Parsed α)} {input : String}
    {value : α} :
    parseWith read input = .ok value ↔ read (input.toList.length + 2) input.toList = .ok (value, []) := by
  unfold parseWith
  split
  · next same =>
      rw [same]
      simp
  · next leftover same =>
      rw [same]
      constructor
      · intro absurdity
        cases absurdity
      · intro absurdity
        cases absurdity
        exact (leftover rfl).elim
  · next same =>
      rw [same]
      simp

theorem parseField_iff (scope : TypeScope) (s : String) (t : TypeSignature) :
    parseField scope s = .ok t ↔ ∃ d : TypeSyntax, d.text = s.toList ∧
      (∀ x ∈ d.variableNames, Declared scope [] x) ∧ d.tree (ownerIn scope (.ofClass ⟨""⟩) []) = t := by
  refine parseWith_eq_ok.trans ⟨fun read => ?_, ?_⟩
  · obtain ⟨d, same, owned, rfl⟩ := javaType_derived (fun _ _ => ownerIn_agrees) read
    exact ⟨d, by rw [same, List.append_nil], fun x member => declared_of_resolved (owned x member), rfl⟩
  · rintro ⟨d, same, declared, rfl⟩
    have read := d.reads (ownedBy_declared (.ofClass ⟨""⟩) declared) (s.toList.length + 2) (by rw [same]; omega) []
    rwa [List.append_nil, same] at read

theorem parseClass_iff (scope : TypeScope) (type : TypeName) (s : String) (t : ClassSignature) :
    parseClass scope type s = .ok t ↔ ∃ d : ClassSigSyntax, d.text = s.toList ∧
      (∀ x ∈ d.variableNames, Declared scope (declaredNames d.formals) x) ∧
      d.tree (ownerIn scope (.ofClass type) (declaredNames d.formals)) = t := by
  refine parseWith_eq_ok.trans ⟨classSignature_derived (by omega), ?_⟩
  rintro ⟨d, same, declared, rfl⟩
  rw [← same]
  exact classSignature_reads d declared (by omega)

theorem parseMethod_iff (scope : TypeScope) (owner : TypeVariableOwner) (s : String)
    (t : MethodSignature) :
    parseMethod scope owner s = .ok t ↔ ∃ d : MethodSigSyntax, d.text = s.toList ∧
      (∀ x ∈ d.variableNames, Declared scope (declaredNames d.formals) x) ∧
      d.tree (ownerIn scope owner (declaredNames d.formals)) = t := by
  refine parseWith_eq_ok.trans ⟨methodSignature_derived (by omega), ?_⟩
  rintro ⟨d, same, declared, rfl⟩
  rw [← same]
  exact methodSignature_reads d declared (by omega)

end Whole

theorem exists_iff_existsUnique {α : Type} {text : α → List Char} {s : List Char} {P : α → Prop}
    (unique : ∀ {d d' : α}, text d = text d' → d = d') :
    (∃ d, text d = s ∧ P d) ↔ ∃! d, text d = s ∧ P d := by
  constructor
  · rintro ⟨d, derives, holds⟩
    refine ⟨d, ⟨derives, holds⟩, ?_⟩
    rintro d' ⟨derives', -⟩
    exact unique (derives'.trans derives.symm)
  · exact ExistsUnique.exists

/-- A text is accepted if and only if the grammar derives it with all type variables declared, and the
    result is the tree of its derivation, of which there is just one. -/
theorem parse_iff_derives (scope : TypeScope) (type : TypeName) (owner : TypeVariableOwner) (s : String) :
    (∀ t, parseField scope s = .ok t ↔ ∃! d : TypeSyntax, d.text = s.toList ∧
      (∀ x ∈ d.variableNames, Declared scope [] x) ∧ d.tree (ownerIn scope (.ofClass ⟨""⟩) []) = t) ∧
    (∀ t, parseClass scope type s = .ok t ↔ ∃! d : ClassSigSyntax, d.text = s.toList ∧
      (∀ x ∈ d.variableNames, Declared scope (declaredNames d.formals) x) ∧
      d.tree (ownerIn scope (.ofClass type) (declaredNames d.formals)) = t) ∧
    (∀ t, parseMethod scope owner s = .ok t ↔ ∃! d : MethodSigSyntax, d.text = s.toList ∧
      (∀ x ∈ d.variableNames, Declared scope (declaredNames d.formals) x) ∧
      d.tree (ownerIn scope owner (declaredNames d.formals)) = t) := by
  refine ⟨fun t => ?_, fun t => ?_, fun t => ?_⟩
  · rw [parseField_iff]
    exact exists_iff_existsUnique TypeSyntax.eq_of_text
  · rw [parseClass_iff]
    exact exists_iff_existsUnique ClassSigSyntax.unique
  · rw [parseMethod_iff]
    exact exists_iff_existsUnique MethodSigSyntax.unique

end ClassAtlas.Signature
