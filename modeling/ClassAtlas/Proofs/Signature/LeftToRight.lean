import ClassAtlas.Proofs.Signature.Acceptance
import ClassAtlas.Proofs.Signature.Cursor

/-! # Texts are read from left to right

A reader that comes to a place in a text has not looked behind it. So a text that starts in the same way, up
to that place and to the kind of character there, is read in the same way so far. Two runs of a reader that
differ in their fuel, or in the owners of names, do the same as long as the fuel exceeds the length of the
text and no name is without an owner. And so does a reader of bytes, for which a text that starts between two
characters is left between two characters. This is said of two readers and a reader of bytes, and holds of
whatever is put together from such readers, by reading on and by choosing with the next character.
-/

namespace ClassAtlas.Signature

variable {unknown : String → Prop}

/-! ## Readers that go from left to right -/

def Fault.rest? : Fault → Option (List Char)
  | .unexpected rest _ => some rest
  | _ => none

/-- What an outcome leaves of the text: after a result, or at an unexpected character. -/
def left? {α : Type} : Except Fault (Parsed α) → Option (List Char)
  | .ok found => some found.2
  | .error fault => fault.rest?

/-- The same outcome, with something else left of the text. -/
def leaving {α : Type} (rest : List Char) : Except Fault (Parsed α) → Except Fault (Parsed α)
  | .ok found => .ok (found.1, rest)
  | .error (.unexpected _ expected) => .error (.unexpected rest expected)
  | .error fault => .error fault

/-- What a reader of characters comes to, as a reader of bytes has it. -/
def carried {α : Type} : Except Fault (Parsed α) → Except Halt (α × List UInt8)
  | .ok (v, rest) => .ok (v, encoded rest)
  | .error fault => .error <| match fault with
    | .ended expected => .ended expected
    | .unexpected rest expected => if (encoded rest).isEmpty then .ended expected else .unexpected (encoded rest) expected
    | .unbound name => .unbound name

/-- Two texts that start with the same character, as far as the characters of the grammar go. -/
def Alike (a b : List Char) : Prop :=
  ∃ c x d y, a = c :: x ∧ b = d :: y ∧ ∀ k : Char, k.toNat < 128 → (c = k ↔ d = k)

/-- Unless the first outcome blames an unknown name, the second is like it. The values are the same if the two
    runs are. -/
inductive Follows {α : Type} (unknown : String → Prop) (same : Prop) :
    Except Fault (Parsed α) → Except Fault (Parsed α) → Prop where
  | found {v w : α} (rest : List Char) (equal : same → v = w) : Follows unknown same (.ok (v, rest)) (.ok (w, rest))
  | failed {fault : Fault} (known : ∀ name, fault ≠ .unbound name) :
      Follows unknown same (.error fault) (.error fault)
  | unbound {name : String} {outcome : Except Fault (Parsed α)} (blamed : unknown name)
      (equal : same → outcome = .error (.unbound name)) :
      Follows unknown same (.error (.unbound name)) outcome

/-- On texts up to a length, a reader leaves an end of the text, takes that many characters at least, decides
    nothing by what comes after the next character, and does what another reader and a reader of bytes do. -/
structure Steady {α : Type} (unknown : String → Prop) (same : Prop) (length taken : Nat) (x y : Reader α) (z : Cursor α) :
    Prop where
  inside : ∀ {s rest}, s.length ≤ length → left? (x s) = some rest → rest <:+ s
  takes : ∀ {s v rest}, s.length ≤ length → x s = .ok (v, rest) → rest.length + taken ≤ s.length
  decides : ∀ {a b}, Alike a b → ∀ {s rest}, (s ++ a).length ≤ length → (s ++ b).length ≤ length →
    left? (x (s ++ a)) = some (rest ++ a) → x (s ++ b) = leaving (rest ++ b) (x (s ++ a))
  follows : ∀ {s}, s.length ≤ length → Follows unknown same (x s) (y s)
  bytes : ∀ {s}, s.length ≤ length → z (encoded s) = carried (x s)

theorem Follows.eq {α : Type} {same : Prop} {x y : Except Fault (Parsed α)} (follows : Follows unknown same x y)
    (alike : same) : x = y := by
  cases follows with
  | found _ equal => rw [equal alike]
  | failed => rfl
  | unbound _ equal => rw [equal alike]

theorem Follows.refl {α : Type} (outcome : Except Fault (Parsed α)) :
    Follows (fun _ => True) True outcome outcome := by
  match outcome with
  | .ok (v, rest) => exact .found rest fun _ => rfl
  | .error (.unbound name) => exact .unbound trivial fun _ => rfl
  | .error (.ended _) | .error (.unexpected _ _) => exact .failed nofun

theorem Follows.left? {α : Type} {same : Prop} {x y : Except Fault (Parsed α)} {v : α} {rest rest' : List Char}
    (follows : Follows unknown same x y) (found : y = .ok (v, rest)) (left : Signature.left? x = some rest') :
    rest' = rest := by
  cases follows with
  | found => cases left; cases found; rfl
  | failed => cases found
  | unbound => cases left

namespace Steady

variable {α β : Type} {unknown : String → Prop} {same : Prop} {n k : Nat}

theorem weak {x y : Reader α} {z : Cursor α} (h : Steady unknown same n k x y z) : Steady unknown same n 0 x y z :=
  { h with takes := fun short found => (Nat.le_add_right _ k).trans (h.takes short found) }

theorem not_suffix {c : Char} {x rest : List Char} (suffix : rest ++ c :: x <:+ x) : False := by
  have shorter := suffix.length_le
  simp only [List.length_append, List.length_cons] at shorter
  omega

section

variable {x y : Reader α} {z : Cursor α} {a b s rest : List Char}

theorem found_again (h : Steady unknown same n k x y z) (alike : Alike a b) (short : (s ++ a).length ≤ n)
    (short' : (s ++ b).length ≤ n) {v : α} (found : x (s ++ a) = .ok (v, rest ++ a)) :
    x (s ++ b) = .ok (v, rest ++ b) := by
  have left : left? (x (s ++ a)) = some (rest ++ a) := by rw [found]; rfl
  rw [h.decides alike short short' left, found]
  rfl

theorem failed_again (h : Steady unknown same n k x y z) (alike : Alike a b) (short : (s ++ a).length ≤ n)
    (short' : (s ++ b).length ≤ n) {expected : String}
    (failed : x (s ++ a) = .error (.unexpected (rest ++ a) expected)) :
    x (s ++ b) = .error (.unexpected (rest ++ b) expected) := by
  have left : left? (x (s ++ a)) = some (rest ++ a) := by rw [failed]; rfl
  rw [h.decides alike short short' left, failed]
  rfl

end

theorem rest?_eq_some {fault : Fault} {rest : List Char} (left : fault.rest? = some rest) :
    ∃ expected, fault = .unexpected rest expected := by
  cases fault with
  | unexpected rest expected =>
    cases left
    exact ⟨expected, rfl⟩
  | ended | unbound => cases left

/-! ### Single steps -/

theorem ok (v w : α) (equal : same → v = w) :
    Steady unknown same n 0 (fun s => .ok (v, s)) (fun s => .ok (w, s)) (pure v) where
  inside _ left := by
    cases left
    exact List.suffix_rfl
  takes _ found := by
    cases found
    exact le_rfl
  decides _ := by
    intro s rest _ _ left
    have same : s = rest := List.append_cancel_right (Option.some.inj left)
    rw [same]
    rfl
  follows _ := .found _ equal
  bytes _ := rfl

theorem mismatch_eq {s : List Char} (nonempty : s ≠ []) (expected : String) :
    mismatch s expected = .unexpected s expected := by
  obtain ⟨c, tail, rfl⟩ := List.exists_cons_of_ne_nil nonempty
  rfl

theorem mismatch (expected : String) :
    Steady unknown same n k (α := α) (fun s => .error (mismatch s expected)) (fun s => .error (mismatch s expected))
      (Cursor.refuse expected) where
  inside {s rest} _ left := by
    cases s with
    | nil => cases left
    | cons c s =>
      cases left
      exact List.suffix_rfl
  takes _ found := by cases found
  decides := by
    rintro a b ⟨c, x, d, y, rfl, rfl, -⟩ s rest _ _ left
    rw [mismatch_eq (by simp)] at left
    rw [mismatch_eq (by simp), mismatch_eq (by simp)]
    have same : s = rest := List.append_cancel_right (Option.some.inj left)
    rw [same]
    rfl
  follows {s} _ := .failed fun name absurdity => by cases s <;> cases absurdity
  bytes {s} _ := by cases s <;> rfl

theorem unbound {name : String} (blamed : unknown name) {y : Reader α}
    (equal : same → ∀ s, y s = .error (.unbound name)) :
    Steady unknown same n k (fun _ => .error (.unbound name)) y (Cursor.halt (.unbound name)) where
  inside _ left := by cases left
  takes _ found := by cases found
  decides _ := by
    intro s rest _ _ left
    cases left
  follows {s} _ := .unbound blamed fun alike => equal alike s
  bytes _ := rfl

/-! ### Reading on and choosing -/

theorem bind {x x' : Reader α} {z : Cursor α} {f f' : Parsed α → Except Fault (Parsed β)} {g : α → Cursor β} {j : Nat}
    (first : Steady unknown same n k x x' z)
    (next : ∀ v w, (same → v = w) → ∀ m, m + k ≤ n →
      Steady unknown same m j (fun rest => f (v, rest)) (fun rest => f' (w, rest)) (g v)) :
    Steady unknown same n k (fun s => x s >>= f) (fun s => x' s >>= f') (z >>= g) := by
  have onward {s : List Char} {v : α} {mid : List Char} (short : s.length ≤ n) (found : x s = .ok (v, mid)) :=
    first.takes short found
  refine ⟨fun {s rest} short left => ?_, fun {s v rest} short found => ?_, fun {a b} alike {s rest} short short' left => ?_,
    fun {s} short => ?_, fun {s} short => ?_⟩
  · cases outcome : x s with
    | error fault =>
      rw [outcome] at left
      exact first.inside short (outcome ▸ left)
    | ok found =>
      rw [outcome] at left
      have outer : found.2 <:+ s := first.inside short (by rw [outcome]; rfl)
      exact ((next found.1 found.1 (fun _ => rfl) (n - k) (by have := onward short outcome; omega)).inside
        (by have := onward short outcome; omega) left).trans outer
  · obtain ⟨⟨u, mid⟩, outcome, found⟩ := bind_eq_ok.mp found
    have least := onward short outcome
    have inner := ((next u u (fun _ => rfl) (n - k) (by omega)).weak.takes (by omega) found)
    omega
  · cases outcome : x (s ++ a) with
    | error fault =>
      rw [outcome] at left
      obtain ⟨expected, rfl⟩ := rest?_eq_some left
      rw [first.failed_again alike short short' outcome]
      rfl
    | ok found =>
      rw [outcome] at left
      obtain ⟨v, mid⟩ := found
      have least := onward short outcome
      have second := next v v (fun _ => rfl) (n - k) (by omega)
      -- What is left in the end was left before, so the first reader stopped within what both texts share.
      obtain ⟨before, same⟩ := second.inside (by omega) left
      obtain rfl : mid = (before ++ rest) ++ a := by rw [List.append_assoc]; exact same.symm
      have outcome' := first.found_again alike short short' outcome
      have least' := onward short' outcome'
      rw [outcome']
      exact second.decides alike (by omega) (by omega) left
  · have run := first.follows short
    generalize outcome : x s = o, x' s = o' at run
    cases run with
    | @found v w rest equal =>
      have least := onward short outcome
      exact (next v w equal (n - k) (by omega)).follows (by omega)
    | failed known => exact .failed known
    | unbound blamed equal => exact .unbound blamed fun alike => by rw [equal alike]; rfl
  · change (z (encoded s) >>= fun found => g found.1 found.2) = carried (x s >>= f)
    rw [first.bytes short]
    cases outcome : x s with
    | error fault => rfl
    | ok found =>
      have least := onward short outcome
      exact (next found.1 found.1 (fun _ => rfl) (n - k) (by omega)).bytes (by omega)

/-- How readers end a text: all expect more, or all find what needs none. -/
def EndAlike (same : Prop) (k : Nat) (x y : Except Fault (Parsed α)) (z : Except Halt (α × List UInt8)) : Prop :=
  z = carried x ∧ ((∃ expected, x = .error (.ended expected) ∧ y = .error (.ended expected)) ∨
    k = 0 ∧ ∃ v w, (same → v = w) ∧ x = .ok (v, []) ∧ y = .ok (w, []))

theorem byNext_cons {keys : List Char} (small : ∀ c ∈ keys, c.toNat < 128) {atEnd z : Cursor α} {zs : Char → Cursor α}
    {c : Char} {s : List Char} : Cursor.byNext keys atEnd zs z (encoded (c :: s)) =
      if c ∈ keys then zs c (encoded s) else z (encoded (c :: s)) := by
  obtain ⟨tail, starts⟩ := utf8EncodeChar_eq c
  have next := mem_keys small (starts ▸ List.mem_cons_self : lead c ∈ String.utf8EncodeChar c)
  by_cases key : c ∈ keys
  · have alone : lead c = byte c := by
      have single := utf8EncodeChar_small (small c key)
      rw [starts] at single
      exact (List.cons.inj single).1
    rw [alone] at next
    rw [if_pos key, encoded_small (small c key), Cursor.byNext, if_pos (next.mpr key), toNat_byte (small c key),
      Char.ofNat_toNat]
    rfl
  · rw [if_neg key, encoded_cons, starts, List.cons_append, Cursor.byNext, if_neg (mt next.mp key)]

/-- A reader that goes by the next character. If it takes one of the keys it goes on with what follows, and
    otherwise it does what another reader does. -/
theorem head {r r' other other' : Reader α} {atEnd z : Cursor α} {zs : Char → Cursor α} {keys : List Char}
    (small : ∀ c ∈ keys, c.toNat < 128) (least : k ≤ 1) (empty : EndAlike same k (r []) (r' []) (atEnd []))
    (taken : ∀ c ∈ keys, ∀ m, m + 1 ≤ n →
      Steady unknown same m 0 (fun rest => r (c :: rest)) (fun rest => r' (c :: rest)) (zs c))
    (others : Steady unknown same n k other other' z)
    (otherwise : ∀ c rest, c ∉ keys → r (c :: rest) = other (c :: rest) ∧ r' (c :: rest) = other' (c :: rest)) :
    Steady unknown same n k r r' (Cursor.byNext keys atEnd zs z) := by
  refine ⟨fun {s rest} short left => ?_, fun {s v rest} short found => ?_, fun {a b} alike {s rest} short short' left => ?_,
    fun {s} short => ?_, fun {s} short => ?_⟩
  · match s with
    | [] =>
      rcases empty.2 with ⟨expected, same, -⟩ | ⟨-, v, w, -, same, -⟩
      · rw [same] at left
        cases left
      · rw [same] at left
        cases left
        exact List.suffix_rfl
    | c :: s =>
      by_cases key : c ∈ keys
      · exact ((taken c key s.length short).inside le_rfl left).trans (List.suffix_cons c s)
      · rw [(otherwise c s key).1] at left
        exact others.inside short left
  · match s with
    | [] =>
      rcases empty.2 with ⟨expected, same, -⟩ | ⟨rfl, v, w, -, same, -⟩
      · rw [same] at found
        cases found
      · rw [same] at found
        cases found
        exact le_rfl
    | c :: s =>
      by_cases key : c ∈ keys
      · have inner := (taken c key s.length short).takes le_rfl found
        rw [List.length_cons]
        omega
      · rw [(otherwise c s key).1] at found
        exact others.takes short found
  · match s with
    | [] =>
      obtain ⟨c, x, d, y, rfl, rfl, agree⟩ := id alike
      by_cases key : c ∈ keys
      -- Then the reader is past the place where the texts part, and leaves none of it.
      · exact (not_suffix ((taken c key x.length short).inside le_rfl left)).elim
      · have key' : d ∉ keys := fun member => key ((agree d (small d member)).mpr rfl ▸ member)
        simp only [List.nil_append, (otherwise c x key).1, (otherwise d y key').1] at left ⊢
        exact others.decides (s := []) alike short short' left
    | c :: s =>
      by_cases key : c ∈ keys
      · have inner := taken c key (n - 1) (by have := Nat.le_trans (Nat.le_add_left 1 _) short; omega)
        exact inner.decides alike (Nat.le_sub_one_of_lt short) (Nat.le_sub_one_of_lt short') left
      · simp only [List.cons_append, (otherwise c _ key).1] at left ⊢
        exact others.decides (s := c :: s) alike short short' left
  · match s with
    | [] =>
      rcases empty.2 with ⟨expected, same, same'⟩ | ⟨-, v, w, equal, same, same'⟩
      · rw [same, same']
        exact .failed nofun
      · rw [same, same']
        exact .found _ equal
    | c :: s =>
      by_cases key : c ∈ keys
      · exact (taken c key s.length short).follows le_rfl
      · rw [(otherwise c s key).1, (otherwise c s key).2]
        exact others.follows short
  · match s with
    | [] =>
      change Cursor.byNext keys atEnd zs z [] = _
      rw [Cursor.byNext]
      exact empty.1
    | c :: s =>
      rw [byNext_cons small]
      by_cases key : c ∈ keys
      · rw [if_pos key]
        exact (taken c key s.length short).bytes le_rfl
      · rw [if_neg key, (otherwise c s key).1]
        exact others.bytes short

theorem again {x x' : Reader α} {z : Cursor α} {f g : α → Reader β} {h : α → Cursor β} (first : Steady unknown same n k x x' z)
    (second : ∀ v w, (same → v = w) → Steady unknown same n k (f v) (g w) (h v))
    (stops : ∀ s v rest rest', s.length ≤ n → x s = .ok (v, rest) → left? (f v s) = some rest' → rest' = rest) :
    Steady unknown same n k (fun s => x s >>= fun (v, _) => f v s) (fun s => x' s >>= fun (v, _) => g v s)
      (Cursor.again z h) := by
  refine ⟨fun {s rest} short left => ?_, fun {s v rest} short found => ?_, fun {a b} alike {s rest} short short' left => ?_,
    fun {s} short => ?_, fun {s} short => ?_⟩
  · cases outcome : x s with
    | error fault =>
      rw [outcome] at left
      exact first.inside short (outcome ▸ left)
    | ok found =>
      rw [outcome] at left
      exact (second found.1 found.1 fun _ => rfl).inside short left
  · obtain ⟨⟨u, mid⟩, -, found⟩ := bind_eq_ok.mp found
    exact (second u u fun _ => rfl).takes short found
  · cases outcome : x (s ++ a) with
    | error fault =>
      rw [outcome] at left
      obtain ⟨expected, rfl⟩ := rest?_eq_some left
      rw [first.failed_again alike short short' outcome]
      rfl
    | ok found =>
      rw [outcome] at left
      obtain ⟨v, mid⟩ := found
      obtain rfl := stops _ _ _ _ short outcome left
      rw [first.found_again alike short short' outcome]
      exact (second v v fun _ => rfl).decides alike short short' left
  · have run := first.follows short
    generalize x s = o, x' s = o' at run
    cases run with
    | @found v w rest equal => exact (second v w equal).follows short
    | failed known => exact .failed known
    | unbound blamed equal => exact .unbound blamed fun alike => by rw [equal alike]; rfl
  · change (z (encoded s) >>= fun found => h found.1 (encoded s)) = carried (x s >>= fun (v, _) => f v s)
    rw [first.bytes short]
    cases x s with
    | error fault => rfl
    | ok found => exact (second found.1 found.1 fun _ => rfl).bytes short

end Steady

/-! ## Names -/

section Names

variable {stops : List Char} {expected : String} {unknown : String → Prop} {n : List Char}

theorem identifier_clear {s : List Char} (clear : ∀ c ∈ s, c ∉ stops) :
    identifier stops expected s = .error (.ended expected) := by
  have inside : ∀ c ∈ s, (!stops.contains c) = true := by simpa using clear
  simp only [identifier, List.dropWhile_eq_nil_iff.mpr inside]

theorem identifier_stopped (clear : ∀ c ∈ n, c ∉ stops) {k : Char} (stop : k ∈ stops) (rest : List Char) :
    identifier stops expected (n ++ k :: rest) =
      if n.isEmpty then .error (.unexpected (k :: rest) expected) else .ok (String.ofList n, k :: rest) := by
  cases n with
  | nil =>
    have outside : (!stops.contains k) = false := by simpa using stop
    simp only [identifier, List.nil_append, List.takeWhile_cons, List.dropWhile_cons, outside,
      Bool.false_eq_true, if_false, List.isEmpty_nil, if_true]
  | cons c n => exact identifier_name ⟨c :: n, List.cons_ne_nil c n, clear⟩ stop expected rest

theorem exists_stop (stops s : List Char) :
    (∀ c ∈ s, c ∉ stops) ∨
      ∃ n k rest, s = n ++ k :: rest ∧ (∀ c ∈ n, c ∉ stops) ∧ k ∈ stops := by
  induction s with
  | nil => exact .inl (by simp)
  | cons c s ih =>
    by_cases stop : c ∈ stops
    · exact .inr ⟨[], c, s, rfl, by simp, stop⟩
    · rcases ih with clear | ⟨n, k, rest, rfl, clear, found⟩
      · exact .inl (List.forall_mem_cons.mpr ⟨stop, clear⟩)
      · exact .inr ⟨c :: n, k, rest, rfl, List.forall_mem_cons.mpr ⟨stop, clear⟩, found⟩

theorem left?_identifier (clear : ∀ c ∈ n, c ∉ stops) {k : Char} (stop : k ∈ stops) (rest : List Char) :
    left? (identifier stops expected (n ++ k :: rest)) = some (k :: rest) := by
  rw [identifier_stopped clear stop]
  split <;> rfl

theorem identifier_leaving (clear : ∀ c ∈ n, c ∉ stops) {k : Char} (stop : k ∈ stops) (rest rest' : List Char) :
    identifier stops expected (n ++ k :: rest') =
      leaving (k :: rest') (identifier stops expected (n ++ k :: rest)) := by
  rw [identifier_stopped clear stop, identifier_stopped clear stop]
  split <;> rfl

theorem identifier_bytes (small : ∀ k ∈ stops, k.toNat < 128) (expected : String) (s : List Char) :
    Cursor.identifier stops expected (encoded s) = carried (identifier stops expected s) := by
  have apart {n : List Char} (clear : ∀ c ∈ n, c ∉ stops) :
      ∀ b ∈ encoded n, (!(stops.map byte).contains b) = true := by
    intro b member
    obtain ⟨c, inside, part⟩ := List.mem_flatMap.mp member
    rw [Bool.not_eq_true', ← Bool.not_eq_true, mem_keys small part]
    exact clear c inside
  rcases exists_stop stops s with clear | ⟨n, k, rest, rfl, clear, stop⟩
  · have ended := List.dropWhile_eq_nil_iff.mpr (apart clear)
    simp only [Cursor.identifier, ended, List.isEmpty_nil, if_true, identifier_clear clear, carried]
  · have behind := encoded_small (small k stop) rest
    have stopped : (stops.map byte).contains (byte k) = true := by simpa using ⟨k, stop, rfl⟩
    rw [identifier_stopped clear stop, encoded_append, Cursor.identifier, List.takeWhile_append_of_pos (apart clear),
      List.dropWhile_append_of_pos (apart clear), behind, List.takeWhile_cons, List.dropWhile_cons]
    simp only [stopped, Bool.not_true, Bool.false_eq_true, if_false, List.append_nil, fromUTF8?_encoded]
    cases n <;> simp [carried, behind, encoded_eq_nil]

theorem identifier_steady (small : ∀ k ∈ stops, k.toNat < 128) (expected : String) {same : Prop} {n : Nat} :
    Steady unknown same n 1 (identifier stops expected) (identifier stops expected) (Cursor.identifier stops expected) where
  inside {s rest} _ left := by
    rcases exists_stop stops s with clear | ⟨n, k, after, rfl, clear, stop⟩
    · rw [identifier_clear clear] at left
      cases left
    · rw [left?_identifier clear stop] at left
      cases left
      exact List.suffix_append _ _
  takes {s v rest} _ read := by
    obtain ⟨n, c, tail, -, rfl, -, rfl⟩ := name_of_identifier read
    have nonempty := List.length_pos_iff.mpr n.nonempty
    rw [List.length_append]
    omega
  decides := by
    rintro a b ⟨c, x, d, y, rfl, rfl, agree⟩ s rest _ _ left
    rcases exists_stop stops s with clear | ⟨n, k, after, rfl, clear, stop⟩
    · by_cases stop : c ∈ stops
      · obtain rfl : d = c := (agree c (small c stop)).mp rfl
        rw [left?_identifier clear stop] at left
        obtain rfl : rest = [] := List.append_cancel_right (Option.some.inj left).symm
        exact identifier_leaving clear stop x y
      -- The name runs over the place where the texts part and stops behind it.
      · rcases exists_stop stops x with clear' | ⟨n, k, after, rfl, clear', stop'⟩
        · rw [identifier_clear (List.forall_mem_append.mpr ⟨clear, List.forall_mem_cons.mpr ⟨stop, clear'⟩⟩)]
            at left
          cases left
        · rw [← List.cons_append, ← List.append_assoc, left?_identifier
            (List.forall_mem_append.mpr ⟨clear, List.forall_mem_cons.mpr ⟨stop, clear'⟩⟩) stop'] at left
          have lengths := congrArg List.length (Option.some.inj left)
          simp only [List.length_append, List.length_cons] at lengths
          omega
    · rw [List.append_assoc, List.cons_append] at left ⊢
      rw [left?_identifier clear stop] at left
      obtain rfl : rest = k :: after := List.append_cancel_right (Option.some.inj left).symm
      rw [List.append_assoc, List.cons_append]
      exact identifier_leaving clear stop _ _
  follows {s} _ := by
    rcases exists_stop stops s with clear | ⟨n, k, after, rfl, clear, stop⟩
    · rw [identifier_clear clear]
      exact .failed nofun
    · rw [identifier_stopped clear stop]
      split
      · exact .failed nofun
      · exact .found _ fun _ => rfl
  bytes {s} _ := identifier_bytes small expected s

theorem classStops_small : ∀ k ∈ classStops, k.toNat < 128 := by
  simp [classStops]

theorem expect_steady {c : Char} (small : c.toNat < 128) (expected : String) {same : Prop} {n : Nat} :
    Steady unknown same n 1 (expect c expected) (expect c expected) (Cursor.expect c expected) := by
  refine .head (by simpa using small) le_rfl ⟨rfl, .inl ⟨_, rfl, rfl⟩⟩ ?_ (.mismatch expected) ?_
  · intro k key m _
    obtain rfl := List.mem_singleton.mp key
    simp only [expect, if_true]
    exact .ok () () fun _ => rfl
  · intro d rest other
    have absent : expect c expected (d :: rest) = .error (mismatch (d :: rest) expected) :=
      if_neg fun same => other (List.mem_singleton.mpr same)
    exact ⟨absent, absent⟩

end Names

/-! ## Types -/

section Productions

variable {resolve : Resolve} (fuel : Nat)

def classArguments (resolve : Resolve) (fuel : Nat) (s : List Char) :
    Except Fault (Parsed (List TypeSignature)) :=
  match s with
  | '<' :: rest => arguments resolve fuel rest
  | _ => .ok ([], s)

/-- What follows the arguments of a class type: an inner class or the end. -/
def classEnd (resolve : Resolve) (fuel : Nat) (name : String) (args : List TypeSignature) (s : List Char) :
    Except Fault (Parsed TypeSignature) :=
  match s with
  | '.' :: rest =>
    identifier classStops "inner class name" rest >>= fun (inner, rest) =>
      classTail resolve fuel (name ++ "$" ++ inner) rest
  | ';' :: rest => .ok (.ofType (.ofInternal name) args, rest)
  | _ => .error (mismatch s "`;`")

def markedArgument (resolve : Resolve) (fuel : Nat) (mark : TypeSignature → TypeSignature) (s : List Char) :
    Except Fault (Parsed (List TypeSignature)) :=
  reference resolve fuel s >>= fun (t, rest) =>
    arguments resolve fuel rest >>= fun (args, rest) => .ok (mark t :: args, rest)

def classBound (resolve : Resolve) (fuel : Nat) (s : List Char) :
    Except Fault (Parsed (Option TypeSignature)) :=
  if startsReference s then (reference resolve fuel s).map fun (t, rest) => (some t, rest)
  else .ok (none, s)

theorem reference_array (rest : List Char) :
    reference resolve (fuel + 1) ('[' :: rest) =
      (javaType resolve fuel rest >>= fun (t, rest) => .ok ({ t with depth := t.depth + 1 }, rest)) := by
  simp only [reference, javaType]
  cases baseType? rest <;> rfl

theorem reference_other (fuel : Nat) {c : Char} (other : c ∉ ['L', 'T', '[']) (rest : List Char) :
    reference resolve (fuel + 1) (c :: rest) = .error (mismatch (c :: rest) "reference type") := by
  simp only [reference]
  split <;> simp_all

theorem classArguments_absent {s : List Char} (absent : ∀ rest, s = '<' :: rest → False) :
    classArguments resolve fuel s = .ok ([], s) := by
  unfold classArguments
  split
  · next rest => exact (absent rest rfl).elim
  · rfl

theorem classTail_eq (name : String) (s : List Char) :
    classTail resolve (fuel + 1) name s =
      (classArguments resolve fuel s >>= fun (args, rest) => classEnd resolve fuel name args rest) := by
  unfold classTail
  dsimp only
  split
  · rfl
  · next absent =>
      rw [classArguments_absent fuel absent]
      rfl

theorem arguments_other {c : Char} (other : c ∉ ['>', '*', '+', '-']) (rest : List Char) :
    arguments resolve (fuel + 1) (c :: rest) = markedArgument resolve fuel id (c :: rest) := by
  simp only [arguments]
  split <;> first | rfl | simp_all

theorem formalParameter_eq (s : List Char) :
    formalParameter resolve fuel s =
      (identifier [':'] "type parameter name" s >>= fun (name, s) =>
        expect ':' "`:`" s >>= fun (_, s) =>
          classBound resolve fuel s >>= fun (bound, s) =>
            interfaceBounds resolve fuel s >>= fun (interfaces, s) => .ok (⟨name, bound, interfaces⟩, s)) := by
  unfold formalParameter classBound
  refine congrArg (identifier [':'] "type parameter name" s >>= ·) (funext fun ⟨name, s⟩ => ?_)
  refine congrArg (expect ':' "`:`" s >>= ·) (funext fun ⟨_, s⟩ => ?_)
  dsimp only
  split <;> rfl

end Productions

/-- The second of two runs of a reader of types has the owners of the first, or one for every name. -/
def Owned (resolve resolve' : Resolve) : Prop := resolve' = resolve ∨ ∀ name, (resolve' name).isSome

/-- Two runs of a reader of types, of which the first may find a name without an owner. -/
abbrev Typewise {α : Type} (resolve resolve' : Resolve) (n k : Nat) (x y : Reader α) (z : Cursor α) : Prop :=
  Steady (resolve · = none) (resolve' = resolve) n k x y z

section Types

variable {resolve resolve' : Resolve} {n f g : Nat}

/-- A name that ends at a semicolon has one behind it, so that taking it is the same as expecting it. -/
theorem typeVariable_eq (resolve : Resolve) (s : List Char) :
    typeVariable resolve s = (identifier [';'] "type variable name" s >>= fun (name, rest) =>
      (resolve name).elim (.error (.unbound name)) fun owner =>
        expect ';' "`;`" rest >>= fun (_, rest) => .ok (.ofVariable ⟨name, owner⟩, rest)) ∧
    Cursor.typeVariable resolve (encoded s) = carried (typeVariable resolve s) := by
  have read : Cursor.identifier [';'] "type variable name" (encoded s) = carried (identifier _ _ s) :=
    identifier_bytes (by simp) _ s
  change _ ∧ (Cursor.identifier _ _ (encoded s) >>= _) = carried (identifier _ _ s >>= _)
  rw [read, typeVariable]
  cases outcome : identifier [';'] "type variable name" s with
  | error fault => exact ⟨rfl, rfl⟩
  | ok found =>
    obtain ⟨name, rest⟩ := found
    obtain ⟨-, stop, tail, key, -, -, rfl⟩ := name_of_identifier outcome
    obtain rfl := List.mem_singleton.mp key
    have behind : carried (.ok (name, ';' :: tail)) = .ok (name, byte ';' :: encoded tail) := rfl
    rw [behind]
    dsimp only [bind, Except.bind]
    cases resolve name <;> exact ⟨rfl, rfl⟩

theorem typeVariable_steady (owned : Owned resolve resolve') :
    Typewise resolve resolve' n 1 (typeVariable resolve) (typeVariable resolve') (Cursor.typeVariable resolve) := by
  let rest (name : String) := (resolve name).elim (Cursor.halt (.unbound name)) fun owner =>
    Cursor.expect ';' "`;`" >>= fun _ => pure (TypeSignature.ofVariable ⟨name, owner⟩)
  have checked : Typewise resolve resolve' n 1 (typeVariable resolve) (typeVariable resolve')
      (Cursor.identifier [';'] "type variable name" >>= rest) := by
    rw [funext fun s => (typeVariable_eq resolve s).1, funext fun s => (typeVariable_eq resolve' s).1]
    refine .bind (j := 0) (identifier_steady (by simp) _) fun name name' alike m _ => ?_
    dsimp only [rest]
    cases found : resolve name with
    | none =>
      refine .unbound found fun same s => ?_
      rw [same, ← alike same, found]
      rfl
    | some owner =>
      have known : ∃ owner', resolve' name' = some owner' ∧ (resolve' = resolve → owner = owner') := by
        rcases owned with same | total
        · exact ⟨owner, by rw [same, ← alike same, found], fun _ => rfl⟩
        · obtain ⟨owner', found'⟩ := Option.isSome_iff_exists.mp (total name')
          refine ⟨owner', found', fun same => Option.some.inj ?_⟩
          rw [← found, ← found', same, alike same]
      obtain ⟨owner', found', equal⟩ := known
      rw [found']
      exact .weak (.bind (expect_steady (by decide) _) fun _ _ _ _ _ => .ok _ _ fun same => by rw [alike same, equal same])
  exact { checked with bytes := fun {s} _ => (typeVariable_eq resolve s).2 }

/-- Reference types are read alike on texts shorter than the fuel. -/
def ReferencesSteady (resolve resolve' : Resolve) (f g : Nat) : Prop :=
  ∀ n, n < f → n < g → Typewise resolve resolve' n 1 (reference resolve f) (reference resolve' g)
    (Cursor.reference resolve f)

/-- Types need two units of fuel for each argument list, one to enter it and one to enter its first argument. -/
def TailsSteady (resolve resolve' : Resolve) (f g : Nat) : Prop :=
  ∀ n, n + 1 < f → n + 1 < g → ∀ name name', (resolve' = resolve → name = name') →
    Typewise resolve resolve' n 0 (classTail resolve f name) (classTail resolve' g name') (Cursor.classTail resolve f name)

def ArgumentsSteady (resolve resolve' : Resolve) (f g : Nat) : Prop :=
  ∀ n, n + 1 < f → n + 1 < g → Typewise resolve resolve' n 0 (arguments resolve f) (arguments resolve' g)
    (Cursor.arguments resolve f)

theorem javaType_other {resolve : Resolve} (fuel : Nat) {c : Char}
    (other : c ∉ ['B', 'C', 'D', 'F', 'I', 'J', 'S', 'Z']) (rest : List Char) :
    javaType resolve fuel (c :: rest) = reference resolve fuel (c :: rest) := by
  have none : baseType? (c :: rest) = none := by
    by_contra some
    obtain ⟨⟨t, after⟩, base⟩ := Option.ne_none_iff_exists'.mp some
    obtain ⟨b, same, -⟩ := base_of_baseType? base
    obtain ⟨rfl, -⟩ := List.cons.inj same
    cases b <;> simp [BaseType.letter] at other
  simp only [javaType, none]

theorem javaType_steady (references : ReferencesSteady resolve resolve' f g) (short : n < f) (short' : n < g) :
    Typewise resolve resolve' n 1 (javaType resolve f) (javaType resolve' g) (Cursor.javaType resolve f) := by
  obtain ⟨f, rfl⟩ := Nat.exists_eq_add_one_of_ne_zero (Nat.ne_zero_of_lt short)
  obtain ⟨g, rfl⟩ := Nat.exists_eq_add_one_of_ne_zero (Nat.ne_zero_of_lt short')
  have reads := references n short short'
  refine .head (by simp) le_rfl ⟨reads.bytes (s := []) (Nat.zero_le n), .inl ⟨_, rfl, rfl⟩⟩ ?_ reads fun c rest other =>
    ⟨javaType_other _ other rest, javaType_other _ other rest⟩
  intro k key m _
  simp only [List.mem_cons, List.not_mem_nil, or_false] at key
  rcases key with rfl | rfl | rfl | rfl | rfl | rfl | rfl | rfl
  all_goals exact .ok _ _ fun _ => rfl

theorem reference_takes (owned : Owned resolve resolve') (references : ReferencesSteady resolve resolve' f g)
    (tails : TailsSteady resolve resolve' f g) (short : n < f) (short' : n < g) {k : Char} (key : k ∈ ['L', 'T', '[']) :
    Typewise resolve resolve' n 0 (fun rest => reference resolve (f + 1) (k :: rest))
      (fun rest => reference resolve' (g + 1) (k :: rest))
      (Cursor.afterKey resolve (Cursor.javaType resolve f) (Cursor.classTail resolve f) k) := by
  simp only [List.mem_cons, List.not_mem_nil, or_false] at key
  rcases key with rfl | rfl | rfl
  · exact .weak (.bind (identifier_steady classStops_small _) fun name name' alike m' less' =>
      tails m' (by omega) (by omega) name name' alike)
  · exact (typeVariable_steady owned).weak
  · rw [funext (reference_array f), funext (reference_array g)]
    exact .weak (.bind (javaType_steady references short short') fun t t' alike _ _ =>
      .ok _ _ fun same => by rw [alike same])

theorem reference_steady (owned : Owned resolve resolve') (references : ReferencesSteady resolve resolve' f g)
    (tails : TailsSteady resolve resolve' f g) : ReferencesSteady resolve resolve' (f + 1) (g + 1) := by
  intro n short short'
  exact .head (by simp) le_rfl ⟨rfl, .inl ⟨_, rfl, rfl⟩⟩
    (fun _ key m less => reference_takes owned references tails (by omega) (by omega) key) (.mismatch "reference type")
    fun c rest other => ⟨reference_other _ other rest, reference_other _ other rest⟩

theorem classEnd_steady (tails : TailsSteady resolve resolve' f g) (short : n < f) (short' : n < g)
    {name name' : String} {args args' : List TypeSignature} (named : resolve' = resolve → name = name')
    (given : resolve' = resolve → args = args') :
    Typewise resolve resolve' n 0 (classEnd resolve f name args) (classEnd resolve' g name' args')
      (Cursor.classEnd (Cursor.classTail resolve f) name args) := by
  refine .head (by simp) (by omega) ⟨rfl, .inl ⟨_, rfl, rfl⟩⟩ ?_ (.mismatch "`;`") ?_
  · intro k key m less
    simp only [List.mem_cons, List.not_mem_nil, or_false] at key
    rcases key with rfl | rfl
    · exact .weak (.bind (identifier_steady classStops_small _) fun inner inner' alike m' less' =>
        tails m' (by omega) (by omega) _ _ fun same => by rw [named same, alike same])
    · exact .ok _ _ fun same => by rw [named same, given same]
  · intro c rest other
    unfold classEnd
    constructor <;> split <;> simp_all

theorem classArguments_steady (args : ArgumentsSteady resolve resolve' f g) (short : n < f) (short' : n < g) :
    Typewise resolve resolve' n 0 (classArguments resolve f) (classArguments resolve' g)
      (Cursor.classArguments (Cursor.arguments resolve f)) := by
  refine .head (by simp) (by omega) ⟨rfl, .inr ⟨rfl, _, _, fun _ => rfl, rfl, rfl⟩⟩ ?_ (.ok [] [] fun _ => rfl) ?_
  · intro k key m less
    obtain rfl := List.mem_singleton.mp key
    exact args m (by omega) (by omega)
  · intro c rest other
    have absent : ∀ tail, c :: rest = '<' :: tail → False :=
      fun _ same => other (List.mem_singleton.mpr (List.cons.inj same).1)
    exact ⟨classArguments_absent _ absent, classArguments_absent _ absent⟩

theorem classTail_steady (tails : TailsSteady resolve resolve' f g) (args : ArgumentsSteady resolve resolve' f g) :
    TailsSteady resolve resolve' (f + 1) (g + 1) := by
  intro n short short' name name' named
  rw [funext (classTail_eq f name), funext (classTail_eq g name')]
  exact .bind (classArguments_steady args (by omega) (by omega)) fun args args' alike m _ =>
    classEnd_steady tails (by omega) (by omega) named alike

theorem arguments_steady (references : ReferencesSteady resolve resolve' f g)
    (args : ArgumentsSteady resolve resolve' f g) : ArgumentsSteady resolve resolve' (f + 1) (g + 1) := by
  intro n short short'
  have marked (mark : TypeSignature → TypeSignature) {m : Nat} (within : m ≤ n) :
      Typewise resolve resolve' m 0 (markedArgument resolve f mark) (markedArgument resolve' g mark)
        (Cursor.listOf mark (Cursor.reference resolve f) (Cursor.arguments resolve f)) :=
    .weak (.bind (references m (by omega) (by omega)) fun t t' first m' less => .bind (args m' (by omega) (by omega))
      fun ts ts' others _ _ => .ok _ _ fun same => by rw [first same, others same])
  refine .head (by simp) (by omega) ⟨rfl, .inl ⟨_, rfl, rfl⟩⟩ ?_ (marked id le_rfl) fun c rest other =>
    ⟨arguments_other _ other rest, arguments_other _ other rest⟩
  intro k key m less
  simp only [List.mem_cons, List.not_mem_nil, or_false] at key
  rcases key with rfl | rfl | rfl | rfl
  · exact .ok _ _ fun _ => rfl
  · exact .bind (args m (by omega) (by omega)) fun ts ts' alike _ _ => .ok _ _ fun same => by rw [alike same]
  · exact marked (fun t => { t with variance := .covariant }) (by omega)
  · exact marked (fun t => { t with variance := .contravariant }) (by omega)

theorem types_steady (owned : Owned resolve resolve') (f g : Nat) :
    ReferencesSteady resolve resolve' f g ∧ TailsSteady resolve resolve' f g ∧
      ArgumentsSteady resolve resolve' f g := by
  induction f generalizing g with
  | zero => exact ⟨fun _ less => absurd less (by omega), fun _ less => absurd less (by omega),
      fun _ less => absurd less (by omega)⟩
  | succ f ih =>
    cases g with
    | zero => exact ⟨fun _ _ less => absurd less (by omega), fun _ _ less => absurd less (by omega),
        fun _ _ less => absurd less (by omega)⟩
    | succ g =>
      obtain ⟨references, tails, args⟩ := ih g
      exact ⟨reference_steady owned references tails, classTail_steady tails args,
        arguments_steady references args⟩

end Types

/-! ## Declarations -/

section Declarations

theorem Steady.cons {α : Type} {same : Prop} {n k : Nat} {item item' : Reader α}
    {items items' : Reader (List α)} {z : Cursor α} {zs : Cursor (List α)} (first : Steady unknown same n k item item' z)
    (others : ∀ m, m + k ≤ n → Steady unknown same m 0 items items' zs) :
    Steady unknown same n k (fun s => item s >>= fun (v, rest) => items rest >>= fun (vs, rest) => .ok (v :: vs, rest))
      (fun s => item' s >>= fun (v, rest) => items' rest >>= fun (vs, rest) => .ok (v :: vs, rest))
      (Cursor.listOf id z zs) :=
  .bind first fun _ _ one m less => .bind (others m less) fun _ _ more _ _ =>
    .ok _ _ fun same => by rw [one same, more same]

variable {resolve resolve' : Resolve} {n f g : Nat}

theorem EachAfter.steady {α : Type} {same : Prop} {c : Char} {one one' : Nat → Reader α} {all all' : Nat → Reader (List α)}
    {z : Nat → Cursor α} (h : EachAfter c one all) (h' : EachAfter c one' all') (small : c.toNat < 128)
    (items : ∀ {n f g}, n < f + 1 → n < g + 1 → Steady unknown same n 0 (one (f + 1)) (one' (g + 1)) (z (f + 1)))
    (short : n < f) (short' : n < g) : Steady unknown same n 0 (all f) (all' g) (Cursor.eachAfter c z f) := by
  induction f generalizing n g with
  | zero => omega
  | succ f ih =>
    obtain ⟨g, rfl⟩ := Nat.exists_eq_add_one_of_ne_zero (Nat.ne_zero_of_lt short')
    refine .head (by simpa using small) (by omega)
      ⟨by rw [h.none _ _ (by simp)]; rfl, .inr ⟨rfl, [], [], fun _ => rfl, h.none _ _ (by simp), h'.none _ _ (by simp)⟩⟩ ?_
      (.ok [] [] fun _ => rfl) fun k rest other => ⟨h.none _ _ (by simpa using other), h'.none _ _ (by simpa using other)⟩
    intro k key m less
    obtain rfl := List.mem_singleton.mp key
    rw [funext (h.more f), funext (h'.more g)]
    exact .cons (items (by omega) (by omega)) fun m' less' => ih (by omega) (by omega)

theorem formalParameters_other (fuel : Nat) {c : Char} (other : c ≠ '>') (rest : List Char) :
    formalParameters resolve (fuel + 1) (c :: rest) =
      (formalParameter resolve (fuel + 1) (c :: rest) >>= fun (p, rest) =>
        formalParameters resolve fuel rest >>= fun (ps, rest) => .ok (p :: ps, rest)) := by
  rw [formalParameters]
  · exact List.cons_ne_nil _ _
  · exact fun _ same => other (List.cons.inj same).1

theorem parameterTypes_other (fuel : Nat) {c : Char} (other : c ≠ ')') (rest : List Char) :
    parameterTypes resolve (fuel + 1) (c :: rest) =
      (javaType resolve (fuel + 1) (c :: rest) >>= fun (t, rest) =>
        parameterTypes resolve fuel rest >>= fun (ts, rest) => .ok (t :: ts, rest)) := by
  rw [parameterTypes]
  · exact List.cons_ne_nil _ _
  · exact fun _ same => other (List.cons.inj same).1

variable (owned : Owned resolve resolve')
include owned

theorem reference_key (f g : Nat) (short : n < f) (short' : n < g) {k : Char}
    (key : k ∈ ['L', 'T', '[']) :
    Typewise resolve resolve' n 0 (fun rest => reference resolve (f + 1) (k :: rest))
      (fun rest => reference resolve' (g + 1) (k :: rest))
      (Cursor.afterKey resolve (Cursor.javaType resolve f) (Cursor.classTail resolve f) k) := by
  obtain ⟨references, tails, -⟩ := types_steady owned f g
  exact reference_takes owned references tails short short' key

section

variable (short : n < f + 1) (short' : n < g + 1)
include short short'

theorem classType_steady :
    Typewise resolve resolve' n 1 (classType resolve (f + 1)) (classType resolve' (g + 1))
      (Cursor.only ['L'] "`L`" resolve (f + 1)) := by
  refine .head (by simp) le_rfl ⟨rfl, .inl ⟨_, rfl, rfl⟩⟩ ?_ (.mismatch "`L`") ?_
  · intro k key m less
    obtain rfl := List.mem_singleton.mp key
    exact reference_key owned f g (by omega) (by omega) List.mem_cons_self
  · intro c rest other
    unfold classType
    constructor <;> split <;> simp_all

theorem exceptionType_steady :
    Typewise resolve resolve' n 0 (exceptionType resolve (f + 1)) (exceptionType resolve' (g + 1))
      (Cursor.only ['L', 'T'] "exception type" resolve (f + 1)) := by
  refine .head (by simp) (by omega) ⟨rfl, .inl ⟨_, rfl, rfl⟩⟩ ?_ (.mismatch "exception type") ?_
  · intro k key m less
    have starts : k ∈ ['L', 'T', '['] := List.mem_append_left ['['] key
    simp only [List.mem_cons, List.not_mem_nil, or_false] at key
    rcases key with rfl | rfl
    all_goals exact reference_key owned f g (by omega) (by omega) starts
  · intro c rest other
    unfold exceptionType
    constructor <;> split <;> simp_all

theorem returnType_steady :
    Typewise resolve resolve' n 0 (returnType resolve (f + 1)) (returnType resolve' (g + 1))
      (Cursor.returnType resolve (f + 1)) := by
  have reads := javaType_steady (types_steady owned _ _).1 short short'
  refine .head (by simp) (by omega) ⟨reads.bytes (s := []) (Nat.zero_le n), .inl ⟨_, rfl, rfl⟩⟩ ?_ reads.weak ?_
  · intro k key m _
    obtain rfl := List.mem_singleton.mp key
    exact .ok _ _ fun _ => rfl
  · intro c rest other
    unfold returnType
    constructor <;> split <;> simp_all

theorem classBound_steady :
    Typewise resolve resolve' n 0 (classBound resolve (f + 1)) (classBound resolve' (g + 1))
      (Cursor.classBound resolve (f + 1)) := by
  refine .head (by simp) (by omega) ⟨rfl, .inr ⟨rfl, _, _, fun _ => rfl, rfl, rfl⟩⟩ ?_ (.ok none none fun _ => rfl) ?_
  · intro k key m less
    have starts (rest : List Char) : startsReference (k :: rest) = true := by
      rw [startsReference_cons]
      simpa using key
    simp only [classBound, starts, if_true]
    have bound := reference_key owned f g (n := m) (by omega) (by omega) key
    exact .bind bound fun t t' alike _ _ => .ok (some t) (some t') fun same => by rw [alike same]
  · intro c rest other
    have absent : startsReference (c :: rest) = false := by
      rw [startsReference_cons]
      simpa using other
    simp only [classBound, absent, Bool.false_eq_true, if_false, and_self]

theorem formalParameter_steady :
    Typewise resolve resolve' n 1 (formalParameter resolve (f + 1)) (formalParameter resolve' (g + 1))
      (Cursor.formalParameter resolve (f + 1)) := by
  rw [funext (formalParameter_eq (f + 1)), funext (formalParameter_eq (g + 1))]
  exact .bind (identifier_steady (by simp) _) fun _ _ name _ _ => .bind (expect_steady (by simp) _) fun _ _ _ _ _ =>
    .bind (classBound_steady owned (by omega) (by omega)) fun _ _ bound _ _ =>
      .bind ((interfaceBounds_each _).steady (interfaceBounds_each _) (by simp)
        (fun short short' => ((types_steady owned _ _).1 _ short short').weak) (by omega) (by omega)) fun _ _ interfaces _ _ =>
        .ok _ _ fun same => by rw [name same, bound same, interfaces same]

end

theorem formalParameters_steady (short : n < f) (short' : n < g) :
    Typewise resolve resolve' n 0 (formalParameters resolve f) (formalParameters resolve' g)
      (Cursor.formalParameters resolve f) := by
  induction f generalizing n g with
  | zero => omega
  | succ f ih =>
    obtain ⟨g, rfl⟩ := Nat.exists_eq_add_one_of_ne_zero (Nat.ne_zero_of_lt short')
    refine .head (by simp) (by omega) ⟨rfl, .inl ⟨_, rfl, rfl⟩⟩ ?_
      (.weak (.cons (formalParameter_steady owned short short') fun m less => ih (g := g) (by omega) (by omega))) ?_
    · intro k key m _
      obtain rfl := List.mem_singleton.mp key
      exact .ok [] [] fun _ => rfl
    · intro c rest other
      have other : c ≠ '>' := by simpa using other
      exact ⟨formalParameters_other f other rest, formalParameters_other g other rest⟩

theorem classTypes_steady (short : n < f) (short' : n < g) :
    Typewise resolve resolve' n 0 (classTypes resolve f) (classTypes resolve' g) (Cursor.classTypes resolve f) := by
  induction f generalizing n g with
  | zero => omega
  | succ f ih =>
    obtain ⟨g, rfl⟩ := Nat.exists_eq_add_one_of_ne_zero (Nat.ne_zero_of_lt short')
    exact .head (by simp) (by omega) ⟨rfl, .inr ⟨rfl, _, _, fun _ => rfl, rfl, rfl⟩⟩ (by simp)
      (.weak (.cons (classType_steady owned short short') fun m less => ih (g := g) (by omega) (by omega)))
      fun _ _ _ => ⟨rfl, rfl⟩

theorem parameterTypes_steady (short : n < f) (short' : n < g) :
    Typewise resolve resolve' n 0 (parameterTypes resolve f) (parameterTypes resolve' g)
      (Cursor.eachUntil [')'] (Cursor.refuse "`)`") (Cursor.javaType resolve) f) := by
  induction f generalizing n g with
  | zero => omega
  | succ f ih =>
    obtain ⟨g, rfl⟩ := Nat.exists_eq_add_one_of_ne_zero (Nat.ne_zero_of_lt short')
    have first := javaType_steady (types_steady owned (f + 1) (g + 1)).1 short short'
    refine .head (by simp) (by omega) ⟨rfl, .inl ⟨_, rfl, rfl⟩⟩ ?_
      (.weak (.cons first fun m less => ih (g := g) (by omega) (by omega))) ?_
    · intro k key m _
      obtain rfl := List.mem_singleton.mp key
      exact .ok [] [] fun _ => rfl
    · intro c rest other
      have other : c ≠ ')' := by simpa using other
      exact ⟨parameterTypes_other f other rest, parameterTypes_other g other rest⟩

end Declarations

/-! ## Whole signatures -/

section Whole

variable {scope : TypeScope} {owner : TypeVariableOwner} {n f g : Nat}

/-- Two runs of a reader that differ in their fuel only. -/
abbrev Fuelled {α : Type} (n : Nat) (x y : Reader α) (z : Cursor α) : Prop := Steady (fun _ => True) True n 0 x y z

theorem Steady.fuelled {α : Type} {resolve : Resolve} {k : Nat} {x y : Reader α} {z : Cursor α}
    (h : Typewise resolve resolve n k x y z) : Fuelled n x y z :=
  { h.weak with follows := fun short => (h.follows short).eq rfl ▸ .refl _ }

/-- The second reading stops where the first did, unless it finds a name without an owner. -/
theorem typeParameters_steady (short : n < f) (short' : n < g) :
    Fuelled n (typeParameters scope owner f) (typeParameters scope owner g) (Cursor.typeParameters scope owner f) := by
  refine .head (by simp) (by omega) ⟨rfl, .inr ⟨rfl, _, _, fun _ => rfl, rfl, rfl⟩⟩ ?_
    (.ok ([], resolveIn scope owner []) _ fun _ => rfl) ?_
  · intro k key m less
    obtain rfl := List.mem_singleton.mp key
    have reads (resolve : Resolve) : Fuelled m (formalParameters resolve f) (formalParameters resolve g)
        (Cursor.formalParameters resolve f) :=
      (formalParameters_steady (.inl rfl) (by omega) (by omega)).fuelled
    let resolve (collected : List FormalParameter) := resolveIn scope owner (collected.map (·.name))
    let reread (fuel : Nat) (collected : List FormalParameter) (s : List Char) :=
      formalParameters (resolve collected) fuel s >>= fun (ps, rest) => .ok ((ps, resolve collected), rest)
    refine .again (f := reread f) (g := reread g) (reads fun _ => some owner) ?_ ?_
    · intro collected collected' alike
      obtain rfl := alike trivial
      exact .bind (reads (resolve collected)) fun ps ps' alike _ _ => .ok _ _ fun same => by rw [alike same]
    · intro s collected rest rest' bounded found left
      have second : Typewise (resolve collected) (fun _ => some owner) m 0 (formalParameters (resolve collected) f)
          (formalParameters (fun _ => some owner) f) _ := formalParameters_steady (.inr fun _ => rfl) (by omega) (by omega)
      refine (second.follows bounded).left? found ?_
      rw [← left]
      dsimp only [reread]
      cases formalParameters (resolve collected) f s <;> rfl
  · intro c rest other
    unfold typeParameters
    constructor <;> split <;> simp_all

theorem supertypes_steady {resolve : Resolve} (parameters : List FormalParameter) (short : n < f + 1)
    (short' : n < g + 1) :
    let supertypes (fuel : Nat) (s : List Char) : Except Fault (Parsed ClassSignature) := do
      let (superclass, s) ← classType resolve fuel s
      let (interfaces, s) ← classTypes resolve fuel s
      .ok (⟨parameters, some superclass, interfaces⟩, s)
    Typewise resolve resolve n 0 (supertypes (f + 1)) (supertypes (g + 1)) (Cursor.supertypes resolve parameters (f + 1)) :=
  .bind (classType_steady (.inl rfl) (by omega) (by omega)).weak fun _ _ superclass m' less' =>
    .bind (classTypes_steady (.inl rfl) (by omega) (by omega)) fun _ _ interfaces _ _ =>
      .ok _ _ fun same => by rw [superclass same, interfaces same]

theorem methodTypes_steady {resolve : Resolve} (formals : List FormalParameter) (short : n < f + 1)
    (short' : n < g + 1) :
    let types (fuel : Nat) (s : List Char) : Except Fault (Parsed MethodSignature) := do
      let (_, s) ← expect '(' "`(`" s
      let (parameters, s) ← parameterTypes resolve fuel s
      let (result, s) ← returnType resolve fuel s
      let (exceptions, s) ← exceptionTypes resolve fuel s
      .ok (⟨formals, parameters, result, exceptions⟩, s)
    Typewise resolve resolve n 0 (types (f + 1)) (types (g + 1)) (Cursor.methodTypes resolve formals (f + 1)) :=
  .bind (expect_steady (by simp) _).weak fun _ _ _ m' less' =>
    .bind (parameterTypes_steady (.inl rfl) (by omega) (by omega)) fun _ _ parameters _ _ =>
      .bind (returnType_steady (.inl rfl) (by omega) (by omega)) fun _ _ result _ _ =>
        .bind ((exceptionTypes_each _).steady (exceptionTypes_each _) (by simp) (exceptionType_steady (.inl rfl)) (by omega)
          (by omega)) fun _ _ exceptions _ _ =>
          .ok _ _ fun same => by rw [parameters same, result same, exceptions same]

theorem classSignature_steady (short : n < f + 1) (short' : n < g + 1) :
    Fuelled n (classSignature scope owner (f + 1)) (classSignature scope owner (g + 1))
      (Cursor.classSignature scope owner (f + 1)) := by
  refine .bind (j := 0) (typeParameters_steady short short') fun ⟨parameters, resolve⟩ declared' alike m less => ?_
  obtain rfl := alike trivial
  exact (supertypes_steady parameters (by omega) (by omega)).fuelled

theorem methodSignature_steady (short : n < f + 1) (short' : n < g + 1) :
    Fuelled n (methodSignature scope owner (f + 1)) (methodSignature scope owner (g + 1))
      (Cursor.methodSignature scope owner (f + 1)) := by
  refine .bind (j := 0) (typeParameters_steady short short') fun ⟨formals, resolve⟩ declared' alike m less => ?_
  obtain rfl := alike trivial
  exact (methodTypes_steady formals (by omega) (by omega)).fuelled

end Whole

end ClassAtlas.Signature
