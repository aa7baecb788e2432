import XCore.Lua.Number

/-!
# `table.equal` (`utils.lua`)

Tables have an identity (`Ref`), so that they may be shared; those that `table.equal` is for have scalars as keys, no
metatables, and paths of bounded length (`Acyclic`).

The function asks for a missing key with `not b[k]`, which is also true of `false`, and it compares with `~=`, by which
NaN differs from itself. Two references to one table are equal before any of this is asked.

- `equal`: the function, with some depth of recursion;
- `Same`: structural equality;
- `Reaches`: a `false` or a NaN that the comparison comes to;
- `equal_spec`: what the function returns, and `equal_exact`: when this is right.
-/

namespace XCore.Utils.Equal

open XCore.Lua

/-! ## Values -/

/-- A NaN: the exponent is all ones and the mantissa is not zero. -/
def isNaN : Number → Bool
  | .int _ => false
  | .flt b => 0x7ff0000000000000 < b &&& 0x7fffffffffffffff

/-- A float with an integral value as an integer (`luaV_tointeger`), so that equal numbers are the same. -/
def canon (n : Number) : Number := match n.toInteger with
  | some i => .int i
  | none => n

/-- A value that is no table. -/
inductive Scalar
  | bool (b : Bool)
  | num (n : Number)
  | str (s : Bytes)
  deriving DecidableEq

namespace Scalar

/-- `==` (`luaV_equalobj`): a NaN is equal to nothing. -/
def eq : Scalar → Scalar → Bool
  | bool b, bool c => b = c
  | num n, num m => !isNaN n && !isNaN m && canon n = canon m
  | str s, str t => s = t
  | _, _ => false

/-- A NaN. -/
def nan : Scalar → Bool
  | num n => isNaN n
  | _ => false

/-- The same value: equal, or NaN both. -/
def Same (x y : Scalar) : Prop := x.eq y = true ∨ x.nan = true ∧ y.nan = true

/-- The values that `table.equal` takes for missing or different: `false` and NaN. -/
def Lost (x : Scalar) : Prop := x = bool false ∨ x.nan = true

theorem eq_symm {x y : Scalar} (h : x.eq y = true) : y.eq x = true := by
  cases x with
  | bool b =>
    cases y with
    | bool c => exact decide_eq_true (of_decide_eq_true h).symm
    | num | str => cases h
  | num n =>
    cases y with
    | num m =>
      simp only [eq, Bool.and_eq_true, decide_eq_true_eq] at h ⊢
      exact ⟨⟨h.1.2, h.1.1⟩, h.2.symm⟩
    | bool | str => cases h
  | str s =>
    cases y with
    | str t => exact decide_eq_true (of_decide_eq_true h).symm
    | bool | num => cases h

theorem Same.symm {x y : Scalar} (h : x.Same y) : y.Same x := by
  rcases h with h | ⟨hx, hy⟩
  · exact .inl (eq_symm h)
  · exact .inr ⟨hy, hx⟩

theorem Same.refl : ∀ x : Scalar, x.Same x
  | bool _ => .inl (decide_eq_true rfl)
  | str _ => .inl (decide_eq_true rfl)
  | num n => by
    cases hn : isNaN n with
    | true => exact .inr ⟨hn, hn⟩
    | false => exact .inl (by simp only [eq, hn, Bool.not_false, Bool.and_self, decide_true])

theorem not_nan_of_eq {x y : Scalar} (h : x.eq y = true) : x.nan = false := by
  cases x with
  | num n =>
    cases y with
    | num m =>
      simp only [eq, Bool.and_eq_true, Bool.not_eq_true'] at h
      exact h.1.1
    | bool | str => cases h
  | bool | str => rfl

/-- What is the same as a lost value is lost. -/
theorem Lost.of_same {x y : Scalar} (hx : x.Lost) (h : x.Same y) : y.Lost := by
  rcases hx with rfl | hx
  · rcases h with h | ⟨hx, -⟩
    · cases y with
      | bool b => exact .inl (congrArg bool (of_decide_eq_true h).symm)
      | num | str => cases h
    · cases hx
  · rcases h with h | ⟨-, hy⟩
    · rw [not_nan_of_eq h] at hx
      cases hx
    · exact .inr hy

end Scalar

/-- The identity of a table. -/
abbrev Ref := Nat

/-- A value of a field. -/
inductive Value
  | scalar (x : Scalar)
  | tab (r : Ref)

/-- The tables, by their fields in the order of `pairs`; a key stands once and is stored as `canon` has it. -/
structure Tables where
  fields : Ref → List (Scalar × Value)
  nodup : ∀ r, ((fields r).map Prod.fst).Nodup
  stored : ∀ r k v, (k, v) ∈ fields r → ∀ n, k = .num n → canon n = n ∧ isNaN n = false

/-- `t[k]`. -/
def Tables.get (H : Tables) (r : Ref) (k : Scalar) : Option Value := (H.fields r).lookup k

/-- Every path from a table has at most so many edges. -/
def Tables.Within (H : Tables) : Nat → Ref → Prop
  | 0, r => ∀ k s, H.get r k ≠ some (.tab s)
  | n + 1, r => ∀ k s, H.get r k = some (.tab s) → H.Within n s

/-- A finite acyclic table: its paths have a bounded length. -/
def Tables.Acyclic (H : Tables) (r : Ref) : Prop := ∃ n, H.Within n r

/-! ## The function -/

/-- `b[k] ~= v` for a value that is no table. -/
def neScalar (w : Value) (x : Scalar) : Bool := match w with
  | .scalar y => !y.eq x
  | .tab _ => true

/-- A loop over the fields of one table: whether the other has the same ones. -/
def agree (equal : Value → Value → Option Bool) (get : Scalar → Option Value) : List (Scalar × Value) → Option Bool
  | [] => some true
  | (k, v) :: rest =>
    match get k with
    | none => some false
    | some (.scalar (.bool false)) => some false
    | some w =>
      match v with
      | .tab _ => do if ← equal v w then agree equal get rest else some false
      | .scalar x => if neScalar w x then some false else agree equal get rest

/-- `table.equal`, with some depth of recursion; a result nil is `false`. -/
def equal (H : Tables) : Nat → Value → Value → Option Bool
  | 0, _, _ => none
  | n + 1, .tab a, .tab b =>
    if a = b then some true
    else do
      if ← agree (equal H n) (H.get b) (H.fields a) then agree (equal H n) (H.get a) (H.fields b) else some false
  | _ + 1, _, _ => some false

/-- `table.equal(a, b)` returns `r`. -/
def Returns (H : Tables) (a b : Ref) (r : Bool) : Prop := ∃ n, equal H n (.tab a) (.tab b) = some r

/-! ## Structural equality -/

/-- The same scalars, or tables with the same keys and structurally equal values. -/
inductive Same (H : Tables) : Value → Value → Prop
  | scalar {x y : Scalar} (h : x.Same y) : Same H (.scalar x) (.scalar y)
  | tab {a b : Ref} (hkeys : ∀ k, (H.get a k).isSome = (H.get b k).isSome)
    (hvals : ∀ k v w, H.get a k = some v → H.get b k = some w → Same H v w) : Same H (.tab a) (.tab b)

/-- The comparison comes to a lost value: along keys of both, through tables that are not one. -/
inductive Reaches (H : Tables) : Ref → Ref → Prop
  | here {a b : Ref} {k : Scalar} {x : Scalar} (hne : a ≠ b) (hx : H.get a k = some (.scalar x)) (hlost : x.Lost) :
      Reaches H a b
  | inside {a b s t : Ref} {k : Scalar} (hne : a ≠ b) (hs : H.get a k = some (.tab s)) (ht : H.get b k = some (.tab t))
    (h : Reaches H s t) : Reaches H a b

section Same

variable {H : Tables} {a b : Ref} {v w : Value}

theorem Same.symm (h : Same H v w) : Same H w v := by
  induction h with
  | scalar h => exact .scalar h.symm
  | tab hkeys _ ih => exact .tab (fun k => (hkeys k).symm) fun k v w hv hw => ih k w v hw hv

theorem Same.refl : ∀ {n : Nat} {r : Ref}, H.Within n r → Same H (.tab r) (.tab r)
  | n, r, h => .tab (fun _ => rfl) fun k v w hv hw => by
    obtain rfl := Option.some.inj (hv.symm.trans hw)
    cases v with
    | scalar x => exact .scalar (Scalar.Same.refl x)
    | tab s =>
      cases n with
      | zero => exact absurd hv (h k s)
      | succ n => exact Same.refl (h k s hv)

theorem Reaches.symm (h : Reaches H a b) (hs : Same H (.tab a) (.tab b)) : Reaches H b a := by
  induction h with
  | @here a b k x hne hx hlost =>
    cases hs with
    | tab hkeys hvals =>
      have hsome : (H.get b k).isSome := by
        rw [← hkeys k, hx]
        rfl
      obtain ⟨w, hw⟩ := Option.isSome_iff_exists.1 hsome
      have hvw := hvals k _ w hx hw
      cases hvw with
      | scalar hxy => exact .here hne.symm hw (hlost.of_same hxy)
  | @inside a b s t k hne hs' ht _ ih =>
    cases hs with
    | tab _ hvals => exact .inside hne.symm ht hs' (ih (hvals k _ _ hs' ht))

end Same

/-! ## What the function returns -/

/-- A value that a loop accepts for another. -/
def Accepts (Q : Value → Value → Prop) (v w : Value) : Prop :=
  w ≠ .scalar (.bool false) ∧ match v with
    | .tab _ => Q v w
    | .scalar x => neScalar w x = false

/-- Two tables that the function finds equal. -/
def Found (H : Tables) (v w : Value) : Prop := ∃ s t, v = .tab s ∧ w = .tab t ∧ Same H v w ∧ ¬Reaches H s t

section Spec

variable {H : Tables} {a b : Ref} {equal' : Value → Value → Option Bool} {get : Scalar → Option Value}
    {Q : Value → Value → Prop}

theorem mem_iff_lookup {k : Scalar} {v : Value} : ∀ {l : List (Scalar × Value)}, (l.map Prod.fst).Nodup →
    ((k, v) ∈ l ↔ l.lookup k = some v)
  | [], _ => iff_of_false List.not_mem_nil fun h => by cases h
  | (k', v') :: l, hnd => by
    obtain ⟨hnot, hnd'⟩ := List.nodup_cons.1 hnd
    rw [List.mem_cons, mem_iff_lookup hnd', List.lookup_cons]
    by_cases hk : k = k'
    · subst hk
      have hnone : l.lookup k ≠ some v := fun h => hnot (List.mem_map.2 ⟨(k, v), (mem_iff_lookup hnd').2 h, rfl⟩)
      simp only [hnone, or_false, beq_self_eq_true, Prod.mk.injEq, true_and, Option.some.injEq]
      exact eq_comm
    · have hne : (k == k') = false := beq_eq_false_iff_ne.2 hk
      simp only [hne, Prod.mk.injEq, hk, false_and, false_or]

theorem Tables.mem_fields {k : Scalar} {v : Value} : (k, v) ∈ H.fields a ↔ H.get a k = some v :=
  mem_iff_lookup (H.nodup a)

/-- **A loop**, when the calls return what they should. -/
theorem agree_spec : ∀ l : List (Scalar × Value),
    (∀ k s w, (k, .tab s) ∈ l → get k = some w → ∃ r, equal' (.tab s) w = some r ∧ (r = true ↔ Q (.tab s) w)) →
    ∃ r, agree equal' get l = some r ∧ (r = true ↔ ∀ k v, (k, v) ∈ l → ∃ w, get k = some w ∧ Accepts Q v w)
  | [], _ => ⟨true, rfl, iff_of_true rfl fun _ _ h => absurd h List.not_mem_nil⟩
  | (k, v) :: rest, hcall => by
    obtain ⟨r, hr, hiff⟩ := agree_spec rest fun k s w hmem => hcall k s w (List.mem_cons_of_mem _ hmem)
    -- the first field decides, or the rest does
    have hstop (hno : ¬∃ w, get k = some w ∧ Accepts Q v w) :
        (false = true ↔ ∀ k' v', (k', v') ∈ (k, v) :: rest → ∃ w, get k' = some w ∧ Accepts Q v' w) :=
      iff_of_false Bool.false_ne_true fun h => hno (h k v List.mem_cons_self)
    have hgo (hyes : ∃ w, get k = some w ∧ Accepts Q v w) :
        (r = true ↔ ∀ k' v', (k', v') ∈ (k, v) :: rest → ∃ w, get k' = some w ∧ Accepts Q v' w) := by
      rw [hiff]
      constructor
      · intro h k' v' hmem
        rcases List.mem_cons.1 hmem with heq | hmem
        · cases heq
          exact hyes
        · exact h k' v' hmem
      · exact fun h k' v' hmem => h k' v' (List.mem_cons_of_mem _ hmem)
    unfold agree
    split
    · next hget =>
      refine ⟨false, rfl, hstop ?_⟩
      rintro ⟨w, hw, -⟩
      rw [hget] at hw
      cases hw
    · next hget =>
      refine ⟨false, rfl, hstop ?_⟩
      rintro ⟨w, hw, hne, -⟩
      exact hne (Option.some.inj (hw.symm.trans hget))
    · next w hne hget =>
      have hw : w ≠ .scalar (.bool false) := hne
      have honly {P : Value → Prop} : (∃ w', get k = some w' ∧ P w') ↔ P w := by
        constructor
        · rintro ⟨w', hw', hp⟩
          rwa [← Option.some.inj (hw'.symm.trans hget)]
        · exact fun hp => ⟨w, hget, hp⟩
      rw [honly] at hstop hgo
      cases v with
      | tab s =>
        obtain ⟨r', hr', hq⟩ := hcall k s w List.mem_cons_self hget
        dsimp only
        rw [hr']
        cases r' with
        | true => exact ⟨r, hr, hgo ⟨hw, hq.1 rfl⟩⟩
        | false => exact ⟨false, rfl, hstop fun h => absurd (hq.2 h.2) Bool.false_ne_true⟩
      | scalar x =>
        dsimp only
        cases hx : neScalar w x with
        | true =>
          refine ⟨false, rfl, hstop fun h => ?_⟩
          have h2 : neScalar w x = false := h.2
          rw [hx] at h2
          cases h2
        | false => exact ⟨r, hr, hgo ⟨hw, hx⟩⟩

/-- A scalar is accepted for one that is the same, unless it is lost. -/
theorem accepts_scalar {x : Scalar} {w : Value} : Accepts Q (.scalar x) w ↔ Same H (.scalar x) w ∧ ¬x.Lost := by
  cases w with
  | tab r =>
    refine iff_of_false (fun h => ?_) fun h => by cases h.1
    exact Bool.noConfusion (show true = false from h.2)
  | scalar y =>
    constructor
    · rintro ⟨hfalse, hne⟩
      have hyx : y.eq x = true := by
        have hne : (!y.eq x) = false := hne
        rwa [Bool.not_eq_false'] at hne
      refine ⟨.scalar (.inl (Scalar.eq_symm hyx)), ?_⟩
      rintro (rfl | hnan)
      · cases y with
        | bool c => exact hfalse (by rw [of_decide_eq_true hyx])
        | num | str => cases hyx
      · rw [Scalar.not_nan_of_eq (Scalar.eq_symm hyx)] at hnan
        cases hnan
    · rintro ⟨hsame, hlost⟩
      cases hsame with
      | scalar hxy =>
        rcases hxy with heq | ⟨hnan, -⟩
        · refine ⟨fun h => hlost (Scalar.Lost.of_same (.inl ?_) (Scalar.Same.symm (.inl heq))), ?_⟩
          · cases h
            rfl
          · show (!y.eq x) = false
            rw [Scalar.eq_symm heq]
            rfl
        · exact absurd (.inr hnan) hlost

/-- What is accepted is the same. -/
theorem same_of_accepts {v w : Value} (h : Accepts (Found H) v w) : Same H v w := by
  cases v with
  | scalar x => exact (accepts_scalar.1 h).1
  | tab s =>
    obtain ⟨_, _, -, -, hsame, -⟩ := h.2
    exact hsame

/-- Under structural equality a loop accepts all fields, if nothing is lost. -/
theorem accepted_of_same (hne : a ≠ b) (hsame : Same H (.tab a) (.tab b)) (hno : ¬Reaches H a b)
    {k : Scalar} {v : Value} (hv : H.get a k = some v) : ∃ w, H.get b k = some w ∧ Accepts (Found H) v w := by
  cases hsame with
  | tab hkeys hvals =>
    have hsome : (H.get b k).isSome := by
      rw [← hkeys k, hv]
      rfl
    obtain ⟨w, hw⟩ := Option.isSome_iff_exists.1 hsome
    have hvw := hvals k v w hv hw
    refine ⟨w, hw, ?_⟩
    cases v with
    | scalar x => exact accepts_scalar.2 ⟨hvw, fun hlost => hno (.here hne hv hlost)⟩
    | tab s =>
      cases hvw with
      | @tab _ t hkeys' hvals' =>
        exact ⟨fun h => (by cases h), s, t, rfl, rfl, .tab hkeys' hvals', fun h => hno (.inside hne hv hw h)⟩

/-- **One step of the comparison**, of two tables that are not one. -/
theorem found_tab (hne : a ≠ b) : Found H (.tab a) (.tab b) ↔
    (∀ k v, H.get a k = some v → ∃ w, H.get b k = some w ∧ Accepts (Found H) v w) ∧
    (∀ k w, H.get b k = some w → ∃ v, H.get a k = some v ∧ Accepts (Found H) w v) := by
  constructor
  · rintro ⟨_, _, ha, hb, hsame, hno⟩
    cases ha
    cases hb
    exact ⟨fun _ _ => accepted_of_same hne hsame hno,
      fun _ _ => accepted_of_same hne.symm hsame.symm fun h => hno (h.symm hsame.symm)⟩
  · rintro ⟨h1, h2⟩
    refine ⟨a, b, rfl, rfl, .tab (fun k => ?_) fun k v w hv hw => ?_, fun hreach => ?_⟩
    · cases hv : H.get a k with
      | some v =>
        obtain ⟨w, hw, -⟩ := h1 k v hv
        rw [hw]
        rfl
      | none =>
        cases hw : H.get b k with
        | none => rfl
        | some w =>
          obtain ⟨v, hv', -⟩ := h2 k w hw
          rw [hv] at hv'
          cases hv'
    · obtain ⟨w', hw', hacc⟩ := h1 k v hv
      obtain rfl := Option.some.inj (hw.symm.trans hw')
      exact same_of_accepts hacc
    · cases hreach with
      | @here _ _ k x _ hx hlost =>
        obtain ⟨w, -, hacc⟩ := h1 k _ hx
        exact ((accepts_scalar (H := H)).1 hacc).2 hlost
      | @inside _ _ s t k _ hs ht hreach =>
        obtain ⟨w, hw, hacc⟩ := h1 k _ hs
        obtain rfl := Option.some.inj (hw.symm.trans ht)
        obtain ⟨s', t', hs', ht', -, hno⟩ := hacc.2
        cases hs'
        cases ht'
        exact hno hreach

/-- **`table.equal`**: of tables whose paths are bounded it is true if they are structurally equal and nothing is
lost. -/
theorem equal_spec : ∀ (n : Nat) {a : Ref} {w : Value}, H.Within n a → (∀ b, w = .tab b → H.Within n b) →
    ∃ r, equal H (n + 1) (.tab a) w = some r ∧ (r = true ↔ Found H (.tab a) w)
  | n, a, .scalar x, _, _ => by
    refine ⟨false, rfl, iff_of_false Bool.false_ne_true ?_⟩
    rintro ⟨s, t, -, h, -⟩
    cases h
  | n, a, .tab b, ha, hb => by
    unfold equal
    by_cases hab : a = b
    · subst hab
      rw [if_pos rfl]
      refine ⟨true, rfl, iff_of_true rfl ⟨a, a, rfl, rfl, Same.refl ha, fun h => ?_⟩⟩
      cases h with
      | here hne => exact hne rfl
      | inside hne => exact hne rfl
    · rw [if_neg hab]
      -- the calls for the values go one level down
      have hcall {a b : Ref} (ha : H.Within n a) (hb : H.Within n b) : ∀ k s w, (k, .tab s) ∈ H.fields a →
          H.get b k = some w →
          ∃ r, equal H n (.tab s) w = some r ∧ (r = true ↔ Found H (.tab s) w) := by
        intro k s w hs hw
        have hs := Tables.mem_fields.1 hs
        cases n with
        | zero => exact absurd hs (ha k s)
        | succ n => exact equal_spec n (ha k s hs) fun t ht => hb k t (ht ▸ hw)
      have hb := hb b rfl
      obtain ⟨r₁, hr₁, h₁⟩ := agree_spec (H.fields a) (hcall ha hb)
      obtain ⟨r₂, hr₂, h₂⟩ := agree_spec (H.fields b) (hcall hb ha)
      simp only [Tables.mem_fields] at h₁ h₂
      rw [found_tab hab, ← h₁, ← h₂, hr₁]
      cases r₁ with
      | true => exact ⟨r₂, hr₂, (and_iff_right rfl).symm⟩
      | false => exact ⟨false, rfl, iff_of_false Bool.false_ne_true fun h => Bool.false_ne_true h.1⟩

/-- More depth does not change the result of a loop, -/
theorem agree_mono {equal'' : Value → Value → Option Bool}
    (hmono : ∀ v w r, equal' v w = some r → equal'' v w = some r) :
    ∀ {l : List (Scalar × Value)} {r : Bool}, agree equal' get l = some r → agree equal'' get l = some r
  | [], _, h => h
  | (k, v) :: rest, r, h => by
    unfold agree at h ⊢
    split at h
    · exact h
    · exact h
    · next w _ _ =>
      cases v with
      | scalar x =>
        dsimp only at h ⊢
        by_cases hx : neScalar w x = true
        · rw [if_pos hx] at h ⊢
          exact h
        · rw [if_neg hx] at h ⊢
          exact agree_mono hmono h
      | tab s =>
        dsimp only at h ⊢
        obtain ⟨r', hr', h⟩ := Option.bind_eq_some_iff.1 h
        rw [hmono _ _ _ hr']
        cases r' with
        | true => exact agree_mono hmono h
        | false => exact h

/-- or that of the function. -/
theorem equal_mono : ∀ {n : Nat} {v w : Value} {r : Bool}, equal H n v w = some r → equal H (n + 1) v w = some r
  | n + 1, .tab a, .tab b, r, h => by
    unfold equal at h ⊢
    by_cases hab : a = b
    · rw [if_pos hab] at h ⊢
      exact h
    · rw [if_neg hab] at h ⊢
      obtain ⟨r₁, hr₁, h⟩ := Option.bind_eq_some_iff.1 h
      have hmono : ∀ v w r, equal H n v w = some r → equal H (n + 1) v w = some r := fun _ _ _ h => equal_mono h
      rw [agree_mono hmono hr₁]
      cases r₁ with
      | true => exact agree_mono hmono h
      | false => exact h
  | _ + 1, .scalar _, _, _, h => h
  | _ + 1, .tab _, .scalar _, _, h => h

theorem equal_mono_le {n m : Nat} (hle : n ≤ m) {v w : Value} {r : Bool} (h : equal H n v w = some r) :
    equal H m v w = some r := by
  induction hle with
  | refl => exact h
  | step _ ih => exact equal_mono ih

theorem Returns.unique {r r' : Bool} (h : Returns H a b r) (h' : Returns H a b r') : r = r' := by
  obtain ⟨n, hn⟩ := h
  obtain ⟨m, hm⟩ := h'
  have h1 := equal_mono_le (Nat.le_max_left n m) hn
  have h2 := equal_mono_le (Nat.le_max_right n m) hm
  exact Option.some.inj (h1.symm.trans h2)

theorem Tables.Within.mono {n m : Nat} (hle : n ≤ m) {r : Ref} (h : H.Within n r) : H.Within m r := by
  induction m generalizing n r with
  | zero => rwa [Nat.le_zero.1 hle] at h
  | succ m ih =>
    intro k s hs
    cases n with
    | zero => exact absurd hs (h k s)
    | succ n => exact ih (by omega) (h k s hs)

/-- The function returns, and what it returns. -/
theorem returns_iff (ha : H.Acyclic a) (hb : H.Acyclic b) :
    ∃ r, Returns H a b r ∧ (r = true ↔ Same H (.tab a) (.tab b) ∧ ¬Reaches H a b) := by
  obtain ⟨n, hn⟩ := ha
  obtain ⟨m, hm⟩ := hb
  obtain ⟨r, hr, hiff⟩ := equal_spec (max n m) (w := .tab b) (hn.mono (Nat.le_max_left n m)) fun b' hb' => by
    cases hb'
    exact hm.mono (Nat.le_max_right n m)
  refine ⟨r, ⟨_, hr⟩, hiff.trans ?_⟩
  constructor
  · rintro ⟨_, _, hs, ht, h⟩
    cases hs
    cases ht
    exact h
  · exact fun h => ⟨a, b, rfl, rfl, h⟩

end Spec

/-- The function returns, and it returns true iff the tables are structurally equal. -/
def EqualRight (H : Tables) (a b : Ref) : Prop :=
  (∃ r, Returns H a b r) ∧ ∀ r, Returns H a b r → (r = true ↔ Same H (.tab a) (.tab b))

/-- **When `table.equal` is right**: unless the tables are structurally equal and the comparison comes to a `false` or a
NaN. -/
theorem equal_exact (H : Tables) (a b : Ref) (ha : H.Acyclic a) (hb : H.Acyclic b) :
    EqualRight H a b ↔ (Same H (.tab a) (.tab b) → ¬Reaches H a b) := by
  obtain ⟨r, hr, hiff⟩ := returns_iff ha hb
  constructor
  · exact fun h hsame => (hiff.1 ((h.2 r hr).2 hsame)).2
  · intro h
    refine ⟨⟨r, hr⟩, fun r' hr' => ?_⟩
    rw [hr'.unique hr, hiff]
    exact ⟨fun h => h.1, fun hsame => ⟨hsame, h hsame⟩⟩

/-! ## Two tables with one field -/

/-- Tables `{x = v}`. -/
def single (v : Scalar) : Tables where
  fields _ := [(.str [120], .scalar v)]
  nodup _ := List.nodup_cons.2 ⟨List.not_mem_nil, List.nodup_nil⟩
  stored r k v h n hk := by
    obtain ⟨rfl, -⟩ := Prod.mk.inj (List.mem_singleton.1 h)
    cases hk

theorem single_get {v : Scalar} {r : Ref} {k : Scalar} {w : Value} (h : (single v).get r k = some w) :
    w = .scalar v := by
  have hmem := Tables.mem_fields.2 h
  exact (Prod.mk.inj (List.mem_singleton.1 hmem)).2

theorem single_acyclic (v : Scalar) (r : Ref) : (single v).Acyclic r :=
  ⟨0, fun _ _ h => by cases single_get h⟩

theorem single_same (v : Scalar) (a b : Ref) : Same (single v) (.tab a) (.tab b) :=
  .tab (fun _ => rfl) fun _ _ _ hv hw => by
    rw [single_get hv, single_get hw]
    exact .scalar (Scalar.Same.refl v)

/-- `{x = true}` and another `{x = true}`. -/
theorem equal_exact_true : EqualRight (single (.bool true)) 0 1 := by
  refine (equal_exact _ 0 1 (single_acyclic _ 0) (single_acyclic _ 1)).2 fun _ h => ?_
  cases h with
  | here _ hx hlost =>
    cases single_get hx
    rcases hlost with h | h <;> cases h
  | inside _ hs => cases single_get hs

/-- `table.equal({x = false}, {x = false})` is not true. -/
theorem equal_false : ¬∀ (H : Tables) (a b : Ref), H.Acyclic a → H.Acyclic b → EqualRight H a b := by
  intro h
  have hret : Returns (single (.bool false)) 0 1 false := ⟨1, rfl⟩
  exact Bool.false_ne_true
    (((h _ 0 1 (single_acyclic _ 0) (single_acyclic _ 1)).2 false hret).2 (single_same (.bool false) 0 1))

end XCore.Utils.Equal
