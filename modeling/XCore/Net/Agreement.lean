import XCore.Net.Wire

/-!
# The schemas on which Lua and C# agree

Strings and lists of base types have other lengths in C# than in Lua, structures outside of lists do not compile, and a
C# reader does not come to the end of a list of 256 structures. So every field that is not a number of fixed width has a
value for which the exports do not agree.

- `exists_decisive`: this value;
- `widths_of_runs`: up to the first such field the exports agree, and there they do not;
- `wire_agrees_iff`: the schemas for which they agree for all messages.
-/

namespace XCore.Net

open XCore.Lua

/-! ## Schemas on which they agree -/

/-- The bytes of a field that is a number of fixed width. -/
def fixedWidth (a : Arg) : Option Nat :=
  match TYPE_EXPORT_LUA a.argtype, a.argnum with
  | some prim, none => (fmtOf prim).map Fmt.size
  | _, _ => none

/-- The bytes of fields that all are numbers of fixed width. -/
def fixedWidths : List Arg → Option Nat
  | [] => some 0
  | a :: args => do
    let m ← fixedWidth a
    let n ← fixedWidths args
    some (m + n)

/-- Both exports know the types: `CheckType` accepts them, and no field is a `number`. -/
structure Known (Γ : NetType) (args : List Arg) : Prop where
  checked : Γ.Checked
  types {name : String} {args : List Arg} : Γ.types.lookup name = some args →
    ∀ a ∈ args, TYPE_EXPORT_LUA a.argtype ≠ some .Number
  fields : ∀ a ∈ args, TYPE_EXPORT_LUA a.argtype ≠ some .Number ∧
    (TYPE_EXPORT_LUA a.argtype = none → (Γ.types.lookup a.argtype).isSome)

section Schema

variable {Γ : NetType}

theorem exists_holds (fmt : Fmt) : ∃ x, fmt.Holds x := by
  cases fmt with
  | f => exact ⟨.flt (UInt64.ofNat (widen 0)), 0, ⟨by decide, by decide⟩, rfl⟩
  | d => exact ⟨.flt 0, trivial⟩
  | _ => exact ⟨.int 0, by decide, by decide⟩

theorem fmtOf_eq_none {prim : Prim} (h : fmtOf prim = none) (hn : prim ≠ .Number) : prim = .String := by
  cases prim <;> first | rfl | exact absurd rfl hn | cases h

/-- Every base type has a scalar. -/
theorem exists_scalar {prim : Prim} (hn : prim ≠ .Number) : ∃ x, TypedScalar prim x := by
  cases hf : fmtOf prim with
  | some fmt =>
    obtain ⟨x, hx⟩ := exists_holds fmt
    exact ⟨.num x, fmt, hf, hx⟩
  | none => exact ⟨.str [], fmtOf_eq_none hf hn, "", rfl⟩

theorem exists_value {a : Arg} (hn : TYPE_EXPORT_LUA a.argtype ≠ some .Number) (hs : TYPE_EXPORT_LUA a.argtype = none →
    ∃ args, Γ.types.lookup a.argtype = some args ∧ Nonempty (Tuple typed Γ args)) : Nonempty (Value typed Γ a) := by
  cases hprim : TYPE_EXPORT_LUA a.argtype with
  | some prim =>
    have hne : prim ≠ .Number := fun he => hn (he ▸ hprim)
    cases hnum : a.argnum with
    | none =>
      obtain ⟨x, hx⟩ := exists_scalar hne
      exact ⟨.base prim hprim (.one x) (by rw [hnum]; exact hx)⟩
    | some m => exact ⟨.base prim hprim (.arr []) (by rw [hnum]; exact ⟨hne, by simp⟩)⟩
  | none =>
    obtain ⟨args, hargs, ⟨v⟩⟩ := hs hprim
    cases hnum : a.argnum with
    | none => exact ⟨.struct hprim hnum hargs v⟩
    | some m => exact ⟨.list hprim hnum hargs .nil⟩

theorem exists_tuple_of {args : List Arg} (h : ∀ a ∈ args, Nonempty (Value typed Γ a)) :
    Nonempty (Tuple typed Γ args) := by
  induction args with
  | nil => exact ⟨.nil⟩
  | cons a args ih =>
    obtain ⟨v⟩ := h a List.mem_cons_self
    obtain ⟨vs⟩ := ih fun b hb => h b (List.mem_cons_of_mem a hb)
    exact ⟨.cons v vs⟩

/-- Every type has a value: the induction is on the nesting of the types. -/
theorem exists_tuple {fields : List Arg} (hK : Known Γ fields) {name : String} {args : List Arg}
    (h : Γ.types.lookup name = some args) : Nonempty (Tuple typed Γ args) := by
  obtain ⟨rank, hrank⟩ := hK.checked
  induction hn : rank name using Nat.strong_induction_on generalizing name args with
  | _ n ih =>
    subst hn
    refine exists_tuple_of fun a ha => exists_value (hK.types h a ha) fun hprim => ?_
    obtain ⟨hsome, hlt⟩ := hrank h a ha hprim
    obtain ⟨args', hargs'⟩ := Option.isSome_iff_exists.1 hsome
    exact ⟨args', hargs', ih _ hlt hargs' rfl⟩

/-! ## Fields on which they do not agree -/

/-- A value of a base type that C# writes with a first byte 1, from which Lua reads another value. -/
def Misread {a : Arg} (w : Value typed Γ a) : Prop :=
  ∃ prim b, TYPE_EXPORT_LUA a.argtype = some prim ∧ w.val = .base b ∧
    (∀ {fuel s}, csWriteField (csWriteStruct Γ fuel) fuel a w.cs = some s → ∃ t, s = 1 :: t) ∧
    ∀ {d b' d'}, d.Carries [1] → readX prim a.argnum.isSome d = .ok (some b', d') → b' ≠ b

/-- A list of 256 structures. -/
def Endless {a : Arg} (w : Value typed Γ a) : Prop :=
  TYPE_EXPORT_LUA a.argtype = none ∧ a.argnum = some 0 ∧ ∃ t, w.val = .table t ∧ (ipairs t).length = 256

/-- A field of fixed width, or a value for which the exports do not agree: its constructor does not compile, it is not
written, it is read as another value, or it is not read to an end. -/
def Decisive {a : Arg} (w : Value typed Γ a) : Prop :=
  (∃ n, fixedWidth a = some n) ∨ initStruct a = true ∨
    (∀ fuel, csWriteField (csWriteStruct Γ fuel) fuel a w.cs = none) ∨ Misread w ∨ Endless w

/-- The byte at the cursor. -/
theorem unpackAt_one {d : ReadData} (hd : d.Carries [1]) : unpackAt 1 d = .ok (1, d.skip 1) :=
  unpackAt_carries Nat.one_pos (by decide) hd

/-- An array of one element is read as the element. -/
theorem readX_array_one {prim : Prim} (hn : prim ≠ .Number) {d : ReadData} {b : Base} {d' : ReadData}
    (hd : d.Carries [1]) (h : readX prim true d = .ok (some b, d')) : ∃ x, b = .one x := by
  have hcount : readCount true d = .ok (none, d) ∨ readCount true d = .ok (some 1, d.skip 1) := by
    rw [readCount, if_pos rfl]
    split
    · exact Or.inl rfl
    · exact Or.inr (bind_eq_ok.2 ⟨_, unpackAt_one hd, rfl⟩)
  -- Numbers and strings alike: nothing is read where there is no count, and one element for the count 1.
  have hread : ∀ {k : Option Nat × ReadData → Except LuaError (Option Base × ReadData)},
      (readCount true d >>= k) = .ok (some b, d') →
      k (none, d) = .ok (none, d) → (k (some 1, d.skip 1) = .ok (some b, d') → ∃ x, b = .one x) → ∃ x, b = .one x := by
    intro k h hnone hone
    obtain ⟨r, hr, h⟩ := bind_eq_ok.1 h
    rcases hcount with hc | hc
    · rw [hc] at hr
      cases hr
      cases hnone.symm.trans h
    · rw [hc] at hr
      cases hr
      exact hone h
  cases hf : fmtOf prim with
  | some fmt =>
    rw [readX_fmt hf, ReadPtoNumber] at h
    refine hread h rfl fun h => ?_
    simp only [↓reduceIte] at h
    split at h
    · cases h
    · obtain ⟨⟨x, d₁⟩, -, h⟩ := bind_eq_ok.1 h
      cases h
      exact ⟨_, rfl⟩
  | none =>
    obtain rfl := fmtOf_eq_none hf hn
    rw [readX, ReadPtoString] at h
    refine hread h rfl fun h => ?_
    simp only [↓reduceIte] at h
    split at h
    · cases h
    · obtain ⟨⟨x, d₁⟩, -, h⟩ := bind_eq_ok.1 h
      cases h
      exact ⟨_, rfl⟩

/-- The size 1 is that of the empty string. -/
theorem readX_string_one {d : ReadData} {b : Base} {d' : ReadData} (hd : d.Carries [1])
    (h : readX .String false d = .ok (some b, d')) : b = .one (.str []) := by
  have hread : readStr d = .ok ([], d.skip 1) := by
    have hsub : sub d.Data ((d.Pos + 1 : Nat) : Int) (((1 : Nat) : Int) - 1 + ((d.Pos + 1 : Nat) : Int) - 1) = [] := by
      have hstop : ((1 : Nat) : Int) - 1 + ((d.Pos + 1 : Nat) : Int) - 1 = (d.Pos : Nat) := by omega
      rw [hstop, sub_eq d.Data (Nat.le_add_left 1 d.Pos), Nat.sub_self, List.take_zero]
    have hnext : (((d.Pos + 1 : Nat) : Int) + (((1 : Nat) : Int) - 1)).toNat = d.Pos + 1 := by omega
    refine bind_eq_ok.2 ⟨_, unpackAt_one hd, bind_eq_ok.2 ⟨(1, d.skip 1), rfl, ?_⟩⟩
    simp only [ReadData.skip, ReadData.goto, hsub, hnext]
  rw [readX, ReadPtoString] at h
  obtain ⟨r, hr, h⟩ := bind_eq_ok.1 h
  cases hr
  simp only [↓reduceIte] at h
  split at h
  · cases h
  · rw [hread] at h
    cases h
    rfl

theorem dataTrans_string {t : String} (h : TYPE_EXPORT_LUA t = some .String) : dataTrans t = some .string := by
  unfold TYPE_EXPORT_LUA at h
  split at h <;> cases h
  rfl

/-- The string `a`. -/
theorem misread_string {a : Arg} (hprim : TYPE_EXPORT_LUA a.argtype = some .String) (hnum : a.argnum = none)
    (htyped : typed.Valid .String a.argnum.isSome (.one (.str [97]))) :
    Misread (.base .String hprim (.one (.str [97])) htyped : Value typed Γ a) := by
  refine ⟨.String, _, hprim, rfl, ?_, ?_⟩
  · intro fuel s hs
    have hsize : sevenBit 1 = [1] := by
      rw [sevenBit]
      rfl
    have hbytes : csWriteField (csWriteStruct Γ fuel) fuel a (.str [97]) = some (sevenBit 1 ++ [97]) := by
      rw [csWriteField, dataTrans_string hprim, hnum]
      rfl
    obtain rfl := Option.some.inj (hbytes.symm.trans hs)
    rw [hsize]
    exact ⟨_, rfl⟩
  · intro d b' d' hd h
    rw [hnum] at h
    rw [readX_string_one hd h]
    decide

/-- A list of one scalar. -/
theorem misread_array {a : Arg} {prim : Prim} (hprim : TYPE_EXPORT_LUA a.argtype = some prim) (hn : prim ≠ .Number)
    (hnum : a.argnum = some 0) : ∃ w : Value typed Γ a, Misread w := by
  obtain ⟨x, hx⟩ := exists_scalar hn
  have htyped : typed.Valid prim a.argnum.isSome (.arr [x]) := by
    rw [hnum]
    exact ⟨hn, by simpa using hx⟩
  refine ⟨.base prim hprim _ htyped, prim, _, hprim, rfl, ?_, ?_⟩
  · intro fuel s hs
    rw [Value.cs, csWriteField, hnum] at hs
    obtain ⟨t, -, hs⟩ := Option.bind_eq_some_iff.1 hs
    obtain ⟨u, -, rfl⟩ := Option.map_eq_some_iff.1 hs
    exact ⟨_, rfl⟩
  · intro d b' d' hd h
    rw [hnum] at h
    obtain ⟨y, rfl⟩ := readX_array_one hn hd h
    exact Base.noConfusion

/-- An empty list is no member and has no items. -/
theorem csWrite_empty {a : Arg} {m : Nat} (hnum : a.argnum = some (m + 1)) (fuel : Nat) :
    csWriteField (csWriteStruct Γ fuel) fuel a (.list []) = none := by
  rw [csWriteField, hnum]
  cases dataTrans a.argtype with
  | none => rfl
  | some t =>
    cases m with
    | zero =>
      cases t with
      | custom name =>
        cases fuel with
        | zero => rfl
        | succ fuel =>
          simp only [shape, csWriteItem, csWriteStruct, Option.bind_eq_bind, Option.bind_some]
          cases Γ.types.lookup name <;> rfl
      | _ => rfl
    | succ m => cases fuel <;> rfl

/-- The same structure `n` times. -/
def Elems.replicate {args : List Arg} (v : Tuple typed Γ args) : Nat → Elems typed Γ args
  | 0 => .nil
  | n + 1 => .cons v (Elems.replicate v n)

theorem Elems.length_replicate {args : List Arg} (v : Tuple typed Γ args) (n : Nat) :
    (Elems.replicate v n).length = n := by
  induction n with
  | zero => rfl
  | succ n ih => exact congrArg (· + 1) ih

/-- **Every field decides**: it is of fixed width, or has a value for which the exports do not agree. -/
theorem exists_decisive {args : List Arg} (hK : Known Γ args) {a : Arg} (ha : a ∈ args) :
    ∃ w : Value typed Γ a, Decisive w := by
  obtain ⟨hnumber, hknown⟩ := hK.fields a ha
  cases hprim : TYPE_EXPORT_LUA a.argtype with
  | some prim =>
    have hn : prim ≠ .Number := fun he => hnumber (he ▸ hprim)
    cases hnum : a.argnum with
    | none =>
      cases hf : fmtOf prim with
      | some fmt =>
        obtain ⟨x, hx⟩ := exists_holds fmt
        refine ⟨.base prim hprim (.one (.num x)) (by rw [hnum]; exact ⟨fmt, hf, hx⟩), Or.inl ⟨fmt.size, ?_⟩⟩
        simp only [fixedWidth, hprim, hnum, hf, Option.map_some]
      | none =>
        obtain rfl := fmtOf_eq_none hf hn
        have htyped : typed.Valid .String a.argnum.isSome (.one (.str [97])) := by
          rw [hnum]
          exact ⟨rfl, "a", by decide⟩
        exact ⟨_, Or.inr (Or.inr (Or.inr (Or.inl (misread_string hprim hnum htyped))))⟩
    | some m =>
      cases m with
      | zero =>
        obtain ⟨w, hw⟩ : ∃ w : Value typed Γ a, Misread w := misread_array hprim hn hnum
        exact ⟨w, Or.inr (Or.inr (Or.inr (Or.inl hw)))⟩
      | succ m =>
        have htyped : typed.Valid prim a.argnum.isSome (.arr []) := by
          rw [hnum]
          exact ⟨hn, by simp⟩
        exact ⟨.base prim hprim _ htyped, Or.inr (Or.inr (Or.inl (csWrite_empty hnum)))⟩
  | none =>
    obtain ⟨args', hargs⟩ := Option.isSome_iff_exists.1 (hknown hprim)
    obtain ⟨v⟩ := exists_tuple hK hargs
    cases hnum : a.argnum with
    | none =>
      refine ⟨.struct hprim hnum hargs v, ?_⟩
      cases ht : dataTrans a.argtype with
      | none => exact Or.inr (Or.inr (Or.inl fun fuel => by rw [Value.cs, csWriteField, ht]; rfl))
      | some t =>
        cases t with
        | custom name => exact Or.inr (Or.inl (by rw [initStruct, ht, hnum]; rfl))
        | _ => exact Or.inr (Or.inr (Or.inl fun fuel => by rw [Value.cs, csWriteField, ht, hnum]; rfl))
    | some m =>
      cases m with
      | zero =>
        refine ⟨.list hprim hnum hargs (Elems.replicate v 256),
          Or.inr (Or.inr (Or.inr (Or.inr ⟨hprim, hnum, _, rfl, ?_⟩)))⟩
        rw [Elems.ipairs_table, List.length_map, Elems.length_table, Elems.length_replicate]
      | succ m => exact ⟨.list hprim hnum hargs .nil, Or.inr (Or.inr (Or.inl (csWrite_empty hnum)))⟩

/-! ## What a writer has appended -/

section Out

variable {B O : Type} {W : Writes B O} {callR : String → Option ReadData → Except LuaError (Table B × Option ReadData)}
  {callW : String → Val B → World O → Except LuaError (World O)}

theorem writeElems_out {writer : Val B → World O → Except LuaError (World O)}
    (hW : ∀ {v w w'}, writer v w = .ok w' → w.out <+: w'.out) {l : List (Val B)} {w w' : World O}
    (h : writeElems writer l w = .ok w') : w.out <+: w'.out := by
  induction l generalizing w with
  | nil =>
    cases h
    exact List.prefix_rfl
  | cons v l ih =>
    obtain ⟨w₁, h1, h⟩ := bind_eq_ok.1 h
    exact (hW h1).trans (ih h)

theorem writeStmt_out (hW : ∀ {name v w w'}, callW name v w = .ok w' → w.out <+: w'.out) {st : WriteStmt}
    {data data' : Table B} {w w' : World O} (h : writeStmt W callR callW st data w = .ok (data', w')) :
    w.out <+: w'.out := by
  cases st with
  | write prim k argname =>
    obtain ⟨s, -, h⟩ := bind_eq_ok.1 h
    cases h
    exact List.prefix_append _ _
  | writeList k argname argtype =>
    rw [writeStmt] at h
    split at h
    · cases h
    · cases h
    · obtain ⟨s, -, h⟩ := bind_eq_ok.1 h
      obtain ⟨w₁, h1, h⟩ := bind_eq_ok.1 h
      cases h
      exact (List.prefix_append w.out s).trans (writeElems_out hW h1)
  | readStruct k argtype =>
    obtain ⟨r, -, h⟩ := bind_eq_ok.1 h
    cases h
    exact List.prefix_rfl

theorem writeCode_out (hW : ∀ {name v w w'}, callW name v w = .ok w' → w.out <+: w'.out) {code : List WriteStmt}
    {data data' : Table B} {w w' : World O} (h : writeCode W callR callW code data w = .ok (data', w')) :
    w.out <+: w'.out := by
  induction code generalizing data w with
  | nil =>
    cases h
    exact List.prefix_rfl
  | cons st code ih =>
    obtain ⟨⟨data₁, w₁⟩, h1, h⟩ := bind_eq_ok.1 h
    exact (writeStmt_out hW h1).trans (ih h)

/-- **A writer only appends.** -/
theorem callWriter_out {R : Reads B} {readers : String → Option (List ReadStmt)}
    {writers : String → Option (List WriteStmt)} {depth : Nat} {name : String} {v : Val B} {w w' : World O}
    (h : callWriter R W readers writers depth name v w = .ok w') : w.out <+: w'.out := by
  induction depth generalizing name v w w' with
  | zero => cases h
  | succ depth ih =>
    unfold callWriter at h
    cases hcode : writers name with
    | none =>
      rw [hcode] at h
      cases v <;> cases h
    | some code =>
      rw [hcode] at h
      cases v with
      | base b => cases h
      | table t =>
        obtain ⟨⟨data, w₁⟩, h1, h⟩ := bind_eq_ok.1 h
        cases h
        exact writeCode_out ih h1

end Out

/-- The pieces of a message up to the first nil. -/
def lead (t : List (Option Bytes)) : Bytes := (t.takeWhile Option.isSome).flatMap fun s => s.getD []

theorem lead_append {t u : List (Option Bytes)} (ht : ∀ s ∈ t, s.isSome = true) :
    lead (t ++ u) = (t.flatMap fun s => s.getD []) ++ lead u := by
  rw [lead, List.takeWhile_append_of_pos ht, List.flatMap_append]
  rfl

/-- With the first border these are what is concatenated. -/
theorem concat_first (t : List (Option Bytes)) : concat Border.first t = .ok (lead t) := by
  have htake : t.take (Border.first.len t) = t.takeWhile Option.isSome :=
    (List.prefix_iff_eq_take.1 (List.takeWhile_prefix _)).symm
  rw [concat, htake, lead]
  clear htake
  induction t with
  | nil => rfl
  | cons x t ih =>
    cases x with
    | none => rfl
    | some s =>
      rw [List.takeWhile_cons_of_pos rfl, concatAll, ih, List.flatMap_cons]
      rfl

/-! ## Schemas that agree -/

/-- A field of fixed width that has a number as its value. -/
structure IsFixed {a : Arg} (w : Value typed Γ a) (prim : Prim) (fmt : Fmt) (x : Number) : Prop where
  hprim : TYPE_EXPORT_LUA a.argtype = some prim
  argnum : a.argnum = none
  hfmt : fmtOf prim = some fmt
  holds : fmt.Holds x
  val : w.val = .base (.one (.num x))
  cs : w.cs = .num (bitsOf fmt x)

theorem isFixed_of_width {a : Arg} (w : Value typed Γ a) {n : Nat} (h : fixedWidth a = some n) :
    ∃ prim fmt x, IsFixed w prim fmt x := by
  rw [fixedWidth] at h
  split at h
  · rename_i prim hprim hnum
    obtain ⟨fmt, hf, -⟩ := Option.map_eq_some_iff.1 h
    cases w with
    | base prim' hprim' b hb =>
      obtain rfl : prim = prim' := Option.some.inj (hprim.symm.trans hprim')
      have htyped : TypedBase prim false b := by
        have hb' : TypedBase prim a.argnum.isSome b := hb
        rwa [hnum] at hb'
      match b, htyped with
      | .one (.num x), ⟨fmt', hf', hx⟩ =>
        obtain rfl : fmt = fmt' := Option.some.inj (hf.symm.trans hf')
        exact ⟨prim, fmt, x, hprim, hnum, hf, hx, rfl, by rw [Value.cs, csBase, csScalar, hf]; rfl⟩
      | .one (.str s), ⟨he, _⟩ =>
        rw [he] at hf
        cases hf
    | struct hprim' => rw [hprim] at hprim'; cases hprim'
    | list hprim' => rw [hprim] at hprim'; cases hprim'
  · cases h

namespace IsFixed

variable {a : Arg} {w : Value typed Γ a} {prim : Prim} {fmt : Fmt} {x : Number} (h : IsFixed w prim fmt x)
include h

theorem width {n : Nat} (hn : fixedWidth a = some n) : n = fmt.size := by
  simp only [fixedWidth, h.hprim, h.argnum, h.hfmt, Option.map_some, Option.some.injEq] at hn
  exact hn.symm

/-- Such a value is portable. -/
theorem portable : w.Portable ∧ w.enc = leBytes fmt.size (bitsOf fmt x) := by
  have hval := h.val
  cases w with
  | base prim' hprim b hb =>
    obtain rfl : prim = prim' := Option.some.inj (h.hprim.symm.trans hprim)
    cases hval
    exact ⟨⟨by rw [h.argnum]; rfl, fmt, x, h.hfmt, rfl, h.holds⟩, typed_bytes h.hfmt h.holds⟩
  | struct => cases hval
  | list => cases hval

theorem csWriteField_eq (fuel : Nat) :
    csWriteField (csWriteStruct Γ fuel) fuel a w.cs = some (leBytes fmt.size (bitsOf fmt x)) := by
  rw [csWriteField, dataTrans_fmt h.hprim h.hfmt, h.argnum, h.cs]
  exact if_pos (packFmt_bits h.holds).2

theorem csReadField_eq (D : Utf8Decoder) (fuel : Nat) (t : Bytes) :
    csReadField D (csReadStruct D Γ fuel) fuel a (leBytes fmt.size (bitsOf fmt x) ++ t) = some (w.cs, t) := by
  rw [csReadField, dataTrans_fmt h.hprim h.hfmt, h.argnum, h.cs]
  exact csRead_num D (csReadStruct D Γ fuel) (packFmt_bits h.holds).2 t

theorem readStmt_eq {call : String → Option ReadData → Except LuaError (Table Base × Option ReadData)} {idx : Key}
    {data : Table Base} {d : ReadData} (hd : d.Carries (leBytes fmt.size (bitsOf fmt x))) :
    readStmt luaReads call (readField idx a) data (some d) =
      .ok (setKey data idx (some w.val), some (d.skip fmt.size)) := by
  have hread := ReadPtoNumber_eq (packFmt_bits h.holds).2 hd
  rw [value_bitsOf h.holds, ← readX_fmt h.hfmt] at hread
  rw [readField, h.hprim, h.argnum, h.val]
  refine bind_eq_ok.2 ⟨(some (.one (.num x)), some (d.skip fmt.size)), ?_, rfl⟩
  rw [Reads.ReadX, show luaReads.read prim (none : Option Nat).isSome d = _ from hread]
  rfl

theorem writeStmt_eq {callR : String → Option ReadData → Except LuaError (Table Base × Option ReadData)}
    {callW : String → Val Base → World Append → Except LuaError (World Append)} {k : Nat} {data : Table Base}
    {w₀ : World Append} (harg : argument data k a.argname = some w.val) :
    writeStmt luaWrites callR callW (writeField k a) data w₀ =
      .ok (data, { w₀ with out := w₀.out ++ [⟨[some (leBytes fmt.size (bitsOf fmt x))], fmt.size⟩] }) := by
  rw [writeField, h.hprim]
  refine bind_eq_ok.2 ⟨_, ?_, rfl⟩
  rw [harg, h.val]
  exact writeX_num h.hfmt h.holds

end IsFixed

/-- `i` never reaches 256. -/
theorem csReadFor_none {read : Bytes → Option (CsVal × Bytes)} {count : Nat} (hc : 256 ≤ count) (fuel : Nat) (i : UInt8)
    (s : Bytes) : csReadFor read count fuel i s = none := by
  induction fuel generalizing i s with
  | zero => rfl
  | succ fuel ih =>
    have hi := i.toNat_lt
    rw [csReadFor, if_pos (by omega)]
    cases read s with
    | none => rfl
    | some r =>
      obtain ⟨v, s⟩ := r
      simp only [Option.bind_eq_bind, Option.bind_some, ih]
      rfl

/-- All fields of a tuple decide. -/
def Tuple.Decisive : {args : List Arg} → Tuple typed Γ args → Prop
  | _, .nil => True
  | _, .cons v vs => Net.Decisive v ∧ vs.Decisive

theorem exists_decisive_tuple {args : List Arg} (h : ∀ a ∈ args, ∃ w : Value typed Γ a, Decisive w) :
    ∃ v : Tuple typed Γ args, v.Decisive := by
  induction args with
  | nil => exact ⟨.nil, trivial⟩
  | cons a args ih =>
    obtain ⟨w, hw⟩ := h a List.mem_cons_self
    obtain ⟨v, hv⟩ := ih fun b hb => h b (List.mem_cons_of_mem a hb)
    exact ⟨.cons w v, hw, hv⟩

/-- What Lua has appended for the first field, and for the others. -/
theorem writeCode_cons {callR : String → Option ReadData → Except LuaError (Table Base × Option ReadData)}
    {callW : String → Val Base → World Append → Except LuaError (World Append)}
    (hW : ∀ {name v w w'}, callW name v w = .ok w' → w.out <+: w'.out) {st : WriteStmt} {code : List WriteStmt}
    {data data' : Table Base} {w w' : World Append} {as : List Append}
    (h : writeCode luaWrites callR callW (st :: code) data w = .ok (data', w')) (hout : w'.out = w.out ++ as) :
    ∃ data₁ w₁ as₁ as₂, writeStmt luaWrites callR callW st data w = .ok (data₁, w₁) ∧ w₁.out = w.out ++ as₁ ∧
      as = as₁ ++ as₂ ∧ writeCode luaWrites callR callW code data₁ w₁ = .ok (data', w') ∧ w'.out = w₁.out ++ as₂ := by
  obtain ⟨⟨data₁, w₁⟩, h1, h2⟩ := bind_eq_ok.1 h
  obtain ⟨as₁, has₁⟩ := writeStmt_out hW h1
  obtain ⟨as₂, has₂⟩ := writeCode_out hW h2
  refine ⟨data₁, w₁, as₁, as₂, h1, has₁.symm, ?_, h2, has₂.symm⟩
  rw [hout, ← has₁, List.append_assoc] at has₂
  exact (List.append_cancel_left has₂).symm

/-- C# does not read what Lua writes for a list of 256 structures. -/
theorem Endless.csRead {a : Arg} {w : Value typed Γ a} (h : Endless w) {D : Utf8Decoder}
    {callR : String → Option ReadData → Except LuaError (Table Base × Option ReadData)}
    {callW : String → Val Base → World Append → Except LuaError (World Append)}
    (hW : ∀ {name v w w'}, callW name v w = .ok w' → w.out <+: w'.out) {k : Nat} {data data₁ : Table Base}
    {w₀ w₁ : World Append} (harg : argument data k a.argname = some w.val)
    (hwrite : writeStmt luaWrites callR callW (writeField k a) data w₀ = .ok (data₁, w₁)) {as₁ as₂ : List Append}
    (hout : w₁.out = w₀.out ++ as₁) (fuel : Nat) :
    csReadField D (csReadStruct D Γ fuel) fuel a (lead ((as₁ ++ as₂).flatMap Append.pieces)) = none := by
  obtain ⟨hprim, hnum, t, hval, hlen⟩ := h
  rw [writeField, hprim, hnum] at hwrite
  simp only [writeStmt, harg, hval] at hwrite
  obtain ⟨s, hs, hwrite⟩ := bind_eq_ok.1 hwrite
  obtain ⟨w₂, hw₂, hwrite⟩ := bind_eq_ok.1 hwrite
  cases hwrite
  have hcount : luaWrites.write .Uint16 (some (.base (luaWrites.count 256))) = .ok [⟨[some (leBytes 2 256)], 2⟩] := rfl
  rw [hlen, hcount] at hs
  cases hs
  obtain ⟨bs, hbs⟩ := writeElems_out hW hw₂
  rw [hout, List.append_assoc] at hbs
  obtain rfl := List.append_cancel_left hbs
  have hlead : lead ((([⟨[some (leBytes 2 256)], 2⟩] : List Append) ++ bs ++ as₂).flatMap Append.pieces) =
      leBytes 2 256 ++ lead ((bs ++ as₂).flatMap Append.pieces) := by
    rw [List.append_assoc, List.flatMap_append]
    exact lead_append (t := [some (leBytes 2 256)]) (by simp)
  rw [hlead, csReadField, hnum]
  cases dataTrans a.argtype with
  | none => rfl
  | some t =>
    have hsize : leNat (leBytes 2 256) = 256 := by rw [leNat_leBytes]; rfl
    simp only [shape, Option.bind_eq_bind, Option.bind_some, csBytes_append (length_leBytes 2 256), hsize,
      csReadFor_none (Nat.le_refl 256)]
    rfl

/-- A value that is misread is not what is read. -/
theorem Misread.ne {a : Arg} {w : Value typed Γ a} (h : Misread w) {fuel : Nat} {s u : Bytes}
    (hs : csWriteField (csWriteStruct Γ fuel) fuel a w.cs = some s) {d : ReadData} (hd : d.Carries (s ++ u))
    {call : String → Option ReadData → Except LuaError (Table Base × Option ReadData)} {idx : Key} {data t : Table Base}
    {d' : Option ReadData} (hread : readStmt luaReads call (readField idx a) data (some d) = .ok (t, d')) :
    getKey t idx ≠ some w.val := by
  obtain ⟨prim, b, hprim, hval, hfirst, hmis⟩ := h
  obtain ⟨s', rfl⟩ := hfirst hs
  have hone : d.Carries [1] := (ReadData.carries_append.1 (by simpa using hd : d.Carries ([1] ++ (s' ++ u)))).1
  rw [readField, hprim] at hread
  obtain ⟨⟨b', d₁⟩, hx, hread⟩ := bind_eq_ok.1 hread
  cases hread
  rw [getKey_setKey, hval]
  intro hb'
  obtain ⟨b'', rfl, hb''⟩ := Option.map_eq_some_iff.1 hb'
  cases hb''
  rw [Reads.ReadX] at hx
  cases hr : luaReads.read prim a.argnum.isSome d with
  | error e => rw [hr] at hx; cases hx
  | ok r =>
    obtain ⟨b₁, d₂⟩ := r
    rw [hr] at hx
    cases hx
    exact hmis hone hr rfl

/-- **Where both directions return the decisive values**, all fields are of fixed width. -/
theorem Tuple.widths_of_runs {D : Utf8Decoder}
    {callL callR : String → Option ReadData → Except LuaError (Table Base × Option ReadData)}
    {callW : String → Val Base → World Append → Except LuaError (World Append)}
    (hW : ∀ {name v w w'}, callW name v w = .ok w' → w.out <+: w'.out) {fuel fuel' : Nat} {args : List Arg}
    (v : Tuple typed Γ args) (hdec : v.Decisive) {k : Nat} {data t : Table Base} {d : ReadData} {d' : Option ReadData}
    {s : Bytes} (hinit : args.any initStruct = false)
    (hcs : csWriteFields (csWriteStruct Γ fuel) fuel args v.cs = some s)
    (hd : d.Carries s) (hread : readCode luaReads callL (readStmts false k args) data (some d) = .ok (t, d'))
    (htable : ∀ e ∈ v.table false k, getKey t e.1 = some e.2) {data₁ data₂ : Table Base} {w₀ w₁ : World Append}
    {as : List Append} {r : List CsVal × Bytes} (hholds : v.Holds data₁ k)
    (hwrite : writeCode luaWrites callR callW (writeStmts k args) data₁ w₀ = .ok (data₂, w₁))
    (hout : w₁.out = w₀.out ++ as)
    (hcsr : csReadFields D (csReadStruct D Γ fuel') fuel' args (lead (as.flatMap Append.pieces)) = some r) :
    ∃ n, fixedWidths args = some n := by
  induction args generalizing k data d s data₁ w₀ as r with
  | nil => exact ⟨0, rfl⟩
  | cons a args ih =>
    cases v with
    | cons w v =>
      rw [List.any_cons, Bool.or_eq_false_iff] at hinit
      rw [Tuple.cs, csWriteFields] at hcs
      obtain ⟨s₁, hs₁, hcs⟩ := Option.bind_eq_some_iff.1 hcs
      obtain ⟨s₂, hs₂, hs⟩ := Option.bind_eq_some_iff.1 hcs
      cases hs
      rw [Tuple.table, List.forall_mem_cons] at htable
      obtain ⟨⟨data', d₁⟩, hstmt, hcode⟩ := bind_eq_ok.1 hread
      rw [csReadFields] at hcsr
      obtain ⟨⟨x, u⟩, hx, hcsr⟩ := Option.bind_eq_some_iff.1 hcsr
      obtain ⟨⟨xs, u'⟩, hxs, -⟩ := Option.bind_eq_some_iff.1 hcsr
      obtain ⟨data₃, w₂, as₁, as₂, hwstmt, hout₁, rfl, hwcode, hout₂⟩ := writeCode_cons hW hwrite hout
      rcases hdec.1 with ⟨n, hn⟩ | hinit' | hnone | hmis | hend
      · obtain ⟨prim, fmt, y, hw⟩ := isFixed_of_width w hn
        rw [hw.csWriteField_eq fuel] at hs₁
        cases hs₁
        obtain ⟨hd₁, hd₂⟩ := ReadData.carries_append.1 hd
        rw [length_leBytes] at hd₂
        rw [hw.readStmt_eq hd₁] at hstmt
        cases hstmt
        rw [hw.writeStmt_eq hholds.1] at hwstmt
        cases hwstmt
        obtain rfl := List.append_cancel_left hout₁
        have hlead : lead ((([⟨[some (leBytes fmt.size (bitsOf fmt y))], fmt.size⟩] : List Append) ++ as₂).flatMap
            Append.pieces) = leBytes fmt.size (bitsOf fmt y) ++ lead (as₂.flatMap Append.pieces) := by
          rw [List.flatMap_append]
          exact (lead_append (t := [some (leBytes fmt.size (bitsOf fmt y))]) (by simp)).trans (by simp)
        rw [hlead, hw.csReadField_eq D] at hx
        cases hx
        obtain ⟨m, hm⟩ := ih v hdec.2 hinit.2 hs₂ hd₂ hcode htable.2 hholds.2 hwcode hout₂ hxs
        exact ⟨n + m, by rw [fixedWidths, hn, hm]; rfl⟩
      · rw [hinit.1] at hinit'
        cases hinit'
      · rw [hnone fuel] at hs₁
        cases hs₁
      · refine absurd ?_ (hmis.ne hs₁ hd hstmt)
        have hkey := htable.1
        have hnd := keys_false_nodup (a :: args) k
        rw [keys, List.nodup_cons] at hnd
        rwa [readCode_frame hcode hnd.1] at hkey
      · rw [hend.csRead hW hholds.1 hwstmt hout₁ fuel'] at hx
        cases hx

theorem length_of_widths {args : List Arg} {n : Nat} (hn : fixedWidths args = some n) (v : Tuple typed Γ args)
    {fuel : Nat} {s : Bytes} (hs : csWriteFields (csWriteStruct Γ fuel) fuel args v.cs = some s) : s.length = n := by
  induction args generalizing n s with
  | nil =>
    cases v
    cases hn
    cases hs
    rfl
  | cons a args ih =>
    cases v with
    | cons w v =>
      obtain ⟨m, hm, hn⟩ := Option.bind_eq_some_iff.1 hn
      obtain ⟨m', hm', hn⟩ := Option.bind_eq_some_iff.1 hn
      cases hn
      obtain ⟨prim, fmt, x, hw⟩ := isFixed_of_width w hm
      obtain ⟨s₁, hs₁, hs⟩ := Option.bind_eq_some_iff.1 hs
      obtain ⟨s₂, hs₂, hs⟩ := Option.bind_eq_some_iff.1 hs
      cases hs
      rw [hw.csWriteField_eq fuel] at hs₁
      cases hs₁
      rw [List.length_append, length_leBytes, ih hm' v hs₂, hw.width hm]

/-- Messages whose fields all are of fixed width are portable. -/
theorem portable_of_widths {args : List Arg} {n : Nat} (hn : fixedWidths args = some n) (v : Tuple typed Γ args) :
    v.Portable ∧ v.enc.length = n ∧ structArrays args = 0 := by
  induction args generalizing n with
  | nil =>
    cases v
    cases hn
    exact ⟨trivial, rfl, rfl⟩
  | cons a args ih =>
    cases v with
    | cons w v =>
      obtain ⟨m, hm, hn⟩ := Option.bind_eq_some_iff.1 hn
      obtain ⟨m', hm', hn⟩ := Option.bind_eq_some_iff.1 hn
      cases hn
      obtain ⟨hv, hlen, hzero⟩ := ih hm' v
      obtain ⟨prim, fmt, x, hw⟩ := isFixed_of_width w hm
      obtain ⟨hport, henc⟩ := hw.portable
      refine ⟨⟨hport, hv⟩, ?_, ?_⟩
      · rw [Tuple.enc, List.length_append, henc, length_leBytes, hlen, hw.width hm]
      · rw [structArrays, hzero, if_neg (by rw [hw.hprim]; simp)]

/-- **Where a decisive message agrees**, all fields are of fixed width. -/
theorem widths_of_agrees {D : Utf8Decoder} {net : List (String × Compiled)} {args : List Arg} (v : Tuple typed Γ args)
    (hdec : v.Decisive) (h : Agrees D net v) : ∃ n < 65536, fixedWidths args = some n := by
  obtain ⟨fuel, s, hcs, n, hlua⟩ := h.toLua
  obtain ⟨n', s', hlua', fuel', hcs'⟩ := h.toCs
  rw [csWrite] at hcs
  split at hcs
  · cases hcs
  rename_i hinit
  obtain ⟨s₁, hs₁, hcs⟩ := Option.bind_eq_some_iff.1 hcs
  obtain ⟨len, -, hcs⟩ := Option.bind_eq_some_iff.1 hcs
  split at hcs
  case isFalse => cases hcs
  rename_i hlen
  cases hcs
  obtain ⟨r, hcsr, -⟩ := Option.map_eq_some_iff.1 hcs'
  -- what Lua reads
  have hread := hlua n (Nat.le_refl n)
  by_cases hargs : structArrays args ≤ 97
  case neg =>
    rw [luaRead, ConvertReader_eq, if_neg hargs] at hread
    cases hread
  rw [luaRead, ConvertReader_eq, if_pos hargs] at hread
  obtain ⟨⟨t, d'⟩, hcode, ht⟩ := map_eq_ok.1 hread
  have htable : ∀ e ∈ v.table false 1, getKey t e.1 = some e.2 := by
    intro e he
    rw [show t = v.table false 1 from ht]
    refine getKey_of_mem ?_ he
    rw [v.map_fst_table]
    exact keys_false_nodup args 1
  have hcarries : (ReadBegin (s₁ ++ List.replicate (len % 65536 - s₁.length) 0)).Carries s₁ :=
    ⟨Nat.le_refl 1, by simp [ReadBegin]⟩
  -- what Lua writes
  obtain ⟨⟨read, data⟩, hfill, hconcat⟩ := bind_eq_ok.1 (hlua' n' (Nat.le_refl n') Border.first)
  obtain rfl : lead data.Data = s' := Except.ok.inj ((concat_first data.Data).symm.trans hconcat)
  have hwidths : ∃ n, fixedWidths args = some n := by
    by_cases hnil : v.vals = []
    · cases v with
      | nil => exact ⟨0, rfl⟩
      | cons w v => cases hnil
    · rw [fill, if_neg hnil, ConvertWriter_eq hargs, argTable_vals] at hfill
      obtain ⟨⟨data', w⟩, hwrite, hdata⟩ := bind_eq_ok.1 hfill
      cases hdata
      exact v.widths_of_runs callWriter_out hdec (by simpa using hinit) hs₁ hcarries hcode htable
        (v.holds_table (keys_false_nodup args 1)) hwrite rfl hcsr
  obtain ⟨m, hm⟩ := hwidths
  have hlength := length_of_widths hm v hs₁
  exact ⟨m, by omega, hm⟩

/-- **Agreement of the exports**: they agree for all messages of a schema if and only if all fields are numbers of fixed
width, of less than 65536 bytes in all. They also agree for a message with lists when the lists have no fixed length and
at most 255 elements, which are structures of such numbers and of structures without content. -/
theorem wire_agrees_iff (D : Utf8Decoder) {net : List (String × Compiled)} (hnet : Export Γ = some net)
    {args : List Arg} (hK : Known Γ args) :
    ((∀ v : Tuple typed Γ args, Agrees D net v) ↔ ∃ n < 65536, fixedWidths args = some n) ∧
      ∀ v : Tuple typed Γ args, v.Portable → structArrays args ≤ 97 → v.enc.length < 65536 → Agrees D net v := by
  refine ⟨⟨fun h => ?_, ?_⟩, fun v hv hargs hlen => v.agrees_of_portable D hnet hargs hv hlen⟩
  · obtain ⟨v, hv⟩ := exists_decisive_tuple fun a ha => exists_decisive hK ha
    exact widths_of_agrees v hv (h v)
  · rintro ⟨n, hlt, hn⟩ v
    obtain ⟨hv, hlen, hzero⟩ := portable_of_widths hn v
    exact v.agrees_of_portable D hnet (by omega) hv (by omega)

end Schema

/-- A decoder that does not look at the bytes. -/
def anyBytes : Utf8Decoder := ⟨id, fun _ => rfl⟩

theorem known_base {a : Arg} {prim : Prim} (hprim : TYPE_EXPORT_LUA a.argtype = some prim) (hn : prim ≠ .Number) :
    Known noTypes [a] := by
  refine ⟨⟨fun _ => 0, fun h => ?_⟩, fun h => ?_, fun b hb => ?_⟩
  · cases h
  · cases h
  · obtain rfl := List.mem_singleton.1 hb
    rw [hprim]
    exact ⟨fun he => hn (Option.some.inj he), fun he => by cases he⟩

/-- A message with one byte. -/
theorem wire_agrees_uint8 : fixedWidths [⟨"n", "uint8", none⟩] = some 1 ∧
    ∀ v : Tuple typed noTypes [⟨"n", "uint8", none⟩], Agrees anyBytes [] v := by
  have hK : Known noTypes [⟨"n", "uint8", none⟩] := known_base (rfl : _ = some Prim.Uint8) (by decide)
  exact ⟨rfl, (wire_agrees_iff anyBytes rfl hK).1.2 ⟨1, by decide, rfl⟩⟩

/-- A message with the string `a`. -/
def stringMessage : Tuple typed noTypes [⟨"s", "string", none⟩] :=
  .cons (.base .String rfl (.one (.str [97])) ⟨rfl, "a", by decide⟩) .nil

/-- C# writes the length 1 and one byte, for which `ReadString` returns nil. -/
theorem not_wire_agrees_string : ¬∀ (D : Utf8Decoder) (Γ : NetType) (net : List (String × Compiled)) (args : List Arg)
    (v : Tuple typed Γ args), Export Γ = some net → Known Γ args → Agrees D net v := by
  intro h
  have hK : Known noTypes [⟨"s", "string", none⟩] := known_base (rfl : _ = some Prim.String) (by decide)
  have hdec : stringMessage.Decisive := ⟨Or.inr (Or.inr (Or.inr (Or.inl (misread_string rfl rfl _)))), trivial⟩
  obtain ⟨n, -, hn⟩ := widths_of_agrees stringMessage hdec (h anyBytes noTypes [] _ stringMessage rfl hK)
  cases hn

end XCore.Net
