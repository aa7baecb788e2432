import XCore.Net.CSharp
import XCore.Net.Recast

/-!
# Messages between Lua and C#

A message is written by one of the exports and read by the other. `Agrees` says that it comes out the same, in both
directions.

- `csWrite_eq`, `csRead_eq`: the C# code on a portable message, whose fields are numbers of fixed width and lists of
  structures of these;
- `luaRead_eq`, `luaWrite_eq`: the Lua code on it;
- `agrees_of_portable`: the encodings are the same.
-/

namespace XCore.Net

open XCore.Lua

/-! ## Well-typed values -/

/-- The bytes of what the primitives of `base.lua` write. -/
def byteWrites : Writes Base UInt8 where
  write prim v := (writeX prim v).map fun as => as.flatMap Append.bytes
  count := luaWrites.count

/-- A number that a base type holds, or a text. -/
def TypedScalar (prim : Prim) : Scalar → Prop
  | .num x => ∃ fmt, fmtOf prim = some fmt ∧ fmt.Holds x
  | .str s => prim = .String ∧ ∃ t, s = utf8 t

/-- A scalar, or a list of scalars; the base type `number` is not known in C#. -/
def TypedBase (prim : Prim) : Bool → Base → Prop
  | false, .one x => TypedScalar prim x
  | true, .arr l => prim ≠ .Number ∧ ∀ x ∈ l, TypedScalar prim x
  | _, _ => False

/-- The primitives of `base.lua`, with the values of the base types that both exports know. -/
def typed : Prims Base UInt8 where
  toReads := luaReads
  toWrites := byteWrites
  Valid := TypedBase

/-- A number of fixed width that is not in a list. -/
def FixedBase (prim : Prim) (isarray : Bool) (b : Base) : Prop :=
  isarray = false ∧ ∃ fmt x, fmtOf prim = some fmt ∧ b = .one (.num x) ∧ fmt.Holds x

/-- The primitives, with the numbers of fixed width. -/
def fixed : Prims Base UInt8 := { typed with Valid := FixedBase }

/-- The bits of the variable that holds a number. -/
def bitsOf (fmt : Fmt) : Number → Nat
  | .int x => (x % 256 ^ fmt.size).toNat
  | .flt b => if fmt = .f then narrow b.toNat else b.toNat

/-- The C# value of a scalar. -/
def csScalar (prim : Prim) : Scalar → CsVal
  | .num x => .num (((fmtOf prim).map fun fmt => bitsOf fmt x).getD 0)
  | .str s => .str s

/-- The C# value of a scalar or a list of scalars. -/
def csBase (prim : Prim) : Base → CsVal
  | .one x => csScalar prim x
  | .arr l => .list (l.map (csScalar prim))

section Typed

variable {P : Prims Base UInt8} {Γ : NetType}

mutual

/-- The members of a structure. -/
def Tuple.cs : {args : List Arg} → Tuple P Γ args → List CsVal
  | _, .nil => []
  | _, .cons v vs => v.cs :: vs.cs

/-- The C# value of a value. -/
def Value.cs : {a : Arg} → Value P Γ a → CsVal
  | _, .base prim _ b _ => csBase prim b
  | _, .struct _ _ _ v => .struct v.cs
  | _, .list _ _ _ vs => .list vs.cs

def Elems.cs : {args : List Arg} → Elems P Γ args → List CsVal
  | _, .nil => []
  | _, .cons v vs => .struct v.cs :: vs.cs

end

end Typed

/-! ## Agreement -/

/-- The reader of a message: what it makes of the bytes. -/
def luaRead (depth : Nat) (net : List (String × Compiled)) (args : List Arg) (s : Bytes) :
    Except LuaError (Table Base) :=
  match ConvertReader args false with
  | none => .error .callNil
  | some code =>
    (readCode luaReads (callReader luaReads (readersOf net) depth) code [] (some (ReadBegin s))).map Prod.fst

/-- The writer of a message: its bytes. -/
def luaWrite (M : Machine) (net : List (String × Compiled)) (args : List Arg) (vals : List (Val Base)) :
    Except LuaError Bytes := do
  let (_, data) ← fill M ⟨net, []⟩ ⟨"", args⟩ vals none (WriteBegin none)
  concat M.border data.Data

/-- What C# writes Lua reads, and what Lua writes C# reads, when the stacks are deep enough. -/
structure Agrees (D : Utf8Decoder) {Γ : NetType} {args : List Arg} (net : List (String × Compiled))
    (v : Tuple typed Γ args) : Prop where
  toLua : ∃ fuel s, csWrite Γ fuel args v.cs = some s ∧
    ∃ n, ∀ depth ≥ n, luaRead depth net args s = .ok (v.table false 1)
  toCs : ∃ n s, (∀ depth ≥ n, ∀ border, luaWrite ⟨depth, border⟩ net args v.vals = .ok s) ∧
    ∃ fuel, csRead D Γ fuel args s = some v.cs

/-! ## Values on which they agree -/

section Portable

variable {Γ : NetType}

mutual

/-- An element of a list: numbers of fixed width, and structures without content. -/
def Tuple.Element : {args : List Arg} → Tuple typed Γ args → Prop
  | _, .nil => True
  | _, .cons v vs => v.Element ∧ vs.Element

def Value.Element : {a : Arg} → Value typed Γ a → Prop
  | a, .base prim _ b _ => FixedBase prim a.argnum.isSome b
  | a, .struct _ _ _ v => v.Empty ∧ v.Element ∧ dataTrans a.argtype = some (.custom a.argtype)
  | _, .list .. => False

end

/-- All are such elements. -/
def Elems.Element : {args : List Arg} → Elems typed Γ args → Prop
  | _, .nil => True
  | _, .cons v vs => v.Element ∧ vs.Element

/-- A number of fixed width, or a list without a fixed length of at most 255 such elements. -/
def Value.Portable : {a : Arg} → Value typed Γ a → Prop
  | a, .base prim _ b _ => FixedBase prim a.argnum.isSome b
  | _, .struct .. => False
  | a, .list _ _ _ vs =>
    a.argnum = some 0 ∧ vs.length ≤ 255 ∧ vs.Element ∧ dataTrans a.argtype = some (.custom a.argtype)

/-- All fields are portable. -/
def Tuple.Portable : {args : List Arg} → Tuple typed Γ args → Prop
  | _, .nil => True
  | _, .cons v vs => v.Portable ∧ vs.Portable

end Portable

/-! ## Numbers -/

theorem dataTrans_fmt {t : String} {prim : Prim} {fmt : Fmt} (h : TYPE_EXPORT_LUA t = some prim)
    (hf : fmtOf prim = some fmt) : dataTrans t = some (.num fmt) := by
  unfold TYPE_EXPORT_LUA at h
  split at h <;> cases h <;> cases hf <;> rfl

/-- `string.pack` writes the bits of the C# variable. -/
theorem packFmt_bits {fmt : Fmt} {x : Number} (h : fmt.Holds x) :
    packFmt fmt x = .ok (leBytes fmt.size (bitsOf fmt x)) ∧ bitsOf fmt x < 256 ^ fmt.size := by
  have hint : ∀ {n : Nat} {x : Int}, (x % 256 ^ n).toNat < 256 ^ n := by
    intro n x
    have hpos : (0 : Int) < 256 ^ n := by positivity
    have hlt := Int.emod_lt_of_pos x hpos
    have hnn := Int.emod_nonneg x hpos.ne'
    zify
    rwa [Int.toNat_of_nonneg hnn]
  match fmt, x, h with
  | .B, .int x, h | .H, .int x, h | .I, .int x, h | .b, .int x, h | .h, .int x, h | .i, .int x, h =>
    exact ⟨packInt_int h, hint⟩
  | .J, .int x, _ | .j, .int x, _ => exact ⟨rfl, hint⟩
  | .f, .flt _, ⟨b, hb, rfl⟩ =>
    have hwiden := widen_lt hb.1
    have hbits : (UInt64.ofNat (widen b)).toNat = widen b := by
      rw [UInt64.toNat_ofNat']
      omega
    refine ⟨rfl, ?_⟩
    rw [bitsOf, if_pos rfl, hbits, narrow_widen hb]
    exact hb.1
  | .d, .flt x, _ => exact ⟨rfl, x.toNat_lt⟩

/-- What is written for a number. -/
theorem writeX_num {prim : Prim} {fmt : Fmt} (hf : fmtOf prim = some fmt) {x : Number} (h : fmt.Holds x) :
    writeX prim (some (.base (.one (.num x)))) = .ok [⟨[some (leBytes fmt.size (bitsOf fmt x))], fmt.size⟩] := by
  rw [writeX_fmt hf]
  simp only [WritePtoNumber, Option.bind_some, elems, writeFmt, packVal, Scalar.toNum, (packFmt_bits h).1]
  rfl

theorem bytes_fixed {prim : Prim} {fmt : Fmt} (hf : fmtOf prim = some fmt) {x : Number} (h : fmt.Holds x) :
    byteWrites.write prim (some (.base (.one (.num x)))) = .ok (leBytes fmt.size (bitsOf fmt x)) := by
  simp [byteWrites, writeX_num hf h, Except.map, Append.bytes]

theorem typed_bytes {prim : Prim} {fmt : Fmt} (hf : fmtOf prim = some fmt) {x : Number} (h : fmt.Holds x) :
    typed.bytes prim (.one (.num x)) = leBytes fmt.size (bitsOf fmt x) := by
  rw [Writes.bytes, show typed.write prim (some (.base (.one (.num x)))) = _ from bytes_fixed hf h]

/-- An unsigned number is read where its bytes stand. -/
theorem unpackAt_carries {n v : Nat} {d : ReadData} (hn : 0 < n) (hv : v < 256 ^ n) (hd : d.Carries (leBytes n v)) :
    unpackAt n d = .ok (v, d.skip n) := by
  obtain ⟨hpos, w, hw⟩ := hd
  have hlen := congrArg List.length hw
  rw [List.length_append, length_leBytes, List.length_drop] at hlen
  have hp : ((d.Pos - 1 : Nat) : Int) + 1 = d.Pos := by omega
  have hnext : (((d.Pos - 1 : Nat) : Int) + n + 1).toNat = d.Pos + n := by omega
  have hunpack := unpackU_eq (n := n) (s := d.Data) (p := d.Pos - 1) (by omega)
  rw [← hw, List.take_left' (length_leBytes n v), leNat_leBytes, Nat.mod_eq_of_lt hv, hp] at hunpack
  rw [unpackAt, hunpack]
  exact bind_eq_ok.2 ⟨_, rfl, by simp only [hnext]; rfl⟩

/-- A number of fixed width is read where its bytes stand. -/
theorem readFmt_leBytes {fmt : Fmt} {d : ReadData} {bits : Nat} (hb : bits < 256 ^ fmt.size)
    (hd : d.Carries (leBytes fmt.size bits)) :
    readFmt fmt d = .ok (fmt.value bits, d.skip fmt.size) := by
  obtain ⟨hpos, u, hu⟩ := hd
  have hp : ((d.Pos - 1 : Nat) : Int) + 1 = d.Pos := by omega
  have hnext : (((d.Pos - 1 : Nat) : Int) + fmt.size + 1).toNat = d.Pos + fmt.size := by omega
  have hunpack := unpackFmt_eq (length_leBytes fmt.size bits) ⟨u, hu⟩
  rw [leNat_leBytes, Nat.mod_eq_of_lt hb, hp] at hunpack
  rw [readFmt, hunpack]
  exact bind_eq_ok.2 ⟨_, rfl, by simp only [hnext]; rfl⟩

theorem ReadPtoNumber_eq {fmt : Fmt} {d : ReadData} {bits : Nat} (hb : bits < 256 ^ fmt.size)
    (hd : d.Carries (leBytes fmt.size bits)) :
    ReadPtoNumber fmt fmt.size false d = .ok (some (.one (.num (fmt.value bits))), d.skip fmt.size) := by
  have hroom : ¬d.Len + 1 < d.Pos + 1 * fmt.size := by
    obtain ⟨hpos, u, hu⟩ := hd
    have hlen := congrArg List.length hu
    have hsize : 0 < fmt.size := by cases fmt <;> decide
    simp only [List.length_append, length_leBytes, List.length_drop] at hlen
    rw [ReadData.Len]
    omega
  refine bind_eq_ok.2 ⟨(some 1, d), rfl, ?_⟩
  simp only [if_neg hroom, ↓reduceIte]
  exact bind_eq_ok.2 ⟨_, readFmt_leBytes hb hd, rfl⟩

/-- The bits of a number are read as the number. -/
theorem value_bitsOf {fmt : Fmt} {x : Number} (h : fmt.Holds x) : fmt.value (bitsOf fmt x) = x := by
  obtain ⟨hpack, hlt⟩ := packFmt_bits h
  obtain ⟨s, hs, -, hvalue⟩ := packFmt_holds h
  rw [hpack] at hs
  cases hs
  rwa [leNat_leBytes, Nat.mod_eq_of_lt hlt] at hvalue

/-- The primitives read back the numbers of fixed width. -/
theorem fixed_readable : fixed.Readable where
  write {prim isarray b} h := by
    obtain ⟨-, fmt, x, hf, rfl, hx⟩ := h
    refine ⟨_, bytes_fixed hf hx, fun he => ?_⟩
    have hlen := congrArg List.length he
    rw [length_leBytes] at hlen
    cases fmt <;> cases hlen
  count {n} hn := ⟨rfl, .H, .int n, rfl, rfl, by omega, by omega⟩
  read {prim isarray b} h d hd := by
    obtain ⟨rfl, fmt, x, hf, rfl, hx⟩ := h
    have hbytes : fixed.bytes prim (.one (.num x)) = leBytes fmt.size (bitsOf fmt x) := typed_bytes hf hx
    have hread := ReadPtoNumber_eq (packFmt_bits hx).2 (hbytes ▸ hd)
    rw [value_bitsOf hx] at hread
    rw [hbytes, length_leBytes, show fixed.read prim = readX prim from rfl, readX_fmt hf, hread]
  rounds n := rfl

theorem typed_count {n : Nat} (hn : n < 65536) : typed.bytes .Uint16 (typed.count n) = leBytes 2 n := by
  have hholds : Fmt.H.Holds (.int n) := ⟨by omega, by omega⟩
  have hbits : bitsOf .H (.int n) = n := by
    rw [bitsOf, show ((256 : Int) ^ Fmt.H.size) = 65536 from rfl, Int.emod_eq_of_lt (by omega) (by omega),
      Int.toNat_natCast]
  rw [show typed.count n = .one (.num (.int n)) from rfl, typed_bytes (rfl : fmtOf .Uint16 = some .H) hholds, hbits]
  rfl

/-! ## The C# code on portable values -/

theorem csBytes_append {s : Bytes} {n : Nat} (hs : s.length = n) (t : Bytes) : csBytes n (s ++ t) = some (s, t) := by
  rw [csBytes, if_pos (by simp [hs]), List.take_left' hs, List.drop_left' hs]

section Portable

variable {Γ : NetType} {D : Utf8Decoder}

theorem csRead_num (D : Utf8Decoder) (call : String → Bytes → Option (CsVal × Bytes)) {fmt : Fmt} {bits : Nat}
    (h : bits < 256 ^ fmt.size) (t : Bytes) :
    csReadItem D call (.num fmt) (leBytes fmt.size bits ++ t) = some (.num bits, t) := by
  rw [csReadItem, csBytes_append (length_leBytes _ _)]
  simp [leNat_leBytes, Nat.mod_eq_of_lt h]

/-- The member of a number of fixed width. -/
theorem csField_fixed {a : Arg} {prim : Prim} (hprim : TYPE_EXPORT_LUA a.argtype = some prim) {b : Base}
    (h : FixedBase prim a.argnum.isSome b) :
    a.argnum = none ∧ ∃ fmt bits, dataTrans a.argtype = some (.num fmt) ∧ csBase prim b = .num bits ∧
      bits < 256 ^ fmt.size ∧ typed.bytes prim b = leBytes fmt.size bits := by
  obtain ⟨hnum, fmt, x, hf, rfl, hx⟩ := h
  refine ⟨by simpa using hnum, fmt, bitsOf fmt x, dataTrans_fmt hprim hf, ?_, (packFmt_bits hx).2, typed_bytes hf hx⟩
  rw [csBase, csScalar, hf]
  rfl

mutual

/-- An element is written as its encoding. -/
theorem Tuple.csWrite_element : ∀ {args : List Arg} (v : Tuple typed Γ args), v.Element →
    ∀ {fuel : Nat}, v.depth ≤ fuel → csWriteFields (csWriteStruct Γ fuel) fuel args v.cs = some v.enc
  | _, .nil, _, _, _ => rfl
  | a :: args, .cons v vs, h, fuel, hd => by
    rw [Tuple.depth] at hd
    rw [Tuple.cs, csWriteFields, Value.csWrite_element v h.1 (by omega),
      Tuple.csWrite_element vs h.2 (by omega), Tuple.enc]
    rfl

theorem Value.csWrite_element : ∀ {a : Arg} (v : Value typed Γ a), v.Element → ∀ {fuel : Nat}, v.depth ≤ fuel →
    csWriteField (csWriteStruct Γ fuel) fuel a v.cs = some v.enc
  | a, .base prim hprim b _, h, fuel, _ => by
    obtain ⟨hnum, fmt, bits, ht, hcs, hlt, henc⟩ := csField_fixed hprim h
    rw [Value.cs, Value.enc, hcs, henc, csWriteField, ht, hnum]
    simp only [shape, csWriteItem, Option.bind_eq_bind, Option.bind_some, if_pos hlt]
  | a, .struct hprim hnum hargs v, h, fuel + 1, hd => by
    have hv := Tuple.csWrite_element v h.2.1 (Nat.le_of_succ_le_succ hd)
    rw [Value.cs, Value.enc, csWriteField, h.2.2, hnum]
    simp only [shape, csWriteItem, Option.bind_eq_bind, Option.bind_some, csWriteStruct, hargs, hv]
  | _, .list .., h, _, _ => h.elim

end

mutual

/-- `Length()` of an element counts the bytes of its encoding. -/
theorem Tuple.csLength_element : ∀ {args : List Arg} (v : Tuple typed Γ args), v.Element → ∀ {fuel : Nat} (head : Nat),
    v.depth ≤ fuel → csFieldsLength (csLength Γ fuel) head args v.cs = some v.enc.length
  | _, .nil, _, _, _, _ => rfl
  | a :: args, .cons v vs, h, fuel, head, hd => by
    rw [Tuple.depth] at hd
    rw [Tuple.cs, csFieldsLength, Value.csLength_element v h.1 head (by omega),
      Tuple.csLength_element vs h.2 head (by omega), Tuple.enc, List.length_append]
    rfl

theorem Value.csLength_element : ∀ {a : Arg} (v : Value typed Γ a), v.Element → ∀ {fuel : Nat} (head : Nat),
    v.depth ≤ fuel → csFieldLength (csLength Γ fuel) head a v.cs = some v.enc.length
  | a, .base prim hprim b _, h, fuel, head, _ => by
    obtain ⟨hnum, fmt, bits, ht, hcs, -, henc⟩ := csField_fixed hprim h
    rw [Value.cs, Value.enc, hcs, henc, csFieldLength, ht, hnum, length_leBytes]
    rfl
  | a, .struct hprim hnum hargs v, h, fuel + 1, head, hd => by
    have hv := Tuple.csLength_element v h.2.1 1 (Nat.le_of_succ_le_succ hd)
    rw [Value.cs, Value.enc, csFieldLength, h.2.2, hnum]
    rw [v.enc_of_empty h.1] at hv ⊢
    simp only [shape, csItemLength, Option.bind_eq_bind, Option.bind_some, csLength, hargs, hv]
    rfl
  | _, .list .., h, _, _, _ => h.elim

end

mutual

/-- An element is read from its encoding. -/
theorem Tuple.csRead_element (D : Utf8Decoder) : ∀ {args : List Arg} (v : Tuple typed Γ args), v.Element →
    ∀ {fuel : Nat} (t : Bytes), v.depth ≤ fuel →
    csReadFields D (csReadStruct D Γ fuel) fuel args (v.enc ++ t) = some (v.cs, t)
  | _, .nil, _, _, _, _ => rfl
  | a :: args, .cons v vs, h, fuel, t, hd => by
    rw [Tuple.depth] at hd
    rw [Tuple.enc, List.append_assoc, csReadFields, Value.csRead_element D v h.1 _ (by omega)]
    simp only [Option.bind_eq_bind, Option.bind_some]
    rw [Tuple.csRead_element D vs h.2 t (by omega), Tuple.cs]
    rfl

theorem Value.csRead_element (D : Utf8Decoder) : ∀ {a : Arg} (v : Value typed Γ a), v.Element →
    ∀ {fuel : Nat} (t : Bytes), v.depth ≤ fuel →
    csReadField D (csReadStruct D Γ fuel) fuel a (v.enc ++ t) = some (v.cs, t)
  | a, .base prim hprim b _, h, fuel, t, _ => by
    obtain ⟨hnum, fmt, bits, ht, hcs, hlt, henc⟩ := csField_fixed hprim h
    rw [Value.cs, Value.enc, hcs, henc, csReadField, ht, hnum]
    simp only [shape, Option.bind_eq_bind, Option.bind_some, csRead_num D _ hlt]
  | a, .struct hprim hnum hargs v, h, fuel + 1, t, hd => by
    have hv := Tuple.csRead_element D v h.2.1 t (Nat.le_of_succ_le_succ hd)
    rw [Value.cs, Value.enc, csReadField, h.2.2, hnum]
    simp only [shape, csReadItem, Option.bind_eq_bind, Option.bind_some, csReadStruct, hargs, hv]
  | _, .list .., h, _, _, _ => h.elim

end

/-- The items of a list are written one after the other. -/
theorem Elems.csWrite_items {name : String} : ∀ {args : List Arg}, Γ.types.lookup name = some args →
    ∀ (vs : Elems typed Γ args), vs.Element → ∀ {fuel : Nat}, vs.depth + 1 ≤ fuel →
    csWriteItems (csWriteItem (csWriteStruct Γ fuel) (.custom name)) vs.cs = some vs.enc
  | _, _, .nil, _, _, _ => rfl
  | args, hargs, .cons v vs, h, fuel + 1, hd => by
    rw [Elems.depth] at hd
    have hv : csWriteItem (csWriteStruct Γ (fuel + 1)) (.custom name) (.struct v.cs) = some v.enc := by
      simp only [csWriteItem, csWriteStruct, hargs, Option.bind_eq_bind, Option.bind_some]
      exact v.csWrite_element h.1 (by omega)
    rw [Elems.cs, csWriteItems, hv, Elems.csWrite_items hargs vs h.2 (by omega), Elems.enc]
    rfl

/-- The items of a short list are counted. -/
theorem Elems.csLength_items {name : String} : ∀ {args : List Arg}, Γ.types.lookup name = some args →
    ∀ (vs : Elems typed Γ args), vs.Element → vs.enc.length < 65536 → ∀ {fuel : Nat}, vs.depth + 1 ≤ fuel →
    csItemsLength (csLength Γ fuel) (.custom name) vs.cs = some vs.enc.length
  | _, _, .nil, _, _, _, _ => rfl
  | args, hargs, .cons v vs, h, hlen, fuel + 1, hd => by
    rw [Elems.depth] at hd
    rw [Elems.enc, List.length_append] at hlen ⊢
    have hv : csItemLength (csLength Γ (fuel + 1)) (.custom name) (.struct v.cs) = some v.enc.length := by
      simp only [csItemLength, csLength, hargs, Option.bind_eq_bind, Option.bind_some]
      rw [v.csLength_element h.1 1 (by omega), Option.map_some, Nat.mod_eq_of_lt (by omega)]
    rw [Elems.cs, csItemsLength, hv, Elems.csLength_items hargs vs h.2 (by omega) (by omega)]
    rfl

/-- The loop of a reader reads the items of a list of at most 255 items. -/
theorem Elems.csRead_items (D : Utf8Decoder) {name : String} : ∀ {args : List Arg}, Γ.types.lookup name = some args →
    ∀ (vs : Elems typed Γ args), vs.Element → ∀ {fuel : Nat} (rounds i : Nat) (t : Bytes), vs.depth + 1 ≤ fuel →
    i + vs.length ≤ 255 → vs.length < rounds →
    csReadFor (csReadItem D (csReadStruct D Γ fuel) (.custom name)) (i + vs.length) rounds (UInt8.ofNat i)
    (vs.enc ++ t) =
      some (vs.cs, t)
  | _, _, .nil, _, fuel, rounds + 1, i, t, _, hi, _ => by
    have hbyte : (UInt8.ofNat i).toNat = i := by
      rw [UInt8.toNat_ofNat']
      rw [Elems.length] at hi
      omega
    rw [csReadFor, if_neg (by rw [hbyte, Elems.length]; omega)]
    rfl
  | args, hargs, .cons v vs, h, fuel + 1, rounds + 1, i, t, hd, hi, hr => by
    rw [Elems.depth] at hd
    rw [Elems.length] at hi hr ⊢
    have hbyte : (UInt8.ofNat i).toNat = i := by
      rw [UInt8.toNat_ofNat']
      omega
    have hv : csReadItem D (csReadStruct D Γ (fuel + 1)) (.custom name) (v.enc ++ (vs.enc ++ t)) =
        some (.struct v.cs, vs.enc ++ t) := by
      simp only [csReadItem, csReadStruct, hargs, Option.bind_eq_bind, Option.bind_some]
      rw [v.csRead_element D h.1 _ (by omega)]
      rfl
    have hvs := Elems.csRead_items D hargs vs h.2 rounds (i + 1) t (by omega : vs.depth + 1 ≤ fuel + 1)
      (by omega) (by omega)
    rw [Nat.add_right_comm] at hvs
    rw [csReadFor, if_pos (by rw [hbyte]; omega), Elems.enc, List.append_assoc, hv]
    simp only [Option.bind_eq_bind, Option.bind_some]
    rw [show UInt8.ofNat i + 1 = UInt8.ofNat (i + 1) from (UInt8.ofNat_add i 1).symm, ← Nat.add_assoc, hvs, Elems.cs]
    rfl

@[simp] theorem Elems.length_cs : ∀ {args : List Arg} (vs : Elems typed Γ args), vs.cs.length = vs.length
  | _, .nil => rfl
  | _, .cons _ vs => congrArg (· + 1) (Elems.length_cs vs)

theorem Value.csWrite_portable {a : Arg} (v : Value typed Γ a) (h : v.Portable) {fuel : Nat} (hd : v.depth ≤ fuel) :
    csWriteField (csWriteStruct Γ fuel) fuel a v.cs = some v.enc := by
  cases v with
  | base prim hprim b hb => exact Value.csWrite_element (.base prim hprim b hb) (by rw [Value.Element]; exact h) hd
  | struct => exact h.elim
  | list hprim hnum hargs vs =>
    obtain ⟨hzero, hlen, hvs, ht⟩ := h
    have hitems := vs.csWrite_items hargs hvs hd
    rw [Value.cs, Value.enc, csWriteField, ht, hzero, typed_count (by omega)]
    simp only [shape, Option.bind_eq_bind, Option.bind_some, hitems, Option.map_some, vs.length_cs]

theorem Value.csLength_portable {a : Arg} (v : Value typed Γ a) (h : v.Portable) {fuel : Nat} (hd : v.depth ≤ fuel)
    (hlen : v.enc.length < 65536) : csFieldLength (csLength Γ fuel) 2 a v.cs = some v.enc.length := by
  cases v with
  | base prim hprim b hb => exact Value.csLength_element (.base prim hprim b hb) (by rw [Value.Element]; exact h) 2 hd
  | struct => exact h.elim
  | list hprim hnum hargs vs =>
    obtain ⟨hzero, hcount, hvs, ht⟩ := h
    rw [Value.enc, typed_count (by omega), List.length_append, length_leBytes] at hlen ⊢
    have hitems := vs.csLength_items hargs hvs (by omega) hd
    rw [Value.cs, csFieldLength, ht, hzero]
    simp only [shape, Option.bind_eq_bind, Option.bind_some, hitems, Option.map_some]

theorem Value.csRead_portable (D : Utf8Decoder) {a : Arg} (v : Value typed Γ a) (h : v.Portable) {fuel : Nat}
    (hd : v.depth ≤ fuel) (hfuel : 256 ≤ fuel) (t : Bytes) :
    csReadField D (csReadStruct D Γ fuel) fuel a (v.enc ++ t) = some (v.cs, t) := by
  cases v with
  | base prim hprim b hb => exact Value.csRead_element D (.base prim hprim b hb) (by rw [Value.Element]; exact h) t hd
  | struct => exact h.elim
  | list hprim hnum hargs vs =>
    obtain ⟨hzero, hcount, hvs, ht⟩ := h
    have hitems := vs.csRead_items D hargs hvs fuel 0 t hd (by omega) (by omega)
    rw [Nat.zero_add] at hitems
    have hsize : leNat (leBytes 2 vs.length) = vs.length := by
      rw [leNat_leBytes, Nat.mod_eq_of_lt (by omega)]
    rw [Value.cs, Value.enc, csReadField, ht, hzero, typed_count (by omega), List.append_assoc]
    simp only [shape, Option.bind_eq_bind, Option.bind_some, csBytes_append (length_leBytes 2 _), hsize]
    rw [show (0 : UInt8) = UInt8.ofNat 0 from rfl, hitems]
    rfl

theorem Tuple.csWrite_portable {args : List Arg} {fuel : Nat} (v : Tuple typed Γ args) (h : v.Portable)
    (hd : v.depth ≤ fuel) : csWriteFields (csWriteStruct Γ fuel) fuel args v.cs = some v.enc := by
  induction args with
  | nil => cases v; rfl
  | cons a args ih =>
    cases v with
    | cons v vs =>
      rw [Tuple.depth] at hd
      rw [Tuple.cs, csWriteFields, v.csWrite_portable h.1 (by omega), ih vs h.2 (by omega), Tuple.enc]
      rfl

theorem Tuple.csLength_portable {args : List Arg} {fuel : Nat} (v : Tuple typed Γ args) (h : v.Portable)
    (hd : v.depth ≤ fuel) (hlen : v.enc.length < 65536) :
    csFieldsLength (csLength Γ fuel) 2 args v.cs = some v.enc.length := by
  induction args with
  | nil => cases v; rfl
  | cons a args ih =>
    cases v with
    | cons v vs =>
      rw [Tuple.depth] at hd
      rw [Tuple.enc, List.length_append] at hlen ⊢
      rw [Tuple.cs, csFieldsLength, v.csLength_portable h.1 (by omega) (by omega), ih vs h.2 (by omega) (by omega)]
      rfl

theorem Tuple.csRead_portable (D : Utf8Decoder) {args : List Arg} {fuel : Nat} (v : Tuple typed Γ args) (h : v.Portable)
    (hd : v.depth ≤ fuel) (hfuel : 256 ≤ fuel) (t : Bytes) :
    csReadFields D (csReadStruct D Γ fuel) fuel args (v.enc ++ t) = some (v.cs, t) := by
  induction args with
  | nil => cases v; rfl
  | cons a args ih =>
    cases v with
    | cons v vs =>
      rw [Tuple.depth] at hd
      rw [Tuple.enc, List.append_assoc, csReadFields, v.csRead_portable D h.1 (by omega) hfuel]
      simp only [Option.bind_eq_bind, Option.bind_some]
      rw [ih vs h.2 (by omega), Tuple.cs]
      rfl

/-- The constructor of a portable message compiles. -/
theorem Tuple.not_initStruct {args : List Arg} (v : Tuple typed Γ args) (h : v.Portable) :
    args.any initStruct = false := by
  induction args with
  | nil => rfl
  | cons a args ih =>
    cases v with
    | cons v vs =>
      rw [List.any_cons, ih vs h.2, Bool.or_false]
      cases v with
      | base prim hprim b hb =>
        obtain ⟨-, fmt, x, hf, -⟩ := h.1
        rw [initStruct, dataTrans_fmt hprim hf]
      | struct => exact h.1.elim
      | list hprim hnum hargs vs =>
        obtain ⟨hzero, -, -, ht⟩ := h.1
        rw [initStruct, ht, hzero]
        rfl

/-- **What the C# writer writes** for a portable message, and what the C# reader reads. -/
theorem Tuple.csWrite_eq {args : List Arg} {fuel : Nat} (v : Tuple typed Γ args) (h : v.Portable) (hd : v.depth ≤ fuel)
    (hlen : v.enc.length < 65536) : csWrite Γ fuel args v.cs = some v.enc := by
  rw [csWrite, v.not_initStruct h]
  simp only [Bool.false_eq_true, ↓reduceIte, v.csWrite_portable h hd, v.csLength_portable h hd hlen,
    Option.bind_eq_bind,
    Option.bind_some, Nat.mod_eq_of_lt hlen, Nat.le_refl, Nat.sub_self, List.replicate_zero, List.append_nil]

theorem Tuple.csRead_eq (D : Utf8Decoder) {args : List Arg} {fuel : Nat} (v : Tuple typed Γ args) (h : v.Portable)
    (hd : v.depth ≤ fuel) (hfuel : 256 ≤ fuel) : csRead D Γ fuel args v.enc = some v.cs := by
  have hread := v.csRead_portable D h hd hfuel []
  rw [List.append_nil] at hread
  rw [csRead, hread]
  rfl

/-! ## The Lua code on portable values -/

section Spec

set_option linter.unusedSectionVars false

variable {V : Prim → Bool → Base → Prop} (hV : ∀ {prim isarray b}, FixedBase prim isarray b → V prim isarray b)
include hV

mutual

/-- Elements have no lists, and their structures are empty. -/
theorem Tuple.element_spec : ∀ {args : List Arg} (v : Tuple typed Γ args), v.Element →
    v.All V ∧ v.Counted ∧ v.StructsEmpty
  | _, .nil, _ => ⟨trivial, trivial, trivial⟩
  | _, .cons v vs, h => by
    obtain ⟨h1, h2, h3⟩ := Value.element_spec v h.1
    obtain ⟨h1', h2', h3'⟩ := Tuple.element_spec vs h.2
    exact ⟨⟨h1, h1'⟩, ⟨h2, h2'⟩, ⟨h3, h3'⟩⟩

theorem Value.element_spec : ∀ {a : Arg} (v : Value typed Γ a), v.Element → v.All V ∧ v.Counted ∧ v.StructsEmpty
  | _, .base prim hprim b hb, h => by
    rw [Value.Element] at h
    exact ⟨hV h, trivial, trivial⟩
  | _, .struct _ _ _ v, h => by
    obtain ⟨h1, h2, -⟩ := Tuple.element_spec v h.2.1
    exact ⟨h1, h2, h.1⟩
  | _, .list .., h => h.elim

end

theorem Elems.element_spec : ∀ {args : List Arg} (vs : Elems typed Γ args), vs.Element →
    vs.All V ∧ vs.Counted ∧ vs.StructsEmpty
  | _, .nil, _ => ⟨trivial, trivial, trivial⟩
  | _, .cons v vs, h => by
    obtain ⟨h1, h2, h3⟩ := v.element_spec hV h.1
    obtain ⟨h1', h2', h3'⟩ := Elems.element_spec vs h.2
    exact ⟨⟨h1, h1'⟩, ⟨h2, h2'⟩, ⟨h3, h3'⟩⟩

theorem Tuple.portable_spec {args : List Arg} (v : Tuple typed Γ args) (h : v.Portable) :
    v.All V ∧ v.Counted ∧ v.StructsEmpty := by
  induction args with
  | nil => cases v; exact ⟨trivial, trivial, trivial⟩
  | cons a args ih =>
    cases v with
    | cons v vs =>
      obtain ⟨h1', h2', h3'⟩ := ih vs h.2
      cases v with
      | base prim hprim b hb => exact ⟨⟨hV h.1, h1'⟩, ⟨trivial, h2'⟩, ⟨trivial, h3'⟩⟩
      | struct => exact h.1.elim
      | list hprim hnum hargs vs =>
        obtain ⟨-, hlen, hvs, -⟩ := h.1
        obtain ⟨h1, h2, h3⟩ := vs.element_spec hV hvs
        exact ⟨⟨h1, h1'⟩, ⟨⟨by omega, h2⟩, h2'⟩, ⟨h3, h3'⟩⟩

end Spec

/-- The arguments stay the same. -/
theorem Tuple.vals_recast {O O' : Type} {P : Prims Base O} {Q : Prims Base O'} {args : List Arg} (v : Tuple P Γ args)
    (h : v.All Q.Valid) : (v.recast Q h).vals = v.vals := by
  induction args with
  | nil => cases v; rfl
  | cons a args ih =>
    cases v with
    | cons v vs => rw [Tuple.recast, Tuple.vals, Tuple.vals, v.val_recast h.1, ih vs h.2]

/-- A portable message without content has no fields. -/
theorem Tuple.portable_empty {args : List Arg} (v : Tuple typed Γ args) (h : v.Portable) (he : v.Empty) :
    args = [] := by
  cases v with
  | nil => rfl
  | cons v vs =>
    cases v with
    | base => exact he.1.elim
    | struct => exact h.1.elim
    | list => exact he.1.elim

/-- **The generated reader** on the encoding of a portable message. -/
theorem Tuple.luaRead_eq {net : List (String × Compiled)} (hnet : Export Γ = some net) {args : List Arg}
    (hargs : structArrays args ≤ 97) (v : Tuple typed Γ args) (h : v.Portable) {depth : Nat} (hd : v.depth ≤ depth) :
    luaRead depth net args v.enc = .ok (v.table false 1) := by
  obtain ⟨hall, hc, -⟩ := v.portable_spec (V := fixed.Valid) id h
  have henc : (v.recast fixed hall).enc = v.enc := by
    have := Tuple.enc_recast (P := typed) (Q := fixed) (f := fun b => [b])
      (fun prim b => List.flatMap_singleton' (fixed.bytes prim b)) (fun _ => rfl) v hall
    rwa [List.flatMap_singleton'] at this
  have hcarries : (ReadBegin v.enc).Carries (v.recast fixed hall).enc := ⟨Nat.le_refl 1, by simp [ReadBegin, henc]⟩
  have hdepth : (v.recast fixed hall).depth ≤ depth := (v.depth_recast hall).trans_le hd
  have hread := (v.recast fixed hall).read_enc fixed_readable hnet (v.counted_recast hall hc) (keys_false_nodup args 1)
    (not_key_nil _) hdepth hcarries
  rw [v.table_recast hall, List.nil_append] at hread
  rw [luaRead, ConvertReader_eq, if_pos hargs]
  exact congrArg (Except.map Prod.fst) hread

/-- **What the generated writer writes** for a portable message. -/
theorem Tuple.luaWrite_eq {net : List (String × Compiled)} (hnet : Export Γ = some net) {args : List Arg}
    (hargs : structArrays args ≤ 97) (v : Tuple typed Γ args) (h : v.Portable) {M : Machine} (hd : v.depth ≤ M.depth) :
    luaWrite M net args v.vals = .ok v.enc := by
  have hV : ∀ {prim isarray b}, FixedBase prim isarray b → sending.Valid prim isarray b := by
    rintro prim isarray b ⟨rfl, fmt, x, hf, rfl, hx⟩
    have hne : prim ≠ .String := by
      rintro rfl
      cases hf
    exact ⟨hne, by simp only [Sendable, hf]; exact ⟨_, (packFmt_bits hx).1⟩⟩
  have hbytes : ∀ prim b, (sending.bytes prim b).flatMap Append.bytes = typed.bytes prim b := by
    intro prim b
    rw [Writes.bytes, Writes.bytes, show typed.write prim (some (.base b)) =
      (sending.write prim (some (.base b))).map fun as => as.flatMap Append.bytes from rfl]
    cases sending.write prim (some (.base b)) <;> rfl
  obtain ⟨hall, hc, hs⟩ := v.portable_spec (V := sending.Valid) hV h
  have hsolid := (v.recast sending hall).solid (v.counted_recast hall hc)
  obtain ⟨ss, hdata, hflat⟩ := solid_data hsolid
  rw [Tuple.enc_recast (P := typed) (Q := sending) hbytes (fun _ => rfl) v hall] at hflat
  have hfill : fill M ⟨net, []⟩ ⟨"", args⟩ v.vals none (WriteBegin none) = .ok
      (none, ⟨none, (v.recast sending hall).enc⟩) := by
    by_cases hne : v.Empty
    · obtain rfl := v.portable_empty h hne
      cases v
      rfl
    · have hne' : ¬(v.recast sending hall).Empty := fun he => hne ((v.empty_recast hall).1 he)
      rw [← v.vals_recast hall]
      refine fill_tuple ?_ hargs (v.counted_recast hall hc) (v.structsEmpty_recast hall hs) hne'
        ((v.depth_recast hall).trans_le hd) none (WriteBegin none)
      exact hnet
  rw [luaWrite, hfill]
  refine bind_eq_ok.2 ⟨_, rfl, ?_⟩
  simp only
  rw [show WriteData.Data ⟨none, (v.recast sending hall).enc⟩ = ss.map some from hdata, concat_some, hflat]

/-- **Portable messages agree.** -/
theorem Tuple.agrees_of_portable (D : Utf8Decoder) {net : List (String × Compiled)} (hnet : Export Γ = some net)
    {args : List Arg} (hargs : structArrays args ≤ 97) (v : Tuple typed Γ args) (h : v.Portable)
    (hlen : v.enc.length < 65536) : Agrees D net v where
  toLua := ⟨v.depth, v.enc, v.csWrite_eq h (Nat.le_refl _) hlen, v.depth, fun _ hd => v.luaRead_eq hnet hargs h hd⟩
  toCs := ⟨v.depth, v.enc, fun _ hd _ => v.luaWrite_eq hnet hargs h hd, max v.depth 256,
    v.csRead_eq D h (Nat.le_max_left _ _) (Nat.le_max_right _ _)⟩

end Portable

end XCore.Net
