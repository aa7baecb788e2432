import XCore.Lib.Scan
import XCore.Net.Send

/-!
# Messages without their values

A scan of a message moves over its bytes as the generated reader does, without making the values: it stops where the
reader raises, and else it tells whether a value of the declared type has been read. A position is the number of bytes
before it.

- `scanItem`: one number or string, without room for which the reader of numbers, or of a long string, raises;
- `scanX`: a primitive; without room for as many items as there should at least be, it returns nil;
- `scanFields`, `scanStruct`: the fields of a message and of a structure.

`readX_follows` is about the primitives, `readCode_follows` and `callReader_follows` about the generated code.
-/

namespace XCore.Net

open XCore.Lua XCore.Scanning

/-! ## Scanners -/

/-- `net.ReadData` at a position. -/
def cursor (s : Bytes) (p : Nat) : ReadData := ⟨s, p + 1⟩

section Scanners

variable (s : Bytes)

/-- The unsigned number of `n` bytes at a position. -/
def uint (n p : Nat) : Nat := leNat ((s.drop p).take n)

/-- Over an unsigned number of `n` bytes. -/
def scanU (n p : Nat) : Option (Nat × Nat) := if s.length < p + n then none else some (uint s n p, p + n)

/-- A number of fixed width. -/
def scanFmt (fmt : Fmt) : Scan Nat := fun p => (scanU s fmt.size p).map fun r => (true, r.2)

/-- The bytes that `ReadNumberCore` needs after the first. -/
def numberWidth (size : Nat) : Nat := if size = 1 ∨ size = 2 ∨ size = 3 then size else 4

/-- A number of variable size. -/
def scanNumber : Scan Nat := fun p => do
  let (flag, p) ← scanU s 1 p
  let _ ← scanU s (numberWidth (flag / 2)) p
  some (true, p + flag / 2)

/-- A string, of which only the length must be there. -/
def scanStr : Scan Nat := fun p => do
  let (size, p) ← scanU s 1 p
  let (size, p) ← if size = 0 then scanU s 2 p else some (size, p)
  some (true, p + size - 1)

/-- An item of a base type; nothing is read when a string does not have two bytes. -/
def scanItem (prim : Prim) : Scan Nat :=
  match fmtOf prim with
  | some fmt => scanFmt s fmt
  | none => if prim = .Number then scanNumber s else fun p => if s.length < p + 2 then some (false, p) else scanStr s p

/-- The bytes that must be there for a number of items. -/
def room (prim : Prim) (count : Nat) : Nat :=
  match fmtOf prim with
  | some fmt => count * fmt.size
  | none => count * 2 + 1

/-- So many items of a base type. An array of one item is read as the item. -/
def scanItems (prim : Prim) (isarray : Bool) (count : Nat) : Scan Nat := fun p =>
  if s.length < p + room prim count then some (false, p)
  else do
    let (b, p) ← (scanItem s prim).times count p
    some (b && !(isarray && count == 1), p)

/-- A value of a base type; nothing is read when an array does not have two bytes. -/
def scanX (prim : Prim) (isarray : Bool) : Scan Nat := fun p =>
  if isarray = true ∧ s.length < p + 2 then some (false, p)
  else scanItems s prim isarray (if isarray then uint s 1 p else 1) (if isarray then p + 1 else p)

variable (Γ : NetType)

/-- A value of a field. -/
def scanField (call : String → Scan Nat) (a : Arg) : Scan Nat :=
  match TYPE_EXPORT_LUA a.argtype, a.argnum with
  | some prim, argnum => scanX s prim argnum.isSome
  | none, some _ => fun p => do
    let (n, p) ← scanU s 2 p
    let (b, p) ← (call a.argtype).times n p
    some ((Γ.types.lookup a.argtype).isSome && b, p)
  | none, none => call a.argtype

/-- The values of fields. -/
def scanFields (call : String → Scan Nat) : List Arg → Scan Nat
  | [] => fun p => some (true, p)
  | a :: args => (scanField s Γ call a).andThen (scanFields call args)

/-- A structure. -/
def scanStruct : Nat → String → Scan Nat
  | 0, _ => fun _ => none
  | depth + 1, argtype =>
    match Γ.types.lookup argtype with
    | none => fun _ => none
    | some args => scanFields s Γ (scanStruct depth) args

end Scanners

/-! ## Values of the declared types -/

/-- A number that the base type has, or a string. -/
def HasType (prim : Prim) : Scalar → Prop
  | .num x => match fmtOf prim with
    | some fmt => ∃ n < 256 ^ fmt.size, x = fmt.value n
    | none => prim = .Number ∧ ∃ n, x = .int n
  | .str _ => prim = .String

/-- A scalar, or an array of scalars. -/
def HasTypeBase (prim : Prim) : Bool → Base → Prop
  | false, .one x => HasType prim x
  | true, .arr l => ∀ x ∈ l, HasType prim x
  | _, _ => False

/-- The primitives, with the values of the declared types. -/
def declared : Prims Base Append where
  toReads := luaReads
  toWrites := luaWrites
  Valid := HasTypeBase

/-! ## The primitives -/

section Primitives

variable {s : Bytes}

theorem uint_lt {n p : Nat} (h : p + n ≤ s.length) : uint s n p < 256 ^ n := by
  have hlen : ((s.drop p).take n).length = n := by
    rw [List.length_take, List.length_drop]
    omega
  have := leNat_lt ((s.drop p).take n)
  rwa [hlen] at this

theorem unpackAt_follows (n p : Nat) : Follows (cursor s) Eq (unpackAt n (cursor s p)) (scanU s n p) := by
  by_cases h : s.length < p + n
  · obtain ⟨e, he⟩ := unpackU_short h
    rw [scanU, if_pos h, unpackAt, cursor, Nat.cast_add, Nat.cast_one, he]
    exact .raises e
  · have hnext : ((p : Int) + n + 1).toNat = p + n + 1 := by omega
    rw [scanU, if_neg h, unpackAt, cursor, Nat.cast_add, Nat.cast_one, unpackU_eq (Nat.le_of_not_lt h)]
    simp only [bind, Except.bind, ReadData.goto, hnext]
    exact .returns rfl

/-- A number of fixed width is one that the base type has. -/
theorem readFmt_follows {prim : Prim} {fmt : Fmt} (hf : fmtOf prim = some fmt) (p : Nat) :
    Follows (cursor s) (fun x b => b = true ∧ HasType prim (.num x)) (readFmt fmt (cursor s p))
    (scanItem s prim p) := by
  simp only [scanItem, hf, scanFmt]
  by_cases h : s.length < p + fmt.size
  · obtain ⟨e, he⟩ := unpackU_short h
    rw [scanU, if_pos h, readFmt, unpackFmt, cursor, Nat.cast_add, Nat.cast_one, he]
    exact .raises e
  · have hnext : ((p : Int) + fmt.size + 1).toNat = p + fmt.size + 1 := by omega
    rw [scanU, if_neg h, readFmt, unpackFmt, cursor, Nat.cast_add, Nat.cast_one, unpackU_eq (Nat.le_of_not_lt h)]
    simp only [Except.map, bind, Except.bind, ReadData.goto, hnext]
    refine .returns ⟨rfl, ?_⟩
    simp only [HasType, hf]
    exact ⟨_, uint_lt (Nat.le_of_not_lt h), rfl⟩

/-- An item that is read where the cursor stands, which stays. -/
theorem follows_fst {n p : Nat} {R : Number → Bool → Prop} {k : Nat → Except LuaError (Number × ReadData)}
    {o : Option (Bool × Nat)} (hk : ∀ v, Follows (cursor s) R (k v) o) :
    Follows (cursor s) R ((unpackAt n (cursor s p)).map Prod.fst >>= k) (scanU s n p >>= fun _ => o) := by
  have h := unpackAt_follows (s := s) n p
  revert h
  generalize unpackAt n (cursor s p) = r
  generalize scanU s n p = u
  intro h
  cases h with
  | raises e => exact .raises e
  | returns h => exact hk _

/-- The integers of variable size. -/
theorem ReadNumberCore_follows (p : Nat) :
    Follows (cursor s) (fun x b => b = true ∧ HasType .Number (.num x)) (ReadNumberCore (cursor s p))
    (scanItem s .Number p) := by
  refine (unpackAt_follows 1 p).bind fun flag _ p h => ?_
  subst h
  have hlast (size ret : Nat) : Follows (cursor s) (fun x b => b = true ∧ HasType .Number (.num x))
      (.ok (.int (if flag % 2 = 0 then ret else -(ret : Int)), (cursor s p).goto ((cursor s p).Pos + size)) :
        Except LuaError (Number × ReadData)) (some (true, p + size)) := by
    have hgoto : (cursor s p).goto ((cursor s p).Pos + size) = cursor s (p + size) := by
      simp only [cursor, ReadData.goto, Nat.add_right_comm]
    rw [hgoto]
    exact .returns ⟨rfl, rfl, _, rfl⟩
  simp only
  generalize flag / 2 = size
  by_cases h1 : size = 1
  · rw [h1]
    exact follows_fst (hlast 1)
  rw [if_neg h1]
  by_cases h2 : size = 2
  · rw [h2]
    exact follows_fst (hlast 2)
  rw [if_neg h2]
  by_cases h3 : size = 3
  · rw [h3, if_pos rfl]
    rw [show numberWidth 3 = 3 from rfl, scanU]
    simp only [cursor, Nat.add_sub_cancel]
    split
    · rename_i a b c t hbytes
      have hlen := congrArg List.length hbytes
      simp only [List.length_drop, List.length_cons] at hlen
      rw [if_neg (by omega)]
      exact hlast 3 _
    · rename_i hbytes
      have hlen : s.length < p + 3 := by
        have hlength := List.length_drop (i := p) (l := s)
        rcases hd : s.drop p with _ | ⟨a, _ | ⟨b, _ | ⟨c, t⟩⟩⟩
        · rw [hd, List.length_nil] at hlength
          omega
        · rw [hd, List.length_singleton] at hlength
          omega
        · rw [hd, List.length_cons, List.length_singleton] at hlength
          omega
        · exact (hbytes a b c t hd).elim
      rw [if_pos hlen]
      exact .raises _
  rw [if_neg h3, show numberWidth size = 4 from if_neg (by omega)]
  exact follows_fst (hlast size)

/-- The cursor moves behind the bytes of an unsigned number. -/
theorem scanU_eq_some {n p v q : Nat} (h : scanU s n p = some (v, q)) : q = p + n := by
  rw [scanU] at h
  split at h
  · cases h
  · cases h
    rfl

/-- A string. -/
theorem readStr_follows (p : Nat) : Follows (cursor s) (fun _ b => b = true) (readStr (cursor s p)) (scanStr s p) := by
  have hlast {size q : Nat} (hpos : 0 < q + size) : Follows (cursor s) (fun _ b => b = true)
      (.ok (sub s (q + 1 : Nat) ((size : Int) - 1 + (q + 1 : Nat) - 1),
        (cursor s q).goto (((q + 1 : Nat) : Int) + ((size : Int) - 1)).toNat) : Except LuaError (Bytes × ReadData))
      (some (true, q + size - 1)) := by
    have hgoto : (cursor s q).goto (((q + 1 : Nat) : Int) + ((size : Int) - 1)).toNat = cursor s (q + size - 1) := by
      rw [ReadData.goto, cursor, cursor, ReadData.mk.injEq]
      exact ⟨rfl, by omega⟩
    rw [hgoto]
    exact .returns rfl
  refine (unpackAt_follows 1 p).bind fun size _ p h => ?_
  subst h
  simp only [Nat.le_zero]
  by_cases h0 : size = 0
  · rw [if_pos h0, if_pos h0]
    refine (unpackAt_follows 2 p).bind_of_some fun size _ q hq h => ?_
    subst h
    have := scanU_eq_some hq
    exact hlast (by omega)
  · rw [if_neg h0, if_neg h0]
    exact hlast (by omega)

/-- A loop of reads, of which every one returns a value as it should be. -/
theorem readMany_follows {α : Type} {read : ReadData → Except LuaError (α × ReadData)} {scan : Scan Nat} {P : α → Prop}
    (h : ∀ p, Follows (cursor s) (fun x b => b = true ∧ P x) (read (cursor s p)) (scan p)) (n p : Nat) :
    Follows (cursor s) (fun xs b => b = true ∧ ∀ x ∈ xs, P x) (readMany read n (cursor s p)) (scan.times n p) := by
  induction n generalizing p with
  | zero => exact .returns ⟨rfl, by simp⟩
  | succ n ih =>
    refine (h p).bind fun x b p hx => (ih p).bind fun xs c p hxs => ?_
    exact .returns ⟨by rw [hx.1, hxs.1]; rfl, List.forall_mem_cons.2 ⟨hx.2, hxs.2⟩⟩

/-- The loop of `ReadPtoString` is left when there is no room for a string; a scan stays there. -/
theorem readStrs_follows (n p : Nat) :
    Follows (cursor s) (Right (·.isSome)) (readStrs n (cursor s p)) ((scanItem s .String).times n p) := by
  induction n generalizing p with
  | zero => exact .returns (by simp [Right])
  | succ n ih =>
    have hlen : (cursor s p).Len < (cursor s p).Pos + 1 ↔ s.length < p + 2 := Iff.rfl
    rw [readStrs]
    by_cases h : s.length < p + 2
    · have hstuck : scanItem s .String p = some (false, p) := if_pos h
      obtain ⟨c, hc⟩ := Scan.times_of_stuck hstuck n
      rw [if_pos (hlen.2 h), Scan.times, Scan.andThen, hstuck]
      simp only [Option.bind_eq_bind, Option.bind_some, hc]
      exact .returns (by simp [Right])
    · have hitem : scanItem s .String p = scanStr s p := if_neg h
      rw [if_neg (mt hlen.1 h), Scan.times, Scan.andThen, hitem]
      refine (readStr_follows p).bind fun x b p hx => (ih p).bind fun xs c p hxs => ?_
      subst hx
      exact .returns (by simpa [Right] using hxs)

/-- A value of the declared type. -/
def IsTyped (prim : Prim) (isarray : Bool) (x : Option Base) : Prop := ∃ b, x = some b ∧ HasTypeBase prim isarray b

/-- A nil is none. -/
theorem not_typed_none {prim : Prim} {isarray : Bool} : Right (IsTyped prim isarray) none false := by
  simp [Right, IsTyped]

/-- The number of items of an array; without two bytes there is no room for an array. -/
theorem readCount_follows {prim : Prim} {isarray : Bool}
    {k : Option Nat × ReadData → Except LuaError (Option Base × ReadData)} (hk : ∀ d, k (none, d) = .ok (none, d))
    (hitems : ∀ count p, isarray = true ∨ count = 1 →
      Follows (cursor s) (Right (IsTyped prim isarray)) (k (some count, cursor s p)) (scanItems s prim isarray count p))
    (p : Nat) : Follows (cursor s) (Right (IsTyped prim isarray)) (readCount isarray (cursor s p) >>= k)
      (scanX s prim isarray p) := by
  rw [scanX]
  cases isarray with
  | false =>
    simp only [readCount, Bool.false_eq_true, false_and, ↓reduceIte]
    exact hitems 1 p (Or.inr rfl)
  | true =>
    have hlen : (cursor s p).Len < (cursor s p).Pos + 1 ↔ s.length < p + 2 := Iff.rfl
    simp only [readCount, true_and, ↓reduceIte]
    by_cases h : s.length < p + 2
    · rw [if_pos (hlen.2 h), if_pos h]
      simp only [bind, Except.bind, hk]
      exact .returns not_typed_none
    · rw [if_neg (mt hlen.1 h), if_neg h]
      have hunpack := unpackAt_follows (s := s) 1 p
      rw [scanU, if_neg (by omega)] at hunpack
      obtain ⟨count, hcount, rfl⟩ := hunpack.of_some
      rw [hcount]
      exact hitems _ _ (Or.inl rfl)

/-- The items of a reader of numbers. -/
theorem numbers_follow {prim : Prim} {isarray : Bool} {read : ReadData → Except LuaError (Number × ReadData)}
    (hread : ∀ p, Follows (cursor s) (fun x b => b = true ∧ HasType prim (.num x)) (read (cursor s p))
      (scanItem s prim p))
    {count : Nat} (h : isarray = true ∨ count = 1) (p : Nat) :
    Follows (cursor s) (Right (IsTyped prim isarray))
      (if count = 1 then do
        let (x, data) ← read (cursor s p)
        .ok (some (.one (.num x)), data)
      else do
        let (xs, data) ← readMany read count (cursor s p)
        .ok (some (.arr (xs.map .num)), data))
      (do
        let (b, p) ← (scanItem s prim).times count p
        some (b && !(isarray && count == 1), p)) := by
  by_cases hone : count = 1
  · rw [hone, if_pos rfl, Scan.times_one]
    refine (hread p).bind fun x b p hx => .returns ?_
    cases isarray <;> simp [Right, IsTyped, HasTypeBase, hx.1, hx.2]
  · obtain rfl := h.resolve_right hone
    rw [if_neg hone]
    refine (readMany_follows hread count p).bind fun xs b p hxs => .returns ?_
    simpa [Right, IsTyped, HasTypeBase, hxs.1, hone] using hxs.2

theorem ReadPtoNumber_follows {prim : Prim} {fmt : Fmt} (hf : fmtOf prim = some fmt) (isarray : Bool) (p : Nat) :
    Follows (cursor s) (Right (IsTyped prim isarray)) (ReadPtoNumber fmt fmt.size isarray (cursor s p))
      (scanX s prim isarray p) := by
  refine readCount_follows (fun _ => rfl) (fun count p h => ?_) p
  rw [scanItems]
  have hroom : (cursor s p).Len + 1 < (cursor s p).Pos + count * fmt.size ↔ s.length < p + room prim count := by
    simp only [cursor, ReadData.Len, room, hf]
    omega
  by_cases hr : s.length < p + room prim count
  · simp only [if_pos hr, if_pos (hroom.2 hr)]
    exact .returns not_typed_none
  · simp only [if_neg hr, if_neg (mt hroom.1 hr)]
    exact numbers_follow (readFmt_follows hf) h p

theorem ReadNumber_follows (isarray : Bool) (p : Nat) : Follows (cursor s) (Right (IsTyped .Number isarray))
    (ReadNumber isarray (cursor s p)) (scanX s .Number isarray p) := by
  refine readCount_follows (fun _ => rfl) (fun count p h => ?_) p
  rw [scanItems]
  have hroom : (cursor s p).Len < (cursor s p).Pos + count * 2 ↔ s.length < p + room .Number count := by
    simp only [cursor, ReadData.Len, room, fmtOf]
    omega
  by_cases hr : s.length < p + room .Number count
  · simp only [if_pos hr, if_pos (hroom.2 hr)]
    exact .returns not_typed_none
  · simp only [if_neg hr, if_neg (mt hroom.1 hr)]
    exact numbers_follow ReadNumberCore_follows h p

theorem ReadPtoString_follows (isarray : Bool) (p : Nat) : Follows (cursor s) (Right (IsTyped .String isarray))
    (ReadPtoString isarray (cursor s p)) (scanX s .String isarray p) := by
  refine readCount_follows (fun _ => rfl) (fun count p h => ?_) p
  rw [scanItems]
  have hroom : (cursor s p).Len < (cursor s p).Pos + count * 2 ↔ s.length < p + room .String count := by
    simp only [cursor, ReadData.Len, room, fmtOf]
    omega
  by_cases hr : s.length < p + room .String count
  · simp only [if_pos hr, if_pos (hroom.2 hr)]
    exact .returns not_typed_none
  simp only [if_neg hr, if_neg (mt hroom.1 hr)]
  by_cases hone : count = 1
  · have hitem : scanItem s .String p = scanStr s p := if_neg (by simp only [room, fmtOf] at hr; omega)
    rw [hone, if_pos rfl, Scan.times_one, hitem]
    refine (readStr_follows p).bind fun x b p hb => .returns ?_
    subst hb
    cases isarray <;> simp [Right, IsTyped, HasTypeBase, HasType]
  · obtain rfl := h.resolve_right hone
    rw [if_neg hone]
    refine (readStrs_follows count p).bind fun ss b p hb => .returns ?_
    cases ss with
    | none => simpa [Right, IsTyped, hone] using hb
    | some ss => simpa [Right, IsTyped, HasTypeBase, HasType, hone] using hb

/-- **A primitive** raises where its scan stops, and returns a value of the declared type where the scan says so. -/
theorem readX_follows (prim : Prim) (isarray : Bool) (p : Nat) :
    Follows (cursor s) (Right (IsTyped prim isarray)) (readX prim isarray (cursor s p)) (scanX s prim isarray p) := by
  cases hf : fmtOf prim with
  | some fmt =>
    rw [readX_fmt hf]
    exact ReadPtoNumber_follows hf isarray p
  | none =>
    cases prim <;> cases hf
    · exact ReadPtoString_follows isarray p
    · exact ReadNumber_follows isarray p

end Primitives

/-! ## The generated code -/

/-- The table with values, which may be nil, of the fields from number `k` on. -/
def fieldTable {B : Type} (showname : Bool) : Nat → List Arg → List (Option (Val B)) → Table B
  | k, a :: args, o :: os => (o.map fun v => (idxname showname k a, v)).toList ++ fieldTable showname (k + 1) args os
  | _, _, _ => []

section Tables

variable {B O : Type} {P : Prims B O} {Γ : NetType} {showname : Bool} {args : List Arg}

theorem setKey_fresh {t : Table B} {k : Key} (h : ∀ e ∈ t, e.1 ≠ k) (v : Option (Val B)) :
    setKey t k v = t ++ (v.map fun v => (k, v)).toList := by
  have hfilter : t.filter (fun e => e.1 ≠ k) = t := List.filter_eq_self.2 fun e he => by simpa using h e he
  rw [setKey, hfilter]

theorem mem_fieldTable {os : List (Option (Val B))} {k : Nat} {e : Key × Val B}
    (he : e ∈ fieldTable showname k args os) :
    e.1 ∈ keys showname k args := by
  induction args generalizing os k with
  | nil => exact absurd he (by simp [fieldTable])
  | cons a args ih =>
    cases os with
    | nil => exact absurd he (by simp [fieldTable])
    | cons o os =>
      rcases List.mem_append.1 he with he | he
      · cases o with
        | none => simp at he
        | some v =>
          obtain rfl : e = (idxname showname k a, v) := by simpa using he
          exact List.mem_cons_self
      · exact List.mem_cons_of_mem _ (ih he)

/-- The table of a tuple. -/
theorem Tuple.table_eq (v : Tuple P Γ args) (k : Nat) :
    v.table showname k = fieldTable showname k args (v.vals.map some) := by
  induction args generalizing k with
  | nil => cases v; rfl
  | cons a args ih =>
    cases v with
    | cons v vs =>
      rw [Tuple.table, Tuple.vals, List.map_cons, fieldTable, ih vs]
      rfl

@[simp] theorem Tuple.length_vals (v : Tuple P Γ args) : v.vals.length = args.length := by
  induction args with
  | nil => cases v; rfl
  | cons a args ih =>
    cases v with
    | cons v vs => rw [Tuple.vals, List.length_cons, List.length_cons, ih vs]

/-- The values can be told from the table. -/
theorem fieldTable_inj {os os' : List (Option (Val B))} {k : Nat} (hnd : (keys showname k args).Nodup)
    (hos : os.length = args.length) (hos' : os'.length = args.length)
    (h : fieldTable showname k args os = fieldTable showname k args os') : os = os' := by
  induction args generalizing os os' k with
  | nil => rw [List.length_eq_zero_iff.1 hos, List.length_eq_zero_iff.1 hos']
  | cons a args ih =>
    rw [keys, List.nodup_cons] at hnd
    cases os with
    | nil => cases hos
    | cons o os =>
      cases os' with
      | nil => cases hos'
      | cons o' os' =>
        have hnone {v : Val B} {os os' : List (Option (Val B))} : (idxname showname k a, v) :: fieldTable showname
            (k + 1) args os ≠
            fieldTable showname (k + 1) args os' := fun he => hnd.1 (mem_fieldTable (he ▸ List.mem_cons_self))
        have hrest : fieldTable showname (k + 1) args os = fieldTable showname (k + 1) args os' → os = os' :=
          ih hnd.2 (Nat.succ.inj hos) (Nat.succ.inj hos')
        rw [fieldTable, fieldTable] at h
        cases o with
        | none =>
          cases o' with
          | none => rw [hrest h]
          | some v' => exact (hnone h.symm).elim
        | some v =>
          cases o' with
          | none => exact (hnone h).elim
          | some v' =>
            obtain ⟨hv, h⟩ := List.cons_eq_cons.1 h
            rw [hrest h, (Prod.mk.inj hv).2]

end Tables

section Code

variable {s : Bytes}

/-- `net.ReadUint16` at a position. -/
theorem readUint16 (p : Nat) : luaReads.ReadX .Uint16 false (some (cursor s p)) =
    .ok (if s.length < p + 2 then (none, some (cursor s p))
      else (some (.int (uint s 2 p)), some (cursor s (p + 2)))) := by
  have hlen : (cursor s p).Len + 1 < (cursor s p).Pos + 1 * 2 ↔ s.length < p + 2 := by
    simp only [cursor, ReadData.Len]
    omega
  simp only [Reads.ReadX, luaReads, readX, ReadPtoNumber, readCount, Bool.false_eq_true, ↓reduceIte, bind,
    Except.bind, Except.map]
  by_cases h : s.length < p + 2
  · rw [if_pos (hlen.2 h), if_pos h]
  · have hnext : ((p : Int) + Fmt.H.size + 1).toNat = p + 2 + 1 := by simp only [Fmt.size]; omega
    have hunpack := unpackU_eq (n := Fmt.H.size) (s := s) (p := p) (Nat.le_of_not_lt h)
    rw [if_neg (mt hlen.1 h), if_neg h, readFmt, unpackFmt, cursor, Nat.cast_add, Nat.cast_one, hunpack]
    simp only [bind, Except.bind, Except.map, ReadData.goto, hnext]
    rfl

/-- A position in `net.ReadData`. -/
def readingAt (s : Bytes) (p : Nat) : Option ReadData := some (cursor s p)

/-- A table that a reader makes of a structure. -/
def StructRead (Γ : NetType) (argtype : String) (t : Table Base) (b : Bool) : Prop :=
  ∃ args, Γ.types.lookup argtype = some args ∧ Right (fun t => ∃ v : Tuple declared Γ args, t = v.table true 1) t b

variable {Γ : NetType} {call : String → Option ReadData → Except LuaError (Table Base × Option ReadData)}
  {scan : String → Scan Nat}
  (hcall : ∀ argtype p, Follows (readingAt s) (StructRead Γ argtype) (call argtype (readingAt s p)) (scan argtype p))
include hcall

/-- The loop of a reader over an array. -/
theorem readElems_follows {i : Nat} {tmp : Table Base} (hfresh : ∀ e ∈ tmp, ∀ j ≥ i, e.1 ≠ .pos j) (argtype : String)
    (n p : Nat) : Follows (readingAt s) (fun t b => ∃ l, t = tmp ++ l ∧ ∀ args, Γ.types.lookup argtype = some args →
      Right (fun l => ∃ vs : Elems declared Γ args, l = vs.table i) l b)
      (readElems (call argtype) n i tmp (readingAt s p)) ((scan argtype).times n p) := by
  induction n generalizing i p tmp with
  | zero => exact .returns ⟨[], by simp, fun args _ => iff_of_true rfl ⟨.nil, rfl⟩⟩
  | succ n ih =>
    refine (hcall argtype p).bind fun t b p ht => ?_
    obtain ⟨args, hargs, ht⟩ := ht
    rw [Right] at ht
    simp only [setKey_fresh fun e he => hfresh e he i (Nat.le_refl i)]
    refine (ih (fresh_append hfresh) p).map_right fun u c hu => ?_
    obtain ⟨l, rfl, hl⟩ := hu
    refine ⟨(.pos i, .table t) :: l, by simp, fun args' hargs' => ?_⟩
    obtain rfl : args = args' := Option.some.inj (hargs.symm.trans hargs')
    have hl := hl args hargs
    rw [Right] at hl
    rw [Right, Bool.and_eq_true, ht, hl]
    constructor
    · rintro ⟨⟨v, rfl⟩, vs, rfl⟩
      exact ⟨.cons v vs, rfl⟩
    · rintro ⟨vs, hvs⟩
      cases vs with
      | nil => cases hvs
      | cons v vs =>
        rw [Elems.table, List.cons_eq_cons, Prod.mk.injEq] at hvs
        exact ⟨⟨v, Val.table.inj hvs.1.2⟩, vs, hvs.2⟩

/-- A field, whose value may be nil. -/
theorem readStmt_follows {a : Arg} {idx : Key} {data : Table Base} (hfresh : ∀ e ∈ data, e.1 ≠ idx) (p : Nat) :
    Follows (readingAt s) (fun t b => ∃ o, t = data ++ (o.map fun v => (idx, v)).toList ∧
      Right (fun o => ∃ v : Value declared Γ a, o = some v.val) o b)
      (readStmt luaReads call (readField idx a) data (readingAt s p)) (scanField s Γ scan a p) := by
  rw [readField, scanField]
  cases hprim : TYPE_EXPORT_LUA a.argtype with
  | some prim =>
    have hread : Follows (readingAt s) (Right (IsTyped prim a.argnum.isSome))
        (luaReads.ReadX prim a.argnum.isSome (readingAt s p)) (scanX s prim a.argnum.isSome p) :=
      (readX_follows prim a.argnum.isSome p).lift
    refine hread.map_left (f := fun x => setKey data idx (x.map .base)) ?_
    intro x b hx
    refine ⟨x.map .base, setKey_fresh hfresh _, hx.trans ⟨?_, ?_⟩⟩
    · rintro ⟨base, rfl, hbase⟩
      exact ⟨.base prim hprim base hbase, rfl⟩
    · rintro ⟨v, hv⟩
      cases v with
      | base prim' hprim' base hbase =>
        obtain rfl : prim = prim' := Option.some.inj (hprim.symm.trans hprim')
        obtain ⟨base', rfl, he⟩ := Option.map_eq_some_iff.1 hv
        cases he
        exact ⟨_, rfl, hbase⟩
      | struct hprim' => cases hprim.symm.trans hprim'
      | list hprim' => cases hprim.symm.trans hprim'
  | none =>
    cases hnum : a.argnum with
    | none =>
      refine (hcall a.argtype p).map_left (f := fun t => setKey data idx (some (.table t))) ?_
      rintro t b ⟨args, hargs, ht⟩
      refine ⟨some (.table t), setKey_fresh hfresh _, ?_⟩
      refine ht.trans ⟨?_, ?_⟩
      · rintro ⟨v, rfl⟩
        exact ⟨.struct hprim hnum hargs v, rfl⟩
      · rintro ⟨v, hv⟩
        cases v with
        | base prim' hprim' => cases hprim.symm.trans hprim'
        | struct hprim' hnum' hargs' v =>
          cases hargs.symm.trans hargs'
          exact ⟨v, Val.table.inj (Option.some.inj hv)⟩
        | list hprim' hnum' => cases hnum.symm.trans hnum'
    | some m =>
      by_cases h : s.length < p + 2
      · simp only [readStmt, readingAt, readUint16, scanU, if_pos h]
        exact .raises _
      · have helems := readElems_follows hcall (not_pos_nil 1) a.argtype (uint s 2 p) (p + 2)
        simp only [readStmt, readingAt, readUint16, scanU, if_neg h]
        refine helems.bind fun t b p ht => .returns ⟨some (.table t), setKey_fresh hfresh _, ?_⟩
        obtain ⟨l, rfl, hl⟩ := ht
        rw [Right, Bool.and_eq_true, Option.isSome_iff_exists]
        constructor
        · rintro ⟨⟨args, hargs⟩, hb⟩
          obtain ⟨vs, rfl⟩ := (hl args hargs).1 hb
          exact ⟨.list hprim hnum hargs vs, rfl⟩
        · rintro ⟨v, hv⟩
          cases v with
          | base prim' hprim' => cases hprim.symm.trans hprim'
          | struct hprim' hnum' => cases hnum.symm.trans hnum'
          | list hprim' hnum' hargs vs => exact ⟨⟨_, hargs⟩, (hl _ hargs).2 ⟨vs, Val.table.inj (Option.some.inj hv)⟩⟩

/-- The fields from number `k` on. -/
theorem readCode_follows {showname : Bool} {args : List Arg} {k p : Nat} {data : Table Base}
    (hnd : (keys showname k args).Nodup) (hfresh : ∀ e ∈ data, e.1 ∉ keys showname k args) :
    Follows (readingAt s) (fun t b => ∃ os, os.length = args.length ∧ t = data ++ fieldTable showname k args os ∧
      Right (fun os => ∃ v : Tuple declared Γ args, os = v.vals.map some) os b)
      (readCode luaReads call (readStmts showname k args) data (readingAt s p)) (scanFields s Γ scan args p) := by
  induction args generalizing k p data with
  | nil => exact .returns ⟨[], rfl, by simp [fieldTable], iff_of_true rfl ⟨.nil, rfl⟩⟩
  | cons a args ih =>
    rw [keys, List.nodup_cons] at hnd
    have hidx : ∀ e ∈ data, e.1 ≠ idxname showname k a := fun e he heq => hfresh e he (heq ▸ List.mem_cons_self)
    refine (readStmt_follows hcall hidx p).bind fun t b p ht => ?_
    obtain ⟨o, rfl, ho⟩ := ht
    have hrest : ∀ e ∈ data ++ (o.map fun v => (idxname showname k a, v)).toList, e.1 ∉ keys showname (k + 1) args := by
      intro e he
      rcases List.mem_append.1 he with he | he
      · exact fun hmem => hfresh e he (List.mem_cons_of_mem _ hmem)
      · cases o with
        | none => simp at he
        | some v =>
          obtain rfl : e = (idxname showname k a, v) := by simpa using he
          exact hnd.1
    refine (ih hnd.2 hrest).map_right fun u c hu => ?_
    obtain ⟨os, hlen, rfl, hos⟩ := hu
    refine ⟨o :: os, congrArg (· + 1) hlen, by rw [fieldTable, List.append_assoc], ?_⟩
    rw [Right] at ho hos
    rw [Right, Bool.and_eq_true, ho, hos]
    constructor
    · rintro ⟨⟨v, rfl⟩, vs, rfl⟩
      exact ⟨.cons v vs, rfl⟩
    · rintro ⟨vs, hvs⟩
      cases vs with
      | cons v vs =>
        rw [Tuple.vals, List.map_cons, List.cons_eq_cons] at hvs
        exact ⟨⟨v, hvs.1⟩, vs, hvs.2⟩

omit hcall

/-- **A structure** is read from anything that its scan accepts. -/
theorem callReader_follows {net : List (String × Compiled)} (hnet : Export Γ = some net) (depth : Nat)
    (argtype : String)
    (p : Nat) : Follows (readingAt s) (StructRead Γ argtype)
    (callReader luaReads (readersOf net) depth argtype (readingAt s p))
      (scanStruct s Γ depth argtype p) := by
  induction depth generalizing argtype p with
  | zero => exact .raises _
  | succ depth ih =>
    rw [scanStruct]
    cases hargs : Γ.types.lookup argtype with
    | none =>
      have hreader : readersOf net argtype = none := by
        rw [readersOf, Export_lookup_eq hnet, hargs]
        rfl
      rw [callReader, hreader]
      exact .raises _
    | some args =>
      rw [callReader_succ _ hnet hargs]
      refine (readCode_follows ih (keys_lookup hargs) (not_key_nil _)).mono ?_
      rintro t b ⟨os, hlen, rfl, hos⟩
      refine ⟨args, hargs, hos.trans ⟨?_, ?_⟩⟩
      · rintro ⟨v, rfl⟩
        exact ⟨v, (v.table_eq 1).symm⟩
      · rintro ⟨v, hv⟩
        rw [List.nil_append, v.table_eq] at hv
        exact ⟨v, fieldTable_inj (keys_lookup hargs) hlen (by simp) hv⟩

end Code

end XCore.Net
