import XCore.Net.Base

/-!
# `net.WriteData`

The writers of `base.lua` as they change `net.WriteData`: the entries of `Data`, `Pos` and `Len`, which they keep by
hand. The functions of `Base.lean` say what a writer appends; here it is done (`write_of_appends`).

`Filled` is what `net.Pack` relies on: `Data[1..Pos]` are strings, there is nothing beyond them, and `Len` is their
length.

- `Writes`: the strings that a writer appends, with their length; it keeps `Filled`;
- `Overcounts`: what a writer of strings does to `Len`, and what no later writer takes back;
- `writeAll_filled_iff`: the calls that leave `net.WriteData` filled are those without a string.
-/

namespace XCore.Net.WriteBuffer

open XCore.Lua

/-- `net.WriteData`: an entry of `Data` that is nil is `none`. -/
structure WriteData where
  Data : Nat → Option Scalar
  Pos : Nat
  Len : Nat

/-- An argument of a writer: a number or a string, a table with its length `#t` and what `ipairs` finds in it, or
anything else. -/
inductive Value
  | other
  | one (x : Scalar)
  | tab (len : Nat) (items : List Value)

namespace WriteData

/-- `data.Data[data.Pos+k] = v`. -/
def put (data : WriteData) (k : Nat) (v : Option Scalar) : WriteData :=
  { data with Data := Function.update data.Data (data.Pos + k) v }

/-- `data.Pos = data.Pos + n` and `data.Len = data.Len + size`. -/
def advance (data : WriteData) (n size : Nat) : WriteData := { data with Pos := data.Pos + n, Len := data.Len + size }

end WriteData

/-- `net.WriteBegin`. -/
def WriteBegin : WriteData := ⟨fun _ => none, 0, 0⟩

/-- A string as an entry. -/
def entry (s : Bytes) : Option Scalar := some (.str s)

namespace Value

/-- `string.pack(_type, value)`. -/
def pack (fmt : Fmt) : Value → Except LuaError Bytes
  | one x => match x.toNum with
    | some n => packFmt fmt n
    | none => .error .badArgument
  | _ => .error .badArgument

/-- `string.len(v)`; the text of a number that is not an integer is `floatText`. -/
def len (floatText : UInt64 → Bytes) : Value → Except LuaError Nat
  | one (.str s) => .ok s.length
  | one (.num (.int n)) => .ok (dec n).length
  | one (.num (.flt b)) => .ok (floatText b).length
  | _ => .error .badArgument

/-- The entry that a value makes. -/
def entry : Value → Option Scalar
  | one x => some x
  | _ => none

end Value

/-- The count of a table, and a loop over what `ipairs` finds. -/
def writeItems (write : Value → WriteData → Except LuaError WriteData) (len : Nat) (items : List Value)
    (data : WriteData) :
    Except LuaError WriteData :=
  if len ≤ 255 then items.foldlM (fun data v => write v data) ((data.put 1 (entry (leBytes 1 len))).advance 1 1)
  else .error .assertion

/-- One number of a fixed width. -/
def putNumber (fmt : Fmt) (size : Nat) (value : Value) (data : WriteData) : Except LuaError WriteData := do
  let s ← value.pack fmt
  .ok ((data.put 1 (entry s)).advance 1 size)

/-- `WritePtoNumber`. -/
def putPtoNumber (fmt : Fmt) (size : Nat) (value : Value) (data : WriteData) : Except LuaError WriteData :=
  match value with
  | .tab len items => writeItems (putNumber fmt size) len items data
  | value => putNumber fmt size value data

/-- `WriteNumberCore`. -/
def putNumberCore (value : Value) (data : WriteData) : Except LuaError WriteData :=
  match value with
  | .one (.num value) =>
    let negative := value.lt (.int 0)
    let flag : Nat := if negative then 1 else 0
    let value := if negative then value.neg else value
    if value.le (.int 0xff) then do
      let data := data.put 1 (entry (leBytes 1 (2 + flag)))
      let s ← packFmt .B value
      .ok ((data.put 2 (entry s)).advance 2 2)
    else if value.lt (.int 0xffff) then do
      let data := data.put 1 (entry (leBytes 1 flag))
      let s ← packFmt .H value
      .ok ((data.put 2 (entry s)).advance 2 3)
    else if value.lt (.int 0xffffff) then do
      let data := data.put 1 (entry (leBytes 1 flag))
      let s₀ ← lowBits 0 value
      let s₁ ← lowBits 8 value
      let s₂ ← lowBits 16 value
      .ok ((((data.put 2 (entry s₀)).put 3 (entry s₁)).put 4 (entry s₂)).advance 4 4)
    else do
      let data := data.put 1 (entry (leBytes 1 flag))
      let s ← packFmt .I value
      .ok ((data.put 2 (entry s)).advance 2 5)
  | _ => .error .compare

/-- `WriteNumber`. -/
def putNumbers (value : Value) (data : WriteData) : Except LuaError WriteData :=
  match value with
  | .tab len items => writeItems putNumberCore len items data
  | value => putNumberCore value data

/-- One string of `size - 1` bytes, with the entry that follows its size. -/
def putSized (size : Nat) (v : Option Scalar) (data : WriteData) : Except LuaError WriteData :=
  if size ≤ 0xff then .ok (((data.put 1 (entry (leBytes 1 size))).put 2 v).advance 2 (size + 1))
  else do
    let data := data.put 1 (entry (leBytes 1 0))
    let s ← packU 2 size
    .ok (((data.put 2 (entry s)).put 3 v).advance 3 (size + 3))

/-- `WritePtoString`. In the branch of a single string `v` is a global variable, which is nil. -/
def putPtoString (floatText : UInt64 → Bytes) (value : Value) (data : WriteData) : Except LuaError WriteData :=
  match value with
  | .tab len items => writeItems (fun v data => do putSized ((← v.len floatText) + 1) v.entry data) len items data
  | value => do putSized ((← value.len floatText) + 1) none data

/-- `net.WriteX`. -/
def write (floatText : UInt64 → Bytes) : Prim → Value → WriteData → Except LuaError WriteData
  | .Uint8 => putPtoNumber .B 1
  | .Uint16 => putPtoNumber .H 2
  | .Uint32 => putPtoNumber .I 4
  | .Uint64 => putPtoNumber .J 8
  | .Int8 => putPtoNumber .b 1
  | .Int16 => putPtoNumber .h 2
  | .Int32 => putPtoNumber .i 4
  | .Int64 => putPtoNumber .j 8
  | .Float => putPtoNumber .f 4
  | .Double => putPtoNumber .d 8
  | .String => putPtoString floatText
  | .Number => putNumbers

/-- A sequence of calls, if all return. -/
def writeAll (floatText : UInt64 → Bytes) (calls : List (Prim × Value)) (data : WriteData) :
    Except LuaError WriteData :=
  calls.foldlM (fun data call => write floatText call.1 call.2 data) data

/-! ## What `net.Pack` relies on -/

/-- The bytes of an entry. -/
def textSize : Option Scalar → Nat
  | some (.str s) => s.length
  | _ => 0

/-- The total length of the strings in `Data[1..n]`. -/
def total (Data : Nat → Option Scalar) (n : Nat) : Nat := ((List.range n).map fun i => textSize (Data (i + 1))).sum

/-- `Data[1..Pos]` is a gap-free array of strings with nothing beyond, and `Len` is their total length. -/
structure Filled (data : WriteData) : Prop where
  strings : ∀ i, 1 ≤ i → i ≤ data.Pos → ∃ s, data.Data i = entry s
  beyond : ∀ i, data.Pos < i → data.Data i = none
  len : data.Len = total data.Data data.Pos

theorem filled_begin : Filled WriteBegin := ⟨fun _ h h' => absurd (h.trans h') (by decide), fun _ _ => rfl, rfl⟩

/-! ## Entries behind the last -/

namespace WriteData

/-- The next entry. -/
def push (data : WriteData) (v : Option Scalar) : WriteData :=
  { data with Data := Function.update data.Data (data.Pos + 1) v, Pos := data.Pos + 1 }

/-- The next entries, and what `Len` grows by. -/
def append (data : WriteData) (vs : List (Option Scalar)) (size : Nat) : WriteData :=
  { vs.foldl push data with Len := data.Len + size }

end WriteData

section Entries

variable {data : WriteData} {v : Option Scalar} {vs : List (Option Scalar)}

theorem total_push : total (data.push v).Data (data.push v).Pos = total data.Data data.Pos + textSize v := by
  have hbelow : (List.range data.Pos).map (fun i => textSize ((data.push v).Data (i + 1))) =
      (List.range data.Pos).map fun i => textSize (data.Data (i + 1)) := by
    refine List.map_congr_left fun i hi => ?_
    have hne : i + 1 ≠ data.Pos + 1 := by have := List.mem_range.1 hi; omega
    exact congrArg textSize (Function.update_of_ne hne ..)
  have hlast : (data.push v).Data (data.Pos + 1) = v := Function.update_self ..
  show total _ (data.Pos + 1) = _
  rw [total, List.range_succ, List.map_append, List.sum_append, hbelow, List.map_singleton, List.sum_singleton, hlast]
  rfl

theorem total_pushes : ∀ (vs : List (Option Scalar)) (data : WriteData),
    total (vs.foldl WriteData.push data).Data (vs.foldl WriteData.push data).Pos =
        total data.Data data.Pos + (vs.map textSize).sum
  | [], _ => rfl
  | v :: vs, data => by
    rw [List.foldl_cons, total_pushes vs, total_push, List.map_cons, List.sum_cons, Nat.add_assoc]

theorem total_append (n : Nat) : total (data.append vs n).Data (data.append vs n).Pos =
    total data.Data data.Pos + (vs.map textSize).sum := total_pushes vs data

/-- Strings up to the position and nothing beyond it. -/
theorem filled_pushes : ∀ (ss : List Bytes) {data : WriteData},
    (∀ i, 1 ≤ i → i ≤ data.Pos → ∃ s, data.Data i = entry s) →
    (∀ i, data.Pos < i → data.Data i = none) → let data' := (ss.map entry).foldl WriteData.push data
    (∀ i, 1 ≤ i → i ≤ data'.Pos → ∃ s, data'.Data i = entry s) ∧ ∀ i, data'.Pos < i → data'.Data i = none
  | [], _, hs, hb => ⟨hs, hb⟩
  | s :: ss, data, hs, hb => by
    refine @filled_pushes ss (data.push (entry s)) (fun i hi hle => ?_) fun i hi => ?_
    · by_cases heq : i = data.Pos + 1
      · exact ⟨s, by rw [heq]; exact Function.update_self ..⟩
      · have hle : i ≤ data.Pos + 1 := hle
        obtain ⟨s', hs'⟩ := hs i hi (by omega)
        exact ⟨s', (Function.update_of_ne heq ..).trans hs'⟩
    · have hi : data.Pos + 1 < i := hi
      exact (Function.update_of_ne (by omega) ..).trans (hb i (by omega))

theorem pushes_len : ∀ (vs : List (Option Scalar)) (data : WriteData) (n : Nat),
    vs.foldl WriteData.push { data with Len := n } = { vs.foldl WriteData.push data with Len := n }
  | [], _, _ => rfl
  | v :: vs, data, n => pushes_len vs (data.push v) n

theorem append_append (data : WriteData) (vs ws : List (Option Scalar)) (n m : Nat) :
    (data.append vs n).append ws m = data.append (vs ++ ws) (n + m) := by
  simp only [WriteData.append, pushes_len, List.foldl_append, Nat.add_assoc]

end Entries

/-! ## What writers do -/

/-- Strings are appended, with their length. -/
def Writes (data data' : WriteData) : Prop :=
  ∃ ss : List Bytes, data' = data.append (ss.map entry) (ss.map List.length).sum

/-- `Len` grows by at least `k` more than the total length of the strings. -/
def Overcounts (k : Nat) (data data' : WriteData) : Prop :=
  data.Len + total data'.Data data'.Pos + k ≤ data'.Len + total data.Data data.Pos

section Relations

variable {data data' data'' : WriteData}

theorem Writes.refl : Writes data data := ⟨[], rfl⟩

theorem Writes.trans (h : Writes data data') (h' : Writes data' data'') : Writes data data'' := by
  obtain ⟨ss, rfl⟩ := h
  obtain ⟨ts, rfl⟩ := h'
  exact ⟨ss ++ ts, by rw [append_append, List.map_append, List.map_append, List.sum_append]⟩

theorem sum_textSize (ss : List Bytes) : ((ss.map entry).map textSize).sum = (ss.map List.length).sum := by
  rw [List.map_map]
  rfl

/-- **What good writers keep.** -/
theorem Writes.filled (h : Writes data data') (hd : Filled data) : Filled data' := by
  obtain ⟨ss, rfl⟩ := h
  obtain ⟨hstrings, hbeyond⟩ := filled_pushes ss hd.strings hd.beyond
  refine ⟨hstrings, hbeyond, ?_⟩
  rw [total_append, sum_textSize, ← hd.len]
  rfl

/-- Entries and a growth of `Len`. -/
theorem overcounts_append (vs : List (Option Scalar)) {n k : Nat} (h : (vs.map textSize).sum + k ≤ n) :
    Overcounts k data (data.append vs n) := by
  have hlen : (data.append vs n).Len = data.Len + n := rfl
  rw [Overcounts, total_append, hlen]
  omega

theorem Writes.overcounts (h : Writes data data') : Overcounts 0 data data' := by
  obtain ⟨ss, rfl⟩ := h
  exact overcounts_append _ (sum_textSize ss).le

theorem Overcounts.trans {k l : Nat} (h : Overcounts k data data') (h' : Overcounts l data' data'') :
    Overcounts (k + l) data data'' := by
  unfold Overcounts at *
  omega

theorem Overcounts.mono {k l : Nat} (hl : l ≤ k) (h : Overcounts k data data') : Overcounts l data data' := by
  unfold Overcounts at *
  omega

/-- **What is never made good**: `Len` is too large. -/
theorem Overcounts.not_filled {k : Nat} (h : Overcounts k data data') (hk : 0 < k) (hd : Filled data) :
    ¬Filled data' := by
  intro hd'
  have hlen := hd.len
  have hlen' := hd'.len
  unfold Overcounts at h
  omega

end Relations

section Writers

variable {floatText : UInt64 → Bytes} {data data' : WriteData}

theorem packFmt_length {fmt : Fmt} {x : Number} {s : Bytes} (h : packFmt fmt x = .ok s) : s.length = fmt.size := by
  have hint {n : Nat} {lo hi : Int} (h : packInt n lo hi x = .ok s) : s.length = n := by
    unfold packInt at h
    split at h
    · cases h
    · split at h
      · cases h; exact length_intBytes ..
      · cases h
  have hinteger (h : packInteger 8 x = .ok s) : s.length = 8 := by
    unfold packInteger at h
    split at h
    · cases h
    · cases h; exact length_intBytes ..
  cases fmt with
  | J | j => exact hinteger h
  | f | d => cases h; exact length_leBytes ..
  | _ => exact hint h

theorem Value.pack_length {fmt : Fmt} {v : Value} {s : Bytes} (h : v.pack fmt = .ok s) : s.length = fmt.size := by
  unfold Value.pack at h
  split at h
  · split at h
    · exact packFmt_length h
    · cases h
  · cases h

theorem lowBits_length {n : Nat} {x : Number} {s : Bytes} (h : lowBits n x = .ok s) : s.length = 1 := by
  unfold lowBits at h
  split at h
  · cases h
  · cases h; exact length_intBytes ..

/-- A loop over the items of a table. -/
theorem writeItems_writes {f : Value → WriteData → Except LuaError WriteData}
    (hf : ∀ {v d d'}, f v d = .ok d' → Writes d d') {len : Nat} {items : List Value}
    (h : writeItems f len items data = .ok data') : Writes data data' := by
  have hcount : Writes data ((data.put 1 (entry (leBytes 1 len))).advance 1 1) := ⟨[leBytes 1 len], rfl⟩
  have hloop : ∀ (items : List Value) {d d' : WriteData}, items.foldlM (fun data v => f v data) d = .ok d' →
      Writes d d' := by
    intro items
    induction items with
    | nil => intro d d' h; cases h; exact .refl
    | cons v items ih =>
      intro d d' h
      obtain ⟨d₁, hv, h⟩ := bind_eq_ok.1 h
      exact (hf hv).trans (ih h)
  unfold writeItems at h
  split at h
  · exact hcount.trans (hloop items h)
  · cases h

theorem putNumber_writes {fmt : Fmt} {v : Value} (h : putNumber fmt fmt.size v data = .ok data') :
    Writes data data' := by
  obtain ⟨s, hs, h⟩ := bind_eq_ok.1 h
  cases h
  exact ⟨[s], by rw [List.map_singleton, List.map_singleton, List.sum_singleton, Value.pack_length hs]; rfl⟩

theorem putPtoNumber_writes {fmt : Fmt} {v : Value} (h : putPtoNumber fmt fmt.size v data = .ok data') :
    Writes data data' := by
  unfold putPtoNumber at h
  split at h
  · exact writeItems_writes putNumber_writes h
  · exact putNumber_writes h

/-- A flag and a number behind it. -/
theorem writes_flagged {fmt : Fmt} {x : Number} {flag n : Nat} (hn : n = 1 + fmt.size)
    (h : (packFmt fmt x >>= fun s => .ok (((data.put 1 (entry (leBytes 1 flag))).put 2 (entry s)).advance 2 n)) =
      .ok data') :
    Writes data data' := by
  obtain ⟨s, hs, h⟩ := bind_eq_ok.1 h
  cases h
  refine ⟨[leBytes 1 flag, s], ?_⟩
  rw [hn, ← packFmt_length hs]
  rfl

theorem putNumberCore_writes {v : Value} (h : putNumberCore v data = .ok data') : Writes data data' := by
  unfold putNumberCore at h
  split at h
  · next value =>
    dsimp only at h
    generalize (if value.lt (.int 0) then value.neg else value) = x at h
    generalize (if value.lt (.int 0) then 1 else 0) = flag at h
    split at h
    · exact writes_flagged rfl h
    split at h
    · exact writes_flagged rfl h
    split at h
    · obtain ⟨s₀, h₀, h⟩ := bind_eq_ok.1 h
      obtain ⟨s₁, h₁, h⟩ := bind_eq_ok.1 h
      obtain ⟨s₂, h₂, h⟩ := bind_eq_ok.1 h
      cases h
      refine ⟨[leBytes 1 flag, s₀, s₁, s₂], ?_⟩
      simp only [List.map_cons, List.map_nil, List.sum_cons, List.sum_nil, length_leBytes, lowBits_length h₀,
        lowBits_length h₁, lowBits_length h₂]
      rfl
    · exact writes_flagged rfl h
  · cases h

theorem putNumbers_writes {v : Value} (h : putNumbers v data = .ok data') : Writes data data' := by
  unfold putNumbers at h
  split at h
  · exact writeItems_writes putNumberCore_writes h
  · exact putNumberCore_writes h

/-- The size of a string has its length plus one, to which the bytes of the size are added once more. -/
theorem putSized_overcounts {n : Nat} {v : Option Scalar} (hv : textSize v ≤ n)
    (h : putSized (n + 1) v data = .ok data') :
    Overcounts 1 data data' := by
  unfold putSized at h
  split at h
  · cases h
    refine overcounts_append [entry (leBytes 1 (n + 1)), v] ?_
    show 1 + (textSize v + 0) + 1 ≤ n + 1 + 1
    omega
  · obtain ⟨s, hs, h⟩ := bind_eq_ok.1 h
    have hlen : s.length = 2 := by
      unfold packU at hs
      split at hs
      · cases hs; exact length_leBytes 2 _
      · cases hs
    cases h
    refine overcounts_append [entry (leBytes 1 0), entry s, v] ?_
    show 1 + (s.length + (textSize v + 0)) + 1 ≤ n + 1 + 3
    omega

theorem Value.textSize_le {v : Value} {n : Nat} (h : v.len floatText = .ok n) : textSize v.entry ≤ n := by
  unfold Value.len at h
  split at h
  · cases h; exact le_rfl
  · cases h; exact Nat.zero_le _
  · cases h; exact Nat.zero_le _
  · cases h

/-- One string of a list. -/
theorem putItem_overcounts {v : Value} (h : (do putSized ((← v.len floatText) + 1) v.entry data) = .ok data') :
    Overcounts 1 data data' := by
  obtain ⟨n, hn, h⟩ := bind_eq_ok.1 h
  exact putSized_overcounts (Value.textSize_le hn) h

theorem writeItems_overcounts {f : Value → WriteData → Except LuaError WriteData}
    (hf : ∀ {v d d'}, f v d = .ok d' → Overcounts 1 d d') {len : Nat} {items : List Value}
    (h : writeItems f len items data = .ok data') : Overcounts items.length data data' := by
  have hcount : Writes data ((data.put 1 (entry (leBytes 1 len))).advance 1 1) := ⟨[leBytes 1 len], rfl⟩
  have hloop : ∀ (items : List Value) {d d' : WriteData}, items.foldlM (fun data v => f v data) d = .ok d' →
      Overcounts items.length d d' := by
    intro items
    induction items with
    | nil => intro d d' h; cases h; exact Writes.refl.overcounts
    | cons v items ih =>
      intro d d' h
      obtain ⟨d₁, hv, h⟩ := bind_eq_ok.1 h
      exact ((hf hv).trans (ih h)).mono (by rw [List.length_cons]; omega)
  unfold writeItems at h
  split at h
  · exact (hcount.overcounts.trans (hloop items h)).mono (by omega)
  · cases h

end Writers

/-! ## Sequences of calls -/

/-- A call that writes no string: of another writer than `net.WriteString`, or with a table in which `ipairs` finds
nothing. -/
def Stringless (call : Prim × Value) : Prop := call.1 = .String → ∃ len, call.2 = .tab len []

section Calls

variable {floatText : UInt64 → Bytes} {data data' : WriteData}

theorem write_writes {prim : Prim} {v : Value} (hv : Stringless (prim, v))
    (h : write floatText prim v data = .ok data') :
    Writes data data' := by
  cases prim with
  | String =>
    obtain ⟨len, rfl⟩ := hv rfl
    unfold write putPtoString writeItems at h
    dsimp only at h
    split at h
    · cases h; exact ⟨[leBytes 1 len], rfl⟩
    · cases h
  | Number => exact putNumbers_writes h
  | _ => exact putPtoNumber_writes h

theorem write_overcounts {prim : Prim} {v : Value} (hv : ¬Stringless (prim, v))
    (h : write floatText prim v data = .ok data') :
    Overcounts 1 data data' := by
  obtain ⟨rfl, hv⟩ := Classical.not_imp.1 hv
  cases v with
  | tab len items =>
    cases items with
    | nil => exact absurd ⟨len, rfl⟩ hv
    | cons v items => exact (writeItems_overcounts putItem_overcounts h).mono (by rw [List.length_cons]; omega)
  | one x =>
    obtain ⟨n, -, h⟩ := bind_eq_ok.1 h
    exact putSized_overcounts (Nat.zero_le n) h
  | other => cases h

/-- A sequence keeps `Filled`, or it makes `Len` too large for good. -/
theorem writeAll_cases : ∀ {calls : List (Prim × Value)} {data data' : WriteData},
    writeAll floatText calls data = .ok data' → ((∀ call ∈ calls, Stringless call) → Writes data data') ∧
    (∃ k, Overcounts k data data' ∧ (0 < k ↔ ¬∀ call ∈ calls, Stringless call))
  | [], _, _, h => by
    cases h
    exact ⟨fun _ => .refl, 0, Writes.refl.overcounts,
      iff_of_false (lt_irrefl 0) fun h => h fun _ hc => absurd hc List.not_mem_nil⟩
  | call :: calls, data, data', h => by
    obtain ⟨d, hcall, h⟩ := bind_eq_ok.1 h
    obtain ⟨hgood, k, hk, hbad⟩ := writeAll_cases h
    simp only [List.forall_mem_cons]
    by_cases hc : Stringless call
    · have hw := write_writes hc hcall
      refine ⟨fun hcs => hw.trans (hgood hcs.2), 0 + k, hw.overcounts.trans hk, ?_⟩
      rw [Nat.zero_add, hbad, and_iff_right hc]
    · refine ⟨fun hcs => absurd hcs.1 hc, 1 + k, (write_overcounts hc hcall).trans hk, ?_⟩
      exact iff_of_true (by omega) fun hcs => hc hcs.1

/-- **The buffer is what `net.Pack` expects exactly when no string was written**: `net.WriteString` leaves nil for a
string, and counts the byte of the length twice for each string of a list. -/
theorem writeAll_filled_iff {calls : List (Prim × Value)} (h : writeAll floatText calls WriteBegin = .ok data) :
    Filled data ↔ ∀ call ∈ calls, Stringless call := by
  obtain ⟨hgood, k, hk, hbad⟩ := writeAll_cases h
  constructor
  · intro hf
    by_contra hc
    exact hk.not_filled (hbad.2 hc) filled_begin hf
  · exact fun hc => (hgood hc).filled filled_begin

/-- A byte, a number and a list of numbers. -/
theorem writeAll_filled_numbers :
    ∃ data, writeAll (fun _ => []) [(.Uint8, .one (.num (.int 7))), (.Number, .one (.num (.int (-300)))),
      (.Int16, .tab 2 [.one (.num (.int 1)), .one (.num (.int 2))])] WriteBegin = .ok data ∧ Filled data := by
  have h : writeAll (fun _ => []) [(.Uint8, .one (.num (.int 7))), (.Number, .one (.num (.int (-300)))),
      (.Int16, .tab 2 [.one (.num (.int 1)), .one (.num (.int 2))])] WriteBegin = .ok _ := rfl
  refine ⟨_, h, (writeAll_filled_iff h).2 fun call hc => ?_⟩
  simp only [List.mem_cons, List.not_mem_nil, or_false] at hc
  rcases hc with rfl | rfl | rfl <;> exact fun h => by cases h

/-- A string leaves a gap. -/
theorem writeAll_string_gap : ¬∀ (floatText : UInt64 → Bytes) (calls : List (Prim × Value)) (data : WriteData),
    writeAll floatText calls WriteBegin = .ok data → Filled data := by
  intro h
  obtain ⟨s, hs⟩ := (h (fun _ => []) [(.String, .one (.str [97, 98]))] _ rfl).strings 2 (by decide) (by decide)
  cases hs

end Calls

/-! ## What the writers append -/

/-- An item of a table; a table in it is refused by all writers. -/
def ofItem : Val Base → Value
  | .base (.one x) => .one x
  | _ => .other

/-- An argument. -/
def ofVal : Option (Val Base) → Value
  | none => .other
  | some v => match elems v with
    | some l => .tab l.length (l.map ofItem)
    | none => ofItem v

/-- What has been appended. -/
def WriteData.appends (data : WriteData) (as : List Append) : WriteData :=
  as.foldl (fun data a => data.append (a.pieces.map fun s => s.map .str) a.len) data

section Appends

variable {floatText : UInt64 → Bytes} {as : List Append} {value : Option (Val Base)} {v : Val Base}

theorem pack_ofItem {fmt : Fmt} : (ofItem v).pack fmt = packVal fmt (some v) := by
  cases v with
  | base b => cases b <;> rfl
  | table t => rfl

theorem putNumber_of_appends {fmt : Fmt} {size : Nat} (h : writeFmt fmt size (some v) = .ok as) (data : WriteData) :
    putNumber fmt size (ofItem v) data = .ok (data.appends as) := by
  obtain ⟨s, hs, h⟩ := bind_eq_ok.1 h
  cases h
  exact bind_eq_ok.2 ⟨s, pack_ofItem.trans hs, rfl⟩

theorem putNumberCore_of_appends (h : WriteNumberCore (some v) = .ok as) (data : WriteData) :
    putNumberCore (ofItem v) data = .ok (data.appends as) := by
  unfold WriteNumberCore at h
  split at h
  · next value hvalue =>
    cases hvalue
    show putNumberCore (.one (.num value)) data = _
    unfold putNumberCore
    dsimp only at h ⊢
    generalize (if value.lt (.int 0) then value.neg else value) = x at h ⊢
    generalize (if value.lt (.int 0) then 1 else 0) = flag at h ⊢
    split at h
    · obtain ⟨s, hs, h⟩ := bind_eq_ok.1 h
      cases h
      rw [if_pos ‹_›]
      exact bind_eq_ok.2 ⟨s, hs, rfl⟩
    rw [if_neg ‹_›]
    split at h
    · obtain ⟨s, hs, h⟩ := bind_eq_ok.1 h
      cases h
      rw [if_pos ‹_›]
      exact bind_eq_ok.2 ⟨s, hs, rfl⟩
    rw [if_neg ‹_›]
    split at h
    · obtain ⟨s₀, h₀, h⟩ := bind_eq_ok.1 h
      obtain ⟨s₁, h₁, h⟩ := bind_eq_ok.1 h
      obtain ⟨s₂, h₂, h⟩ := bind_eq_ok.1 h
      cases h
      rw [if_pos ‹_›]
      exact bind_eq_ok.2 ⟨s₀, h₀, bind_eq_ok.2 ⟨s₁, h₁, bind_eq_ok.2 ⟨s₂, h₂, rfl⟩⟩⟩
    · obtain ⟨s, hs, h⟩ := bind_eq_ok.1 h
      cases h
      rw [if_neg ‹_›]
      exact bind_eq_ok.2 ⟨s, hs, rfl⟩
  · cases h

theorem putSized_of_appends {size : Nat} {s : Option Bytes} (h : writeStr size s = .ok as) (data : WriteData) :
    putSized size (s.map .str) data = .ok (data.appends as) := by
  unfold writeStr at h
  unfold putSized
  split at h
  · cases h
    rw [if_pos ‹_›]
    rfl
  · obtain ⟨t, ht, h⟩ := bind_eq_ok.1 h
    cases h
    rw [if_neg ‹_›]
    exact bind_eq_ok.2 ⟨t, ht, rfl⟩

theorem writeItems_of_appends {f : Value → WriteData → Except LuaError WriteData}
    {g : Val Base → Except LuaError (List Append)}
    (hfg : ∀ {v as}, g v = .ok as → ∀ data, f (ofItem v) data = .ok (data.appends as)) {l : List (Val Base)}
    (h : writeArray g l = .ok as) (data : WriteData) :
    writeItems f l.length (l.map ofItem) data = .ok (data.appends as) := by
  have hloop : ∀ {l : List (Val Base)} {as : List Append}, writeMany g l = .ok as → ∀ data : WriteData,
      (l.map ofItem).foldlM (fun data v => f v data) data = .ok (data.appends as) := by
    intro l
    induction l with
    | nil => intro as h data; cases h; rfl
    | cons v l ih =>
      intro as h data
      obtain ⟨a, ha, h⟩ := bind_eq_ok.1 h
      obtain ⟨rest, hrest, h⟩ := bind_eq_ok.1 h
      cases h
      refine bind_eq_ok.2 ⟨_, hfg ha data, ?_⟩
      rw [ih hrest, WriteData.appends, WriteData.appends, WriteData.appends, List.foldl_append]
  unfold writeArray at h
  split at h
  · cases h
  · next hlen =>
    obtain ⟨rest, hrest, h⟩ := bind_eq_ok.1 h
    cases h
    rw [writeItems, if_pos (Nat.le_of_not_lt hlen)]
    exact hloop hrest _

theorem ofVal_table {l : List (Val Base)} (h : value.bind elems = some l) :
    ofVal value = .tab l.length (l.map ofItem) := by
  cases value with
  | none => cases h
  | some v =>
    have h : elems v = some l := h
    rw [ofVal, h]

theorem ofVal_scalar (h : (some v).bind elems = none) : ofVal (some v) = ofItem v := by
  have h : elems v = none := h
  rw [ofVal, h]

theorem putPtoNumber_of_appends {fmt : Fmt} {size : Nat} (h : WritePtoNumber fmt size value = .ok as)
    (data : WriteData) :
    putPtoNumber fmt size (ofVal value) data = .ok (data.appends as) := by
  unfold WritePtoNumber at h
  split at h
  · next l hl =>
    rw [ofVal_table hl]
    exact writeItems_of_appends putNumber_of_appends h data
  · next hl =>
    cases value with
    | none => cases h
    | some v =>
      have hput : putPtoNumber fmt size (ofItem v) data = putNumber fmt size (ofItem v) data := by
        cases v with
        | base b => cases b <;> rfl
        | table t => rfl
      rw [ofVal_scalar hl, hput]
      exact putNumber_of_appends h data

theorem putNumbers_of_appends (h : WriteNumber value = .ok as) (data : WriteData) :
    putNumbers (ofVal value) data = .ok (data.appends as) := by
  unfold WriteNumber at h
  split at h
  · next l hl =>
    rw [ofVal_table hl]
    exact writeItems_of_appends putNumberCore_of_appends h data
  · next hl =>
    cases value with
    | none => cases h
    | some v =>
      have hput : putNumbers (ofItem v) data = putNumberCore (ofItem v) data := by
        cases v with
        | base b => cases b <;> rfl
        | table t => rfl
      rw [ofVal_scalar hl, hput]
      exact putNumberCore_of_appends h data

theorem putPtoString_of_appends (h : WritePtoString value = .ok as) (data : WriteData) :
    putPtoString floatText (ofVal value) data = .ok (data.appends as) := by
  unfold WritePtoString at h
  split at h
  · next l hl =>
    rw [ofVal_table hl]
    refine writeItems_of_appends (fun {v as} h data => ?_) h data
    split at h
    · exact putSized_of_appends h data
    · cases h
  · next hl =>
    split at h
    · next s =>
      rw [ofVal_scalar hl]
      exact putSized_of_appends h data
    · cases h

/-- **The writers append**: where the functions of `Base.lean` say what is appended, it is. -/
theorem write_of_appends {prim : Prim} (h : writeX prim value = .ok as) (data : WriteData) :
    write floatText prim (ofVal value) data = .ok (data.appends as) := by
  cases prim with
  | String => exact putPtoString_of_appends h data
  | Number => exact putNumbers_of_appends h data
  | _ => exact putPtoNumber_of_appends h data

end Appends

end XCore.Net.WriteBuffer
