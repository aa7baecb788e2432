import XCore.Net.Message
import XCore.Net.RoundTrip

/-!
# Sending messages

For every protocol that a server sends, `Export` makes a function `net.<protocol>(vfds, ..)`, and for every protocol
that a client sends `net.<protocol>(vfd, ..)`. They begin a message, have the generated writer fill it and send it.

A call of a server hands one frame to the node and leaves no message behind when it is for one client and the protocol
has fields, which are neither single strings nor structures outside of arrays (`Sound`): a message without bytes is not
sent and stays, and so it is with every message of a client (`c2s_stays`).

- `Tuple.write_enc` gives what the writer appends; none of it is nil (`Tuple.solid`);
- `s2c_sound`: one call;
- `delivers_of_sound`: every run of calls.
-/

namespace XCore.Net

open XCore.Lua

/-! ## Protocols -/

/-- A protocol of `allpto.lua`. -/
structure Pto where
  name : String
  args : List Arg

/-- What the loader has made of the types and the protocols; the ids of the protocols are their numbers. -/
structure Loaded where
  types : List (String × Compiled)
  ptos : List Pto

/-- `string.sub(name, 1, 2) == "c_"`. -/
def Pto.isS2C (p : Pto) : Bool := p.name.toList.take 2 == ['c', '_']

/-- The last number of a protocol with a name. -/
def lastId (name : String) : Nat → List Pto → Option Nat
  | _, [] => none
  | k, p :: ps => (lastId name (k + 1) ps).or (if p.name = name then some k else none)

namespace Loaded

variable (net : Loaded)

/-- `net.Name2ID[name]`. -/
def Name2ID (name : String) : Option Nat := lastId name 1 net.ptos

/-- The protocol with an id. -/
def pto (ptoid : Nat) : Option Pto := if ptoid = 0 then none else net.ptos[ptoid - 1]?

/-- `net.NetS2C[ptoid]`. -/
def NetS2C (ptoid : Nat) : Option Pto := (net.pto ptoid).filter Pto.isS2C

/-- `net.NetC2S[ptoid]`. -/
def NetC2S (ptoid : Nat) : Option Pto := (net.pto ptoid).filter fun p => !p.isS2C

end Loaded

/-! ## Senders -/

/-- The state of `net`. -/
structure Globals where
  ReadData : Option ReadData
  WriteData : Option WriteData

/-- `{...}` from key `k` on. -/
def argTable : Nat → List (Val Base) → Table Base
  | _, [] => []
  | k, v :: vs => (.pos k, v) :: argTable (k + 1) vs

/-- What Lua leaves open: the depth of calls, and borders. -/
structure Machine where
  depth : Nat
  border : Border

/-- `if #data > 0 then func.writer(info.name, data) end`, for the message that has been begun. -/
def fill (M : Machine) (net : Loaded) (info : Pto) (args : List (Val Base)) (read : Option ReadData)
    (data : WriteData) :
    Except LuaError (Option ReadData × WriteData) :=
  if args = [] then .ok (read, data)
  else match ConvertWriter info.args with
    | none => .error .callNil
    | some writer => do
      let (_, w) ← writeCode luaWrites (callReader luaReads (readersOf net.types) M.depth)
        (callWriter luaReads luaWrites (readersOf net.types) (writersOf net.types) M.depth) writer (argTable 1 args)
        ⟨read, data.writes⟩
      .ok (w.read, { data with writes := w.out })

/-- The function that `Export` makes on a server for protocol `ptoid`, with what it hands to the node. -/
def s2c (M : Machine) (net : Loaded) (ptoid : Nat) (info : Pto) (vfds : Vfds) (args : List (Val Base)) (g : Globals) :
    Except LuaError (List (Nat × Bytes) × Globals) :=
  if net.Name2ID info.name = none then .ok ([], g)
  else do
    let (read, data) ← fill M net info args g.ReadData (WriteBegin (some ptoid))
    let (out, w) ← Send2Net M.border vfds (some data)
    .ok (out, ⟨read, w⟩)

/-- `net.Send2Server`, which is empty. -/
def Send2Server (w : Option WriteData) : List (Nat × Bytes) × Option WriteData := ([], w)

/-- The function that `Export` makes on a client; `iPtoID` is a global variable that is never set. -/
def c2s (M : Machine) (net : Loaded) (info : Pto) (args : List (Val Base)) (g : Globals) :
    Except LuaError (List (Nat × Bytes) × Globals) :=
  if net.Name2ID info.name = none then .ok ([], g)
  else do
    let (read, data) ← fill M net info args g.ReadData (WriteBegin none)
    let (out, w) := Send2Server (some data)
    .ok (out, ⟨read, w⟩)

/-- A call `net.<protocol>(vfds, ..)`. -/
structure Call where
  ptoid : Nat
  vfds : Vfds
  args : List (Val Base)

/-- The role that `net.Init` is given. -/
inductive Role
  | server
  | client

/-- A call. -/
def call (M : Machine) (net : Loaded) (role : Role) (c : Call) (g : Globals) :
    Except LuaError (List (Nat × Bytes) × Globals) :=
  match role with
  | .server => match net.NetS2C c.ptoid with
    | none => .error .callNil
    | some info => s2c M net c.ptoid info c.vfds c.args g
  | .client => match net.NetC2S c.ptoid with
    | none => .error .callNil
    | some info => c2s M net info c.args g

/-! ## What can be sent -/

/-- The format of a base type of fixed width. -/
def fmtOf : Prim → Option Fmt
  | .Uint8 => some .B
  | .Uint16 => some .H
  | .Uint32 => some .I
  | .Uint64 => some .J
  | .Int8 => some .b
  | .Int16 => some .h
  | .Int32 => some .i
  | .Int64 => some .j
  | .Float => some .f
  | .Double => some .d
  | .String => none
  | .Number => none

/-- A value of a base type that its writer takes: `string.pack` accepts it, the size of a string fits in two bytes, and
an integer of variable size in four. -/
def Sendable (prim : Prim) : Scalar → Prop
  | .num x => match fmtOf prim with
    | some fmt => ∃ s, packFmt fmt x = .ok s
    | none => prim = .Number ∧ ∃ n, x = .int n ∧ -2 ^ 32 < n ∧ n < 2 ^ 32
  | .str s => prim = .String ∧ s.length + 1 < 65536

/-- A scalar that is no string, or an array of at most 255 elements. -/
def SendableBase (prim : Prim) : Bool → Base → Prop
  | false, .one x => prim ≠ .String ∧ Sendable prim x
  | true, .arr l => l.length ≤ 255 ∧ ∀ x ∈ l, Sendable prim x
  | _, _ => False

/-- The primitives, with the values that are sent. -/
def sending : Prims Base Append where
  toReads := luaReads
  toWrites := luaWrites
  Valid := SendableBase

/-- No entry is nil, and `Len` grows. -/
def Append.Solid (a : Append) : Prop := (∃ ss : List Bytes, a.pieces = ss.map some) ∧ 0 < a.len

/-- The bytes of entries. -/
def Append.bytes (a : Append) : Bytes := a.pieces.flatMap fun p => p.getD []

/-- The arguments of a call for a tuple. -/
def Tuple.vals {B O : Type} {P : Prims B O} {Γ : NetType} : {args : List Arg} → Tuple P Γ args → List (Val B)
  | _, .nil => []
  | _, .cons v vs => v.val :: vs.vals

/-- The bytes of a tuple. -/
def Tuple.payload {Γ : NetType} {args : List Arg} (v : Tuple sending Γ args) : Bytes := v.enc.flatMap Append.bytes

/-- **Sound calls**: a server sends a protocol under its own name, with an id and a length that fit in two bytes, to one
client; the protocol has fields with bytes to write, which are no single strings and, outside of arrays, no structures
with content; and the values are accepted. -/
def Sound (M : Machine) (Γ : NetType) (net : Loaded) (role : Role) (c : Call) : Prop :=
  role = .server ∧ c.ptoid < 65536 ∧ (∃ vfd, c.vfds = .one vfd) ∧ ∃ info, net.NetS2C c.ptoid = some info ∧
    net.Name2ID info.name = some c.ptoid ∧ structArrays info.args ≤ 97 ∧
    ∃ v : Tuple sending Γ info.args, c.args = v.vals ∧ v.Counted ∧ v.StructsEmpty ∧ ¬v.Empty ∧ v.depth ≤ M.depth ∧
      v.payload.length + 2 < 65536

/-- Every call hands one frame to the node: its length, the id of its protocol and the bytes of its arguments; and it
leaves no message behind. -/
def Delivers (M : Machine) (Γ : NetType) (net : Loaded) (role : Role) : Globals → List Call → Prop
  | _, [] => True
  | g, c :: cs => ∃ info id vfd body g', net.NetS2C c.ptoid = some info ∧ net.Name2ID info.name = some id ∧
      c.vfds = .one vfd ∧ call M net role c g = .ok ([(vfd, leBytes 2 body.length ++ body)], g') ∧ body.length < 65536 ∧
      (∃ v : Tuple sending Γ info.args, c.args = v.vals ∧ body = leBytes 2 id ++ v.payload) ∧ g'.WriteData = none ∧
      Delivers M Γ net role g' cs

theorem readX_fmt {prim : Prim} {fmt : Fmt} (h : fmtOf prim = some fmt) : readX prim = ReadPtoNumber fmt fmt.size := by
  cases prim <;> cases h <;> rfl

/-! ## The primitives write -/

/-- Something has been written, and none of it is nil. -/
def Written (r : Except LuaError (List Append)) : Prop := ∃ as, r = .ok as ∧ as ≠ [] ∧ ∀ a ∈ as, a.Solid

theorem written_one {a : Append} (h : a.Solid) : Written (.ok [a]) :=
  ⟨[a], rfl, by simp, fun b hb => by rwa [List.mem_singleton.1 hb]⟩

theorem writeFmt_written {fmt : Fmt} {size : Nat} (hsize : 0 < size) {x : Number} (h : ∃ s, packFmt fmt x = .ok s) :
    Written (writeFmt fmt size (some (.base (.one (.num x))))) := by
  obtain ⟨s, hs⟩ := h
  have hw : writeFmt fmt size (some (.base (.one (.num x)))) = .ok [⟨[some s], size⟩] := by
    simp only [writeFmt, packVal, Scalar.toNum, hs]
    rfl
  rw [hw]
  exact written_one ⟨⟨[s], rfl⟩, hsize⟩

theorem WriteNumberCore_written {n : Int} (h1 : -2 ^ 32 < n) (h2 : n < 2 ^ 32) :
    Written (WriteNumberCore (some (.base (.one (.num (.int n)))))) := by
  obtain ⟨flag, m, hm0, hm, hflag⟩ : ∃ (flag : Nat) (m : Int), 0 ≤ m ∧ m < 2 ^ 32 ∧
      ((if n < 0 then 1 else 0) = flag ∧ (if n < 0 then Number.neg (.int n) else .int n) = .int m) := by
    by_cases hn : n < 0
    · refine ⟨1, -n, by omega, by omega, by simp [hn], ?_⟩
      rw [if_pos hn, Number.neg, wrap_of_fits ⟨by omega, by omega⟩]
    · exact ⟨0, n, by omega, h2, by simp [hn], by simp [hn]⟩
  simp only [WriteNumberCore, decide_eq_true_eq, hflag.1, hflag.2, Number.le, Number.lt]
  split
  · rename_i hle
    rw [show packFmt .B (.int m) = .ok (intBytes 1 m) from packInt_int ⟨hm0, by omega⟩]
    exact written_one ⟨⟨[_, _], rfl⟩, Nat.succ_pos _⟩
  split
  · rename_i hlt
    rw [show packFmt .H (.int m) = .ok (intBytes 2 m) from packInt_int ⟨hm0, by omega⟩]
    exact written_one ⟨⟨[_, _], rfl⟩, Nat.succ_pos _⟩
  split
  · exact written_one ⟨⟨[_, _, _, _], rfl⟩, Nat.succ_pos _⟩
  · rw [show packFmt .I (.int m) = .ok (intBytes 4 m) from packInt_int ⟨hm0, hm⟩]
    exact written_one ⟨⟨[_, _], rfl⟩, Nat.succ_pos _⟩

theorem writeStr_written {s : Bytes} (h : s.length + 1 < 65536) : Written (writeStr (s.length + 1) (some s)) := by
  simp only [writeStr]
  split
  · exact written_one ⟨⟨[_, _], rfl⟩, Nat.succ_pos _⟩
  · rw [show packU 2 (s.length + 1) = .ok (leBytes 2 (s.length + 1)) from if_pos h]
    exact written_one ⟨⟨[_, _, _], rfl⟩, Nat.succ_pos _⟩

theorem writeMany_written {α : Type} {write : α → Except LuaError (List Append)} {l : List α}
    (h : ∀ x ∈ l, Written (write x)) : ∃ as, writeMany write l = .ok as ∧ ∀ a ∈ as, a.Solid := by
  induction l with
  | nil => exact ⟨[], rfl, by simp⟩
  | cons x l ih =>
    obtain ⟨as, has, -, hsolid⟩ := h x List.mem_cons_self
    obtain ⟨bs, hbs, hsolid'⟩ := ih fun y hy => h y (List.mem_cons_of_mem x hy)
    refine ⟨as ++ bs, bind_eq_ok.2 ⟨as, has, bind_eq_ok.2 ⟨bs, hbs, rfl⟩⟩, fun a ha => ?_⟩
    exact (List.mem_append.1 ha).elim (hsolid a) (hsolid' a)

/-- An array is written with its count. -/
theorem writeArray_written {write : Val Base → Except LuaError (List Append)} {l : List (Val Base)}
    (hl : l.length ≤ 255) (h : ∀ v ∈ l, Written (write v)) : Written (writeArray write l) := by
  obtain ⟨as, has, hsolid⟩ := writeMany_written h
  refine ⟨⟨[some (leBytes 1 l.length)], 1⟩ :: as, ?_, by simp, ?_⟩
  · rw [writeArray, if_neg (by omega)]
    exact bind_eq_ok.2 ⟨as, has, rfl⟩
  · intro a ha
    rcases List.mem_cons.1 ha with rfl | ha
    · exact ⟨⟨[_], rfl⟩, Nat.one_pos⟩
    · exact hsolid a ha

/-- The writer of a base type of fixed width. -/
theorem writeX_fmt {prim : Prim} {fmt : Fmt} (h : fmtOf prim = some fmt) :
    writeX prim = WritePtoNumber fmt fmt.size := by
  cases prim <;> cases h <;> rfl

/-- **A value that is accepted is written.** -/
theorem writeX_written {prim : Prim} {isarray : Bool} {b : Base} (h : SendableBase prim isarray b) :
    Written (writeX prim (some (.base b))) := by
  have hsize : ∀ fmt : Fmt, 0 < fmt.size := fun fmt => by cases fmt <;> decide
  match isarray, b, h with
  | false, .one (.str s), ⟨hne, hs⟩ => exact absurd hs.1 hne
  | false, .one (.num x), ⟨_, hx⟩ =>
    cases hfmt : fmtOf prim with
    | some fmt =>
      simp only [Sendable, hfmt] at hx
      rw [writeX_fmt hfmt]
      exact writeFmt_written (hsize fmt) hx
    | none =>
      simp only [Sendable, hfmt] at hx
      obtain ⟨rfl, n, rfl, h1, h2⟩ := hx
      exact WriteNumberCore_written h1 h2
  | true, .arr l, ⟨hl, hall⟩ =>
    have hlen : (l.map fun x => (Val.base (Base.one x))).length ≤ 255 := by rwa [List.length_map]
    cases hfmt : fmtOf prim with
    | some fmt =>
      rw [writeX_fmt hfmt]
      refine writeArray_written hlen fun v hv => ?_
      obtain ⟨x, hx, rfl⟩ := List.mem_map.1 hv
      have hsend := hall x hx
      cases x with
      | num n =>
        simp only [Sendable, hfmt] at hsend
        exact writeFmt_written (hsize fmt) hsend
      | str s =>
        rw [hsend.1] at hfmt
        cases hfmt
    | none =>
      cases prim with
      | String =>
        refine writeArray_written hlen fun v hv => ?_
        obtain ⟨x, hx, rfl⟩ := List.mem_map.1 hv
        have hsend := hall x hx
        cases x with
        | num n => cases hsend.1
        | str s => exact writeStr_written hsend.2
      | Number =>
        refine writeArray_written hlen fun v hv => ?_
        obtain ⟨x, hx, rfl⟩ := List.mem_map.1 hv
        have hsend := hall x hx
        cases x with
        | num n =>
          obtain ⟨-, n, rfl, h1, h2⟩ := hsend
          exact WriteNumberCore_written h1 h2
        | str s => cases hsend.1
      | _ => cases hfmt

theorem sending_writable : sending.Writable where
  write h := by
    obtain ⟨as, has, hne, -⟩ := writeX_written h
    exact ⟨as, has, hne⟩
  count {n} hn := by
    have hpack : ∀ x : Int, 0 ≤ x → x < 65536 → packFmt .H (.int x) = .ok (intBytes 2 x) :=
      fun x h1 h2 => packInt_int ⟨h1, by omega⟩
    have hsend : SendableBase .Uint16 false (.int n) := ⟨by decide, _, hpack n (by omega) (by omega)⟩
    exact hsend

theorem bytes_solid {prim : Prim} {isarray : Bool} {b : Base} (h : sending.Valid prim isarray b) :
    ∀ a ∈ sending.bytes prim b, a.Solid := by
  obtain ⟨as, has, -, hsolid⟩ := writeX_written h
  have hbytes : sending.bytes prim b = as := by
    rw [Writes.bytes, show sending.write prim (some (.base b)) = .ok as from has]
  rwa [hbytes]

section Typed

variable {Γ : NetType}

mutual

/-- Nothing that is written for a tuple is nil. -/
theorem Tuple.solid : ∀ {args : List Arg} (v : Tuple sending Γ args), v.Counted → ∀ a ∈ v.enc, a.Solid
  | _, .nil, _, _, ha => absurd ha List.not_mem_nil
  | _, .cons v vs, hc, a, ha => (List.mem_append.1 ha).elim (Value.solid v hc.1 a) (Tuple.solid vs hc.2 a)

theorem Value.solid : ∀ {a : Arg} (v : Value sending Γ a), v.Counted → ∀ a ∈ v.enc, a.Solid
  | _, .base _ _ _ hb, _, a, ha => bytes_solid hb a ha
  | _, .struct _ _ _ v, hc, _, ha => Tuple.solid v hc _ ha
  | _, .list _ _ _ vs, hc, a, ha =>
    (List.mem_append.1 ha).elim (bytes_solid (sending_writable.count hc.1) a) (Elems.solid vs hc.2 a)

theorem Elems.solid : ∀ {args : List Arg} (vs : Elems sending Γ args), vs.Counted → ∀ a ∈ vs.enc, a.Solid
  | _, .nil, _, _, ha => absurd ha List.not_mem_nil
  | _, .cons v vs, hc, a, ha => (List.mem_append.1 ha).elim (Tuple.solid v hc.1 a) (Elems.solid vs hc.2 a)

end

end Typed

/-! ## One call -/

theorem argTable_vals {O : Type} {P : Prims Base O} {Γ : NetType} {args : List Arg} (v : Tuple P Γ args) (k : Nat) :
    argTable k v.vals = v.table false k := by
  induction args generalizing k with
  | nil =>
    cases v
    rfl
  | cons a args ih =>
    cases v with
    | cons v vs =>
      rw [Tuple.vals, argTable, ih vs, Tuple.table]
      rfl

/-- Entries without a nil among them. -/
theorem solid_data {as : List Append} (h : ∀ a ∈ as, a.Solid) :
    ∃ ss : List Bytes, as.flatMap Append.pieces = ss.map some ∧ ss.flatten = as.flatMap Append.bytes := by
  induction as with
  | nil => exact ⟨[], rfl, rfl⟩
  | cons a as ih =>
    obtain ⟨⟨ss, hss⟩, -⟩ := h a List.mem_cons_self
    obtain ⟨ts, hts, hflat⟩ := ih fun b hb => h b (List.mem_cons_of_mem a hb)
    refine ⟨ss ++ ts, by rw [List.flatMap_cons, hss, hts, List.map_append], ?_⟩
    have hbytes : a.bytes = ss.flatten := by
      rw [Append.bytes, hss, List.flatMap_map]
      simp [List.flatMap_id']
    rw [List.flatten_append, hflat, List.flatMap_cons, hbytes]

theorem solid_len {as : List Append} (h : ∀ a ∈ as, a.Solid) (hne : as ≠ []) : (as.map Append.len).sum ≠ 0 := by
  cases as with
  | nil => exact absurd rfl hne
  | cons a as =>
    have := (h a List.mem_cons_self).2
    rw [List.map_cons, List.sum_cons]
    omega

/-- **The writer fills the message** with the encoding of a tuple. -/
theorem fill_tuple {M : Machine} {Γ : NetType} {net : Loaded} (hnet : Export Γ = some net.types) {info : Pto}
    (hargs : structArrays info.args ≤ 97) {v : Tuple sending Γ info.args} (hc : v.Counted) (hs : v.StructsEmpty)
    (hne : ¬v.Empty) (hd : v.depth ≤ M.depth) (read : Option ReadData) (data : WriteData) :
    fill M net info v.vals read data = .ok (read, { data with writes := data.writes ++ v.enc }) := by
  have hvals : v.vals ≠ [] := by
    generalize info.args = args at v
    cases v with
    | nil => exact absurd trivial hne
    | cons v vs => exact List.cons_ne_nil _ _
  obtain ⟨t, hwrite⟩ := v.write_enc sending_writable hnet hc hs (w := ⟨read, data.writes⟩) hd
    (v.holds_table (keys_false_nodup info.args 1))
  rw [fill, if_neg hvals, ConvertWriter_eq hargs, argTable_vals]
  exact bind_eq_ok.2 ⟨_, hwrite, rfl⟩

/-- **A sound call** hands one frame to the node and leaves no message behind. -/
theorem s2c_sound {M : Machine} {Γ : NetType} {net : Loaded} (hnet : Export Γ = some net.types) {ptoid vfd : Nat}
    (hid : ptoid < 65536) {info : Pto} (hname : net.Name2ID info.name ≠ none) (hargs : structArrays info.args ≤ 97)
    {v : Tuple sending Γ info.args} (hc : v.Counted) (hs : v.StructsEmpty) (hne : ¬v.Empty) (hd : v.depth ≤ M.depth)
    (hlen : v.payload.length + 2 < 65536) (g : Globals) :
    s2c M net ptoid info (.one vfd) v.vals g = .ok ([(vfd, leBytes 2 (leBytes 2 ptoid ++ v.payload).length ++
      (leBytes 2 ptoid ++ v.payload))], ⟨g.ReadData, none⟩) := by
  have hsolid := v.solid hc
  obtain ⟨ss, hdata, hflat⟩ := solid_data hsolid
  have hbody : body M.border ⟨some ptoid, v.enc⟩ = .ok (leBytes 2 ptoid ++ v.payload) := by
    rw [Tuple.payload, ← hflat]
    exact body_eq M.border hid rfl hdata
  have hnonempty : (⟨some ptoid, v.enc⟩ : WriteData).Len ≠ 0 :=
    solid_len hsolid fun he => hne (v.empty_of_enc sending_writable hc he)
  have hpack := Pack_one M.border vfd hnonempty hbody (by simp only [List.length_append, length_leBytes]; omega)
  rw [s2c, if_neg hname, fill_tuple hnet hargs hc hs hne hd]
  refine bind_eq_ok.2 ⟨_, rfl, bind_eq_ok.2 ⟨([(vfd, _)], none), ?_, rfl⟩⟩
  simp only [WriteBegin, List.nil_append, Send2Net]
  exact bind_eq_ok.2 ⟨_, hpack, rfl⟩

/-- A protocol without fields is not sent, and its message stays. -/
theorem s2c_empty (M : Machine) (net : Loaded) (ptoid vfd : Nat) (info : Pto) (hname : net.Name2ID info.name ≠ none)
    (g : Globals) : s2c M net ptoid info (.one vfd) [] g = .ok ([], ⟨g.ReadData, some (WriteBegin (some ptoid))⟩) := by
  rw [s2c, if_neg hname]
  rfl

/-- The messages of a client are not sent, and they stay. -/
theorem c2s_stays {M : Machine} {net : Loaded} {info : Pto} {args : List (Val Base)} {g g' : Globals}
    {out : List (Nat × Bytes)} (hname : net.Name2ID info.name ≠ none) (h : c2s M net info args g = .ok (out, g')) :
    out = [] ∧ g'.WriteData ≠ none := by
  rw [c2s, if_neg hname] at h
  obtain ⟨⟨read, data⟩, -, h⟩ := bind_eq_ok.1 h
  cases h
  exact ⟨rfl, Option.some_ne_none _⟩

/-! ## Runs -/

/-- **Runs of sound calls**: from any state, every call hands exactly one frame to the node, in order, and leaves no
message behind. -/
theorem delivers_of_sound {M : Machine} {Γ : NetType} {net : Loaded} {role : Role} (hnet : Export Γ = some net.types)
    (cs : List Call) (h : ∀ c ∈ cs, Sound M Γ net role c) (g : Globals) : Delivers M Γ net role g cs := by
  induction cs generalizing g with
  | nil => trivial
  | cons c cs ih =>
    obtain ⟨rfl, hid, ⟨vfd, hvfd⟩, info, hinfo, hname, hargs, v, hvals, hc, hs, hne, hd, hlen⟩ := h c List.mem_cons_self
    have hcall : call M net .server c g = .ok ([(vfd, leBytes 2 (leBytes 2 c.ptoid ++ v.payload).length ++
        (leBytes 2 c.ptoid ++ v.payload))], ⟨g.ReadData, none⟩) := by
      simp only [call, hinfo, hvfd, hvals]
      exact s2c_sound hnet hid (by rw [hname]; exact Option.some_ne_none _) hargs hc hs hne hd hlen g
    refine ⟨info, c.ptoid, vfd, _, _, hinfo, hname, hvfd, hcall, ?_, ⟨v, hvals, rfl⟩, rfl, ?_⟩
    · simp only [List.length_append, length_leBytes]
      omega
    · exact ih (fun c' hc' => h c' (List.mem_cons_of_mem c hc')) _

/-- No types. -/
def noTypes : NetType where
  types := ∅
  nodup _ h := absurd h List.not_mem_nil

/-- A protocol with a number, and a protocol without fields. -/
def samplePtos : Loaded := ⟨[], [⟨"c_num", [⟨"n", "uint8", none⟩]⟩, ⟨"c_ping", []⟩]⟩

theorem delivers_num :
    Delivers ⟨1, Border.first⟩ noTypes samplePtos .server ⟨none, none⟩ [⟨1, .one 1, [.base (.int 7)]⟩] := by
  refine delivers_of_sound rfl _ ?_ _
  rintro c hc
  obtain rfl := List.mem_singleton.1 hc
  have hseven : SendableBase .Uint8 false (.int 7) := ⟨by decide, [7], rfl⟩
  have hbytes : sending.bytes .Uint8 (.int 7) = [⟨[some [7]], 1⟩] := rfl
  exact ⟨rfl, by decide, ⟨1, rfl⟩, ⟨"c_num", [⟨"n", "uint8", none⟩]⟩, rfl, by decide, by decide,
    .cons (.base .Uint8 rfl (.int 7) hseven) .nil, rfl, ⟨trivial, trivial⟩, ⟨trivial, trivial⟩, fun h => h.1,
    Nat.zero_le _, by simp [Tuple.payload, Tuple.enc, Value.enc, hbytes, Append.bytes]⟩

/-- The protocol without fields is not delivered. -/
theorem not_delivers_ping :
    ¬∀ (M : Machine) (Γ : NetType) (net : Loaded) (role : Role) (c : Call) (g : Globals), Export Γ = some net.types →
      (∃ vfd, c.vfds = .one vfd) →
      (∃ info, net.NetS2C c.ptoid = some info ∧ ∃ v : Tuple sending Γ info.args, c.args = v.vals) →
      Delivers M Γ net role g [c] := by
  intro h
  obtain ⟨info, id, vfd, body, g', -, -, -, hcall, -⟩ := h ⟨1, Border.first⟩ noTypes samplePtos .server ⟨2, .one 1, []⟩
    ⟨none, none⟩ rfl ⟨1, rfl⟩ ⟨⟨"c_ping", []⟩, rfl, .nil, rfl⟩
  have hsent : call ⟨1, Border.first⟩ samplePtos .server ⟨2, .one 1, []⟩ ⟨none, none⟩ =
    .ok ([], ⟨none, some (WriteBegin (some 2))⟩) := rfl
  rw [hsent] at hcall
  cases hcall

end XCore.Net
