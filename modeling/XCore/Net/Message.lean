import XCore.Net.Base
import XCore.Tcp.Server

/-!
# The message under construction

`net.WriteData` holds the message that the writers append to. `net.Pack` and `net.PackSimple` make a frame of it, with
its length in front, and drop it (`Pack_one`); a message to which nothing has been appended stays (`Pack_empty`).

`Send2Net` packs the message for a client or for a list of clients. For a list it calls `next` on the name of the type
of the list, which is a string, so it raises whatever the list is (`broadcast_never`).
-/

namespace XCore.Net

open XCore.Lua XCore.Tcp

/-- `net.WriteData`; `Pos` is the number of entries of `Data`. -/
structure WriteData where
  Pto : Option Nat
  writes : List Append

namespace WriteData

/-- `Data`, with nil entries. -/
def Data (w : WriteData) : List (Option Bytes) := w.writes.flatMap Append.pieces

/-- `Len`. -/
def Len (w : WriteData) : Nat := (w.writes.map Append.len).sum

end WriteData

/-- `net.WriteBegin`. -/
def WriteBegin (ptoid : Option Nat) : WriteData := ⟨ptoid, []⟩

/-! ## `table.concat` -/

/-- The length operator on a list with nil entries: Lua leaves open which border it returns. -/
structure Border where
  len : List (Option Bytes) → Nat
  before (l : List (Option Bytes)) : len l = 0 ∨ ∃ s, l[len l - 1]? = some (some s)
  after (l : List (Option Bytes)) (s : Bytes) : l[len l]? ≠ some (some s)

/-- The first border. -/
def Border.first : Border where
  len l := (l.takeWhile Option.isSome).length
  before l := by
    induction l with
    | nil => exact Or.inl rfl
    | cons x l ih =>
      cases x with
      | none => exact Or.inl rfl
      | some s =>
        refine Or.inr ?_
        rcases ih with h | ⟨s', h⟩
        · exact ⟨s, by simp [h]⟩
        · refine ⟨s', ?_⟩
          simp only [List.takeWhile_cons, Option.isSome_some, ↓reduceIte, List.length_cons, Nat.add_sub_cancel]
          cases hn : (l.takeWhile Option.isSome).length with
          | zero =>
            rw [hn] at h
            have hl : l = [] ∨ ∃ t, l = none :: t := by
              cases l with
              | nil => exact Or.inl rfl
              | cons y t => cases y with
                | none => exact Or.inr ⟨t, rfl⟩
                | some y => simp at hn
            rcases hl with rfl | ⟨t, rfl⟩ <;> simp at h
          | succ n => rwa [hn] at h
  after l s h := by
    induction l with
    | nil => simp at h
    | cons x l ih =>
      cases x with
      | none => simp at h
      | some t => exact ih (by simpa using h)

/-- The entries one after the other; an entry that is nil raises. -/
def concatAll : List (Option Bytes) → Except LuaError Bytes
  | [] => .ok []
  | none :: _ => .error .concatNil
  | some s :: l => (concatAll l).map (s ++ ·)

/-- `table.concat(t)`. -/
def concat (border : Border) (t : List (Option Bytes)) : Except LuaError Bytes := concatAll (t.take (border.len t))

/-! ## Packing -/

/-- The recipients of a message: nil, the number of a client, a table, or another value. -/
inductive Vfds
  | nil
  | one (vfd : Nat)
  | list (l : List Nat)
  | other

/-- The result of `net.Pack`: a frame, or a table with frames for the recipients. -/
inductive Packed
  | pak (s : Bytes)
  | table (t : List (Nat × Bytes))

/-- `string.pack("H", n)`, of a number or nil. -/
def packH : Option Nat → Except LuaError Bytes
  | none => .error .badArgument
  | some n => packU 2 n

/-- `string.pack("H", data.Pto)..table.concat(data.Data)`. -/
def body (border : Border) (data : WriteData) : Except LuaError Bytes := do
  let id ← packH data.Pto
  let s ← concat border data.Data
  .ok (id ++ s)

/-- `string.pack("H", string.len(out))..out`. -/
def withLength (out : Bytes) : Except LuaError Bytes := (packU 2 out.length).map (· ++ out)

/-- `string.len(pkg)`, of a string or nil. -/
def stringLen : Option Bytes → Except LuaError Nat
  | none => .error .badArgument
  | some s => .ok s.length

/-- The loop over a table of recipients; `pkg` is a local variable that is never set. -/
def packEach (pkg : Option Bytes) : List Nat → Except LuaError (List (Nat × Bytes))
  | [] => .ok []
  | vfd :: vfds => do
    let len ← packH (some (← stringLen pkg))
    let rest ← packEach pkg vfds
    .ok ((vfd, len ++ pkg.getD []) :: rest)

/-- `net.Pack`, with what is left in `net.WriteData`. -/
def Pack (border : Border) (vfds : Vfds) (w : Option WriteData) : Except LuaError (Option Packed × Option WriteData) :=
  match vfds, w with
  | .nil, _ => .error .assertion
  | _, none => .ok (none, none)
  | vfds, some data =>
    if data.Len ≤ 0 then .ok (none, some data)
    else do
      let out ← body border data
      match vfds with
      | .list l => .ok (some (.table (← packEach none l)), none)
      | _ => .ok (some (.pak (← withLength out)), none)

/-- `net.PackSimple`. -/
def PackSimple (border : Border) (w : Option WriteData) : Except LuaError (Option Bytes × Option WriteData) :=
  match w with
  | none => .ok (none, none)
  | some data =>
    if data.Len ≤ 0 then .ok (none, some data)
    else do
      let out ← body border data
      .ok (some (← withLength out), none)

/-- `next(t)`, where `t` is a string. -/
def nextOfString (_t : String) : Except LuaError Bool := .error .badArgument

/-- What `Send2Net` hands to the node, with what is left in `net.WriteData`. -/
def Send2Net (border : Border) (vfds : Vfds) (w : Option WriteData) :
    Except LuaError (List (Nat × Bytes) × Option WriteData) :=
  match vfds with
  | .nil => .ok ([], w)
  | .other => .ok ([], w)
  | .list l => do
    let nonempty ← nextOfString "table"
    if nonempty then
      match ← Pack border (.list l) w with
      | (some (.table t), w) => .ok (t, w)
      | (_, w) => .ok ([], w)
    else .ok ([], w)
  | .one vfd => do
    match ← Pack border (.one vfd) w with
    | (some (.pak s), w) => .ok ([(vfd, s)], w)
    | (_, w) => .ok ([], w)

/-- What `Send2Rpc` hands to the node, for a client. -/
def Send2Rpc (border : Border) (vfd : Nat) (w : Option WriteData) :
    Except LuaError (List (Nat × Bytes) × Option WriteData) := do
  match ← PackSimple border w with
  | (some s, w) => .ok ([(vfd, s)], w)
  | (none, w) => .ok ([], w)

/-! ## One recipient -/

theorem concatAll_some (ss : List Bytes) : concatAll (ss.map some) = .ok ss.flatten := by
  induction ss with
  | nil => rfl
  | cons s ss ih =>
    rw [List.map_cons, concatAll, ih]
    rfl

/-- A table without nil entries is concatenated. -/
theorem concat_some (border : Border) (ss : List Bytes) : concat border (ss.map some) = .ok ss.flatten := by
  have hafter : ss.length ≤ border.len (ss.map some) := by
    by_contra hle
    have hlt : border.len (ss.map some) < ss.length := Nat.lt_of_not_le hle
    refine border.after (ss.map some) ss[border.len (ss.map some)] ?_
    rw [List.getElem?_map, List.getElem?_eq_getElem hlt]
    rfl
  rw [concat, List.take_of_length_le (by simpa using hafter), concatAll_some]

/-- A message in one piece after the other, none of them nil. -/
theorem body_eq (border : Border) {id : Nat} (hid : id < 65536) {data : WriteData} (hpto : data.Pto = some id)
    {ss : List Bytes} (hdata : data.Data = ss.map some) : body border data = .ok (leBytes 2 id ++ ss.flatten) := by
  have hpack : packU 2 id = .ok (leBytes 2 id) := if_pos hid
  rw [body, hpto, hdata, packH, hpack, concat_some]
  rfl

/-- **A message for one client** becomes a frame, and nothing is left of it. -/
theorem Pack_one (border : Border) (vfd : Nat) {data : WriteData} (hlen : data.Len ≠ 0) {out : Bytes}
    (hbody : body border data = .ok out) (hout : out.length < 65536) :
    Pack border (.one vfd) (some data) = .ok (some (.pak (leBytes 2 out.length ++ out)), none) := by
  have hpack : packU 2 out.length = .ok (leBytes 2 out.length) := if_pos hout
  simp only [Pack, hbody, withLength, if_neg (by omega : ¬data.Len ≤ 0), bind, Except.bind, hpack, Except.map]

/-- A message to which nothing has been appended is not sent, and stays. -/
theorem Pack_empty (border : Border) (vfd : Nat) {data : WriteData} (hlen : data.Len = 0) :
    Pack border (.one vfd) (some data) = .ok (none, some data) := by
  simp only [Pack, if_pos (by omega : data.Len ≤ 0)]

/-- For one client, `Send2Rpc` hands the same frame to its node as `Send2Net`. -/
theorem Send2Rpc_eq (border : Border) (vfd : Nat) (w : Option WriteData) :
    Send2Rpc border vfd w = Send2Net border (.one vfd) w := by
  cases w with
  | none => rfl
  | some data =>
    simp only [Send2Rpc, Send2Net, PackSimple, Pack]
    split
    · rfl
    · cases body border data with
      | error e => rfl
      | ok out => cases h : withLength out <;> simp [bind, Except.bind, h]

/-! ## Lists of recipients -/

/-- The writes of a node that is handed frames. -/
def writes {P : Type} (self : CTcpServer P) (out : List (Nat × Bytes)) : List (ServerEffect P) :=
  out.flatMap fun e => self.Send e.1 e.2

/-- A message is broadcast: `Send2Net` of the list does not raise, and its writes are, in some order, those of
`Send2Net` of each client of the list. -/
def Broadcasts {P : Type} (border : Border) (self : CTcpServer P) (w : Option WriteData) (l : List Nat) : Prop :=
  ∃ out w', Send2Net border (.list l) w = .ok (out, w') ∧ ∃ each : Nat → List (Nat × Bytes),
    (∀ vfd ∈ l, ∃ w', Send2Net border (.one vfd) w = .ok (each vfd, w')) ∧
      (writes self out).Perm (l.flatMap fun vfd => writes self (each vfd))

/-- **No message is ever broadcast**, whatever the list is. -/
theorem broadcast_never {P : Type} (border : Border) (self : CTcpServer P) (w : Option WriteData) (l : List Nat) :
    ¬Broadcasts border self w l := by
  rintro ⟨out, w', h, -⟩
  cases h

/-- A message of one byte to a client that is connected. -/
theorem not_broadcast_one : ¬∀ (border : Border) (self : CTcpServer Unit) (data : WriteData) (l : List Nat),
    0 < data.Len → l.Nodup → (∀ vfd ∈ l, (self.m_ClientVfd2Obj vfd).isSome) → Broadcasts border self (some data) l := by
  intro h
  obtain ⟨out, w', hsend, -⟩ := h Border.first (CTcpServer.Create.Accept 1 0).1
    ⟨some 1, [⟨[some [7]], 1⟩]⟩ [1] (by decide)
    (by decide) (by decide)
  cases hsend

end XCore.Net
