import XCore.Net.Scan

/-!
# Receiving messages (`net.UnpackBody`)

A message that has been received has the id of its protocol in front. Its fields are read by the generated reader and
are handed to `net.<protocol>`, or to `net.DefaultHandle` when there is none.

The readers return nil when bytes are missing, and the handler is called all the same; or they raise. So messages are
dealt with as they should be (`Proper`) only when they are receivable (`Receivable`, `unpackBody_iff`).
-/

namespace XCore.Net

open XCore.Lua XCore.Scanning

/-! ## `table.unpack` -/

/-- The length operator on tables: Lua leaves open which border it returns. -/
structure TableBorder where
  len : Table Base → Nat
  before (t : Table Base) : len t = 0 ∨ getKey t (.pos (len t)) ≠ none
  after (t : Table Base) : getKey t (.pos (len t + 1)) = none

/-- A table has no values from some number on. -/
theorem exists_getKey_none {B : Type} (t : Table B) : ∃ n, ∀ j > n, getKey t (.pos j) = none := by
  induction t with
  | nil => exact ⟨0, fun _ _ => rfl⟩
  | cons e t ih =>
    obtain ⟨n, hn⟩ := ih
    obtain ⟨key, v⟩ := e
    cases key with
    | name s => exact ⟨n, fun j hj => (getKey_cons _ _ _).trans ((if_neg (by simp)).trans (hn j hj))⟩
    | pos k =>
      refine ⟨max n k, fun j hj => (getKey_cons _ _ _).trans ((if_neg ?_).trans (hn j (by omega)))⟩
      intro h
      injection h
      omega

theorem exists_border {B : Type} (t : Table B) : ∃ n, getKey t (.pos (n + 1)) = none :=
  (exists_getKey_none t).imp fun n h => h (n + 1) (Nat.lt_succ_self n)

/-- The first border. -/
def TableBorder.first : TableBorder where
  len t := Nat.find (exists_border t)
  before t := by
    cases hn : Nat.find (exists_border t) with
    | zero => exact Or.inl rfl
    | succ n => exact Or.inr (Nat.find_min (exists_border t) (hn ▸ Nat.lt_succ_self n))
  after t := Nat.find_spec (exists_border t)

/-- `table.unpack(t)`. -/
def unpack (border : TableBorder) (t : Table Base) : List (Option (Val Base)) :=
  (List.range (border.len t)).map fun i => getKey t (.pos (i + 1))

/-! ## `net.UnpackBody` -/

/-- `net[name]`: nil or false, a function, or another value. -/
inductive Handle
  | nil
  | func
  | other
  deriving DecidableEq

/-- What a message that has been received meets in `net`; `DefaultHandle` says whether there is one. -/
structure Receiver where
  loaded : Loaded
  role : Role
  handle : String → Handle
  DefaultHandle : Bool

/-- The protocols that have a reader. -/
def Role.receives : Role → Pto → Bool
  | .server, p => !p.isS2C
  | .client, p => p.isS2C

namespace Receiver

variable (net : Receiver)

/-- `net.IsServer and net.NetC2S[ptoID] or net.NetS2C[ptoID]`. -/
def ptoHandle (ptoID : Nat) : Option Pto :=
  match net.role with
  | .server => (net.loaded.NetC2S ptoID).or (net.loaded.NetS2C ptoID)
  | .client => net.loaded.NetS2C ptoID

/-- `ptoHandle.reader`. -/
def reader (info : Pto) : Option (List ReadStmt) :=
  if net.role.receives info then ConvertReader info.args false else none

end Receiver

/-- A call `net[name](vfd, ..)` or `net.DefaultHandle(vfd, name, ..)`. -/
structure HandlerCall where
  isDefault : Bool
  vfd : Nat
  name : String
  args : List (Option (Val Base))

/-- A number that may be the id of a protocol. -/
def Base.toId : Base → Option Nat
  | .one (.num (.int (.ofNat n))) => some n
  | _ => none

/-- The message is read and handed over. -/
def handOver (depth : Nat) (border : TableBorder) (net : Receiver) (vfd : Nat) (info : Pto) (d : Option ReadData) :
    Except LuaError (List HandlerCall × Option ReadData) :=
  match net.reader info with
  | none => .error .callNil
  | some reader => do
    let (data, d) ← readCode luaReads (callReader luaReads (readersOf net.loaded.types) depth) reader [] d
    match net.handle info.name with
    | .func => .ok ([⟨false, vfd, info.name, unpack border data⟩], d)
    | .other => .error .callValue
    | .nil =>
      if net.DefaultHandle then .ok ([⟨true, vfd, info.name, unpack border data⟩], d)
      else .ok ([], d)

/-- `net.UnpackBody(vfd, str)`: the calls that it makes, and `net.ReadData`. -/
def UnpackBody (depth : Nat) (border : TableBorder) (net : Receiver) (vfd : Nat) (str : Bytes) :
    Except LuaError (List HandlerCall × Option ReadData) := do
  let (ptoID, d) ← luaReads.ReadX .Uint16 false (some (ReadBegin str))
  match (ptoID.bind Base.toId).bind net.ptoHandle with
  | none => .ok ([], d)
  | some info => handOver depth border net vfd info d

/-! ## Properties -/

/-- `Export` has not raised. -/
structure Receiver.Exported (Γ : NetType) (net : Receiver) : Prop where
  types : Export Γ = some net.loaded.types
  readers : ∀ p ∈ net.loaded.ptos, net.role.receives p = true → (ConvertReader p.args false).isSome

/-- The protocol of a message. -/
def Receiver.ptoOf (net : Receiver) (str : Bytes) : Option Pto :=
  if str.length < 2 then none else net.ptoHandle (uint str 2 0)

/-- No error is raised, and no handler is called, or one is called once with one value of the declared type for each
field, and these have been read from bytes that are there. -/
def Proper (Γ : NetType) (net : Receiver) (vfd : Nat) (str : Bytes) :
    Except LuaError (List HandlerCall × Option ReadData) → Prop
  | .error _ => False
  | .ok (calls, d) => calls = [] ∨ ∃ info isDefault, ∃ v : Tuple declared Γ info.args, net.ptoOf str = some info ∧
      calls = [⟨isDefault, vfd, info.name, v.vals.map some⟩] ∧ ∀ data ∈ d, data.Pos ≤ data.Len + 1

/-- A message of a protocol is receivable when this side receives the protocol, `net[name]` is nil or a function, and
the scan of its fields does not stop; and if a handler is called, they must all be there. -/
def Receivable (Γ : NetType) (depth : Nat) (net : Receiver) (str : Bytes) : Prop :=
  ∀ info, net.ptoOf str = some info → net.role.receives info = true ∧ net.handle info.name ≠ .other ∧
    ∃ b p, scanFields str Γ (scanStruct str Γ depth) info.args 2 = some (b, p) ∧
      (net.handle info.name = .func ∨ net.DefaultHandle = true → b = true ∧ p ≤ str.length)

/-! ## Arguments -/

/-- What is found under the number of a field. -/
theorem getKey_fieldTable {B : Type} {args : List Arg} {os : List (Option (Val B))} (hlen : os.length = args.length)
    (k i : Nat) :
    getKey (fieldTable false k args os) (.pos (k + i)) = os[i]?.join := by
  induction args generalizing os k i with
  | nil =>
    rw [List.length_eq_zero_iff.1 hlen]
    rfl
  | cons a args ih =>
    cases os with
    | nil => cases hlen
    | cons o os =>
      have hlen := Nat.succ.inj hlen
      cases i with
      | zero =>
        have hrest : getKey (fieldTable false (k + 1) args os) (.pos k) = none := by
          refine getKey_eq_none fun e he heq => ?_
          obtain ⟨j, hj, hkey⟩ := mem_keys_false (mem_fieldTable he)
          cases heq.symm.trans hkey
          omega
        cases o with
        | none => exact hrest
        | some v => exact (getKey_cons _ _ _).trans (if_pos rfl)
      | succ i =>
        have hne : Key.pos (k + (i + 1)) ≠ .pos k := by
          intro h
          injection h
          omega
        have hih := ih hlen (k + 1) i
        rw [Nat.add_right_comm, Nat.add_assoc] at hih
        cases o with
        | none => exact hih
        | some v => exact (getKey_cons _ _ _).trans ((if_neg hne).trans hih)

/-- The arguments are some values exactly when these are the values of the fields. -/
theorem unpack_eq_iff (border : TableBorder) {args : List Arg} {os : List (Option (Val Base))} {vals : List (Val Base)}
    (hos : os.length = args.length) (hvals : vals.length = args.length) :
    unpack border (fieldTable false 1 args os) = vals.map some ↔ os = vals.map some := by
  have hget (i : Nat) : getKey (fieldTable false 1 args os) (.pos (i + 1)) = os[i]?.join := by
    rw [Nat.add_comm]
    exact getKey_fieldTable hos 1 i
  constructor
  · intro h
    have hlen := congrArg List.length h
    simp only [unpack, List.length_map, List.length_range] at hlen
    refine List.ext_getElem (by simp [hos, hvals]) fun i h1 h2 => ?_
    rw [List.length_map] at h2
    have hi := congrArg (·[i]?) h
    simp only [unpack, hget, List.getElem?_map, List.getElem?_range (hlen ▸ h2), List.getElem?_eq_getElem h1,
      List.getElem?_eq_getElem h2, Option.map_some, Option.join_some, Option.some.injEq] at hi
    rw [hi, List.getElem_map]
  · rintro rfl
    have hjoin (i : Nat) : ((vals.map some)[i]?).join = vals[i]? := by
      rw [List.getElem?_map]
      cases vals[i]? <;> rfl
    have hborder : border.len (fieldTable false 1 args (vals.map some)) = vals.length := by
      have hbefore := border.before (fieldTable false 1 args (vals.map some))
      have hafter := border.after (fieldTable false 1 args (vals.map some))
      rw [hget, hjoin, List.getElem?_eq_none_iff] at hafter
      refine Nat.le_antisymm ?_ hafter
      cases hn : border.len (fieldTable false 1 args (vals.map some)) with
      | zero => exact Nat.zero_le _
      | succ n =>
        rw [hn, hget, hjoin] at hbefore
        have hlt := hbefore.resolve_left (Nat.succ_ne_zero n)
        rw [Ne, List.getElem?_eq_none_iff] at hlt
        omega
    refine List.ext_getElem? fun i => ?_
    rw [unpack, hborder, List.getElem?_map, List.getElem?_map]
    by_cases hi : i < vals.length
    · rw [List.getElem?_range hi, Option.map_some, hget, hjoin, List.getElem?_eq_getElem hi, Option.map_some]
    · rw [List.getElem?_eq_none (by simpa using hi), List.getElem?_eq_none (Nat.le_of_not_lt hi)]
      rfl

/-! ## When messages are dealt with -/

section Receive

variable {Γ : NetType} {net : Receiver} (hnet : net.Exported Γ) (depth : Nat) (border : TableBorder) (vfd : Nat)
    (str : Bytes)

/-- The protocol of a message has been loaded. -/
theorem mem_of_ptoOf {info : Pto} (h : net.ptoOf str = some info) : info ∈ net.loaded.ptos := by
  have hpto {id : Nat} (hid : net.loaded.pto id = some info) : info ∈ net.loaded.ptos := by
    rw [Loaded.pto] at hid
    split at hid
    · cases hid
    · exact List.mem_of_getElem? hid
  rw [Receiver.ptoOf] at h
  split at h
  · cases h
  · rw [Receiver.ptoHandle] at h
    split at h
    · rcases Option.or_eq_some_iff.1 h with h | ⟨-, h⟩
      · exact hpto (Option.filter_eq_some_iff.1 h).1
      · exact hpto (Option.filter_eq_some_iff.1 h).1
    · exact hpto (Option.filter_eq_some_iff.1 h).1

/-- A message of no protocol is rejected. -/
theorem UnpackBody_of_none (h : net.ptoOf str = none) : ∃ d, UnpackBody depth border net vfd str = .ok ([], d) := by
  have hread : luaReads.ReadX .Uint16 false (some (ReadBegin str)) = _ := readUint16 (s := str) 0
  rw [UnpackBody, hread, Nat.zero_add]
  rw [Receiver.ptoOf] at h
  by_cases hlen : str.length < 2
  · rw [if_pos hlen]
    exact ⟨_, rfl⟩
  · rw [if_neg hlen] at h ⊢
    simp only [bind, Except.bind, Option.bind_some, Base.toId, h]
    exact ⟨_, rfl⟩

theorem UnpackBody_of_some {info : Pto} (h : net.ptoOf str = some info) :
    UnpackBody depth border net vfd str = handOver depth border net vfd info (readingAt str 2) := by
  have hread : luaReads.ReadX .Uint16 false (some (ReadBegin str)) = _ := readUint16 (s := str) 0
  rw [UnpackBody, hread, Nat.zero_add]
  rw [Receiver.ptoOf] at h
  by_cases hlen : str.length < 2
  · rw [if_pos hlen] at h
    cases h
  · rw [if_neg hlen] at h ⊢
    simp only [bind, Except.bind, Option.bind_some, Base.toId, h]
    rfl

/-- One call is as it should be when it has a value of the declared type for each field, and these are there. -/
theorem proper_call {info : Pto} (hinfo : net.ptoOf str = some info) {os : List (Option (Val Base))} {b : Bool}
    (hlen : os.length = info.args.length)
    (hos : Right (fun os => ∃ v : Tuple declared Γ info.args, os = v.vals.map some) os b)
    (isDefault : Bool) (p : Nat) :
    Proper Γ net vfd str
    (.ok ([⟨isDefault, vfd, info.name, unpack border (fieldTable false 1 info.args os)⟩], readingAt str p)) ↔
      b = true ∧ p ≤ str.length := by
  rw [Right] at hos
  rw [hos]
  constructor
  · rintro (h | ⟨info', isDefault', v, hinfo', hcall, hpos⟩)
    · cases h
    · cases hinfo.symm.trans hinfo'
      injection hcall with hcall
      injection hcall with _ _ _ hargs
      refine ⟨⟨v, (unpack_eq_iff border hlen (by simp)).1 hargs⟩, ?_⟩
      exact Nat.le_of_succ_le_succ (hpos (cursor str p) rfl)
  · rintro ⟨⟨v, hv⟩, hp⟩
    refine Or.inr ⟨info, isDefault, v, hinfo, ?_, fun data hdata => ?_⟩
    · rw [(unpack_eq_iff border hlen (by simp)).2 hv]
    · cases hdata
      exact Nat.succ_le_succ hp

include hnet

theorem handOver_proper {info : Pto} (hinfo : net.ptoOf str = some info) :
    Proper Γ net vfd str (handOver depth border net vfd info (readingAt str 2)) ↔
      net.role.receives info = true ∧ net.handle info.name ≠ .other ∧
        ∃ b p, scanFields str Γ (scanStruct str Γ depth) info.args 2 = some (b, p) ∧
          (net.handle info.name = .func ∨ net.DefaultHandle = true → b = true ∧ p ≤ str.length) := by
  rw [handOver, Receiver.reader]
  by_cases hrec : net.role.receives info = true
  swap
  · rw [if_neg hrec]
    exact iff_of_false id fun h => hrec h.1
  have hargs : structArrays info.args ≤ 97 := by
    have hloaded := hnet.readers info (mem_of_ptoOf str hinfo) hrec
    rw [ConvertReader_eq] at hloaded
    by_contra hlt
    rw [if_neg hlt] at hloaded
    cases hloaded
  rw [if_pos hrec, ConvertReader_eq, if_pos hargs]
  have hread := readCode_follows (s := str) (p := 2) (callReader_follows hnet.types depth)
    (keys_false_nodup info.args 1)
    (not_key_nil _)
  cases hscan : scanFields str Γ (scanStruct str Γ depth) info.args 2 with
  | none =>
    rw [hscan] at hread
    obtain ⟨e, he⟩ := hread.of_none
    simp only [he]
    refine iff_of_false id ?_
    rintro ⟨-, -, b, p, hno, -⟩
    cases hno
  | some r =>
    obtain ⟨b, p⟩ := r
    rw [hscan] at hread
    obtain ⟨t, ht, os, hlen, rfl, hos⟩ := hread.of_some
    have hcall (isDefault : Bool) := proper_call border vfd str hinfo hlen hos isDefault p
    have hscanned {Q : Bool → Nat → Prop} : (∃ b' p', some (b, p) = some (b', p') ∧ Q b' p') ↔ Q b p := by
      simp
    simp only [ht, bind, Except.bind, List.nil_append, hrec, true_and, hscanned]
    cases hhandle : net.handle info.name with
    | func => simpa using hcall false
    | other => exact iff_of_false id fun h => h.1 rfl
    | nil =>
      cases hdefault : net.DefaultHandle with
      | false => simp [Proper]
      | true => simpa using hcall true

/-- **Messages are dealt with as they should be** exactly when they are receivable. -/
theorem unpackBody_iff : Proper Γ net vfd str (UnpackBody depth border net vfd str) ↔ Receivable Γ depth net str := by
  cases h : net.ptoOf str with
  | none =>
    obtain ⟨d, hd⟩ := UnpackBody_of_none depth border vfd str h
    rw [hd]
    refine iff_of_true (Or.inl rfl) fun info hinfo => ?_
    cases h.symm.trans hinfo
  | some info =>
    rw [UnpackBody_of_some depth border vfd str h, handOver_proper hnet depth border vfd str h]
    constructor
    · intro hrec info' hinfo'
      cases h.symm.trans hinfo'
      exact hrec
    · intro hrec
      exact hrec info h

end Receive

/-- A server with a handler for a protocol of two numbers. -/
def moveServer : Receiver :=
  ⟨⟨[], [⟨"s_move", [⟨"x", "uint16", none⟩, ⟨"y", "uint16", none⟩]⟩]⟩, .server, fun _ => .func, false⟩

theorem moveServer_exported : moveServer.Exported noTypes where
  types := rfl
  readers p hp _ := by
    obtain rfl := List.mem_singleton.1 hp
    rfl

/-- A message with both numbers. -/
theorem unpackBody_move : (∀ depth, Receivable noTypes depth moveServer [1, 0, 5, 0, 7, 0]) ∧ ∀ depth border vfd,
    Proper noTypes moveServer vfd [1, 0, 5, 0, 7, 0] (UnpackBody depth border moveServer vfd [1, 0, 5, 0, 7, 0]) := by
  have hrec (depth : Nat) : Receivable noTypes depth moveServer [1, 0, 5, 0, 7, 0] := by
    intro info hinfo
    cases hinfo
    exact ⟨rfl, by decide, true, 6, rfl, fun _ => ⟨rfl, by decide⟩⟩
  exact ⟨hrec, fun depth border vfd => (unpackBody_iff moveServer_exported depth border vfd _).2 (hrec depth)⟩

/-- Of a message that has been cut off after the first number, the handler gets this number. -/
theorem not_proper_truncated : ¬∀ (Γ : NetType) (net : Receiver), net.Exported Γ → ∀ (border : TableBorder) (vfd : Nat)
    (str : Bytes), ∃ n, ∀ depth ≥ n, Proper Γ net vfd str (UnpackBody depth border net vfd str) := by
  intro h
  obtain ⟨n, hn⟩ := h noTypes moveServer moveServer_exported .first 1 [1, 0, 5, 0]
  have hproper := hn n (Nat.le_refl n)
  have hinfo : moveServer.ptoOf [1, 0, 5, 0] = some ⟨"s_move", [⟨"x", "uint16", none⟩, ⟨"y", "uint16", none⟩]⟩ := rfl
  rw [UnpackBody_of_some n .first 1 _ hinfo, handOver_proper moveServer_exported n .first 1 _ hinfo] at hproper
  obtain ⟨-, -, b, p, hscan, hrec⟩ := hproper
  obtain ⟨rfl, -⟩ := hrec (Or.inl rfl)
  cases hscan

end XCore.Net
