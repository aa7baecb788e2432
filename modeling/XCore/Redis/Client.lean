import Mathlib.Data.List.AList
import XCore.Lib.Effect
import XCore.Lua.Quote
import XCore.Redis.Parser

/-!
# `CRedis` of `redis.lua`

The state of a Redis client: its connection, the commands in flight (`m_SendList`, with their locks in `m_LockList`),
and the commands that wait for the connection to be initialised (`m_InitFuncs`). `Exec`, `Recv` and `TimeOut` follow the
source; so do the handlers that `Start` installs (`onConnect`, `onRecv`, `onClose`, `onError`).

A callback is either one that was given to `Exec`, known by a name, or the one that the connect handler gives to its
`SELECT`; a call of the latter is executed (`selected`). Lua leaves the order in which `pairs` runs over a table open,
so the operations that use it are given the entries in some order.
-/

namespace XCore.Redis

open XCore.Lua XCore.Tcp XCore.Effect

/-- `TIMEOUT`. -/
def TIMEOUT : Int := 60 * 1000

/-- A function given to `Exec`. -/
inductive Func (F : Type)
  | user (f : F)
  /-- the callback of the connect handler -/
  | select
  deriving DecidableEq

/-- A lock: `{cmd=, time=, funcs=}`. -/
structure Lock (F : Type) where
  cmd : Option Bytes
  time : Int
  funcs : Option (List (Func F))

/-- An entry of `m_InitFuncs`: the command and its function. -/
abbrev InitCmd (F : Type) := Option Bytes × Option (Func F)

/-- The state of a `CRedis`; `timeOut` is `HasTimer("TimeOut")`, and `db` is `m_Config.db` as a string. -/
structure CRedis (F : Type) where
  db : Bytes
  m_Client : CTcpClient Left Pak
  m_LockList : AList fun _ : Bytes => Lock F
  m_SendList : List Bytes
  m_Inited : Bool
  m_InitFuncs : Option (AList fun _ : Bytes => InitCmd F)
  timeOut : Bool

/-- The second argument of a callback: the data as received, or the table that `HGETALL` makes of it. -/
inductive CallData
  | data (d : RData)
  | tbl (t : AList fun _ : Bytes => Option Bytes)

/-- What a Redis client does, in order: its log of locks, the calls of callbacks, its events and the effects of its
connection. -/
inductive RedisEffect (F : Type)
  /-- a lock is made: `[redis]SendCmd` -/
  | locked (msg : Bytes) (func : Option (Func F))
  /-- a function is added to a lock -/
  | joined (msg : Bytes) (func : Func F)
  /-- a lock is given up by `TimeOut` -/
  | expired (msg : Bytes)
  /-- a function is called, by `TimeOut` without arguments -/
  | call (func : Func F) (args : Option (Bool × CallData))
  /-- a command of `m_InitFuncs` is handed to `Send` -/
  | handed (msg : Bytes)
  | client (e : ClientEffect Pak)
  | onInited
  | onClose
  | onError

/-- The text that an effect writes to the socket. -/
def RedisEffect.written {F : Type} : RedisEffect F → Option Bytes
  | .client (.write data) => some data
  | _ => none

/-- What an operation of a Redis client has done. -/
abbrev Did (F : Type) := Done (CRedis F) (RedisEffect F) LuaError

/-- The text that `Exec` makes of an argument, with the formats `$%d` and `%s`. -/
def bulkText (key : Bytes) : Bytes := fDollar ++ dec key.length ++ crlf ++ fmtS key ++ crlf

/-- The text that `Exec` makes of a command. -/
def message (cmds : List Bytes) : Bytes := fStar ++ dec cmds.length ++ crlf ++ cmds.flatMap bulkText

/-- `"SELECT"`. -/
def SELECT : Bytes := [83, 69, 76, 69, 67, 84]

/-- `"HGETALL"`. -/
def HGETALL : Bytes := [72, 71, 69, 84, 65, 76, 76]

/-- The loop of `HGETALL`: `tbl[data[i]] = data[i+1]` for every second `i`. -/
def pairsToTable : List (Option Bytes) → (AList fun _ : Bytes => Option Bytes) →
    Except LuaError (AList fun _ : Bytes => Option Bytes)
  | some k :: v :: l, tbl => pairsToTable l (tbl.insert k v)
  | [some k], tbl => .ok (tbl.insert k none)
  | none :: _, _ => .error .indexNil
  | [], tbl => .ok tbl

/-- What `HGETALL` makes of its data. A byte of a string is nil, so a string that is not empty raises. -/
def hgetall : RData → Except LuaError CallData
  | .nil => .error .lenNil
  | .num _ => .error .lenNumber
  | .str [] => .ok (.tbl ∅)
  | .str (_ :: _) => .error .indexNil
  | .list l => (pairsToTable l ∅).map .tbl

namespace CRedis

variable {F : Type}

/-- `CRedis:Create`, with the client that `Start` has set up. The source creates a `tcp.TcpClient`, which `tcp.lua` does
not define, so that it raises as shipped; `CTcpClient` is taken for it. -/
def Create (db : Bytes) : CRedis F where
  db := db
  m_Client := started
  m_LockList := ∅
  m_SendList := []
  m_Inited := false
  m_InitFuncs := none
  timeOut := false

/-- `CRedis:Send`. -/
def Send (now : Int) (cmd : Option Bytes) (msg : Bytes) (func : Option (Func F)) (self : CRedis F) : Did F :=
  match self.m_LockList.lookup msg with
  | some lock =>
    match func with
    | none => ⟨self, [], none⟩
    | some f =>
      match lock.funcs with
      | none => ⟨self, [], some .lenNil⟩
      | some funcs =>
        ⟨{ self with m_LockList := self.m_LockList.insert msg { lock with funcs := some (funcs ++ [f]) } },
          [.joined msg f], none⟩
  | none =>
    let lock : Lock F := ⟨cmd, now, func.map fun f => [f]⟩
    ⟨{ self with
        m_LockList := self.m_LockList.insert msg lock
        m_SendList := self.m_SendList ++ [msg]
        timeOut := func.isSome || self.timeOut },
      .locked msg func :: (self.m_Client.Send msg).map .client, none⟩

/-- `CRedis:Exec`. -/
def Exec (now : Int) (cmds : List Bytes) (func : Option (Func F)) (ignore : Bool) (self : CRedis F) : Did F :=
  let msg := message cmds
  if !ignore && !self.m_Inited then
    ⟨{ self with m_InitFuncs := some ((self.m_InitFuncs.getD ∅).insert msg (cmds.head?, func)) }, [], none⟩
  else self.Send now cmds.head? msg func

/-- The body of the loop over `m_InitFuncs`. -/
def hand (now : Int) (e : Σ _ : Bytes, InitCmd F) (self : CRedis F) : Did F :=
  (⟨self, [.handed e.1], none⟩ : Did F).andThen (Send now e.2.1 e.1 e.2.2)

/-- The body of the callback that the connect handler gives to its `SELECT`; `entries` are those of `m_InitFuncs`. -/
def selected (now : Int) (entries : List (Σ _ : Bytes, InitCmd F)) (self : CRedis F) : Did F :=
  let self := { self with m_Inited := true }
  match self.m_InitFuncs with
  | none => ⟨self, [.onInited], none⟩
  | some _ => (Done.each (hand now) entries self).andThen fun self =>
    ⟨{ self with m_InitFuncs := none }, [.onInited], none⟩

/-- The call of a callback. -/
def callFunc (now : Int) (entries : List (Σ _ : Bytes, InitCmd F)) (args : Option (Bool × CallData)) (func : Func F)
    (self : CRedis F) : Did F :=
  (⟨self, [.call func args], none⟩ : Did F).andThen fun self =>
    match func with
    | .user _ => .skip self
    | .select => self.selected now entries

/-- `CRedis:Recv`. -/
def Recv (now : Int) (entries : List (Σ _ : Bytes, InitCmd F)) (ret : Bool) (data : RData) (self : CRedis F) : Did F :=
  match self.m_SendList with
  | [] => .skip self
  | cmd :: rest =>
    let self := { self with m_SendList := rest }
    match self.m_LockList.lookup cmd with
    | none => .skip self
    | some info =>
      match info.funcs with
      | none => .skip self
      | some funcs =>
        let locks := self.m_LockList.erase cmd
        let self := { self with m_LockList := locks, timeOut := !locks.keys.isEmpty && self.timeOut }
        match (if ret && info.cmd == some HGETALL then hgetall data else .ok (.data data)) with
        | .error e => ⟨self, [], some e⟩
        | .ok data => Done.each (callFunc now entries (some (ret, data))) funcs self

/-- `CRedis:Recv`, with the call of a callback as a parameter. -/
def RecvWith (call : Option (Bool × CallData) → Func F → CRedis F → Did F) (ret : Bool) (data : RData)
    (self : CRedis F) :
    Did F :=
  match self.m_SendList with
  | [] => .skip self
  | cmd :: rest =>
    let self := { self with m_SendList := rest }
    match self.m_LockList.lookup cmd with
    | none => .skip self
    | some info =>
      match info.funcs with
      | none => .skip self
      | some funcs =>
        let locks := self.m_LockList.erase cmd
        let self := { self with m_LockList := locks, timeOut := !locks.keys.isEmpty && self.timeOut }
        match (if ret && info.cmd == some HGETALL then hgetall data else .ok (.data data)) with
        | .error e => ⟨self, [], some e⟩
        | .ok data => Done.each (call (some (ret, data))) funcs self

/-- The locks that `TimeOut` gives up. -/
def expired (now : Int) (self : CRedis F) : List (Σ _ : Bytes, Lock F) :=
  self.m_LockList.entries.filter fun e => TIMEOUT ≤ now - e.2.time

/-- `CRedis:TimeOut`; `list` is the list of expired locks with their functions, in the order of the second loop. -/
def TimeOut (now : Int) (list : List (Σ _ : Bytes, Lock F)) (entries : List (Σ _ : Bytes, InitCmd F))
    (self : CRedis F) :
    Did F :=
  let locks := list.foldl (fun locks e => locks.erase e.1) self.m_LockList
  let self := { self with m_LockList := locks, timeOut := !locks.keys.isEmpty && self.timeOut }
  (⟨self, list.map fun e => .expired e.1, none⟩ : Did F).andThen <|
    Done.each (fun e => Done.each (callFunc now entries none) (e.2.funcs.getD [])) list

/-- `CRedis:TimeOut`, with the call of a callback as a parameter. -/
def TimeOutWith (call : Option (Bool × CallData) → Func F → CRedis F → Did F) (list : List (Σ _ : Bytes, Lock F))
    (self : CRedis F) : Did F :=
  let locks := list.foldl (fun locks e => locks.erase e.1) self.m_LockList
  let self := { self with m_LockList := locks, timeOut := !locks.keys.isEmpty && self.timeOut }
  (⟨self, list.map fun e => .expired e.1, none⟩ : Did F).andThen <|
    Done.each (fun e => Done.each (call none) (e.2.funcs.getD [])) list

/-! ## The handlers of `Start` -/

/-- The handler of `connect`. -/
def onConnect (now : Int) (self : CRedis F) : Did F := self.Exec now [SELECT, self.db] (some .select) true

/-- The handler of `recv`. -/
def onRecv (now : Int) (entries : List (Σ _ : Bytes, InitCmd F)) (pak : Pak) (self : CRedis F) : Did F :=
  self.Recv now entries pak.ret pak.data

/-- The handler of `close`. -/
def onClose (self : CRedis F) : Did F := ⟨{ self with m_Inited := false }, [.onClose], none⟩

/-- The handler of `error`. -/
def onError (self : CRedis F) : Did F :=
  let self := { self with m_Inited := false }
  if self.m_Client.m_Connected then ⟨self, [.onError], none⟩
  else
    let (client, out) := self.m_Client.ReStart
    ⟨{ self with m_Client := client }, .onError :: out.map .client, none⟩

/-! ## What the operations can do -/

theorem Exec_sends {self : CRedis F} {ignore : Bool} (h : ignore = true ∨ self.m_Inited = true) (now : Int)
    (cmds : List Bytes) (func : Option (Func F)) :
    self.Exec now cmds func ignore = self.Send now cmds.head? (message cmds) func := by
  rcases h with h | h <;> simp [Exec, h]

/-- **What `Send` can do**: nothing, raise, add a function to the lock, or make a lock and write. -/
theorem Send_cases (now : Int) (cmd : Option Bytes) (msg : Bytes) (func : Option (Func F)) (self : CRedis F) :
    (∃ lock, self.m_LockList.lookup msg = some lock ∧
      (self.Send now cmd msg func = ⟨self, [], none⟩ ∧ func = none ∨
        self.Send now cmd msg func = ⟨self, [], some .lenNil⟩ ∧ func ≠ none ∧ lock.funcs = none ∨
        ∃ f funcs, func = some f ∧ lock.funcs = some funcs ∧ self.Send now cmd msg func =
          ⟨{ self with m_LockList := self.m_LockList.insert msg { lock with funcs := some (funcs ++ [f]) } },
            [.joined msg f], none⟩)) ∨
    (self.m_LockList.lookup msg = none ∧ self.Send now cmd msg func =
      ⟨{ self with
          m_LockList := self.m_LockList.insert msg ⟨cmd, now, func.map fun f => [f]⟩
          m_SendList := self.m_SendList ++ [msg]
          timeOut := func.isSome || self.timeOut },
        .locked msg func :: (self.m_Client.Send msg).map .client, none⟩) := by
  cases h : self.m_LockList.lookup msg with
  | none => exact Or.inr ⟨rfl, by simp [Send, h]⟩
  | some lock =>
    refine Or.inl ⟨lock, rfl, ?_⟩
    cases func with
    | none => exact Or.inl ⟨by simp [Send, h], rfl⟩
    | some f =>
      cases hf : lock.funcs with
      | none => exact Or.inr (Or.inl ⟨by simp [Send, h, hf], by simp, rfl⟩)
      | some funcs => exact Or.inr (Or.inr ⟨f, funcs, rfl, rfl, by simp [Send, h, hf]⟩)

/-- The effects of `Send`. -/
theorem Send_out (now : Int) (cmd : Option Bytes) (msg : Bytes) (func : Option (Func F)) (self : CRedis F) :
    ∀ e ∈ (self.Send now cmd msg func).out,
      (∃ m f, e = .locked m f) ∨ (∃ m f, e = .joined m f) ∨ ∃ c, e = .client c := by
  rcases Send_cases now cmd msg func self with
    ⟨lock, -, ⟨heq, -⟩ | ⟨heq, -⟩ | ⟨f, funcs, -, -, heq⟩⟩ | ⟨-, heq⟩
  · simp [heq]
  · simp [heq]
  · simp [heq]
  · rw [heq]
    intro e he
    rcases List.mem_cons.1 he with rfl | he
    · exact Or.inl ⟨_, _, rfl⟩
    · obtain ⟨c, -, rfl⟩ := List.mem_map.1 he
      exact Or.inr (Or.inr ⟨c, rfl⟩)

/-- The state with an answered command and its lock removed. -/
def removed (self : CRedis F) (msg : Bytes) (rest : List Bytes) : CRedis F :=
  { self with
    m_SendList := rest
    m_LockList := self.m_LockList.erase msg
    timeOut := !(self.m_LockList.erase msg).keys.isEmpty && self.timeOut }

/-- **What `Recv` can do**: nothing is outstanding; the command has no lock, or a lock without functions, which stays;
or the lock is removed, and the functions are called unless the data of `HGETALL` raises. -/
theorem RecvWith_cases (call : Option (Bool × CallData) → Func F → CRedis F → Did F) (ret : Bool) (data : RData)
    (self : CRedis F) :
    (self.m_SendList = [] ∧ self.RecvWith call ret data = .skip self) ∨
    ∃ msg rest, self.m_SendList = msg :: rest ∧
      (((∀ lock, self.m_LockList.lookup msg = some lock → lock.funcs = none) ∧
        self.RecvWith call ret data = .skip { self with m_SendList := rest }) ∨
      ∃ lock funcs, self.m_LockList.lookup msg = some lock ∧ lock.funcs = some funcs ∧
        ((∃ e, ret = true ∧ lock.cmd = some HGETALL ∧ hgetall data = .error e ∧
            self.RecvWith call ret data = ⟨self.removed msg rest, [], some e⟩) ∨
          ∃ d, self.RecvWith call ret data =
            Done.each (call (some (ret, d))) funcs (self.removed msg rest))) := by
  cases hs : self.m_SendList with
  | nil => exact Or.inl ⟨rfl, by simp [RecvWith, hs]⟩
  | cons msg rest =>
    refine Or.inr ⟨msg, rest, rfl, ?_⟩
    cases hl : self.m_LockList.lookup msg with
    | none => exact Or.inl ⟨by simp, by simp [RecvWith, hs, hl]⟩
    | some lock =>
      cases hf : lock.funcs with
      | none => exact Or.inl ⟨by simp [hf], by simp [RecvWith, hs, hl, hf]⟩
      | some funcs =>
        refine Or.inr ⟨lock, funcs, rfl, hf, ?_⟩
        cases hd : (if ret && lock.cmd == some HGETALL then hgetall data else .ok (.data data)) with
        | error e =>
          split at hd
          · rename_i hif
            rw [Bool.and_eq_true, beq_iff_eq] at hif
            exact Or.inl ⟨e, hif.1, hif.2, hd, by simp only [RecvWith, hs, hl, hf, hif.1, hif.2, hd]; rfl⟩
          · cases hd
        | ok d => exact Or.inr ⟨d, by simp only [RecvWith, hs, hl, hf, hd]; rfl⟩

/-- The same, with the calls of the callbacks that are known. -/
theorem Recv_cases (now : Int) (entries : List (Σ _ : Bytes, InitCmd F)) (ret : Bool) (data : RData) (self : CRedis F) :
    (self.m_SendList = [] ∧ self.Recv now entries ret data = .skip self) ∨
    ∃ msg rest, self.m_SendList = msg :: rest ∧
      (((∀ lock, self.m_LockList.lookup msg = some lock → lock.funcs = none) ∧
        self.Recv now entries ret data = .skip { self with m_SendList := rest }) ∨
      ∃ lock funcs, self.m_LockList.lookup msg = some lock ∧ lock.funcs = some funcs ∧
        ((∃ e, ret = true ∧ lock.cmd = some HGETALL ∧ hgetall data = .error e ∧
            self.Recv now entries ret data = ⟨self.removed msg rest, [], some e⟩) ∨
          ∃ d, self.Recv now entries ret data =
            Done.each (callFunc now entries (some (ret, d))) funcs (self.removed msg rest))) :=
  RecvWith_cases (callFunc now entries) ret data self

end CRedis

end XCore.Redis
