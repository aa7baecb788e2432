import Mathlib.Logic.Function.Basic
import XCore.Lib.Run
import XCore.Redis.Encoding
import XCore.Redis.Queue

/-!
# Replies and the callbacks of their commands

A Redis client with its connection and its server: `Exec`, `TimeOut`, the loss of the connection, `ReStart`, a new
connection, and the events that the connection posts and that are dispatched later, in their order. The server answers
the commands that are written on a connection in order, and nothing after the connection is lost.

`History` records from the effects which commands were sent, which callbacks are registered for each, and which commands
were written on the current connection; the reply to a command carries its number. The client knows a command by its
text, so a `Sys` has a list of the commands that `Exec` was called with as well: a callback is registered for a command
if its text is not one of another.

- `Aligned`: `m_SendList` holds the commands whose replies are to come, and each has its callbacks in its lock;
- `Send_keeps`, `selected_keeps`: the invariant through `Send` and through the callback of `SELECT`;
- `turn_aligned`: the invariant through every turn;
- `replies_paired`: in a run of clean turns each reply calls the callbacks of its command.
-/

namespace XCore.Redis

open XCore.Lua XCore.Tcp XCore.Effect XCore.Run

/-- The commands sent, numbered in their order. -/
structure History (F : Type) where
  count : Nat
  msg : Nat → Bytes
  /-- the callbacks registered for a command -/
  funcs : Nat → List (Func F)
  /-- the newest command with a text -/
  newest : Bytes → Option Nat
  /-- the commands written on the current connection -/
  wire : List Nat

namespace History

variable {F : Type}

/-- Changes the callbacks of the newest command with a text. -/
def onNewest (h : History F) (msg : Bytes) (g : List (Func F) → List (Func F)) : History F :=
  match h.newest msg with
  | none => h
  | some id => { h with funcs := Function.update h.funcs id (g (h.funcs id)) }

/-- Only the callbacks change. -/
theorem onNewest_wire (h : History F) (msg : Bytes) (g : List (Func F) → List (Func F)) :
    (h.onNewest msg g).wire = h.wire ∧ (h.onNewest msg g).msg = h.msg ∧ (h.onNewest msg g).newest = h.newest ∧
      (h.onNewest msg g).count = h.count := by
  rw [onNewest]
  split <;> exact ⟨rfl, rfl, rfl, rfl⟩

/-- Records an effect. -/
def note (h : History F) : RedisEffect F → History F
  | .locked msg func => { h with
      count := h.count + 1
      msg := Function.update h.msg h.count msg
      funcs := Function.update h.funcs h.count func.toList
      newest := Function.update h.newest msg (some h.count) }
  | .joined msg func => h.onNewest msg (· ++ [func])
  | .expired msg => h.onNewest msg fun _ => []
  | .client (.write _) => { h with wire := h.wire ++ [h.count - 1] }
  | _ => h

end History

/-- The function that is called. -/
def RedisEffect.called {F : Type} : RedisEffect F → Option (Func F)
  | .call func _ => some func
  | _ => none

/-- An event that the connection has posted; `id` is the command that a reply answers. -/
inductive Event
  | connect
  | recv (id : Nat) (pak : Pak)
  | close
  | error
  deriving DecidableEq

/-- The command that a posted reply answers. -/
def Event.answers : Event → Option Nat
  | .recv id _ => some id
  | _ => none

/-- A client, the events that wait for their dispatch, the number of commands that the server has answered on the
current connection, and the commands that `Exec` was called with so far. -/
structure Sys (F : Type) where
  redis : CRedis F
  events : List Event
  answered : Nat
  history : History F
  commands : List (List Bytes)

/-- What can happen next. -/
inductive Turn (F : Type)
  | exec (now : Int) (cmds : List Bytes) (func : Option F) (ignore : Bool)
  /-- the server answers the next command -/
  | reply (pak : Pak)
  | lost (error : Bool)
  | restart
  | connected
  | dispatch (now : Int) (entries : List (Σ _ : Bytes, InitCmd F))
  | timeOut (now : Int) (list : List (Σ _ : Bytes, Lock F)) (entries : List (Σ _ : Bytes, InitCmd F))

namespace Sys

variable {F : Type}

/-- After `CRedis:Start`. -/
def start (db : Bytes) : Sys F := ⟨CRedis.Create db, [], 0, ⟨0, fun _ => [], fun _ => [], fun _ => none, []⟩, []⟩

/-- What the client has done. -/
def does (self : Sys F) (r : Did F) : Sys F :=
  { self with redis := r.state, history := r.out.foldl History.note self.history }

/-- `Exec` is called. -/
def calls (self : Sys F) (cmds : List Bytes) : Sys F := { self with commands := cmds :: self.commands }

/-- What the handler of an event calls `Exec` with. -/
def handled (self : Sys F) : Event → Sys F
  | .connect => self.calls [SELECT, self.redis.db]
  | _ => self

/-- The handler of an event. -/
def handler (now : Int) (entries : List (Σ _ : Bytes, InitCmd F)) : Event → CRedis F → Did F
  | .connect => CRedis.onConnect now
  | .recv _ pak => CRedis.onRecv now entries pak
  | .close => CRedis.onClose
  | .error => CRedis.onError

/-- One turn. The server answers while the connection is up and a command has no answer yet; a connection comes up while
there is none. -/
def turn (self : Sys F) : Turn F → Sys F
  | .exec now cmds func ignore => (self.calls cmds).does (self.redis.Exec now cmds (func.map .user) ignore)
  | .reply pak =>
    if self.redis.m_Client.m_Connected then
      match self.history.wire[self.answered]? with
      | some id => { self with events := self.events ++ [.recv id pak], answered := self.answered + 1 }
      | none => self
    else self
  | .lost true => { self with
      redis := { self.redis with m_Client := self.redis.m_Client.Error.1 }
      events := self.events ++ [.error] }
  | .lost false => { self with
      redis := { self.redis with m_Client := self.redis.m_Client.Close.1 }
      events := self.events ++ [.close] }
  | .restart => { self with redis := { self.redis with m_Client := self.redis.m_Client.ReStart.1 } }
  | .connected =>
    if self.redis.m_Client.m_Connected then self
    else { self with
      redis := { self.redis with m_Client := self.redis.m_Client.Connected.1 }
      events := self.events ++ [.connect]
      answered := 0
      history := { self.history with wire := [] } }
  | .dispatch now entries =>
    match self.events with
    | [] => self
    | e :: es => { self.handled e with events := es }.does (handler now entries e self.redis)
  | .timeOut now list entries => self.does (self.redis.TimeOut now list entries)

/-- The lists of a turn are those that `pairs` runs over, in some order. -/
def Lists (self : Sys F) : Turn F → Prop
  | .dispatch _ entries => entries.Perm self.redis.queued
  | .timeOut now list entries => list.Perm (self.redis.expired now) ∧ entries.Perm self.redis.queued
  | _ => True

/-- The dispatch of a reply calls the callbacks of the command that it answers: those that are registered for its text,
and every `Exec` with this text was one of the same command. -/
def Paired (self : Sys F) : Turn F → Prop
  | .dispatch now entries => ∀ id pak es, self.events = .recv id pak :: es →
      (self.redis.onRecv now entries pak).out.filterMap RedisEffect.called = self.history.funcs id ∧
        ∀ a ∈ self.commands, ∀ b ∈ self.commands, message a = self.history.msg id →
        message b = self.history.msg id → a = b
  | _ => True

end Sys

namespace CRedis

variable {F : Type}

/-- A command has a lock; or the connection is up and no reply to this command is to come. -/
def Sendable (self : CRedis F) (msg : Bytes) : Prop :=
  msg ∉ self.m_LockList → self.m_Client.m_Connected = true ∧ msg ∉ self.m_SendList

instance (self : CRedis F) (msg : Bytes) : Decidable (self.Sendable msg) :=
  inferInstanceAs (Decidable (msg ∉ self.m_LockList → self.m_Client.m_Connected = true ∧ msg ∉ self.m_SendList))

/-- The locks of a list are given up. -/
def givenUp (self : CRedis F) (list : List (Σ _ : Bytes, Lock F)) : CRedis F :=
  { self with
    m_LockList := list.foldl (fun locks e => locks.erase e.1) self.m_LockList
    timeOut := !(list.foldl (fun locks e => locks.erase e.1) self.m_LockList).keys.isEmpty && self.timeOut }

end CRedis

namespace Sys

variable {F : Type}

/-- What keeps replies and commands together: `%s` cuts no argument; a command that has no lock is sent while the
connection is up and no reply to the same command is to come; a connection comes up after all commands of the one before
were answered; and `Recv` raises no error, neither in the table of `HGETALL` nor where the callback of `SELECT`
registers functions. -/
def Clean (self : Sys F) : Turn F → Prop
  | .exec _ cmds _ ignore =>
    Args Whole cmds ∧ (ignore = true ∨ self.redis.m_Inited = true → self.redis.Sendable (message cmds))
  | .connected => self.history.wire.length ≤ self.answered
  | .dispatch _ _ =>
    (∀ es, self.events = .connect :: es → Whole self.redis.db ∧ self.redis.Sendable (message [SELECT, self.redis.db])) ∧
      ∀ id pak es, self.events = .recv id pak :: es → ∀ msg rest lock funcs, self.redis.m_SendList = msg :: rest →
        self.redis.m_LockList.lookup msg = some lock → lock.funcs = some funcs →
          (pak.ret = true → lock.cmd = some HGETALL → ∃ d, hgetall pak.data = .ok d) ∧
          (.select ∈ funcs → ∀ e ∈ self.redis.queued,
            (self.redis.removed msg rest).Sendable e.1 ∧ (self.redis.removed msg rest).Registrable e.1 e.2.2)
  | .timeOut _ list _ => (∃ e ∈ list, .select ∈ e.2.funcs.getD []) →
      ∀ e ∈ self.redis.queued, (self.redis.givenUp list).Sendable e.1
  | _ => True

end Sys

namespace CRedis

variable {F : Type}

/-- `m_SendList` holds the commands whose replies wait for their dispatch (`pre`) and those that the server has not
answered; each of them is the newest with its text, and the functions of its lock are the callbacks registered for
it. -/
structure Aligned (pre : List Nat) (answered : Nat) (s : CRedis F) (h : History F) : Prop where
  sendList : s.m_SendList = (pre ++ h.wire.drop answered).map h.msg
  nodup : s.m_SendList.Nodup
  answered_le : answered ≤ h.wire.length
  newest : ∀ id ∈ pre ++ h.wire.drop answered, h.newest (h.msg id) = some id
  funcs : ∀ id ∈ pre ++ h.wire.drop answered, h.funcs id = s.funcsOf (h.msg id)
  known : ∀ msg id, h.newest msg = some id → id < h.count ∧ h.msg id = msg

variable {pre : List Nat} {answered : Nat} {self : CRedis F} {h : History F}

/-- The invariant is about `m_SendList` and `m_LockList` only. -/
theorem Aligned.congr (ha : Aligned pre answered self h) {s : CRedis F} (hs : s.m_SendList = self.m_SendList)
    (hl : s.m_LockList = self.m_LockList) : Aligned pre answered s h where
  sendList := hs.trans ha.sendList
  nodup := by rw [hs]; exact ha.nodup
  answered_le := ha.answered_le
  newest := ha.newest
  funcs := fun id hid => by rw [ha.funcs id hid, funcsOf, funcsOf, hl]
  known := ha.known

/-! ## The locks -/

/-- The functions of one lock change as the callbacks of its command do. -/
theorem Aligned.onNewest (ha : Aligned pre answered self h) {s : CRedis F} (msg : Bytes)
    {g : List (Func F) → List (Func F)}
    (hs : s.m_SendList = self.m_SendList) (hother : ∀ m, msg ≠ m → s.funcsOf m = self.funcsOf m)
    (hmsg : s.funcsOf msg = g (self.funcsOf msg)) : Aligned pre answered s (h.onNewest msg g) := by
  obtain ⟨hwire, hm, hnew, hcount⟩ := History.onNewest_wire h msg g
  refine ⟨?_, by rw [hs]; exact ha.nodup, by rw [hwire]; exact ha.answered_le, ?_, ?_, ?_⟩
  · rw [hs, ha.sendList, hwire, hm]
  · rw [hwire, hm, hnew]
    exact ha.newest
  · rw [hwire, hm]
    intro id hid
    have hid' := ha.newest id hid
    cases hn : h.newest msg with
    | none =>
      have hne : msg ≠ h.msg id := fun he => by rw [he, hid'] at hn; cases hn
      rw [hother _ hne, ← ha.funcs id hid, History.onNewest, hn]
    | some i =>
      simp only [History.onNewest, hn]
      by_cases he : msg = h.msg id
      · -- the command is the newest with its text
        obtain rfl : i = id := by rw [he, hid'] at hn; exact (Option.some.inj hn).symm
        rw [Function.update_self, ha.funcs _ hid, ← he, hmsg]
      · have hne : id ≠ i := fun hi => he (by rw [hi]; exact ((ha.known _ _ hn).2).symm)
        rw [Function.update_of_ne hne, ha.funcs id hid, hother _ he]
  · rw [hm, hnew, hcount]
    exact ha.known

/-- A new lock, whose command is written. -/
theorem Aligned.locked (ha : Aligned pre answered self h) {s : CRedis F} {msg : Bytes} {func : Option (Func F)}
    (data : Bytes) (hno : msg ∉ self.m_SendList) (hs : s.m_SendList = self.m_SendList ++ [msg])
    (hother : ∀ m, msg ≠ m → s.funcsOf m = self.funcsOf m) (hmsg : s.funcsOf msg = func.toList) :
    Aligned pre answered s ((h.note (.locked msg func)).note (.client (.write data))) := by
  have hlt : ∀ id ∈ pre ++ h.wire.drop answered, id < h.count := fun id hid => (ha.known _ _ (ha.newest id hid)).1
  have hdrop : pre ++ (h.wire ++ [h.count + 1 - 1]).drop answered = (pre ++ h.wire.drop answered) ++ [h.count] := by
    rw [List.drop_append_of_le_length ha.answered_le, List.append_assoc, Nat.add_sub_cancel]
  have hmem : ∀ id ∈ (pre ++ h.wire.drop answered) ++ [h.count], id ∈ pre ++ h.wire.drop answered ∨ id = h.count :=
    fun id hid => (List.mem_append.1 hid).imp_right List.mem_singleton.1
  -- what is recorded for the commands before
  have hold : ∀ id ∈ pre ++ h.wire.drop answered, Function.update h.msg h.count msg id = h.msg id ∧ msg ≠ h.msg id := by
    intro id hid
    have hmem : h.msg id ∈ self.m_SendList := by rw [ha.sendList]; exact List.mem_map.2 ⟨id, hid, rfl⟩
    exact ⟨Function.update_of_ne (hlt id hid).ne _ _, fun he => hno (he ▸ hmem)⟩
  refine ⟨?_, ?_, ?_, ?_, ?_, ?_⟩
  · simp only [History.note, hdrop, hs, List.map_append, List.map_cons, List.map_nil, Function.update_self]
    rw [ha.sendList, List.map_congr_left fun id hid => ((hold id hid).1).symm, List.map_append]
  · rw [hs, List.nodup_append]
    exact ⟨ha.nodup, List.nodup_singleton _, fun a hm b hb he => hno (List.mem_singleton.1 hb ▸ he ▸ hm)⟩
  · simp only [History.note, List.length_append]
    exact Nat.le_add_right_of_le ha.answered_le
  · simp only [History.note, hdrop]
    intro id hid
    rcases hmem id hid with hid | rfl
    · rw [(hold id hid).1, Function.update_of_ne (Ne.symm (hold id hid).2)]
      exact ha.newest id hid
    · rw [Function.update_self, Function.update_self]
  · simp only [History.note, hdrop]
    intro id hid
    rcases hmem id hid with hid | rfl
    · rw [(hold id hid).1, Function.update_of_ne (hlt id hid).ne, hother _ (hold id hid).2]
      exact ha.funcs id hid
    · rw [Function.update_self, Function.update_self, hmsg]
  · simp only [History.note]
    intro m id hn
    by_cases hm : m = msg
    · subst hm
      rw [Function.update_self] at hn
      cases hn
      exact ⟨Nat.lt_succ_self _, Function.update_self _ _ _⟩
    · rw [Function.update_of_ne hm] at hn
      obtain ⟨hid, he⟩ := ha.known m id hn
      exact ⟨Nat.lt_succ_of_lt hid, by rw [Function.update_of_ne hid.ne, he]⟩

/-! ## `Send` -/

/-- A command is still sendable after another was sent. -/
theorem Sendable.send {now : Int} {cmd : Option Bytes} {msg : Bytes} {func : Option (Func F)} {m : Bytes}
    (hm : self.Sendable m) : (self.Send now cmd msg func).state.Sendable m := by
  rcases Send_cases now cmd msg func self with
    ⟨lock, hl, ⟨heq, -⟩ | ⟨heq, -⟩ | ⟨f, funcs, -, -, heq⟩⟩ | ⟨hl, heq⟩
  · rw [heq]; exact hm
  · rw [heq]; exact hm
  · rw [heq]
    exact fun hno => hm fun hin => hno (AList.mem_insert _ |>.2 (Or.inr hin))
  · rw [heq]
    intro hno
    rw [AList.mem_insert, not_or] at hno
    obtain ⟨hconn, hs⟩ := hm hno.2
    exact ⟨hconn, by simpa [hno.1] using hs⟩

/-- **`Send`** keeps the commands aligned when the command is sendable. -/
theorem Send_keeps (ha : Aligned pre answered self h) (now : Int) (cmd : Option Bytes) {msg : Bytes}
    (func : Option (Func F)) (hs : self.Sendable msg) :
    Keeps History.note (Aligned pre answered) (self.Send now cmd msg func) h := by
  rcases Send_cases now cmd msg func self with
    ⟨lock, hl, ⟨heq, -⟩ | ⟨heq, -⟩ | ⟨f, funcs, -, hf, heq⟩⟩ | ⟨hl, heq⟩
  · rw [heq]; exact ha
  · rw [heq]; exact ha
  · -- a function is added to the lock
    rw [heq]
    refine Aligned.onNewest (g := (· ++ [f])) ha msg ?_ (fun m hm => ?_) ?_
    · rfl
    · rw [funcsOf, AList.lookup_insert_ne (Ne.symm hm), funcsOf]
    · simp [funcsOf, hl, hf]
  · -- a lock is made, and the command is written
    obtain ⟨hconn, hno⟩ := hs (AList.lookup_eq_none.1 hl)
    rw [heq, CTcpClient.Send, if_pos hconn]
    refine ha.locked msg hno rfl (fun m hm => ?_) ?_
    · rw [funcsOf, AList.lookup_insert_ne (Ne.symm hm), funcsOf]
    · cases func <;> simp [funcsOf]

/-! ## The callbacks -/

section Callbacks

variable {P : Prop} {now : Int} {entries : List (Σ _ : Bytes, InitCmd F)}

/-- The commands are aligned, and if `P` then the entries can be sent. -/
def AlignedFor (pre : List Nat) (answered : Nat) (P : Prop) (entries : List (Σ _ : Bytes, InitCmd F)) (s : CRedis F)
    (h : History F) : Prop := Aligned pre answered s h ∧ (P → ∀ e ∈ entries, s.Sendable e.1)

/-- The callback of `SELECT` sends the entries. -/
theorem selected_keeps (ha : AlignedFor pre answered P entries self h) (hP : P) :
    Keeps History.note (AlignedFor pre answered P entries) (self.selected now entries) h := by
  obtain ⟨s, hs⟩ : ∃ s : CRedis F, s = { self with m_Inited := true } := ⟨_, rfl⟩
  have has : AlignedFor pre answered P entries s h := by
    rw [hs]; exact ⟨ha.1.congr rfl rfl, ha.2⟩
  rcases Option.eq_none_or_eq_some self.m_InitFuncs with ht | ⟨t, ht⟩
  · have hsel : self.selected now entries = ⟨s, [.onInited], none⟩ := by simp [selected, ht, hs]
    rw [hsel]
    exact has
  · have hsel : self.selected now entries = (Done.each (hand now) entries s).andThen fun self =>
        ⟨{ self with m_InitFuncs := none }, [.onInited], none⟩ := by simp [selected, ht, hs]
    rw [hsel]
    refine (keeps_each has fun e he s h ha => ?_).andThen fun ha => ⟨ha.1.congr rfl rfl, ha.2⟩
    exact ⟨Send_keeps ha.1 now e.2.1 e.2.2 (ha.2 hP e he), fun hP x hx => (ha.2 hP x hx).send⟩

/-- The callbacks of a command. -/
theorem callFunc_keeps (ha : AlignedFor pre answered P entries self h) (args : Option (Bool × CallData)) {func : Func F}
    (hP : func = .select → P) :
    Keeps History.note (AlignedFor pre answered P entries) (self.callFunc now entries args func) h := by
  have hcall : Keeps History.note (AlignedFor pre answered P entries)
    ⟨self, [.call func args], (none : Option LuaError)⟩ h := ha
  refine hcall.andThen fun ha => ?_
  cases func with
  | user f => exact ha
  | select => exact selected_keeps ha (hP rfl)

/-- The callback of `SELECT` calls no function. -/
theorem selected_called (self : CRedis F) : (self.selected now entries).out.filterMap RedisEffect.called = [] := by
  have hhand : ∀ e (s : CRedis F), ∀ x ∈ (hand now e s).out, x.called = none := by
    refine fun e s => Done.forall_andThen (by simp [RedisEffect.called]) fun x hx => ?_
    rcases Send_out _ _ _ _ _ x hx with ⟨_, _, rfl⟩ | ⟨_, _, rfl⟩ | ⟨_, rfl⟩ <;> rfl
  refine List.filterMap_eq_nil_iff.2 ?_
  rw [selected]
  split
  · simp [RedisEffect.called]
  · exact Done.forall_andThen (Done.forall_each hhand) (by simp [RedisEffect.called])

/-- The call of a function. -/
theorem callFunc_called (args : Option (Bool × CallData)) (func : Func F) (self : CRedis F) :
    (self.callFunc now entries args func).out.filterMap RedisEffect.called = [func] := by
  cases func with
  | user f => rfl
  | select =>
    have hout : (self.callFunc now entries args .select).out = .call .select args :: (self.selected now entries).out :=
      rfl
    rw [hout]
    exact congrArg (Func.select :: ·) (selected_called self)

/-- Unless an error is raised, the functions are called one after another. -/
theorem each_callFunc_called (args : Option (Bool × CallData)) : ∀ {funcs : List (Func F)} {self : CRedis F},
    (Done.each (callFunc now entries args) funcs self).err = none →
    (Done.each (callFunc now entries args) funcs self).out.filterMap RedisEffect.called = funcs
  | [], _, _ => rfl
  | func :: funcs, self, herr => by
    obtain ⟨h₁, h₂⟩ := Done.andThen_err_none.1 herr
    rw [Done.each, Done.andThen_of_ok h₁, List.filterMap_append, callFunc_called, each_callFunc_called args h₂]
    rfl

/-- No error is raised when the locks take the functions of the entries. -/
theorem each_callFunc_err (now : Int) (hnd : entries.NodupKeys) (args : Option (Bool × CallData)) :
    ∀ {funcs : List (Func F)}
    {self : CRedis F}, (.select ∈ funcs → self.m_InitFuncs = none ∨ ∀ e ∈ entries, self.Registrable e.1 e.2.2) →
    (Done.each (callFunc now entries args) funcs self).err = none
  | [], _, _ => rfl
  | .user f :: funcs, self, hreg => by
    have ih := each_callFunc_err now hnd args fun (hs : .select ∈ funcs) => hreg (by simp [hs])
    exact Done.andThen_err_none.2 ⟨rfl, ih⟩
  | .select :: funcs, self, hreg => by
    -- the table is empty afterwards, so that another call does nothing
    have hsel : (self.selected now entries).err = none ∧ (self.selected now entries).state.m_InitFuncs = none := by
      rcases Option.eq_none_or_eq_some self.m_InitFuncs with ht | ⟨t, ht⟩
      · simp [selected, ht]
      · have hreg' : ∀ e ∈ entries, Registrable { self with m_Inited := true } e.1 e.2.2 :=
          (hreg (by simp)).resolve_left (by simp [ht])
        obtain ⟨herr, -⟩ := flush_of_registrable now entries hnd hreg'
        have heq : self.selected now entries = (Done.each (hand now) entries { self with m_Inited := true }).andThen
            fun self => ⟨{ self with m_InitFuncs := none }, [.onInited], none⟩ := by simp [selected, ht]
        rw [heq, Done.andThen_of_ok herr]
        exact ⟨rfl, rfl⟩
    exact Done.andThen_err_none.2 ⟨hsel.1, each_callFunc_err now hnd args fun _ => Or.inl hsel.2⟩

end Callbacks

/-! ## The operations -/

theorem Exec_keeps (ha : Aligned pre answered self h) (now : Int) (cmds : List Bytes) (func : Option (Func F))
    {ignore : Bool} (hs : ignore = true ∨ self.m_Inited = true → self.Sendable (message cmds)) :
    Keeps History.note (Aligned pre answered) (self.Exec now cmds func ignore) h := by
  by_cases hx : ignore = true ∨ self.m_Inited = true
  · rw [Exec_sends hx]
    exact Send_keeps ha now _ func (hs hx)
  · rw [not_or, Bool.not_eq_true, Bool.not_eq_true] at hx
    simp only [Exec, hx.1, hx.2]
    exact ha.congr rfl rfl

/-- The first command is answered. -/
theorem Aligned.tail {id : Nat} (ha : Aligned (id :: pre) answered self h) {msg : Bytes} {rest : List Bytes}
    (hs : self.m_SendList = msg :: rest) {s : CRedis F} (hrest : s.m_SendList = rest)
    (hother : ∀ m, msg ≠ m → s.funcsOf m = self.funcsOf m) : h.msg id = msg ∧ Aligned pre answered s h := by
  have hlist := ha.sendList
  have hnd := ha.nodup
  rw [hs, List.cons_append, List.map_cons] at hlist
  rw [hs, List.nodup_cons] at hnd
  obtain ⟨hid, htail⟩ := List.cons.inj hlist
  refine ⟨hid.symm,
    by rw [hrest, htail], by rw [hrest]; exact hnd.2, ha.answered_le, fun i hi => ha.newest i (by simp_all),
    fun i hi => ?_, ha.known⟩
  have hne : msg ≠ h.msg i := fun he => hnd.1 (by rw [htail, he]; exact List.mem_map.2 ⟨i, hi, rfl⟩)
  rw [hother _ hne]
  exact ha.funcs i (by simp_all)

theorem removed_funcsOf (self : CRedis F) (msg : Bytes) (rest : List Bytes) (m : Bytes) (hm : msg ≠ m) :
    (self.removed msg rest).funcsOf m = self.funcsOf m := by
  have hlookup : (self.removed msg rest).m_LockList.lookup m = self.m_LockList.lookup m :=
    AList.lookup_erase_ne (Ne.symm hm)
  rw [funcsOf, hlookup, funcsOf]

/-- **`Recv`** takes the first command, and keeps the others aligned. -/
theorem Recv_keeps {id : Nat} (ha : Aligned (id :: pre) answered self h) (now : Int)
    (entries : List (Σ _ : Bytes, InitCmd F)) (ret : Bool) (data : RData)
    (hs : ∀ msg rest lock funcs, self.m_SendList = msg :: rest → self.m_LockList.lookup msg = some lock →
      lock.funcs = some funcs → .select ∈ funcs → ∀ e ∈ entries, (self.removed msg rest).Sendable e.1) :
    Keeps History.note (Aligned pre answered) (self.Recv now entries ret data) h := by
  rcases Recv_cases now entries ret data self with
    ⟨hnil, -⟩ | ⟨msg, rest, hsl, ⟨-, heq⟩ | ⟨lock, funcs, hl, hf, ⟨e, -, -, -, heq⟩ | ⟨d, heq⟩⟩⟩
  · have := ha.sendList
    rw [hnil] at this
    cases this
  · rw [heq]
    exact (ha.tail hsl (s := { self with m_SendList := rest }) rfl fun _ _ => rfl).2
  · rw [heq]
    exact (ha.tail hsl rfl (removed_funcsOf self msg rest)).2
  · rw [heq]
    have hremoved : AlignedFor pre answered (.select ∈ funcs) entries (self.removed msg rest) h :=
      ⟨(ha.tail hsl rfl (removed_funcsOf self msg rest)).2, hs msg rest lock funcs hsl hl hf⟩
    exact (keeps_each hremoved fun func hfunc s h ha => callFunc_keeps ha _ fun he => he ▸ hfunc).1

/-- The callbacks that `Recv` calls are those of the first command. -/
theorem Recv_called {id : Nat} (ha : Aligned (id :: pre) answered self h) (now : Int)
    {entries : List (Σ _ : Bytes, InitCmd F)} (hnd : entries.NodupKeys) (ret : Bool) (data : RData)
    (hclean : ∀ msg rest lock funcs, self.m_SendList = msg :: rest → self.m_LockList.lookup msg = some lock →
      lock.funcs = some funcs → (ret = true → lock.cmd = some HGETALL → ∃ d, hgetall data = .ok d) ∧
        (.select ∈ funcs → ∀ e ∈ entries, (self.removed msg rest).Registrable e.1 e.2.2)) :
    (self.Recv now entries ret data).out.filterMap RedisEffect.called = h.funcs id := by
  rw [ha.funcs id (by simp)]
  rcases Recv_cases now entries ret data self with
    ⟨hnil, -⟩ | ⟨msg, rest, hsl, ⟨hno, heq⟩ | ⟨lock, funcs, hl, hf, ⟨e, hret, hcmd, he, -⟩ | ⟨d, heq⟩⟩⟩
  · have := ha.sendList
    rw [hnil] at this
    cases this
  · -- no function is registered
    obtain ⟨hid, -⟩ := ha.tail hsl (s := { self with m_SendList := rest }) rfl fun _ _ => rfl
    rw [heq, hid, funcsOf]
    cases hl : self.m_LockList.lookup msg with
    | none => rfl
    | some lock => simp [hno lock hl, Done.skip]
  · obtain ⟨d, hd⟩ := (hclean msg rest lock funcs hsl hl hf).1 hret hcmd
    rw [hd] at he
    cases he
  · obtain ⟨hid, -⟩ := ha.tail hsl rfl (removed_funcsOf self msg rest)
    have herr := each_callFunc_err now hnd (some (ret, d)) fun hsel =>
      Or.inr ((hclean msg rest lock funcs hsl hl hf).2 hsel)
    rw [heq, each_callFunc_called _ herr, hid, funcsOf, hl]
    simp [hf]

/-- Locks that are given up. -/
theorem Aligned.givenUp : ∀ {list : List (Σ _ : Bytes, Lock F)} {self : CRedis F} {h : History F},
    Aligned pre answered self h → ∀ {s : CRedis F}, s.m_SendList = self.m_SendList →
    s.m_LockList = list.foldl (fun locks e => locks.erase e.1) self.m_LockList →
    Aligned pre answered s ((list.map fun e => RedisEffect.expired e.1).foldl History.note h)
  | [], _, _, ha, _, hs, hl => ha.congr hs hl
  | e :: es, self, h, ha, s, hs, hl => by
    have hstep : Aligned pre answered { self with m_LockList := self.m_LockList.erase e.1 }
      (h.note (.expired e.1)) := by
      refine Aligned.onNewest (g := fun _ => []) ha e.1 ?_ (fun m hm => ?_) ?_
      · rfl
      · rw [funcsOf, AList.lookup_erase_ne (Ne.symm hm), funcsOf]
      · rw [funcsOf, AList.lookup_erase]; rfl
    exact hstep.givenUp hs hl

/-- **`TimeOut`** gives up locks, and calls their functions. -/
theorem TimeOut_keeps (ha : Aligned pre answered self h) (now : Int) (list : List (Σ _ : Bytes, Lock F))
    (entries : List (Σ _ : Bytes, InitCmd F))
    (hs : (∃ e ∈ list, .select ∈ e.2.funcs.getD []) → ∀ e ∈ entries, (self.givenUp list).Sendable e.1) :
    Keeps History.note (Aligned pre answered) (self.TimeOut now list entries) h := by
  have hgiven : Keeps History.note (AlignedFor pre answered (∃ e ∈ list, .select ∈ e.2.funcs.getD []) entries)
      ⟨self.givenUp list, list.map fun e => RedisEffect.expired e.1, (none : Option LuaError)⟩ h :=
    ⟨ha.givenUp rfl rfl, hs⟩
  refine (hgiven.andThen fun ha => keeps_each ha fun e he s h ha => keeps_each ha fun func hfunc s h ha => ?_).1
  exact callFunc_keeps ha none fun heq => ⟨e, he, heq ▸ hfunc⟩

end CRedis

/-! ## Runs -/

namespace Sys

variable {F : Type}

/-- The commands of the replies that wait for their dispatch, and of those to come, are aligned. -/
def Aligned (self : Sys F) : Prop :=
  CRedis.Aligned (self.events.filterMap Event.answers) self.answered self.redis self.history

theorem start_aligned (db : Bytes) : (start db : Sys F).Aligned where
  sendList := rfl
  nodup := List.nodup_nil
  answered_le := Nat.le_refl _
  newest := fun _ h => absurd h List.not_mem_nil
  funcs := fun _ h => absurd h List.not_mem_nil
  known := fun _ _ h => by cases h

/-- What the client does to its history. -/
theorem aligned_does (self : Sys F) {r : Did F}
    (h : Keeps History.note (CRedis.Aligned (self.events.filterMap Event.answers) self.answered) r self.history) :
    (self.does r).Aligned := h

/-- A reply is posted. -/
theorem aligned_reply {self : Sys F} (h : self.Aligned) {id : Nat} (pak : Pak)
    (hid : self.history.wire[self.answered]? = some id) :
    Aligned { self with events := self.events ++ [.recv id pak], answered := self.answered + 1 } := by
  have hlt : self.answered < self.history.wire.length := (List.getElem?_eq_some_iff.1 hid).1
  have hpending : (self.events ++ [Event.recv id pak]).filterMap Event.answers ++
      self.history.wire.drop (self.answered + 1) =
      self.events.filterMap Event.answers ++ self.history.wire.drop self.answered := by
    rw [List.drop_eq_getElem_cons hlt, (List.getElem?_eq_some_iff.1 hid).2]
    simp [Event.answers]
  exact ⟨by
    rw [hpending]; exact h.sendList, h.nodup, hlt, by rw [hpending]; exact h.newest, by rw [hpending]; exact h.funcs,
    h.known⟩

/-- An event that is no reply is posted, and the connection changes. -/
theorem aligned_post {self : Sys F} (h : self.Aligned) (client : CTcpClient Left Pak) (es : List Event)
    (hes : es.filterMap Event.answers = []) :
    Aligned { self with redis := { self.redis with m_Client := client }, events := self.events ++ es } := by
  have hevents : (self.events ++ es).filterMap Event.answers = self.events.filterMap Event.answers := by simp [hes]
  have hred := CRedis.Aligned.congr h (s := { self.redis with m_Client := client }) rfl rfl
  rw [← hevents] at hred
  exact hred

/-- **One turn** keeps the commands aligned. -/
theorem turn_aligned {self : Sys F} {t : Turn F} (h : self.Aligned) (hl : self.Lists t) (hc : self.Clean t) :
    (self.turn t).Aligned := by
  cases t with
  | exec now cmds func ignore => exact aligned_does (self.calls cmds) (CRedis.Exec_keeps h now cmds _ hc.2)
  | reply pak =>
    rw [turn]
    split
    · split
      · rename_i id hid
        exact aligned_reply h pak hid
      · exact h
    · exact h
  | lost error => cases error <;> exact aligned_post h _ _ rfl
  | restart =>
    have := aligned_post h self.redis.m_Client.ReStart.1 [] rfl
    simpa [turn] using this
  | connected =>
    rw [turn]
    split
    · exact h
    · -- every command of the connection before was answered
      have hpost := aligned_post h self.redis.m_Client.Connected.1 [.connect] rfl
      have hdrop : self.history.wire.drop self.answered = [] := List.drop_eq_nil_of_le hc
      simp only [Aligned] at hpost ⊢
      exact ⟨by simpa [hdrop] using hpost.sendList, hpost.nodup, Nat.zero_le _, by simpa [hdrop] using hpost.newest,
        by simpa [hdrop] using hpost.funcs, hpost.known⟩
  | dispatch now entries =>
    rw [turn]
    split
    · exact h
    · rename_i e es hev
      rw [Aligned, hev] at h
      cases e with
      | connect => exact aligned_does _ (CRedis.Exec_keeps h now _ _ fun _ => (hc.1 es hev).2)
      | recv id pak =>
        refine aligned_does _ (CRedis.Recv_keeps h now entries pak.ret pak.data ?_)
        intro msg rest lock funcs hs hlock hf hsel e he
        exact ((hc.2 id pak es hev msg rest lock funcs hs hlock hf).2 hsel e (hl.mem_iff.1 he)).1
      | close => exact aligned_does _ (r := CRedis.onClose self.redis) (h.congr rfl rfl)
      | error =>
        refine aligned_does _ (r := CRedis.onError self.redis) ?_
        rw [CRedis.onError]
        split <;> exact h.congr rfl rfl
  | timeOut now list entries =>
    exact aligned_does _ (CRedis.TimeOut_keeps h now list entries fun hsel e he => hc hsel e (hl.2.mem_iff.1 he))

/-- No argument of the commands called so far is cut. -/
def Uncut (self : Sys F) : Prop := ∀ cmds ∈ self.commands, Args Whole cmds

/-- **One turn** calls `Exec` with a command that is not cut. -/
theorem turn_uncut {self : Sys F} {t : Turn F} (h : self.Uncut) (hc : self.Clean t) : (self.turn t).Uncut := by
  have hcalls : ∀ {cmds}, Args Whole cmds → (self.calls cmds).Uncut := fun hw => List.forall_mem_cons.2 ⟨hw, h⟩
  cases t with
  | exec now cmds func ignore => exact hcalls hc.1
  | reply pak =>
    rw [turn]
    split
    · split <;> exact h
    · exact h
  | lost error => cases error <;> exact h
  | restart => exact h
  | connected =>
    rw [turn]
    split <;> exact h
  | dispatch now entries =>
    rw [turn]
    split
    · exact h
    · rename_i e es hev
      cases e with
      | connect =>
        have hselect : Whole SELECT := Whole.of_not_mem (by decide)
        exact hcalls (List.forall_mem_cons.2 ⟨hselect, List.forall_mem_singleton.2 (hc.1 es hev).1⟩)
      | recv id pak => exact h
      | close => exact h
      | error => exact h
  | timeOut now list entries => exact h

/-- **One reply** calls the callbacks of its command. -/
theorem turn_paired {self : Sys F} {t : Turn F} (h : self.Aligned) (hu : self.Uncut) (hl : self.Lists t)
    (hc : self.Clean t) :
    self.Paired t := by
  cases t with
  | dispatch now entries =>
    intro id pak es hev
    rw [Aligned, hev] at h
    have hnd : entries.NodupKeys := by
      refine (List.perm_nodupKeys hl).2 ?_
      rw [CRedis.queued]
      cases self.redis.m_InitFuncs with
      | none => exact List.nodupKeys_nil
      | some t => exact t.nodupKeys
    have htight : ∀ cmds ∈ self.commands, Args Tight cmds := fun cmds hm k hk => tight_of_whole (hu cmds hm k hk)
    refine ⟨CRedis.Recv_called h now hnd pak.ret pak.data ?_, fun a ha b hb hma hmb =>
      message_injective (htight a ha) (htight b hb) (hma.trans hmb.symm)⟩
    intro msg rest lock funcs hs hlock hf
    obtain ⟨hget, hflush⟩ := hc.2 id pak es hev msg rest lock funcs hs hlock hf
    exact ⟨hget, fun hsel e he => (hflush hsel e (hl.mem_iff.1 he)).2⟩
  | _ => trivial

/-- **Replies are paired**: in a run of clean turns, the dispatch of each reply calls exactly the callbacks that are
registered for the command it answers, and this is one command. -/
theorem replies_paired (db : Bytes) {turns : List (Turn F)} (hl : Along turn Lists (start db) turns)
    (hc : Along turn Clean (start db) turns) : Along turn Paired (start db) turns :=
  have hstart : (start db : Sys F).Aligned ∧ (start db : Sys F).Uncut :=
    ⟨start_aligned db, fun _ h => absurd h List.not_mem_nil⟩
  (hl.and hc).along (I := fun s => s.Aligned ∧ s.Uncut)
    (fun _ _ h ha => ⟨turn_aligned h.1 ha.1 ha.2, turn_uncut h.2 ha.2⟩)
    (fun _ _ h ha => turn_paired h.1 h.2 ha.1 ha.2) hstart

/-- A dispatch is clean when nothing is queued, and no `HGETALL` in flight. -/
theorem clean_dispatch {self : Sys F} {now : Int} {entries : List (Σ _ : Bytes, InitCmd F)}
    (hs : self.events.head? = some .connect → Whole self.redis.db ∧
      self.redis.Sendable (message [SELECT, self.redis.db]))
    (hq : self.redis.queued = []) (hget : ∀ e ∈ self.redis.m_LockList.entries, e.2.cmd ≠ some HGETALL) :
    self.Clean (.dispatch now entries) := by
  refine ⟨fun es hev => hs (by rw [hev]; rfl), ?_⟩
  intro id pak es _ msg rest lock funcs _ hl _
  have hmem := AList.mem_lookup_iff.1 hl
  exact ⟨fun _ hcmd => absurd hcmd (hget _ hmem), fun _ e he => by rw [hq] at he; exact absurd he List.not_mem_nil⟩

/-- A connection is made, `GET k` sent and answered, the connection lost and made again. -/
def reconnect : List (Turn Nat) :=
  [.connected, .dispatch 0 [], .reply ⟨true, .str [79, 75]⟩, .dispatch 1 [],
    .exec 2 [[71, 69, 84], [107]] (some 0) false, .reply ⟨true, .str [118]⟩, .dispatch 3 [],
    .lost true, .dispatch 4 [], .connected, .dispatch 5 [], .reply ⟨true, .str [79, 75]⟩, .dispatch 6 []]

/-- The same, but the connection is lost before `GET k` is answered. -/
def reconnectEarly : List (Turn Nat) :=
  [.connected, .dispatch 0 [], .reply ⟨true, .str [79, 75]⟩, .dispatch 1 [],
    .exec 2 [[71, 69, 84], [107]] (some 0) false,
    .lost true, .dispatch 4 [], .connected, .dispatch 5 [], .reply ⟨true, .str [79, 75]⟩, .dispatch 6 []]

theorem replies_paired_reconnect : Along turn Paired (start [49]) reconnect := by
  refine replies_paired [49] ?_ ?_
  · exact ⟨trivial, List.Perm.refl _, trivial, List.Perm.refl _, trivial, trivial, List.Perm.refl _, trivial,
      List.Perm.refl _, trivial, List.Perm.refl _, trivial, List.Perm.refl _, trivial⟩
  · exact ⟨Nat.le_of_ble_eq_true rfl, clean_dispatch (by decide) rfl (by decide), trivial,
      clean_dispatch (by decide) rfl (by decide), ⟨by decide, fun _ => by decide⟩, trivial,
      clean_dispatch (by decide) rfl (by decide), trivial, clean_dispatch (by decide) rfl (by decide),
      Nat.le_of_ble_eq_true rfl, clean_dispatch (by decide) rfl (by decide), trivial,
      clean_dispatch (by decide) rfl (by decide), trivial⟩

/-- The reply to `SELECT` on the new connection goes to the callback of `GET k`. -/
theorem replies_unpaired_reconnect : Along turn Lists (start [49]) reconnectEarly ∧
    ¬Along turn Paired (start [49]) reconnectEarly := by
  constructor
  · exact ⟨trivial, List.Perm.refl _, trivial, List.Perm.refl _, trivial, trivial, List.Perm.refl _, trivial,
      List.Perm.refl _, trivial, List.Perm.refl _, trivial⟩
  · rintro ⟨-, -, -, -, -, -, -, -, -, -, h, -⟩
    have hcalled := (h 2 ⟨true, .str [79, 75]⟩ [] rfl).1
    revert hcalled
    decide

end Sys

end XCore.Redis
