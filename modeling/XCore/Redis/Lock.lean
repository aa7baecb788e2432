import XCore.Lib.Run
import XCore.Redis.Client

/-!
# The command locks of `CRedis`

On an initialised connection with no timeout, a command has a lock from its `Send` to its reply. `Recv` returns before
it removes the lock when no callback was given, and then the command is never written again. So the locks are those of
the outstanding commands, throughout a run, exactly if every reply answers a command that has a callback.

- `Held.exec_cases`, `Held.reply_cases`: one step;
- `locks_outstanding_iff`: runs.
-/

namespace XCore.Redis

open XCore.Lua XCore.Tcp XCore.Effect XCore.Run

/-- The steps of a client on an initialised connection. -/
inductive Act (F : Type)
  | exec (now : Int) (cmds : List Bytes) (func : Option F) (ignore : Bool)
  | reply (now : Int) (entries : List (Σ _ : Bytes, InitCmd F)) (ret : Bool) (data : RData)

namespace CRedis

variable {F : Type}

/-- What a step does. -/
def act (self : CRedis F) : Act F → Did F
  | .exec now cmds func ignore => self.Exec now cmds (func.map .user) ignore
  | .reply now entries ret data => self.Recv now entries ret data

/-- The state after a step; an error goes to the caller. -/
def step (self : CRedis F) (a : Act F) : CRedis F := (self.act a).state

/-- The connection is up and initialised, and nothing waits for it. -/
structure Ready (s : CRedis F) : Prop where
  connected : s.m_Client.m_Connected = true
  inited : s.m_Inited = true
  noInit : s.m_InitFuncs = none

/-- Every outstanding command has a lock, and is outstanding once. -/
structure Held (s : CRedis F) : Prop extends Ready s where
  nodup : s.m_SendList.Nodup
  held : ∀ msg ∈ s.m_SendList, msg ∈ s.m_LockList

/-- The commands with a lock are the outstanding ones. -/
structure Locked (s : CRedis F) : Prop extends Held s where
  outstanding : ∀ msg ∈ s.m_LockList, msg ∈ s.m_SendList

/-- Every key of `m_LockList` is in `m_SendList`, and a command that is not outstanding is written by `Exec`, which
raises no error. -/
def LocksOutstanding (self : CRedis F) : Prop :=
  (∀ msg ∈ self.m_LockList, msg ∈ self.m_SendList) ∧
    ∀ now cmds (func : Option F) ignore, message cmds ∉ self.m_SendList →
      (self.Exec now cmds (func.map .user) ignore).err = none ∧
        .client (.write (message cmds)) ∈ (self.Exec now cmds (func.map .user) ignore).out

/-- A reply answers a command that has a callback. -/
def AnswersCallback (self : CRedis F) : Act F → Prop
  | .exec .. => True
  | .reply .. => ∀ msg rest, self.m_SendList = msg :: rest → ∀ lock, self.m_LockList.lookup msg = some lock →
      lock.funcs ≠ none

/-! ## One step -/

/-- The callbacks of an initialised connection change nothing and write nothing. -/
theorem Ready.each_callFunc {self : CRedis F} (h : self.Ready) (now : Int) (entries : List (Σ _ : Bytes, InitCmd F))
    (args : Option (Bool × CallData)) (funcs : List (Func F)) :
    (Done.each (callFunc now entries args) funcs self).state = self ∧
      (Done.each (callFunc now entries args) funcs self).out.filterMap RedisEffect.written = [] := by
  have hfold : ∀ (out : List (RedisEffect F)) (m : List Bytes),
      out.foldl (fun m e => m ++ e.written.toList) m = m ++ out.filterMap RedisEffect.written := by
    intro out
    induction out with
    | nil => simp
    | cons e out ih => intro m; cases he : e.written <;> simp [ih, he]
  have key : Keeps (fun m e => m ++ e.written.toList) (fun s m => s = self ∧ m = [])
      (Done.each (callFunc now entries args) funcs self) [] := by
    refine keeps_each ⟨rfl, rfl⟩ ?_
    rintro func - s _ ⟨rfl, rfl⟩
    cases func with
    | user f => exact ⟨rfl, rfl⟩
    | select =>
      have hi := h.inited
      have hn := h.noInit
      simp only [Keeps, callFunc, Done.andThen, selected, hn]
      cases s
      simp_all [RedisEffect.written]
  rw [Keeps, hfold, List.nil_append] at key
  exact key

theorem mem_of_lookup {locks : AList fun _ : Bytes => Lock F} {msg : Bytes} {lock : Lock F}
    (h : locks.lookup msg = some lock) : msg ∈ locks := AList.lookup_isSome.1 (by rw [h]; rfl)

/-- **`Exec`** writes a command that has no lock, and then the command is outstanding with a lock; otherwise it writes
nothing and neither the outstanding commands nor the commands with a lock change. -/
theorem Held.exec_cases {self : CRedis F} (h : self.Held) (now : Int) (cmds : List Bytes) (func : Option (Func F))
    (ignore : Bool) :
    ((message cmds ∈ self.m_LockList ∧ (∀ msg, msg ∈ (self.Exec now cmds func ignore).state.m_LockList ↔
        msg ∈ self.m_LockList) ∧ (self.Exec now cmds func ignore).state.m_SendList = self.m_SendList ∧
        (self.Exec now cmds func ignore).out.filterMap RedisEffect.written = []) ∨
      (message cmds ∉ self.m_LockList ∧ (∀ msg, msg ∈ (self.Exec now cmds func ignore).state.m_LockList ↔
        msg = message cmds ∨ msg ∈ self.m_LockList) ∧
        (self.Exec now cmds func ignore).state.m_SendList = self.m_SendList ++ [message cmds] ∧
        (self.Exec now cmds func ignore).err = none ∧
        (self.Exec now cmds func ignore).out = [.locked (message cmds) func, .client (.write (message cmds))])) ∧
      (self.Exec now cmds func ignore).state.Ready := by
  rw [Exec_sends (Or.inr h.inited)]
  rcases Send_cases now cmds.head? (message cmds) func self with
    ⟨lock, hl, ⟨heq, -⟩ | ⟨heq, -⟩ | ⟨f, funcs, -, -, heq⟩⟩ | ⟨hl, heq⟩
  · rw [heq]
    exact ⟨Or.inl ⟨mem_of_lookup hl, fun _ => Iff.rfl, rfl, rfl⟩, h.toReady⟩
  · rw [heq]
    exact ⟨Or.inl ⟨mem_of_lookup hl, fun _ => Iff.rfl, rfl, rfl⟩, h.toReady⟩
  · rw [heq]
    refine ⟨Or.inl ⟨mem_of_lookup hl, fun msg => ?_, rfl, rfl⟩, h.connected, h.inited, h.noInit⟩
    rw [AList.mem_insert]
    exact or_iff_right_of_imp fun he => he ▸ mem_of_lookup hl
  · rw [heq]
    refine ⟨Or.inr ⟨AList.lookup_eq_none.1 hl, fun msg => AList.mem_insert _, rfl, rfl, ?_⟩, h.connected,
      h.inited, h.noInit⟩
    simp [CTcpClient.Send, h.connected]

/-- `Exec` keeps the locks of the outstanding commands. -/
theorem Held.exec {self : CRedis F} (h : self.Held) (now : Int) (cmds : List Bytes) (func : Option (Func F))
    (ignore : Bool) : (self.Exec now cmds func ignore).state.Held := by
  obtain ⟨⟨-, hm, hs, -⟩ | ⟨hno, hm, hs, -⟩, hr⟩ := h.exec_cases now cmds func ignore
  · exact ⟨hr, by rw [hs]; exact h.nodup, fun msg hmsg => (hm msg).2 (h.held msg (hs ▸ hmsg))⟩
  · refine ⟨hr, ?_, fun msg hmsg => (hm msg).2 ?_⟩
    · rw [hs, List.nodup_append]
      refine ⟨h.nodup, List.nodup_singleton _, ?_⟩
      rintro a ha b hb rfl
      exact hno (h.held _ (List.mem_singleton.1 hb ▸ ha))
    · rw [hs, List.mem_append, List.mem_singleton] at hmsg
      exact hmsg.elim (fun h' => Or.inr (h.held msg h')) Or.inl

/-- **A reply** takes the first outstanding command; its lock is removed if it has functions, and stays if it has
none. -/
theorem Held.reply_cases {self : CRedis F} (h : self.Held) (now : Int) (entries : List (Σ _ : Bytes, InitCmd F))
    (ret : Bool) (data : RData) :
    (self.Recv now entries ret data).state.m_SendList = self.m_SendList.tail ∧
      (self.Recv now entries ret data).out.filterMap RedisEffect.written = [] ∧
      (self.Recv now entries ret data).state.Ready ∧
      ((self.m_SendList = [] ∧ (self.Recv now entries ret data).state.m_LockList = self.m_LockList) ∨
        ∃ msg rest lock, self.m_SendList = msg :: rest ∧ self.m_LockList.lookup msg = some lock ∧
          (lock.funcs = none ∧ (self.Recv now entries ret data).state.m_LockList = self.m_LockList ∨
            lock.funcs ≠ none ∧ (self.Recv now entries ret data).state.m_LockList = self.m_LockList.erase msg)) := by
  have hready : ∀ msg rest, (self.removed msg rest).Ready := fun _ _ => ⟨h.connected, h.inited, h.noInit⟩
  rcases Recv_cases now entries ret data self with
    ⟨hs, heq⟩ | ⟨msg, rest, hs, ⟨hno, heq⟩ | ⟨lock, funcs, hl, hf, hcall⟩⟩
  · rw [heq]
    exact ⟨by rw [hs]; exact hs, rfl, h.toReady, Or.inl ⟨hs, rfl⟩⟩
  · -- an outstanding command has a lock
    obtain ⟨lock, hl⟩ := Option.isSome_iff_exists.1
      (AList.lookup_isSome.2 (h.held msg (by rw [hs]; exact List.mem_cons_self)))
    rw [heq]
    exact ⟨by rw [hs]; rfl, rfl, ⟨h.connected, h.inited, h.noInit⟩,
      Or.inr ⟨msg, rest, lock, hs, hl, Or.inl ⟨hno lock hl, rfl⟩⟩⟩
  · have hstate : (self.Recv now entries ret data).state = self.removed msg rest ∧
        (self.Recv now entries ret data).out.filterMap RedisEffect.written = [] := by
      rcases hcall with ⟨e, -, -, -, heq⟩ | ⟨d, heq⟩
      · rw [heq]
        exact ⟨rfl, rfl⟩
      · rw [heq]
        exact (hready msg rest).each_callFunc now entries _ funcs
    rw [hstate.1]
    exact ⟨by rw [hs]; rfl, hstate.2, hready msg rest, Or.inr ⟨msg, rest, lock, hs, hl, Or.inr ⟨by simp [hf], rfl⟩⟩⟩

/-- A reply keeps the locks of the commands that are still outstanding. -/
theorem Held.reply {self : CRedis F} (h : self.Held) (now : Int) (entries : List (Σ _ : Bytes, InitCmd F)) (ret : Bool)
    (data : RData) : (self.Recv now entries ret data).state.Held := by
  obtain ⟨hs, -, hr, hcases⟩ := h.reply_cases now entries ret data
  refine ⟨hr, by rw [hs]; exact h.nodup.tail, fun m hm => ?_⟩
  rw [hs] at hm
  have hheld := h.held m (List.mem_of_mem_tail hm)
  rcases hcases with ⟨-, hl⟩ | ⟨msg, rest, lock, hsl, -, ⟨-, hl⟩ | ⟨-, hl⟩⟩
  · rwa [hl]
  · rwa [hl]
  · have hnd := h.nodup
    rw [hsl] at hm hnd
    rw [hl, AList.mem_erase]
    exact ⟨fun he => (List.nodup_cons.1 hnd).1 (he ▸ hm), hheld⟩

/-! ## Runs -/

theorem Locked.exec {self : CRedis F} (h : self.Locked) (now : Int) (cmds : List Bytes) (func : Option (Func F))
    (ignore : Bool) : (self.Exec now cmds func ignore).state.Locked := by
  refine ⟨h.toHeld.exec now cmds func ignore, fun msg hmsg => ?_⟩
  obtain ⟨⟨-, hm, hs, -⟩ | ⟨-, hm, hs, -⟩, -⟩ := h.toHeld.exec_cases now cmds func ignore
  · rw [hs]
    exact h.outstanding msg ((hm msg).1 hmsg)
  · rw [hs, List.mem_append, List.mem_singleton]
    exact ((hm msg).1 hmsg).elim Or.inr fun h' => Or.inl (h.outstanding msg h')

/-- A reply to a command with a callback removes its lock. -/
theorem Locked.reply {self : CRedis F} (h : self.Locked) {now : Int} {entries : List (Σ _ : Bytes, InitCmd F)}
    {ret : Bool} {data : RData} (ha : self.AnswersCallback (.reply now entries ret data)) :
    (self.Recv now entries ret data).state.Locked := by
  refine ⟨h.toHeld.reply now entries ret data, fun m hm => ?_⟩
  obtain ⟨hs, -, -, hcases⟩ := h.toHeld.reply_cases now entries ret data
  rw [hs]
  rcases hcases with ⟨hnil, hl⟩ | ⟨msg, rest, lock, hsl, hlock, ⟨hno, -⟩ | ⟨-, hl⟩⟩
  · have := h.outstanding m (hl ▸ hm)
    rwa [hnil] at this ⊢
  · exact absurd hno (ha msg rest hsl lock hlock)
  · rw [hl, AList.mem_erase] at hm
    have := h.outstanding m hm.2
    rw [hsl] at this ⊢
    exact (List.mem_cons.1 this).resolve_left hm.1

/-- The locks are those of the outstanding commands. -/
theorem Locked.locksOutstanding {self : CRedis F} (h : self.Locked) : self.LocksOutstanding := by
  refine ⟨h.outstanding, fun now cmds func ignore hno => ?_⟩
  obtain ⟨⟨hin, -⟩ | ⟨-, -, -, herr, hout⟩, -⟩ := h.toHeld.exec_cases now cmds (func.map .user) ignore
  · exact absurd (h.outstanding _ hin) hno
  · exact ⟨herr, by rw [hout]; simp⟩

/-- A reply to a command without a callback leaves its lock behind. -/
theorem Held.answers {self : CRedis F} (h : self.Held) (a : Act F) (ho : (self.step a).LocksOutstanding) :
    self.AnswersCallback a := by
  cases a with
  | exec => trivial
  | reply now entries ret data =>
    intro msg rest hsl lock hlock hno
    obtain ⟨hs, -, -, ⟨hnil, -⟩ | ⟨msg', rest', lock', hsl', hlock', ⟨-, hl⟩ | ⟨hf, -⟩⟩⟩ :=
      h.reply_cases now entries ret data
    · rw [hsl] at hnil; cases hnil
    · have hin : msg ∈ (self.step (.reply now entries ret data)).m_SendList :=
        ho.1 msg (by rw [step, act, hl]; exact mem_of_lookup hlock)
      have hnd := h.nodup
      rw [step, act, hs, hsl] at hin
      rw [hsl] at hnd
      exact (List.nodup_cons.1 hnd).1 hin
    · rw [hsl] at hsl'
      cases hsl'
      rw [hlock] at hlock'
      cases hlock'
      exact hf hno

/-- **The command locks**: throughout a run on an initialised connection the locks are those of outstanding commands,
and an answered command is written again by `Exec`, if and only if every reply answers a command that has a callback. -/
theorem locks_outstanding_iff {self : CRedis F} (h : self.Locked) (acts : List (Act F)) :
    Throughout step LocksOutstanding self acts ↔ Along step AnswersCallback self acts := by
  refine throughout_iff_along (I := Locked) (fun s hs => hs.locksOutstanding) ?_
    (fun s a hs ho => hs.toHeld.answers a ho) h
  intro s a hs ha
  cases a with
  | exec now cmds func ignore => exact hs.exec now cmds (func.map .user) ignore
  | reply now entries ret data => exact hs.reply ha

/-- A client whose connection has been initialised. -/
def ready : CRedis F := { Create [49] with
  m_Client := { started with m_Connected := true }
  m_Inited := true }

theorem ready_locked : (ready : CRedis F).Locked where
  connected := rfl
  inited := rfl
  noInit := rfl
  nodup := List.nodup_nil
  held := fun _ h => absurd h List.not_mem_nil
  outstanding := fun msg h => absurd h (AList.notMem_empty msg)

/-- `GET k` with a callback, its reply, and `GET k` again. -/
theorem locks_outstanding_get :
    Throughout step LocksOutstanding (ready : CRedis Nat)
      [.exec 0 [[71, 69, 84], [107]] (some 0) false, .reply 1 [] true (.str [118]),
        .exec 2 [[71, 69, 84], [107]] (some 0) false] := by
  refine (locks_outstanding_iff ready_locked _).2 ⟨trivial, ?_, trivial, trivial⟩
  intro msg rest hs lock hl hf
  obtain rfl : message [[71, 69, 84], [107]] = msg := (List.cons.inj hs).1
  rw [show (step ready (.exec 0 [[71, 69, 84], [107]] (some 0) false)).m_LockList =
    AList.insert (message [[71, 69, 84], [107]]) ⟨some [71, 69, 84], 0, some [.user 0]⟩ ∅ from rfl,
    AList.lookup_insert] at hl
  cases hl
  cases hf

/-- `SET k 1` without a callback leaves its lock behind. -/
theorem locks_outstanding_set :
    ¬Throughout step LocksOutstanding (ready : CRedis Nat)
      [.exec 0 [[83, 69, 84], [107], [49]] none false, .reply 1 [] true (.str [79, 75])] := by
  rintro ⟨-, -, h⟩
  exact absurd (h.1 (message [[83, 69, 84], [107], [49]]) (by decide)) (by decide)

end CRedis

end XCore.Redis
