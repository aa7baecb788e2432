import XCore.Lib.Monitor
import XCore.Lib.Sums
import XCore.Redis.Lock

/-!
# Callbacks that call `Exec`

Runs on an initialised connection in which a callback may itself call `Exec`, in the middle of `Recv` or `TimeOut`
(`RecvWith` and `TimeOutWith` are these with the calls of callbacks as a parameter). A callback is registered when
`Exec` makes a lock with it or adds it to one, and called by `Recv` and `TimeOut`.

- every operation changes the number of pending callbacks by at most the registrations less the calls that it makes
  (`Pays`), so no callback is called more often than it has been registered;
- every operation keeps the timer armed while a lock has callbacks (`Armed`);
- so it is in every run (`callbacks_once`); a registration is made by a call of `Exec` (`registers_exec`).
-/

namespace XCore.Redis

open XCore.Lua XCore.Tcp XCore.Effect XCore.Run XCore.Monitor XCore.Sums

/-- A call of `Exec`. -/
structure UserCall (F : Type) where
  now : Int
  cmds : List Bytes
  func : Option F
  ignore : Bool

/-- What the callbacks do when they are called: calls of `Exec`, and perhaps an error. -/
abbrev Body (F : Type) := F → Option (Bool × CallData) → List (UserCall F) × Option LuaError

/-- The order in which `pairs` runs over a table. -/
structure PairsOrder (α : Type) where
  order : List α → List α
  perm (l : List α) : (order l).Perm l

/-- A turn on an initialised connection. -/
inductive InitedTurn (F : Type)
  | exec (c : UserCall F)
  | reply (now : Int) (entries : List (Σ _ : Bytes, InitCmd F)) (ret : Bool) (data : RData) (body : Body F)
  | tick (now : Int) (order : PairsOrder (Σ _ : Bytes, Lock F)) (entries : List (Σ _ : Bytes, InitCmd F))
      (body : Body F)

namespace CRedis

variable {F : Type}

theorem RecvWith_callFunc (now : Int) (entries : List (Σ _ : Bytes, InitCmd F)) (ret : Bool) (data : RData)
    (self : CRedis F) : self.RecvWith (callFunc now entries) ret data = self.Recv now entries ret data := rfl

theorem TimeOutWith_callFunc (now : Int) (list : List (Σ _ : Bytes, Lock F)) (entries : List (Σ _ : Bytes, InitCmd F))
    (self : CRedis F) : self.TimeOutWith (callFunc now entries) list = self.TimeOut now list entries := rfl

/-- A call of `Exec`. -/
def exec (c : UserCall F) (self : CRedis F) : Did F := self.Exec c.now c.cmds (c.func.map .user) c.ignore

/-- The call of a callback that may call `Exec`. -/
def callWith (body : Body F) (now : Int) (entries : List (Σ _ : Bytes, InitCmd F)) (args : Option (Bool × CallData))
    (func : Func F) (self : CRedis F) : Did F :=
  (callFunc now entries args func self).andThen fun self =>
    match func with
    | .select => .skip self
    | .user f => (Done.each exec (body f args).1 self).andThen fun self => ⟨self, [], (body f args).2⟩

/-- A turn. -/
def inited (self : CRedis F) : InitedTurn F → Did F
  | .exec c => self.exec c
  | .reply now entries ret data body => self.RecvWith (callWith body now entries) ret data
  | .tick now order entries body => self.TimeOutWith (callWith body now entries) (order.order (self.expired now))

/-- The state after a turn; an error goes to the caller. -/
def turned (self : CRedis F) (t : InitedTurn F) : CRedis F := (self.inited t).state

/-- The state after a turn, with the effects of the turn. -/
def runInited (self : CRedis F) (t : InitedTurn F) : CRedis F × List (RedisEffect F) :=
  (self.turned t, (self.inited t).out)

/-- While a lock has callbacks, the timer is armed. -/
def Armed (self : CRedis F) : Prop :=
  ∀ msg lock, self.m_LockList.lookup msg = some lock → lock.funcs ≠ none → self.timeOut = true

/-! ## The balance of callbacks -/

section Balance

variable [DecidableEq F]

/-- How often a function is in a list. -/
def occurs (f : Func F) (funcs : Option (List (Func F))) : Nat := (funcs.getD []).count f

/-- How often a callback is in the locks. -/
def pending (f : Func F) (locks : AList fun _ : Bytes => Lock F) : Nat :=
  (locks.entries.map fun e => occurs f e.2.funcs).sum

/-- A callback is registered. -/
def registers (f : Func F) : RedisEffect F → Bool
  | .locked _ func => func = some f
  | .joined _ g => g = f
  | _ => false

/-- A callback is called. -/
def calls (f : Func F) : RedisEffect F → Bool
  | .call g _ => g = f
  | _ => false

/-- What an operation does is paid for by registrations, up to `n` calls: `n` callbacks have been taken out of the locks
before it. -/
def Pays (f : Func F) (n : Nat) (self : CRedis F) (r : Did F) : Prop :=
  pending f r.state.m_LockList + r.out.countP (calls f) ≤ pending f self.m_LockList + n + r.out.countP (registers f)

variable {f : Func F} {n m : Nat} {self : CRedis F} {r : Did F}

theorem Pays.mono (h : Pays f n self r) (hnm : n ≤ m) : Pays f m self r := by
  unfold Pays at h ⊢
  omega

theorem pays_skip : Pays f 0 self (.skip self) := by simp [Pays, Done.skip]

/-- A sequence. -/
theorem Pays.andThen {k : CRedis F → Did F} (h : Pays f n self r) (hk : Pays f m r.state (k r.state)) :
    Pays f (n + m) self (r.andThen k) := by
  unfold Pays at h hk ⊢
  cases he : r.err with
  | some e =>
    rw [Done.andThen_of_err he]
    omega
  | none =>
    rw [Done.andThen_of_ok he, List.countP_append, List.countP_append]
    simp only
    omega

/-- A loop. -/
theorem Pays.each {α : Type} {c : α → Nat} {g : α → CRedis F → Did F} (hg : ∀ a s, Pays f (c a) s (g a s)) (as : List α)
    (s : CRedis F) : Pays f (as.map c).sum s (Done.each g as s) := by
  induction as generalizing s with
  | nil => exact pays_skip
  | cons a as ih =>
    rw [List.map_cons, List.sum_cons]
    exact (hg a s).andThen (ih _)

/-! ## Locks -/

section Locks

variable {locks : AList fun _ : Bytes => Lock F} {msg : Bytes}

theorem pending_erase {lock : Lock F} (h : locks.lookup msg = some lock) :
    pending f locks = occurs f lock.funcs + pending f (locks.erase msg) :=
  sum_kerase (fun e : (Σ _ : Bytes, Lock F) => occurs f e.2.funcs) h

theorem pending_insert (lock : Lock F) :
    pending f (locks.insert msg lock) = occurs f lock.funcs + pending f (locks.erase msg) :=
  sum_insert fun e : (Σ _ : Bytes, Lock F) => occurs f e.2.funcs

/-- A lock that is made. -/
theorem pending_insert_new (h : locks.lookup msg = none) (lock : Lock F) :
    pending f (locks.insert msg lock) = occurs f lock.funcs + pending f locks :=
  sum_insert_of_none (fun e : (Σ _ : Bytes, Lock F) => occurs f e.2.funcs) h

/-- Locks that are given up. -/
theorem pending_foldl_erase {list : List (Σ _ : Bytes, Lock F)} (hnd : (list.map Sigma.fst).Nodup)
    (hl : ∀ e ∈ list, locks.lookup e.1 = some e.2) :
    pending f locks = (list.map fun e => occurs f e.2.funcs).sum +
      pending f (list.foldl (fun locks e => locks.erase e.1) locks) := by
  induction list generalizing locks with
  | nil => simp
  | cons e list ih =>
    rw [List.map_cons, List.nodup_cons] at hnd
    have hrest : ∀ e' ∈ list, (locks.erase e.1).lookup e'.1 = some e'.2 := by
      intro e' he'
      have hne : e'.1 ≠ e.1 := fun he => hnd.1 (he ▸ List.mem_map_of_mem he')
      rw [AList.lookup_erase_ne hne]
      exact hl e' (List.mem_cons_of_mem e he')
    rw [pending_erase (hl e List.mem_cons_self), ih hnd.2 hrest, List.map_cons, List.sum_cons, List.foldl_cons]
    omega

end Locks

/-! ## The operations pay -/

omit [DecidableEq F] in
theorem countP_client (p : RedisEffect F → Bool) (hp : ∀ e, p (.client e) = false) (out : List (ClientEffect Pak)) :
    (out.map RedisEffect.client).countP p = 0 := by
  simp [List.countP_eq_zero, hp]

theorem pays_Send (now : Int) (cmd : Option Bytes) (msg : Bytes) (func : Option (Func F)) (self : CRedis F) :
    Pays f 0 self (self.Send now cmd msg func) := by
  rcases Send_cases now cmd msg func self with
    ⟨lock, hl, ⟨heq, -⟩ | ⟨heq, -⟩ | ⟨g, funcs, -, hfuncs, heq⟩⟩ | ⟨hl, heq⟩
  · rw [heq]
    exact pays_skip
  · rw [heq]
    simp [Pays]
  · rw [heq, Pays]
    simp only
    rw [pending_insert, pending_erase hl]
    by_cases hg : g = f
    · simp [hfuncs, occurs, calls, registers, hg]
      omega
    · simp [hfuncs, occurs, calls, registers, hg]
  · rw [heq, Pays, List.countP_cons, List.countP_cons, countP_client _ fun _ => rfl, countP_client _ fun _ => rfl]
    simp only
    rw [pending_insert_new hl]
    cases func with
    | none => simp [occurs, calls, registers]
    | some g =>
      by_cases hg : g = f
      · simp [occurs, calls, registers, hg]
        omega
      · simp [occurs, calls, registers, hg]

theorem pays_Exec (now : Int) (cmds : List Bytes) (func : Option (Func F)) (ignore : Bool) (self : CRedis F) :
    Pays f 0 self (self.Exec now cmds func ignore) := by
  simp only [Exec]
  split
  · simp [Pays]
  · exact pays_Send now cmds.head? (message cmds) func self

/-- A registration is made by an `Exec` with the callback, and `Exec` makes one at most. -/
theorem registers_exec (c : UserCall F) (self : CRedis F) :
    (self.exec c).out.countP (registers f) ≤ if c.func.map Func.user = some f then 1 else 0 := by
  simp only [exec, Exec]
  split
  · simp
  · rcases Send_cases c.now c.cmds.head? (message c.cmds) (c.func.map .user) self with
      ⟨lock, -, ⟨heq, -⟩ | ⟨heq, -⟩ | ⟨g, funcs, hg, -, heq⟩⟩ | ⟨-, heq⟩
    · simp [heq]
    · simp [heq]
    · rw [heq, hg]
      by_cases hf : g = f <;> simp [registers, hf]
    · rw [heq, List.countP_cons, countP_client _ fun _ => rfl]
      simp [registers]

/-- A call of a callback. -/
theorem pays_callFunc (now : Int) (entries : List (Σ _ : Bytes, InitCmd F)) (args : Option (Bool × CallData))
    (func : Func F) (self : CRedis F) :
    Pays f (if func = f then 1 else 0) self (callFunc now entries args func self) := by
  have hcall : Pays f (if func = f then 1 else 0) self ⟨self, [.call func args], none⟩ := by
    by_cases hf : func = f <;> simp [Pays, calls, registers, hf]
  refine (hcall.andThen (m := 0) ?_).mono (Nat.le_of_eq (Nat.add_zero _))
  cases func with
  | user g => exact pays_skip
  | select =>
    simp only [selected]
    split
    · simp [Pays, calls, registers]
    · have hhand : Pays f 0 self (Done.each (hand now) entries { self with m_Inited := true }) := by
        have heach := Pays.each (f := f) (c := fun _ => 0) (g := hand now) (fun e s => ?_) entries
          { self with m_Inited := true }
        · simpa [Pays] using heach
        · have hhanded : Pays f 0 s ⟨s, [.handed e.1], none⟩ := by simp [Pays, calls, registers]
          exact hhanded.andThen (pays_Send now e.2.1 e.1 e.2.2 s)
      refine hhand.andThen (m := 0) ?_
      simp [Pays, calls, registers]

/-- A call of a callback that may call `Exec`. -/
theorem pays_callWith (body : Body F) (now : Int) (entries : List (Σ _ : Bytes, InitCmd F))
    (args : Option (Bool × CallData)) (func : Func F) (self : CRedis F) :
    Pays f (if func = f then 1 else 0) self (callWith body now entries args func self) := by
  refine ((pays_callFunc now entries args func self).andThen (m := 0) ?_).mono (Nat.le_of_eq (Nat.add_zero _))
  cases func with
  | select => exact pays_skip
  | user g =>
    have hexecs : ∀ s : CRedis F, Pays f 0 s (Done.each exec (body g args).1 s) := by
      intro s
      have heach := Pays.each (f := f) (c := fun _ => 0) (g := exec)
        (fun c s => pays_Exec c.now c.cmds (c.func.map .user) c.ignore s) (body g args).1 s
      simpa using heach
    refine (hexecs _).andThen (m := 0) ?_
    simp [Pays]

theorem sum_calls (funcs : List (Func F)) : (funcs.map fun func => if func = f then 1 else 0).sum = funcs.count f := by
  induction funcs with
  | nil => rfl
  | cons g funcs ih =>
    rw [List.map_cons, List.sum_cons, ih, List.count_cons]
    by_cases hg : g = f
    · simp [hg, Nat.add_comm]
    · simp [hg]

/-- A loop over callbacks. -/
theorem pays_calls (body : Body F) (now : Int) (entries : List (Σ _ : Bytes, InitCmd F))
    (args : Option (Bool × CallData)) (funcs : List (Func F)) (self : CRedis F) :
    Pays f (funcs.count f) self (Done.each (callWith body now entries args) funcs self) := by
  have heach := Pays.each (f := f) (fun func s => pays_callWith body now entries args func s) funcs self
  rwa [sum_calls] at heach

/-- A reply pays for its calls with the lock that it removes. -/
theorem pays_RecvWith (body : Body F) (now : Int) (entries : List (Σ _ : Bytes, InitCmd F)) (ret : Bool) (data : RData)
    (self : CRedis F) : Pays f 0 self (self.RecvWith (callWith body now entries) ret data) := by
  rcases RecvWith_cases (callWith body now entries) ret data self with
    ⟨-, heq⟩ | ⟨msg, rest, -, ⟨-, heq⟩ | ⟨lock, funcs, hl, hf, hcall⟩⟩
  · rw [heq]
    exact pays_skip
  · rw [heq]
    simp [Pays, Done.skip]
  · have hpend : pending f self.m_LockList = funcs.count f + pending f (self.removed msg rest).m_LockList := by
      rw [pending_erase hl, hf]
      rfl
    rcases hcall with ⟨e, -, -, -, heq⟩ | ⟨d, heq⟩
    · rw [heq, Pays, hpend]
      simp
    · have hpays := pays_calls (f := f) body now entries (some (ret, d)) funcs (self.removed msg rest)
      rw [heq]
      unfold Pays at hpays ⊢
      omega

/-- The timeout pays for its calls with the locks that it gives up. -/
theorem pays_TimeOutWith (body : Body F) (now : Int) (order : PairsOrder (Σ _ : Bytes, Lock F))
    (entries : List (Σ _ : Bytes, InitCmd F)) (self : CRedis F) :
    Pays f 0 self (self.TimeOutWith (callWith body now entries) (order.order (self.expired now))) := by
  set list := order.order (self.expired now) with hlist
  have hperm : list.Perm (self.expired now) := order.perm _
  have hsub : ∀ e ∈ list, e ∈ self.m_LockList.entries := fun e he => (List.mem_filter.1 (hperm.subset he)).1
  have hnd : (list.map Sigma.fst).Nodup := by
    rw [(hperm.map Sigma.fst).nodup_iff]
    exact List.Nodup.sublist (List.Sublist.map _ List.filter_sublist) self.m_LockList.nodupKeys
  have hpend := pending_foldl_erase (f := f) hnd fun e he => AList.mem_lookup_iff.2 (hsub e he)
  have hcalls : ∀ s : CRedis F, Pays f (list.map fun e => occurs f e.2.funcs).sum s
      (Done.each (fun e => Done.each (callWith body now entries none) (e.2.funcs.getD [])) list s) :=
    Pays.each (c := fun e : (Σ _ : Bytes, Lock F) => occurs f e.2.funcs)
      (fun e s => pays_calls body now entries none (e.2.funcs.getD []) s) list
  have hexpired : (list.map fun e => (RedisEffect.expired e.1 : RedisEffect F)).countP (calls f) = 0 ∧
      (list.map fun e => (RedisEffect.expired e.1 : RedisEffect F)).countP (registers f) = 0 := by
    simp [List.countP_eq_zero, calls, registers]
  rw [TimeOutWith, Done.andThen_of_ok rfl, Pays, List.countP_append, List.countP_append, hexpired.1, hexpired.2, hpend]
  have := hcalls { self with
    m_LockList := list.foldl (fun locks e => locks.erase e.1) self.m_LockList
    timeOut := !(list.foldl (fun locks e => locks.erase e.1) self.m_LockList).keys.isEmpty && self.timeOut }
  unfold Pays at this
  simp only at this ⊢
  omega

/-- **One turn** calls no more callbacks than it takes out of the locks or registers. -/
theorem pays_inited (t : InitedTurn F) (self : CRedis F) : Pays f 0 self (self.inited t) := by
  cases t with
  | exec c => exact pays_Exec c.now c.cmds (c.func.map .user) c.ignore self
  | reply now entries ret data body => exact pays_RecvWith body now entries ret data self
  | tick now order entries body => exact pays_TimeOutWith body now order entries self

/-- **Runs**: a callback is called no more often than it was registered, before the run or in it. -/
theorem calls_le (turns : List (InitedTurn F)) (self : CRedis F) :
    (trace runInited self turns).countP (calls f) ≤
      pending f self.m_LockList + (trace runInited self turns).countP (registers f) := by
  induction turns generalizing self with
  | nil => simp [trace]
  | cons t turns ih =>
    have hturn := pays_inited (f := f) t self
    have hrest := ih (self.runInited t).1
    rw [trace, List.countP_append, List.countP_append]
    unfold Pays at hturn
    simp only [runInited, turned] at hrest ⊢
    omega

end Balance

/-! ## The timer -/

theorem armed_Send {self : CRedis F} (h : self.Armed) (now : Int) (cmd : Option Bytes) (msg : Bytes)
    (func : Option (Func F)) : (self.Send now cmd msg func).state.Armed := by
  rcases Send_cases now cmd msg func self with
    ⟨lock, hl, ⟨heq, -⟩ | ⟨heq, -⟩ | ⟨g, funcs, -, hfuncs, heq⟩⟩ | ⟨-, heq⟩
  · rwa [heq]
  · rwa [heq]
  · rw [heq]
    intro key lock' hkey hne
    by_cases hk : key = msg
    · exact h msg lock hl (by simp [hfuncs])
    · rw [AList.lookup_insert_ne hk] at hkey
      exact h key lock' hkey hne
  · rw [heq]
    intro key lock' hkey hne
    by_cases hk : key = msg
    · subst hk
      rw [AList.lookup_insert, Option.some.injEq] at hkey
      subst hkey
      cases func with
      | none => exact absurd rfl hne
      | some g => rfl
    · rw [AList.lookup_insert_ne hk] at hkey
      have harmed := h key lock' hkey hne
      simp [harmed]

theorem armed_Exec {self : CRedis F} (h : self.Armed) (now : Int) (cmds : List Bytes) (func : Option (Func F))
    (ignore : Bool) : (self.Exec now cmds func ignore).state.Armed := by
  simp only [Exec]
  split
  · exact h
  · exact armed_Send h now cmds.head? (message cmds) func

theorem armed_andThen {r : Did F} {k : CRedis F → Did F} (h : r.state.Armed)
    (hk : ∀ s : CRedis F, s.Armed → (k s).state.Armed) :
    (r.andThen k).state.Armed :=
  Keeps.andThen (u := fun (_ : Unit) _ => ()) (I := fun s _ => Armed s) (m := ()) h fun h => hk _ h

theorem armed_each {α : Type} {g : α → CRedis F → Did F} (hg : ∀ a s, Armed s → (g a s).state.Armed) (as : List α)
    {s : CRedis F} (h : s.Armed) : (Done.each g as s).state.Armed :=
  keeps_each (u := fun (_ : Unit) _ => ()) (I := fun s _ => Armed s) (m := ()) h fun a _ s _ hs => hg a s hs

theorem armed_callFunc {self : CRedis F} (h : self.Armed) (now : Int) (entries : List (Σ _ : Bytes, InitCmd F))
    (args : Option (Bool × CallData)) (func : Func F) : (callFunc now entries args func self).state.Armed := by
  refine armed_andThen h fun s hs => ?_
  cases func with
  | user g => exact hs
  | select =>
    have hinited : Armed { s with m_Inited := true } := hs
    simp only [selected]
    split
    · exact hinited
    · refine armed_andThen (armed_each (fun e s hs => ?_) entries hinited) fun s hs => hs
      exact armed_andThen (r := ⟨s, [.handed e.1], none⟩) hs fun s hs => armed_Send hs now e.2.1 e.1 e.2.2

theorem armed_callWith {self : CRedis F} (h : self.Armed) (body : Body F) (now : Int)
    (entries : List (Σ _ : Bytes, InitCmd F)) (args : Option (Bool × CallData)) (func : Func F) :
    (callWith body now entries args func self).state.Armed := by
  refine armed_andThen (armed_callFunc h now entries args func) fun s hs => ?_
  cases func with
  | select => exact hs
  | user g =>
    refine armed_andThen (armed_each (fun c s hs => ?_) _ hs) fun s hs => hs
    exact armed_Exec hs c.now c.cmds (c.func.map .user) c.ignore

/-- The timer is deleted only with the last lock. -/
theorem armed_erased {self : CRedis F} (h : self.Armed) {locks : AList fun _ : Bytes => Lock F}
    (hl : ∀ msg lock, locks.lookup msg = some lock → self.m_LockList.lookup msg = some lock) (rest : List Bytes) :
    Armed { self with m_SendList := rest, m_LockList := locks, timeOut := !locks.keys.isEmpty && self.timeOut } := by
  intro msg lock hmsg hne
  have harmed := h msg lock (hl msg lock hmsg) hne
  have hmem : msg ∈ locks.keys := mem_of_lookup hmsg
  simp only [harmed, Bool.and_true, Bool.not_eq_true', List.isEmpty_eq_false_iff]
  exact List.ne_nil_of_mem hmem

theorem lookup_of_erase {locks : AList fun _ : Bytes => Lock F} {key msg : Bytes} {lock : Lock F}
    (h : (locks.erase key).lookup msg = some lock) : locks.lookup msg = some lock := by
  by_cases hk : msg = key
  · rw [hk, AList.lookup_erase] at h
    cases h
  · rwa [AList.lookup_erase_ne hk] at h

theorem lookup_of_foldl_erase {list : List (Σ _ : Bytes, Lock F)} {locks : AList fun _ : Bytes => Lock F} {msg : Bytes}
    {lock : Lock F} (h : (list.foldl (fun locks e => locks.erase e.1) locks).lookup msg = some lock) :
    locks.lookup msg = some lock := by
  induction list generalizing locks with
  | nil => exact h
  | cons e list ih => exact lookup_of_erase (ih h)

/-- **One turn** keeps the timer armed. -/
theorem armed_inited {self : CRedis F} (h : self.Armed) (t : InitedTurn F) : (self.turned t).Armed := by
  cases t with
  | exec c => exact armed_Exec h c.now c.cmds (c.func.map .user) c.ignore
  | reply now entries ret data body =>
    simp only [turned, inited]
    rcases RecvWith_cases (callWith body now entries) ret data self with
      ⟨-, heq⟩ | ⟨msg, rest, -, ⟨-, heq⟩ | ⟨lock, funcs, -, -, hcall⟩⟩
    · rwa [heq]
    · rw [heq]
      exact h
    · have hremoved : (self.removed msg rest).Armed := armed_erased h (fun _ _ => lookup_of_erase) rest
      rcases hcall with ⟨e, -, -, -, heq⟩ | ⟨d, heq⟩
      · rwa [heq]
      · rw [heq]
        exact armed_each (fun func s hs => armed_callWith hs body now entries _ func) funcs hremoved
  | tick now order entries body =>
    refine armed_andThen (armed_erased h (fun _ _ => lookup_of_foldl_erase) self.m_SendList) fun s hs => ?_
    exact armed_each (fun e s hs => armed_each
      (fun func s hs => armed_callWith hs body now entries none func) _ hs) _ hs

/-! ## Runs -/

/-- **Callbacks**: in every run, with callbacks that may call `Exec`, a callback is called no more often than it was
registered, and in every state the timer is armed while a lock has callbacks. -/
theorem callbacks_once [DecidableEq F] {self : CRedis F} (h : self.Armed) (turns : List (InitedTurn F)) :
    (∀ f : Func F, (trace runInited self turns).countP (calls f) ≤
        pending f self.m_LockList + (trace runInited self turns).countP (registers f)) ∧
      Throughout turned Armed self turns := by
  have hstep : ∀ (s : CRedis F) (t : InitedTurn F), s.Armed → (turned s t).Armed := fun _ t hs => armed_inited hs t
  exact ⟨fun _ => calls_le turns self, throughout_of_kept hstep turns h⟩

/-- `GET k` with a callback that calls `Exec` with itself, and the reply. -/
theorem callbacks_once_again :
    (∀ f : Func Nat, (trace runInited ready [.exec ⟨0, [[71, 69, 84], [107]], some 0, false⟩,
        .reply 1 [] true (.str [118]) fun _ _ => ([⟨1, [[71, 69, 84], [107]], some 0, false⟩], none)]).countP
        (calls f) ≤
        pending f (ready : CRedis Nat).m_LockList +
          (trace runInited ready [.exec ⟨0, [[71, 69, 84], [107]], some 0, false⟩,
            .reply 1 [] true (.str [118]) fun _ _ => ([⟨1, [[71, 69, 84], [107]], some 0, false⟩], none)]).countP
              (registers f)) ∧
      Throughout turned Armed (ready : CRedis Nat)
        [.exec ⟨0, [[71, 69, 84], [107]], some 0, false⟩,
          .reply 1 [] true (.str [118]) fun _ _ => ([⟨1, [[71, 69, 84], [107]], some 0, false⟩], none)] :=
  callbacks_once (fun _ _ h => by cases h) _

end CRedis

end XCore.Redis
