import Mathlib.Data.List.AList
import XCore.Lib.Monitor
import XCore.Lua.Number
import XCore.Timer.Loop

/-!
# Timers of objects (`base/timer.lua`)

A timer of `AddTimer` is a handle of libuv whose closure looks its callback up in the table `__Timer` of the owner.
`Timers` is what the module works on: the loop, the registry in which luv pins the handles, the closures, and the tables
`__Timer` that objects have of their own. `obj.__Timer` may be found in a class of the object (`find`), an assignment to
it is raw.

An `Action` is a call of the module, of `NextTick` or of `OnEvent`, a step of the clock, or one round of
`uv__run_timers` (`runTimer`). What a callback does when it is called are the actions that come next.
-/

namespace XCore.Timer

open XCore.Lua

/-- A table that may own timers: an object, a class, or the module itself. -/
abbrev Owner := Nat

/-- A value given for `func`. -/
inductive Func
  | fn (id : Nat)
  | method (name : String)
  | other (id : Nat)
  deriving DecidableEq

/-- `type(func)` is `function` or `string`. -/
def Func.callable : Func → Bool
  | fn _ | method _ => true
  | other _ => false

/-- A table `__Timer`. -/
abbrev Table := AList fun _ : Nat => Func

/-- The objects of a program: the metatable's `__index` of each, the chain that an index follows, and whether a field of
an object is set, own or inherited. -/
structure Objects where
  index : Owner → Option Owner
  chain : Owner → List Owner
  chain_eq : ∀ o, chain o = o :: match index o with
    | none => []
    | some p => chain p
  has : Owner → Func → Bool

/-- The closure of a timer: `obj`, whether `interval == 0`, and `args`. -/
structure Closure (V : Type) where
  obj : Owner
  once : Bool
  args : List V

/-- The state of the module; `created` counts the handles made by `uv.timer_new`. -/
structure Timers (V : Type) where
  loop : Loop
  created : Nat
  pinned : List Nat
  callbacks : Nat → Option (Closure V)
  own : Owner → Option Table

/-- What a closure calls: `callback` as it finds it in `__Timer`, with the owner and its `args`. -/
structure Call (V : Type) where
  handle : Nat
  obj : Owner
  callback : Option Func
  args : List V

/-- What is observed of a run: the events that are emitted, with the call that is put off, and the calls of closures. -/
inductive Out (V : Type)
  | emit (c : Call V)
  | call (c : Call V)

/-- The calls of the program and of libuv. -/
inductive Action (V : Type)
  | AddTimer (self : Owner) (obj : Option Owner) (delay interval : Option Number) (func : Option Func) (args : List V)
  | DelTimer (self : Owner) (obj : Option Owner) (timer : Nat)
  | DelTimerByName (self : Owner) (obj : Option Owner) (func : Option Func)
  | DelAll (self : Owner) (obj : Option Owner)
  | NextTick (self : Owner) (func : Option Func) (args : List V)
  | OnEvent (self : Owner) (name : V) (args : List V)
  | advance (ms : Nat)
  | runTimer

/-- The module before its first timer, in a loop without timers. -/
def Timers.init {V : Type} (time counter : Nat) : Timers V :=
  { loop := ⟨time, counter, []⟩
    created := 0
    pinned := []
    callbacks := fun _ => none
    own := fun _ => none }

namespace Timers

variable {V : Type} (I : Objects) (s : Timers V)

/-- `obj.__Timer`: the object that has the table, and the table. -/
def find (obj : Owner) : Option (Owner × Table) := (I.chain obj).findSome? fun q => (s.own q).map fun t => (q, t)

/-- An assignment to the table of an object. -/
def setTable (q : Owner) (t : Table) : Timers V := { s with own := Function.update s.own q (some t) }

/-- `uv.timer_stop`. -/
def stop (k : Nat) : Timers V := { s with loop := s.loop.timerStop k }

/-- `uv.timer_new`: the handle is pinned in the registry until it is closed. -/
def timerNew : Timers V := { s with created := s.created + 1, pinned := s.created :: s.pinned }

/-- `uv.timer_start`. -/
def start (k timeout period : Nat) (c : Closure V) : Timers V :=
  { s with loop := s.loop.timerStart k timeout period, callbacks := Function.update s.callbacks k (some c) }

/-- `if not obj.__Timer then obj.__Timer = {} end`, `obj.__Timer[timer] = func`. -/
def put (obj : Owner) (timer : Nat) (func : Func) : Timers V :=
  let (q, t) := (s.find I obj).getD (obj, ∅)
  s.setTable q (t.insert timer func)

/-- An integer as a `uint64_t`. -/
def toUInt64 (n : Int) : Nat := (n % 2 ^ 64).toNat

/-- `AddTimer`. An interval of the loop's type equals 0 exactly when its integer does. -/
def AddTimer (self : Owner) (obj : Option Owner) (delay interval : Option Number) (func : Option Func) (args : List V) :
    Timers V × Except LuaError (Option Nat) :=
  match delay, interval, func with
  | some delay, some interval, some func =>
    if delay.lt (.int 0) || interval.lt (.int 0) then (s, .ok none)
    else if !func.callable then (s, .ok none)
    else
      let obj := obj.getD self
      let timer := s.created
      match delay.toInteger, interval.toInteger with
      | some timeout, some period =>
        let s := s.timerNew.start timer (toUInt64 timeout) (toUInt64 period) ⟨obj, toUInt64 period == 0, args⟩
        (s.put I obj timer func, .ok (some timer))
      -- `timer_start` checks its arguments after the handle has been made
      | _, _ => (s.timerNew, .error .noInteger)
  | _, _, _ => (s, .ok none)

/-- The keys of a table that have a value. -/
def keysOf (t : Table) (func : Func) : List Nat := (t.entries.filter fun e => e.2 = func).map Sigma.fst

/-- `uv.timer_stop` of each of a list. -/
def stopAll (ks : List Nat) : Timers V := ks.foldl stop s

/-- `DelTimer`. -/
def DelTimer (self : Owner) (obj : Option Owner) (timer : Nat) : Timers V :=
  match s.find I (obj.getD self) with
  | none => s
  | some (q, t) => if timer ∈ t then (s.setTable q (t.erase timer)).stop timer else s

/-- `DelTimerByName`; the second loop clears and stops what the first has found. -/
def DelTimerByName (self : Owner) (obj : Option Owner) (func : Option Func) : Timers V :=
  match func with
  | none => s
  | some func =>
    match s.find I (obj.getD self) with
    | none => s
    | some (q, t) => (s.setTable q ((keysOf t func).foldl (fun t k => t.erase k) t)).stopAll (keysOf t func)

/-- `DelAll`: the object gets a new table. -/
def DelAll (self : Owner) (obj : Option Owner) : Timers V :=
  match s.find I (obj.getD self) with
  | none => s
  | some (_, t) => (s.setTable (obj.getD self) ∅).stopAll t.keys

/-- The closure of a timer. -/
def fire (k : Nat) : Timers V × List (Out V) :=
  match s.callbacks k with
  | none => (s, [])
  | some c =>
    match s.find I c.obj with
    | none => (s, [.call ⟨k, c.obj, none, c.args⟩])
    | some (q, t) => (if c.once then (s.setTable q (t.erase k)).stop k else s, [.call ⟨k, c.obj, t.lookup k, c.args⟩])

/-- A round of `uv__run_timers`. -/
def runTimer : Timers V × List (Out V) :=
  match s.loop.heapMin with
  | none => (s, [])
  | some a =>
    if s.loop.time < a.timeout then (s, [])
    else { s with loop := (s.loop.timerStop a.handle).timerAgain a.handle a.period }.fire I a.handle

/-- `CObject:NextTick`. -/
def NextTick (self : Owner) (func : Option Func) (args : List V) : Timers V × Except LuaError (Option Nat) :=
  match func with
  | none => (s, .ok none)
  | some func =>
    if I.has self func then s.AddTimer I self self (some (.int 0)) (some (.int 0)) func args else (s, .ok none)

/-- What `OnEvent` calls at the next tick. -/
def dispatchEvent : Func := .method "DispatchEvent"

/-- `CObject:OnEvent`, with the call it puts off. -/
def OnEvent (self : Owner) (name : V) (args : List V) : Timers V × List (Out V) :=
  let r := s.NextTick I self dispatchEvent (name :: args)
  match r.2 with
  | .ok (some timer) => (r.1, [.emit ⟨timer, self, some dispatchEvent, name :: args⟩])
  | _ => (r.1, [])

/-- An action, and what is observed of it. -/
def step (s : Timers V) : Action V → Timers V × List (Out V)
  | .AddTimer self obj delay interval func args => ((s.AddTimer I self obj delay interval func args).1, [])
  | .DelTimer self obj timer => (s.DelTimer I self obj timer, [])
  | .DelTimerByName self obj func => (s.DelTimerByName I self obj func, [])
  | .DelAll self obj => (s.DelAll I self obj, [])
  | .NextTick self func args => ((s.NextTick I self func args).1, [])
  | .OnEvent self name args => s.OnEvent I self name args
  | .advance ms => ({ s with loop := { s.loop with time := s.loop.time + ms } }, [])
  | .runTimer => s.runTimer I

/-- The state after an action. -/
def next (s : Timers V) (a : Action V) : Timers V := (s.step I a).1

/-! ## Tables -/

variable {I s} {obj q : Owner} {t t' : Table} {k : Nat}

theorem find_eq : s.find I obj = match s.own obj with
    | some t => some (obj, t)
    | none => (I.index obj).bind (s.find I) := by
  unfold find
  rw [I.chain_eq, List.findSome?_cons]
  cases s.own obj with
  | some t => rfl
  | none => cases I.index obj <;> rfl

theorem find_own (h : s.own obj = some t) : s.find I obj = some (obj, t) := by
  rw [find_eq, h]

theorem own_of_find (h : s.find I obj = some (q, t)) : s.own q = some t := by
  obtain ⟨p, -, hp⟩ := List.exists_of_findSome?_eq_some h
  cases ho : s.own p with
  | none =>
    rw [ho] at hp
    cases hp
  | some u =>
    rw [ho] at hp
    cases hp
    exact ho

/-- What is found of an object does not depend on the tables of others that nothing is found of, nor on the contents. -/
theorem find_setTable (hq : s.own q ≠ none ∨ s.find I q = none) {p : Owner} (h : s.find I obj = some (p, t)) :
    (s.setTable q t').find I obj = some (p, if p = q then t' else t) := by
  have hrec : ∀ n o, (I.chain o).length ≤ n → s.find I o = some (p, t) →
      (s.setTable q t').find I o = some (p, if p = q then t' else t) := by
    intro n
    induction n with
    | zero =>
      intro o hn
      rw [I.chain_eq] at hn
      cases hn
    | succ n ih =>
      intro o hn ho
      by_cases hoq : o = q
      · subst hoq
        have hown := hq.resolve_right (by rw [ho]; exact Option.some_ne_none _)
        obtain ⟨u, hu⟩ := Option.ne_none_iff_exists'.1 hown
        rw [find_own hu] at ho
        cases ho
        rw [find_own (t := t') (by simp [setTable]), if_pos rfl]
      · have hsame : (s.setTable q t').own o = s.own o := by simp [setTable, hoq]
        rw [find_eq] at ho ⊢
        rw [hsame]
        cases hown : s.own o with
        | some u =>
          rw [hown] at ho
          cases ho
          rw [if_neg hoq]
        | none =>
          rw [hown] at ho
          cases hi : I.index o with
          | none =>
            rw [hi] at ho
            cases ho
          | some p' =>
            rw [hi] at ho
            rw [I.chain_eq, hi] at hn
            exact ih p' (Nat.le_of_succ_le_succ hn) ho
  exact hrec _ obj le_rfl h

@[simp] theorem setTable_loop : (s.setTable q t).loop = s.loop := rfl

@[simp] theorem setTable_created : (s.setTable q t).created = s.created := rfl

@[simp] theorem setTable_pinned : (s.setTable q t).pinned = s.pinned := rfl

@[simp] theorem setTable_callbacks : (s.setTable q t).callbacks = s.callbacks := rfl

@[simp] theorem setTable_own : (s.setTable q t).own q = some t := by simp [setTable]

theorem setTable_own_ne {p : Owner} (h : p ≠ q) : (s.setTable q t).own p = s.own p := by simp [setTable, h]

/-- A new entry changes no other entry that is found. -/
theorem find_put {func : Func} {p : Owner} (h : s.find I p = some (q, t)) :
    ∃ u, (s.put I obj k func).find I p = some (q, u) ∧ ∀ j, j ≠ k → u.lookup j = t.lookup j := by
  unfold put
  cases hf : s.find I obj with
  | none =>
    refine ⟨_, find_setTable (Or.inr hf) h, fun j hj => ?_⟩
    split
    · rename_i hq
      rw [← hq, own_of_find h |> find_own] at hf
      cases hf
    · rfl
  | some r =>
    obtain ⟨q', t'⟩ := r
    have hown := own_of_find hf
    refine ⟨_, find_setTable (Or.inl (by rw [hown]; exact Option.some_ne_none _)) h, fun j hj => ?_⟩
    split
    · rename_i hq
      rw [← hq, own_of_find h] at hown
      cases hown
      exact AList.lookup_insert_ne hj
    · rfl

/-- A new entry is found. -/
theorem find_put_self {func : Func} :
    ∃ q t, (s.put I obj k func).find I obj = some (q, t) ∧ t.lookup k = some func := by
  unfold put
  cases hf : s.find I obj with
  | none =>
    exact ⟨obj, _, find_own setTable_own, AList.lookup_insert _⟩
  | some r =>
    obtain ⟨q, t⟩ := r
    have hown := own_of_find hf
    refine ⟨q, _, find_setTable (Or.inl (by rw [hown]; exact Option.some_ne_none _)) hf, ?_⟩
    rw [if_pos rfl]
    exact AList.lookup_insert _

/-- The old entries are kept. -/
theorem own_put_of_own {func : Func} {p : Owner} (h : s.own p = some t) :
    ∃ u, (s.put I obj k func).own p = some u ∧ ∀ j ∈ t, j ∈ u := by
  unfold put
  cases hf : s.find I obj with
  | none =>
    by_cases hp : p = obj
    · subst hp
      rw [find_own h] at hf
      cases hf
    · exact ⟨t, by rw [← h]; exact setTable_own_ne hp, fun _ hj => hj⟩
  | some r =>
    obtain ⟨q, t'⟩ := r
    by_cases hp : p = q
    · subst hp
      rw [own_of_find hf] at h
      cases h
      exact ⟨_, setTable_own, fun j hj => (AList.mem_insert _).2 (Or.inr hj)⟩
    · exact ⟨t, by rw [← h]; exact setTable_own_ne hp, fun _ hj => hj⟩

/-- The other entries are as before. -/
theorem own_put_lookup {func : Func} {p : Owner} {j : Nat} (h : (s.put I obj k func).own p = some t) (hj : j ≠ k) :
    t.lookup j = (s.own p).bind fun u => u.lookup j := by
  unfold put at h
  have hcase : ∀ q (u : Table), u.lookup j = (s.own q).bind (fun u => u.lookup j) →
      (s.setTable q (u.insert k func)).own p = some t →
        t.lookup j = (s.own p).bind fun u => u.lookup j := by
    intro q u hu h
    by_cases hp : p = q
    · subst hp
      rw [setTable_own] at h
      cases h
      rw [AList.lookup_insert_ne hj, hu]
    · rw [setTable_own_ne hp] at h
      rw [h]
      rfl
  cases hf : s.find I obj with
  | none =>
    rw [hf] at h
    refine hcase obj ∅ ?_ h
    cases ho : s.own obj with
    | none => rfl
    | some u =>
      rw [find_own ho] at hf
      cases hf
  | some r =>
    rw [hf] at h
    exact hcase r.1 r.2 (by rw [own_of_find hf]; rfl) h

/-- There is one new entry. -/
theorem own_of_own_put {func : Func} {p : Owner} {j : Nat} (h : (s.put I obj k func).own p = some t) (hj : j ∈ t) :
    j = k ∨ ∃ u, s.own p = some u ∧ j ∈ u := by
  by_cases hjk : j = k
  · exact Or.inl hjk
  · rw [← AList.lookup_isSome, own_put_lookup h hjk] at hj
    cases hp : s.own p with
    | none =>
      rw [hp] at hj
      cases hj
    | some u =>
      rw [hp] at hj
      exact Or.inr ⟨u, rfl, AList.lookup_isSome.1 hj⟩

/-- The new entry has the value that is put. -/
theorem own_put_lookup_self {func f : Func} {p : Owner} (h : (s.put I obj k func).own p = some t)
    (hf : t.lookup k = some f) :
    f = func ∨ ∃ u, s.own p = some u ∧ u.lookup k = some f := by
  unfold put at h
  have hcase : ∀ q (u : Table), (s.setTable q (u.insert k func)).own p = some t →
      f = func ∨ ∃ u, s.own p = some u ∧ u.lookup k = some f := by
    intro q u h
    by_cases hp : p = q
    · subst hp
      rw [setTable_own] at h
      cases h
      rw [AList.lookup_insert] at hf
      cases hf
      exact Or.inl rfl
    · rw [setTable_own_ne hp] at h
      exact Or.inr ⟨t, h, hf⟩
  exact hcase _ _ h

@[simp] theorem put_loop {func : Func} : (s.put I obj k func).loop = s.loop := rfl

@[simp] theorem put_created {func : Func} : (s.put I obj k func).created = s.created := rfl

@[simp] theorem put_pinned {func : Func} : (s.put I obj k func).pinned = s.pinned := rfl

@[simp] theorem put_callbacks {func : Func} : (s.put I obj k func).callbacks = s.callbacks := rfl

/-! ## What the calls do -/

theorem stopAll_eq (s : Timers V) (ks : List Nat) :
    s.stopAll ks = { s with loop := { s.loop with timers := s.loop.timers.filter fun a => a.handle ∉ ks } } := by
  unfold stopAll
  induction ks generalizing s with
  | nil => simp
  | cons k ks ih =>
    rw [List.foldl_cons, ih]
    simp only [stop, Loop.timerStop, List.filter_filter, List.mem_cons, not_or]
    congr 3
    funext a
    rw [Bool.and_comm]
    simp

@[simp] theorem stopAll_created {ks : List Nat} : (s.stopAll ks).created = s.created := by rw [stopAll_eq]

@[simp] theorem stopAll_pinned {ks : List Nat} : (s.stopAll ks).pinned = s.pinned := by rw [stopAll_eq]

@[simp] theorem stopAll_callbacks {ks : List Nat} : (s.stopAll ks).callbacks = s.callbacks := by rw [stopAll_eq]

@[simp] theorem stopAll_own {ks : List Nat} : (s.stopAll ks).own = s.own := by rw [stopAll_eq]

theorem mem_stopAll {ks : List Nat} {a : Active} :
    a ∈ (s.stopAll ks).loop.timers ↔ a ∈ s.loop.timers ∧ a.handle ∉ ks := by
  rw [stopAll_eq]
  simp

theorem running_stopAll {ks : List Nat} : (s.stopAll ks).loop.Running k ↔ s.loop.Running k ∧ k ∉ ks := by
  constructor
  · rintro ⟨a, ha, rfl⟩
    rw [mem_stopAll] at ha
    exact ⟨⟨a, ha.1, rfl⟩, ha.2⟩
  · rintro ⟨⟨a, ha, rfl⟩, hk⟩
    exact ⟨a, mem_stopAll.2 ⟨ha, hk⟩, rfl⟩

/-- An entry that stays when some are removed and their timers stopped. -/
theorem entry_stopAll {ks : List Nat} {p : Owner} {u v : Table} {f : Func} (ht : s.own q = some t)
    (hrem : ∀ j ∈ ks, j ∉ u)
    (hrest : ∀ j, j ∉ ks → u.lookup j = t.lookup j) (h : ((s.setTable q u).stopAll ks).own p = some v)
    (hk : v.lookup k = some f) :
    (p = q → k ∉ ks) ∧ ∃ w, s.own p = some w ∧ w.lookup k = some f := by
  rw [stopAll_own] at h
  by_cases hp : p = q
  · subst hp
    rw [setTable_own] at h
    cases h
    have hnot : k ∉ ks := fun hmem => hrem k hmem (AList.lookup_isSome.1 (by rw [hk]; rfl))
    exact ⟨fun _ => hnot, t, ht, by rw [← hrest k hnot, hk]⟩
  · rw [setTable_own_ne hp] at h
    exact ⟨fun hpq => absurd hpq hp, v, h, hk⟩

theorem mem_eraseAll {ks : List Nat} {j : Nat} : j ∈ ks.foldl (fun t k => t.erase k) t ↔ j ∈ t ∧ j ∉ ks := by
  induction ks generalizing t with
  | nil => simp
  | cons k ks ih =>
    rw [List.foldl_cons, ih, AList.mem_erase, List.mem_cons, not_or]
    tauto

theorem lookup_eraseAll {ks : List Nat} {j : Nat} (h : j ∉ ks) :
    (ks.foldl (fun t k => t.erase k) t).lookup j = t.lookup j := by
  induction ks generalizing t with
  | nil => rfl
  | cons k ks ih =>
    rw [List.mem_cons, not_or] at h
    rw [List.foldl_cons, ih h.2, AList.lookup_erase_ne h.1]

theorem mem_keysOf {func : Func} : k ∈ keysOf t func ↔ t.lookup k = some func := by
  unfold keysOf
  rw [← Option.mem_def, AList.mem_lookup_iff]
  simp

/-- `AddTimer` starts a timer, does nothing, or raises after it has made a handle. -/
theorem AddTimer_cases (s : Timers V) (self : Owner) (obj : Option Owner) (delay interval : Option Number)
    (func : Option Func) (args : List V) :
    (∃ timeout period f, func = some f ∧ s.AddTimer I self obj delay interval func args =
      ((s.timerNew.start s.created timeout period ⟨obj.getD self, period == 0, args⟩).put I (obj.getD self) s.created f,
        .ok (some s.created))) ∨
    s.AddTimer I self obj delay interval func args = (s, .ok none) ∨
    s.AddTimer I self obj delay interval func args = (s.timerNew, .error .noInteger) := by
  unfold AddTimer
  split
  · split
    · exact Or.inr (Or.inl rfl)
    · split
      · exact Or.inr (Or.inl rfl)
      · dsimp only
        split
        · exact Or.inl ⟨_, _, _, rfl, rfl⟩
        · exact Or.inr (Or.inr rfl)
  · exact Or.inr (Or.inl rfl)

/-- `NextTick` starts a timer that is due at once, or does nothing. -/
theorem NextTick_cases (s : Timers V) (self : Owner) (func : Option Func) (args : List V) :
    (∃ f, func = some f ∧ s.NextTick I self func args =
      ((s.timerNew.start s.created 0 0 ⟨self, true, args⟩).put I self s.created f, .ok (some s.created))) ∨
    s.NextTick I self func args = (s, .ok none) := by
  unfold NextTick
  split
  · exact Or.inr rfl
  · rename_i f
    split
    · cases f with
      | fn id => exact Or.inl ⟨_, rfl, rfl⟩
      | method name => exact Or.inl ⟨_, rfl, rfl⟩
      | other id => exact Or.inr rfl
    · exact Or.inr rfl

/-- `OnEvent` starts the timer of an event, on objects that dispatch events. -/
theorem OnEvent_cases (s : Timers V) (self : Owner) (name : V) (args : List V) :
    (I.has self dispatchEvent = true ∧ s.OnEvent I self name args =
      ((s.timerNew.start s.created 0 0 ⟨self, true, name :: args⟩).put I self s.created dispatchEvent,
        [.emit ⟨s.created, self, some dispatchEvent, name :: args⟩])) ∨
    (I.has self dispatchEvent = false ∧ s.OnEvent I self name args = (s, [])) := by
  unfold OnEvent NextTick
  dsimp only
  cases I.has self dispatchEvent with
  | true => exact Or.inl ⟨rfl, rfl⟩
  | false => exact Or.inr ⟨rfl, rfl⟩

/-- Some entries of the table of an object are removed and their timers stopped. -/
structure Removed (I : Objects) (s : Timers V) (obj : Owner) (ks : List Nat) (s' : Timers V) : Prop where
  found : ∃ q t u, s.find I obj = some (q, t) ∧ s' = (s.setTable q u).stopAll ks ∧ (∀ k ∈ ks, k ∈ t ∧ k ∉ u) ∧
    ∀ k, k ∉ ks → u.lookup k = t.lookup k

/-- One entry is removed. -/
theorem Removed.erase (hf : s.find I obj = some (q, t)) (hk : k ∈ t) :
    Removed I s obj [k] ((s.setTable q (t.erase k)).stopAll [k]) := by
  refine ⟨q, t, _, hf, rfl, fun j hj => ?_, fun j hj => ?_⟩
  · rw [List.mem_singleton] at hj
    subst hj
    exact ⟨hk, by simp⟩
  · rw [List.mem_singleton] at hj
    exact AList.lookup_erase_ne hj

/-- The entries that stay. -/
theorem Removed.entry {ks : List Nat} {s' : Timers V} {p : Owner} {v : Table} {f : Func} (h : Removed I s obj ks s')
    (hp : s'.own p = some v) (hk : v.lookup k = some f) : ∃ w, s.own p = some w ∧ w.lookup k = some f := by
  obtain ⟨q, t, u, hf, rfl, hks, hrest⟩ := h.found
  exact (entry_stopAll (own_of_find hf) (fun j hj => (hks j hj).2) hrest hp hk).2

theorem DelTimer_cases (s : Timers V) (self : Owner) (obj : Option Owner) (timer : Nat) :
    s.DelTimer I self obj timer = s ∨ Removed I s (obj.getD self) [timer] (s.DelTimer I self obj timer) := by
  unfold DelTimer
  cases hf : s.find I (obj.getD self) with
  | none => exact Or.inl rfl
  | some r =>
    obtain ⟨q, t⟩ := r
    dsimp only
    split
    · rename_i hk
      exact Or.inr (Removed.erase hf hk)
    · exact Or.inl rfl

/-- `DelTimerByName` removes the entries of one value. -/
theorem DelTimerByName_cases (s : Timers V) (self : Owner) (obj : Option Owner) (func : Option Func) :
    s.DelTimerByName I self obj func = s ∨ ∃ f q t, func = some f ∧ s.find I (obj.getD self) = some (q, t) ∧
      Removed I s (obj.getD self) (keysOf t f) (s.DelTimerByName I self obj func) := by
  unfold DelTimerByName
  cases func with
  | none => exact Or.inl rfl
  | some f =>
    cases hf : s.find I (obj.getD self) with
    | none => exact Or.inl rfl
    | some r =>
      obtain ⟨q, t⟩ := r
      refine Or.inr ⟨f, q, t, rfl, rfl, q, t, _, hf, rfl, ?_, fun k hk => lookup_eraseAll hk⟩
      intro k hk
      refine ⟨AList.lookup_isSome.1 ?_, fun hu => (mem_eraseAll.1 hu).2 hk⟩
      rw [mem_keysOf.1 hk]
      rfl

/-- `DelAll` stops the timers of the table that is found, and gives the object an empty one. -/
theorem DelAll_cases (s : Timers V) (self : Owner) (obj : Option Owner) :
    s.DelAll I self obj = s ∨ ∃ q t, s.find I (obj.getD self) = some (q, t) ∧
      s.DelAll I self obj = (s.setTable (obj.getD self) ∅).stopAll t.keys := by
  unfold DelAll
  cases hf : s.find I (obj.getD self) with
  | none => exact Or.inl rfl
  | some r => exact Or.inr ⟨r.1, r.2, rfl, rfl⟩

/-- The state in which the loop calls the closure of a timer. -/
def due (s : Timers V) (a : Active) : Timers V :=
  { s with loop := (s.loop.timerStop a.handle).timerAgain a.handle a.period }

/-- A round of the loop: no timer is due, or the first one is stopped, started again if it repeats, and its closure
called. -/
theorem runTimer_cases (s : Timers V) :
    (s.runTimer I = (s, []) ∧ ∀ a ∈ s.loop.timers, s.loop.time < a.timeout) ∨
    ∃ a, s.loop.heapMin = some a ∧ a.timeout ≤ s.loop.time ∧ s.runTimer I =
      (s.due a).fire I a.handle := by
  unfold runTimer
  cases hm : s.loop.heapMin with
  | none =>
    rw [Loop.heapMin_eq_none] at hm
    refine Or.inl ⟨rfl, ?_⟩
    rw [hm]
    intro a ha
    cases ha
  | some a =>
    dsimp only
    split
    · rename_i hlt
      refine Or.inl ⟨rfl, fun b hb => ?_⟩
      have hle := (Loop.heapMin_spec hm).2 b hb
      rw [Active.key, Active.key, Prod.Lex.toLex_le_toLex] at hle
      omega
    · rename_i hlt
      exact Or.inr ⟨a, rfl, Nat.le_of_not_lt hlt, rfl⟩

section

variable (honce : ∀ a ∈ s.loop.timers, ∀ c, s.callbacks a.handle = some c → (c.once = true ↔ a.period = 0))
include honce

/-- The closures know whether their timers repeat, also that of a timer which is started. -/
theorem once_start (timeout period : Nat) (o : Owner) (args : List V) {a : Active}
    (ha : a ∈ (s.timerNew.start s.created timeout period ⟨o, period == 0, args⟩).loop.timers) {c : Closure V}
    (hc : (s.timerNew.start s.created timeout period ⟨o, period == 0, args⟩).callbacks a.handle = some c) :
    c.once = true ↔ a.period = 0 := by
  change Function.update s.callbacks s.created _ a.handle = some c at hc
  rcases Loop.mem_timerStart.1 ha with ⟨ha, hne⟩ | rfl
  · rw [Function.update_of_ne hne] at hc
    exact honce a ha c hc
  · rw [Function.update_self] at hc
    cases hc
    simp

/-- A timer that is started again. -/
theorem once_due {a b : Active} (ha : a ∈ s.loop.timers) (hp : a.period ≠ 0) (hb : b ∈ (s.due a).loop.timers)
    {c : Closure V} (hc : s.callbacks b.handle = some c) : c.once = true ↔ b.period = 0 := by
  change b ∈ ((s.loop.timerStop a.handle).timerAgain a.handle a.period).timers at hb
  rw [Loop.timerAgain, if_neg hp] at hb
  rcases Loop.mem_timerStart.1 hb with ⟨hb, -⟩ | rfl
  · exact honce b (Loop.mem_timerStop.1 hb).1 c hc
  · exact honce a ha c hc

end

/-- The ways in which an action goes. -/
inductive Stepped (I : Objects) (s : Timers V) : Action V → Timers V × List (Out V) → Prop
  | same (a : Action V) : Stepped I s a (s, [])
  | added (self : Owner) (target : Option Owner) (delay interval : Option Number) (f : Func) (args : List V)
      (timeout period : Nat) :
    Stepped I s (.AddTimer self target delay interval (some f) args)
      ((s.timerNew.start s.created timeout period ⟨target.getD self, period == 0, args⟩).put I
        (target.getD self) s.created f, [])
  | raised (a : Action V) : Stepped I s a (s.timerNew, [])
  | removed {self : Owner} {target : Option Owner} {timer : Nat} {s' : Timers V}
      (h : Removed I s (target.getD self) [timer] s') :
    Stepped I s (.DelTimer self target timer) (s', [])
  | removedByName {self : Owner} {target : Option Owner} {f : Func} {p : Owner} {u : Table} {s' : Timers V}
    (hf : s.find I (target.getD self) = some (p, u)) (h : Removed I s (target.getD self) (keysOf u f) s') :
    Stepped I s (.DelTimerByName self target (some f)) (s', [])
  | cleared {self : Owner} {target : Option Owner} {p : Owner} {u : Table}
      (hf : s.find I (target.getD self) = some (p, u)) :
    Stepped I s (.DelAll self target) ((s.setTable (target.getD self) ∅).stopAll u.keys, [])
  | ticked (self : Owner) (f : Func) (args : List V) : Stepped I s (.NextTick self (some f) args)
      ((s.timerNew.start s.created 0 0 ⟨self, true, args⟩).put I self s.created f, [])
  | emitted (self : Owner) (name : V) (args : List V) : Stepped I s (.OnEvent self name args)
      ((s.timerNew.start s.created 0 0 ⟨self, true, name :: args⟩).put I self s.created dispatchEvent,
        [.emit ⟨s.created, self, some dispatchEvent, name :: args⟩])
  | advanced (ms : Nat) : Stepped I s (.advance ms) ({ s with loop := { s.loop with time := s.loop.time + ms } }, [])
  | ran : Stepped I s .runTimer (s.runTimer I)

theorem stepped (I : Objects) (s : Timers V) (a : Action V) : Stepped I s a (s.step I a) := by
  cases a with
  | AddTimer self target delay interval func args =>
    change Stepped I s _ ((s.AddTimer I self target delay interval func args).1, [])
    rcases AddTimer_cases (I := I) s self target delay interval func args with ⟨_, _, f, rfl, h⟩ | h | h
    · rw [h]
      exact .added ..
    · rw [h]
      exact .same _
    · rw [h]
      exact .raised _
  | DelTimer self target timer =>
    change Stepped I s _ (s.DelTimer I self target timer, [])
    rcases DelTimer_cases (I := I) s self target timer with h | h
    · rw [h]
      exact .same _
    · exact .removed h
  | DelTimerByName self target func =>
    change Stepped I s _ (s.DelTimerByName I self target func, [])
    rcases DelTimerByName_cases (I := I) s self target func with h | ⟨f, p, u, rfl, hf, h⟩
    · rw [h]
      exact .same _
    · exact .removedByName hf h
  | DelAll self target =>
    change Stepped I s _ (s.DelAll I self target, [])
    rcases DelAll_cases (I := I) s self target with h | ⟨p, u, hf, h⟩
    · rw [h]
      exact .same _
    · rw [h]
      exact .cleared hf
  | NextTick self func args =>
    change Stepped I s _ ((s.NextTick I self func args).1, [])
    rcases NextTick_cases (I := I) s self func args with ⟨f, rfl, h⟩ | h
    · rw [h]
      exact .ticked ..
    · rw [h]
      exact .same _
  | OnEvent self name args =>
    change Stepped I s _ (s.OnEvent I self name args)
    rcases OnEvent_cases (I := I) s self name args with ⟨-, h⟩ | ⟨-, h⟩
    · rw [h]
      exact .emitted ..
    · rw [h]
      exact .same _
  | advance ms => exact .advanced ms
  | runTimer => exact .ran

/-- The closure of a timer whose owner has a table. -/
theorem fire_due {a : Active} {c : Closure V} (hc : s.callbacks a.handle = some c) (hf : s.find I c.obj = some (q, t)) :
    (s.due a).fire I a.handle =
      (if c.once then ((s.due a).setTable q (t.erase a.handle)).stop a.handle else s.due a,
        [.call ⟨a.handle, c.obj, t.lookup a.handle, c.args⟩]) := by
  have hc' : (s.due a).callbacks a.handle = some c := hc
  have hf' : (s.due a).find I c.obj = some (q, t) := hf
  unfold fire
  rw [hc']
  dsimp only
  rw [hf']

/-- The end of a one-shot timer. -/
theorem stop_due {a : Active} (ha : a.period = 0) :
    ((s.due a).setTable q t).stop a.handle = (s.setTable q t).stopAll [a.handle] := by
  have hloop : ((s.loop.timerStop a.handle).timerAgain a.handle a.period).timerStop a.handle =
      s.loop.timerStop a.handle := by
    rw [ha, Loop.timerAgain, if_pos rfl]
    simp [Loop.timerStop]
  simp only [stopAll, List.foldl_cons, List.foldl_nil, stop, setTable, due, hloop]

/-! ## Timers that are not active -/

/-- A closure stops no timer but its own, and calls its own callback. -/
theorem fire_spec (s : Timers V) (k : Nat) : (s.fire I k).1.pinned = s.pinned ∧ (s.fire I k).1.created = s.created ∧
    (s.fire I k).1.loop.timers.Sublist s.loop.timers ∧ ∀ c, Out.call c ∈ (s.fire I k).2 → c.handle = k := by
  unfold fire
  split
  · refine ⟨rfl, rfl, .refl _, ?_⟩
    intro c hc
    cases hc
  · split
    · refine ⟨rfl, rfl, .refl _, ?_⟩
      intro c hc
      cases List.mem_singleton.1 hc
      rfl
    · dsimp only
      refine ⟨?_, ?_, ?_, ?_⟩
      · split <;> rfl
      · split <;> rfl
      · split
        · exact List.filter_sublist
        · exact .refl _
      · intro c hc
        cases List.mem_singleton.1 hc
        rfl

/-- A timer that has been made and is not active. -/
structure Idle (s : Timers V) (k : Nat) : Prop where
  made : k < s.created
  stopped : ¬s.loop.Running k

namespace Idle

theorem raised (h : Idle s k) : Idle s.timerNew k := ⟨h.made.trans (Nat.lt_succ_self _), h.stopped⟩

theorem added (h : Idle s k) (timeout period : Nat) (c : Closure V) (func : Func) :
    Idle ((s.timerNew.start s.created timeout period c).put I obj s.created func) k := by
  refine ⟨h.made.trans (Nat.lt_succ_self _), fun hrun => ?_⟩
  rcases Loop.running_start.1 hrun with hrun | rfl
  · exact h.stopped hrun
  · exact Nat.lt_irrefl _ h.made

theorem removed {ks : List Nat} (h : Idle s k) : Idle ((s.setTable q t).stopAll ks) k := by
  refine ⟨?_, fun hrun => h.stopped (running_stopAll.1 hrun).1⟩
  rw [stopAll_created]
  exact h.made

/-- **One action** does not start an idle timer, nor call it. -/
theorem step (h : Idle s k) (a : Action V) : Idle (s.next I a) k ∧ ∀ c, Out.call c ∈ (s.step I a).2 → c.handle ≠ k := by
  have hquiet : ∀ c : Call V, Out.call c ∈ [] → c.handle ≠ k := by
    intro c hc
    cases hc
  have hstep := stepped I s a
  unfold next
  generalize s.step I a = r at hstep
  cases hstep with
  | same => exact ⟨h, hquiet⟩
  | added => exact ⟨h.added _ _ _ _, hquiet⟩
  | raised => exact ⟨h.raised, hquiet⟩
  | removed he =>
    obtain ⟨q, t, u, -, rfl, -⟩ := he.found
    exact ⟨h.removed, hquiet⟩
  | removedByName _ he =>
    obtain ⟨q, t, u, -, rfl, -⟩ := he.found
    exact ⟨h.removed, hquiet⟩
  | cleared => exact ⟨h.removed, hquiet⟩
  | ticked => exact ⟨h.added _ _ _ _, hquiet⟩
  | emitted =>
    refine ⟨h.added _ _ _ _, fun c hc => ?_⟩
    cases List.mem_singleton.1 hc
  | advanced ms => exact ⟨⟨h.made, h.stopped⟩, hquiet⟩
  | ran =>
    rcases runTimer_cases (I := I) s with ⟨he, -⟩ | ⟨a, hm, -, he⟩
    · rw [he]
      exact ⟨h, hquiet⟩
    · have hne : k ≠ a.handle := by
        rintro rfl
        exact h.stopped ⟨a, (Loop.heapMin_spec hm).1, rfl⟩
      obtain ⟨-, hcreated, hsub, hcall⟩ := fire_spec (I := I) (s.due a) a.handle
      rw [he]
      refine ⟨⟨by rw [hcreated]; exact h.made, ?_⟩, fun c hc => by rw [hcall c hc]; exact hne.symm⟩
      rintro ⟨b, hb, rfl⟩
      rcases Loop.running_again.1 ⟨b, hsub.subset hb, rfl⟩ with hrun | ⟨-, hk⟩
      · exact h.stopped (Loop.running_stop.1 hrun).1
      · exact hne hk

/-- An idle timer is never called. -/
theorem not_called : ∀ (as : List (Action V)) {s : Timers V}, Idle s k →
    ∀ c, Out.call c ∈ Monitor.trace (Timers.step I) s as → c.handle ≠ k
  | [], _, _, _, hc => by cases hc
  | a :: as, s, h, c, hc => by
    have hstep := h.step (I := I) a
    rcases List.mem_append.1 hc with hc | hc
    · exact hstep.2 c hc
    · exact not_called as hstep.1 c hc

end Idle

end Timers

end XCore.Timer
