import XCore.Lib.Run
import XCore.Timer.Heap
import XCore.Timer.Loop

/-!
# The timers of libuv (`timer.c`)

`uv_loop_t` is the loop as libuv has it, with its heap of timers, whose nodes point to each other. `Clock` is what it
stands for: the `Loop` that the rest of the development works on, and what is known of each timer.

- `timer_less_than_iff`: the order of the heap is that of the keys;
- `Refines`: the heap has the nodes of the active timers, in order;
- `step_refines`: a call does on the loop of libuv what it does on the clock;
- `uv_timers_refine`: so in every run the same callbacks are called, in the same order.
-/

namespace XCore.Timer

/-- `uv_timer_t`, with the bit `UV__HANDLE_ACTIVE` of its flags. -/
structure uv_timer_t (C : Type) where
  timer_cb : Option C
  timeout : Nat
  period : Nat
  start_id : Nat
  active : Bool

/-- `uv_loop_t`: what timers use of it, and the timers in memory. -/
structure uv_loop_t (C : Type) where
  time : Nat
  timer_counter : Nat
  timer_heap : Heap
  active_handles : Nat
  timers : Nat → uv_timer_t C

def EINVAL : Int := 22

namespace uv_loop_t

variable {C : Type} (L : uv_loop_t C)

/-- `timer_less_than`. -/
def timer_less_than (ha hb : Nat) : Bool :=
  let a := L.timers ha
  let b := L.timers hb
  if a.timeout < b.timeout then true
  else if b.timeout < a.timeout then false
  else if a.start_id < b.start_id then true
  else false

/-- A timer with other fields. -/
def put (k : Nat) (t : uv_timer_t C) : uv_loop_t C := { L with timers := Function.update L.timers k t }

/-- `uv_timer_init`. -/
def uv_timer_init (k : Nat) : uv_loop_t C := L.put k { L.timers k with timer_cb := none, period := 0, active := false }

/-- `uv__handle_start`, of a handle that is referenced. -/
def handle_start (k : Nat) : uv_loop_t C :=
  if (L.timers k).active then L
  else { L.put k { L.timers k with active := true } with active_handles := L.active_handles + 1 }

/-- `uv__handle_stop`, of a handle that is referenced. -/
def handle_stop (k : Nat) : uv_loop_t C :=
  if (L.timers k).active then
    { L.put k { L.timers k with active := false } with active_handles := L.active_handles - 1 }
  else L

/-- `uv_timer_stop`. -/
def uv_timer_stop (k : Nat) : Option (uv_loop_t C) :=
  if (L.timers k).active then do
    let heap ← L.timer_heap.heap_remove L.timer_less_than k
    some (handle_stop { L with timer_heap := heap } k)
  else some L

/-- `if (uv__is_active(handle)) uv_timer_stop(handle);` -/
def stop_active (k : Nat) : Option (uv_loop_t C) := if (L.timers k).active then L.uv_timer_stop k else some L

/-- `handle->loop->time + timeout`, or the greatest `uint64_t` where that is too much. -/
def clamped_timeout (timeout : Nat) : Nat :=
  let clamped := (L.time + timeout) % 2 ^ 64
  if clamped < timeout then 2 ^ 64 - 1 else clamped

/-- `uv_timer_start`. -/
def uv_timer_start (k : Nat) (cb : Option C) (timeout period : Nat) : Option (Int × uv_loop_t C) :=
  match cb with
  | none => some (-EINVAL, L)
  | some cb => do
    let L ← L.stop_active k
    let L := L.put k { L.timers k with
      timer_cb := some cb, timeout := L.clamped_timeout timeout, period := period, start_id := L.timer_counter }
    let L := { L with timer_counter := (L.timer_counter + 1) % 2 ^ 64 }
    let heap ← L.timer_heap.heap_insert L.timer_less_than k
    some (0, handle_start { L with timer_heap := heap } k)

/-- `uv_timer_again`. -/
def uv_timer_again (k : Nat) : Option (Int × uv_loop_t C) :=
  match (L.timers k).timer_cb with
  | none => some (-EINVAL, L)
  | some cb =>
    if (L.timers k).period = 0 then some (0, L)
    else do
      let L ← L.uv_timer_stop k
      let r ← L.uv_timer_start k (some cb) (L.timers k).period (L.timers k).period
      some (0, r.2)

/-- `uv_timer_set_repeat`. -/
def uv_timer_set_repeat (k period : Nat) : uv_loop_t C := L.put k { L.timers k with period := period }

def INT_MAX : Nat := 2 ^ 31 - 1

/-- `uv__next_timeout`. -/
def next_timeout : Int :=
  match L.timer_heap.heap_min with
  | none => -1
  | some k => if (L.timers k).timeout ≤ L.time then 0 else min ((L.timers k).timeout - L.time) INT_MAX

/-- A round of `uv__run_timers`, with the callback that it calls. -/
def run_timer : Option (Option (Nat × C) × uv_loop_t C) :=
  match L.timer_heap.heap_min with
  | none => some (none, L)
  | some k =>
    if L.time < (L.timers k).timeout then some (none, L)
    else do
      let L ← L.uv_timer_stop k
      let r ← L.uv_timer_again k
      let cb ← (r.2.timers k).timer_cb
      some (some (k, cb), r.2)

end uv_loop_t

/-! ## The calls -/

/-- A call of the program or of `uv_run`. -/
inductive TimerCall (C : Type)
  | init (k : Nat)
  | start (k : Nat) (cb : Option C) (timeout period : Nat)
  | stop (k : Nat)
  | again (k : Nat)
  | set_repeat (k period : Nat)
  | update_time (ms : Nat)
  | next_timeout
  | run_timer

/-- What is seen of a call: its result, or the callback that it calls. -/
inductive Seen (C : Type)
  | result (code : Int)
  | called (cb : Option (Nat × C))

/-- A call on the loop of libuv. -/
def uv_loop_t.step {C : Type} (L : uv_loop_t C) : TimerCall C → Option (Seen C × uv_loop_t C)
  | .init k => some (.result 0, L.uv_timer_init k)
  | .start k cb timeout period => (L.uv_timer_start k cb timeout period).map fun r => (.result r.1, r.2)
  | .stop k => (L.uv_timer_stop k).map fun L => (.result 0, L)
  | .again k => (L.uv_timer_again k).map fun r => (.result r.1, r.2)
  | .set_repeat k period => some (.result 0, L.uv_timer_set_repeat k period)
  | .update_time ms => some (.result 0, { L with time := L.time + ms })
  | .next_timeout => some (.result L.next_timeout, L)
  | .run_timer => L.run_timer.map fun r => (.called r.1, r.2)

/-- The loop of libuv as the rest of the development sees it, with the callback and the `repeat` of each timer. -/
structure Clock (C : Type) where
  loop : Loop
  cb : Nat → Option C
  period : Nat → Nat

namespace Clock

variable {C : Type} (s : Clock C)

/-- The timers that are active. -/
def handles : Finset Nat := (s.loop.timers.map Active.handle).toFinset

/-- A timer is started. -/
def start (k : Nat) (cb : C) (timeout period : Nat) : Clock C :=
  ⟨s.loop.timerStart k timeout period, Function.update s.cb k (some cb), Function.update s.period k period⟩

/-- A timer is to have another `repeat`. -/
def setRepeat (k period : Nat) : Clock C :=
  { s with
    loop := { s.loop with timers := s.loop.timers.map fun a => if a.handle = k then { a with period := period } else a }
    period := Function.update s.period k period }

/-- A call on the clock. -/
def step : TimerCall C → Seen C × Clock C
  | .init k => (.result 0, { s with cb := Function.update s.cb k none, period := Function.update s.period k 0 })
  | .start k cb timeout period =>
    match cb with
    | none => (.result (-EINVAL), s)
    | some cb => (.result 0, s.start k cb timeout period)
  | .stop k => (.result 0, { s with loop := s.loop.timerStop k })
  | .again k =>
    (.result (if (s.cb k).isSome then 0 else -EINVAL),
      { s with loop := if (s.cb k).isSome then s.loop.timerAgain k (s.period k) else s.loop })
  | .set_repeat k period => (.result 0, s.setRepeat k period)
  | .update_time ms => (.result 0, { s with loop := { s.loop with time := s.loop.time + ms } })
  | .next_timeout =>
    match s.loop.heapMin with
    | none => (.result (-1), s)
    | some a => (.result (if a.timeout ≤ s.loop.time then 0 else min (a.timeout - s.loop.time) uv_loop_t.INT_MAX), s)
  | .run_timer =>
    match s.loop.heapMin with
    | none => (.called none, s)
    | some a =>
      if s.loop.time < a.timeout then (.called none, s)
      else (.called ((s.cb a.handle).map fun cb => (a.handle, cb)),
        { s with loop := (s.loop.timerStop a.handle).timerAgain a.handle a.period })

end Clock

/-! ## Refinement -/

section Refinement

variable {C : Type} {L L' : uv_loop_t C} {s : Clock C} {k : Nat}

/-- What timers are compared by. -/
def uv_loop_t.key (L : uv_loop_t C) (k : Nat) : ℕ ×ₗ ℕ := toLex ((L.timers k).timeout, (L.timers k).start_id)

theorem timer_less_than_iff (a b : Nat) : L.timer_less_than a b = true ↔ L.key a < L.key b := by
  unfold uv_loop_t.timer_less_than uv_loop_t.key
  rw [Prod.Lex.toLex_lt_toLex]
  grind

/-- A clock whose active timers have different handles and starts, and whose numbers fit in their types. -/
structure Clock.Sound (s : Clock C) : Prop where
  distinct : s.loop.Distinct
  older : ∀ a ∈ s.loop.timers, a.start_id < s.loop.timer_counter
  unique : ∀ a ∈ s.loop.timers, ∀ b ∈ s.loop.timers, a.start_id = b.start_id → a = b
  period : ∀ a ∈ s.loop.timers, a.period = s.period a.handle
  started : ∀ a ∈ s.loop.timers, (s.cb a.handle).isSome
  now : s.loop.time < 2 ^ 64
  repeats : ∀ k, s.period k < 2 ^ 64
  few : ∀ a ∈ s.loop.timers, a.handle < 2 ^ 32 - 1

/-- The loop of libuv is in the state of a clock: the heap has the nodes of its active timers. -/
structure Refines (L : uv_loop_t C) (s : Clock C) : Prop where
  time : L.time = s.loop.time
  counter : L.timer_counter = s.loop.timer_counter
  heap : L.timer_heap.Holds L.key s.handles
  count : L.active_handles = s.handles.card
  active : ∀ k, (L.timers k).active = true ↔ k ∈ s.handles
  cb : ∀ k, (L.timers k).timer_cb = s.cb k
  period : ∀ k, (L.timers k).period = s.period k
  timer : ∀ a ∈ s.loop.timers, L.key a.handle = a.key

theorem mem_handles : k ∈ s.handles ↔ ∃ a ∈ s.loop.timers, a.handle = k := by simp [Clock.handles]

theorem handles_stop : Clock.handles { s with loop := s.loop.timerStop k } = s.handles.erase k := by
  ext j
  simp only [mem_handles, Finset.mem_erase, Loop.mem_timerStop]
  grind

theorem timerStop_of_not_mem (hk : k ∉ s.handles) : s.loop.timerStop k = s.loop := by
  have hall : ∀ a ∈ s.loop.timers, a.handle ≠ k := fun a ha he => hk (mem_handles.2 ⟨a, ha, he⟩)
  unfold Loop.timerStop
  rw [List.filter_eq_self.2 fun a ha => decide_eq_true (hall a ha)]

/-- There are not more active timers than numbers for them. -/
theorem Clock.Sound.card (hs : s.Sound) : s.handles.card < 2 ^ 32 := by
  have hsub : s.handles ⊆ Finset.range (2 ^ 32 - 1) := fun k hk => by
    obtain ⟨a, ha, rfl⟩ := mem_handles.1 hk
    exact Finset.mem_range.2 (hs.few a ha)
  have hle := Finset.card_le_card hsub
  rw [Finset.card_range] at hle
  omega

theorem Clock.Sound.stop (hs : s.Sound) (k : Nat) : Clock.Sound { s with loop := s.loop.timerStop k } where
  distinct := hs.distinct.stop
  older a ha := hs.older a (Loop.mem_timerStop.1 ha).1
  unique a ha b hb := hs.unique a (Loop.mem_timerStop.1 ha).1 b (Loop.mem_timerStop.1 hb).1
  period a ha := hs.period a (Loop.mem_timerStop.1 ha).1
  started a ha := hs.started a (Loop.mem_timerStop.1 ha).1
  now := hs.now
  repeats := hs.repeats
  few a ha := hs.few a (Loop.mem_timerStop.1 ha).1

/-- **Stopping** a timer. -/
theorem Refines.stop (h : Refines L s) (hs : s.Sound) (k : Nat) : ∃ L', L.uv_timer_stop k = some L' ∧
    Refines L' { s with loop := s.loop.timerStop k } ∧ (L'.timers k).active = false := by
  unfold uv_loop_t.uv_timer_stop
  by_cases hk : (L.timers k).active = true
  · obtain ⟨heap, hremove, hheap⟩ := h.heap.remove timer_less_than_iff ((h.active k).1 hk) hs.card
    have htimers : ∀ j, ((L.put k { L.timers k with active := false }).timers j) =
        { L.timers j with active := if j = k then false else (L.timers j).active } := by
      intro j
      by_cases hj : j = k
      · subst hj
        simp [uv_loop_t.put]
      · simp [uv_loop_t.put, hj]
    have hkey : ∀ j, (L.put k { L.timers k with active := false }).key j = L.key j := fun j => by
      unfold uv_loop_t.key
      rw [htimers]
    refine ⟨{ L.put k { L.timers k with active := false } with timer_heap := heap, active_handles :=
      L.active_handles - 1 }, ?_, ?_, ?_⟩
    · rw [if_pos hk, hremove, Option.bind_eq_bind, Option.bind_some]
      unfold uv_loop_t.handle_stop
      rw [if_pos hk]
      rfl
    · refine ⟨h.time, h.counter, ?_, ?_, fun j => ?_, fun j => ?_, fun j => ?_, fun a ha => ?_⟩
      · rw [handles_stop]
        exact hheap.congr fun j _ => hkey j
      · rw [handles_stop, Finset.card_erase_of_mem ((h.active k).1 hk), ← h.count]
      · rw [handles_stop, Finset.mem_erase, ← h.active j]
        dsimp only
        rw [htimers]
        by_cases hj : j = k <;> simp [hj]
      · dsimp only
        rw [htimers]
        exact h.cb j
      · dsimp only
        rw [htimers]
        exact h.period j
      · exact (hkey a.handle).trans (h.timer a (Loop.mem_timerStop.1 ha).1)
    · dsimp only
      rw [htimers, if_pos rfl]
  · refine ⟨L, if_neg hk, ?_, Bool.not_eq_true _ ▸ hk⟩
    rw [timerStop_of_not_mem (mt (h.active k).2 hk)]
    exact h

theorem handles_start (k : Nat) (cb : C) (timeout period : Nat) :
    (s.start k cb timeout period).handles = insert k (s.handles.erase k) := by
  ext j
  simp only [mem_handles, Finset.mem_insert, Finset.mem_erase, Clock.start, Loop.mem_timerStart]
  grind

theorem Clock.Sound.start (hs : s.Sound) (cb : C) (timeout : Nat) {period : Nat} (hk : k < 2 ^ 32 - 1)
    (hp : period < 2 ^ 64) :
    (s.start k cb timeout period).Sound where
  distinct := hs.distinct.start
  older a ha := by
    change a.start_id < s.loop.timer_counter + 1
    obtain ⟨ha, -⟩ | rfl := Loop.mem_timerStart.1 ha
    · exact Nat.lt_succ_of_lt (hs.older a ha)
    · exact Nat.lt_succ_self _
  unique a ha b hb he := by
    obtain ⟨ha, -⟩ | rfl := Loop.mem_timerStart.1 ha
    · obtain ⟨hb, -⟩ | rfl := Loop.mem_timerStart.1 hb
      · exact hs.unique a ha b hb he
      · exact absurd he (hs.older a ha).ne
    · obtain ⟨hb, -⟩ | rfl := Loop.mem_timerStart.1 hb
      · exact absurd he (hs.older b hb).ne'
      · rfl
  period a ha := by
    obtain ⟨ha, hne⟩ | rfl := Loop.mem_timerStart.1 ha
    · exact (hs.period a ha).trans (Function.update_of_ne hne _ _).symm
    · exact (Function.update_self k period s.period).symm
  started a ha := by
    dsimp only [Clock.start]
    obtain ⟨ha, hne⟩ | rfl := Loop.mem_timerStart.1 ha
    · rw [Function.update_of_ne hne]
      exact hs.started a ha
    · rw [Function.update_self]
      rfl
  now := hs.now
  repeats j := by
    dsimp only [Clock.start]
    rw [Function.update_apply]
    split
    · exact hp
    · exact hs.repeats j
  few a ha := by
    obtain ⟨ha, -⟩ | rfl := Loop.mem_timerStart.1 ha
    · exact hs.few a ha
    · exact hk

/-- Where a `uint64_t` is too small for a sum, its greatest value stands in. -/
theorem clamped_timeout_eq {timeout : Nat} (hL : L.time < 2 ^ 64) (ht : timeout < 2 ^ 64) :
    L.clamped_timeout timeout = min (L.time + timeout) (2 ^ 64 - 1) := by
  unfold uv_loop_t.clamped_timeout
  by_cases hsum : L.time + timeout < 2 ^ 64
  · rw [Nat.mod_eq_of_lt hsum, if_neg (by omega)]
    omega
  · have hmod : (L.time + timeout) % 2 ^ 64 = L.time + timeout - 2 ^ 64 := by omega
    rw [hmod, if_pos (by omega)]
    omega

/-- **Starting** a timer, whether it is active or not. -/
theorem Refines.start (h : Refines L s) (hs : s.Sound)
    (cb : C) {timeout period : Nat} (hk : k < 2 ^ 32 - 1) (ht : timeout < 2 ^ 64)
    (hp : period < 2 ^ 64) (hc : s.loop.timer_counter + 1 < 2 ^ 64) :
    ∃ L', L.uv_timer_start k (some cb) timeout period = some (0, L') ∧ Refines L' (s.start k cb timeout period) := by
  obtain ⟨L₁, hstop, h₁, hoff⟩ := h.stop hs k
  have hguard : L.stop_active k = some L₁ := by
    rw [← hstop]
    unfold uv_loop_t.stop_active uv_loop_t.uv_timer_stop
    split <;> rfl
  obtain ⟨t, ht'⟩ : ∃ t : uv_timer_t C, t = { L₁.timers k with
      timer_cb := some cb, timeout := L₁.clamped_timeout timeout, period := period,
      start_id := L₁.timer_counter } := ⟨_, rfl⟩
  obtain ⟨L₂, hL₂⟩ : ∃ L, L = { L₁.put k t with timer_counter := s.loop.timer_counter + 1 } := ⟨_, rfl⟩
  have htimers : ∀ j, L₂.timers j = if j = k then t else L₁.timers j := fun j => by
    rw [hL₂]
    exact Function.update_apply ..
  have hoff₂ : (L₂.timers k).active = false := by
    rw [htimers, if_pos rfl, ht']
    exact hoff
  have hkey : ∀ j, j ≠ k → L₂.key j = L₁.key j := fun j hj => by
    unfold uv_loop_t.key
    rw [htimers, if_neg hj]
  have hkeyk : L₂.key k = toLex (min (s.loop.time + timeout) (2 ^ 64 - 1), s.loop.timer_counter) := by
    have htime : L₁.time = s.loop.time := h₁.time
    unfold uv_loop_t.key
    rw [htimers, if_pos rfl, ht', ← htime, ← clamped_timeout_eq (htime ▸ hs.now) ht]
    exact congrArg (fun c => toLex (L₁.clamped_timeout timeout, c)) h₁.counter
  have hnot : k ∉ Clock.handles { s with loop := s.loop.timerStop k } := by
    rw [handles_stop]
    exact Finset.notMem_erase k _
  have hcard : (s.start k cb timeout period).handles.card < 2 ^ 32 := (hs.start cb timeout hk hp).card
  rw [handles_start, ← handles_stop, Finset.card_insert_of_notMem hnot] at hcard
  have hheap : L₂.timer_heap.Holds L₂.key (Clock.handles { s with loop := s.loop.timerStop k }) := by
    rw [hL₂]
    exact h₁.heap.congr fun j hj => hL₂ ▸ hkey j fun he => hnot (he ▸ hj)
  obtain ⟨heap, hinsert, hheap'⟩ := hheap.insert timer_less_than_iff hnot hcard
  rw [handles_stop, ← handles_start k cb timeout period] at hheap'
  refine ⟨{ L₂.put k { t with active := true } with
    timer_heap := heap, active_handles := L₂.active_handles + 1 }, ?_, ?_⟩
  · have hcounter : (L₁.timer_counter + 1) % 2 ^ 64 = s.loop.timer_counter + 1 := by
      rw [show L₁.timer_counter = s.loop.timer_counter from h₁.counter, Nat.mod_eq_of_lt hc]
    unfold uv_loop_t.uv_timer_start
    dsimp only
    rw [hguard]
    simp only [Option.bind_eq_bind, Option.bind_some, ← ht']
    have hinsert' : (L₁.put k t).timer_heap.heap_insert L₂.timer_less_than k = some heap := by
      rw [hL₂] at hinsert ⊢
      exact hinsert
    rw [show (L₁.put k t).timer_counter = L₁.timer_counter from rfl, hcounter, ← hL₂, hinsert', Option.bind_some]
    change some (0, uv_loop_t.handle_start {
      ({ L₁.put k t with timer_counter := s.loop.timer_counter + 1 } : uv_loop_t C) with
      timer_heap := heap } k) = _
    rw [← hL₂]
    unfold uv_loop_t.handle_start
    have hnot : ¬(L₂.timers k).active = true := by rw [hoff₂]; exact Bool.false_ne_true
    rw [if_neg hnot, show L₂.timers k = t by rw [htimers, if_pos rfl]]
    rfl
  · have hfinal : ∀ j,
        (L₂.put k { t with active := true }).timers j = if j = k then { t with active := true } else L₁.timers j :=
      fun j => by
      unfold uv_loop_t.put
      dsimp only
      rw [Function.update_apply]
      split
      · rfl
      · rename_i hj
        rw [htimers, if_neg hj]
    have hsame : ∀ j, (L₂.put k { t with active := true }).key j = L₂.key j := fun j => by
      unfold uv_loop_t.key
      rw [hfinal, htimers]
      split <;> rfl
    refine ⟨?_, ?_, hheap'.congr fun j _ => hsame j, ?_, fun j => ?_, fun j => ?_, fun j => ?_, fun a ha => ?_⟩
    · rw [hL₂]
      exact h₁.time
    · rw [hL₂]
      rfl
    · dsimp only
      rw [handles_start, ← handles_stop, Finset.card_insert_of_notMem hnot, hL₂]
      exact congrArg (· + 1) h₁.count
    · dsimp only
      rw [hfinal, handles_start, ← handles_stop, Finset.mem_insert]
      split
      · rename_i hj
        exact iff_of_true rfl (.inl hj)
      · rename_i hj
        rw [h₁.active, or_iff_right hj]
    · dsimp only [Clock.start]
      rw [hfinal, Function.update_apply]
      split
      · rw [ht']
      · exact h₁.cb j
    · dsimp only [Clock.start]
      rw [hfinal, Function.update_apply]
      split
      · rw [ht']
      · exact h₁.period j
    · refine (hsame a.handle).trans ?_
      obtain ⟨ha, hne⟩ | rfl := Loop.mem_timerStart.1 ha
      · rw [hkey _ hne]
        exact h₁.timer a (Loop.mem_timerStop.2 ⟨ha, hne⟩)
      · exact hkeyk

/-- **Starting again** a timer that repeats. -/
theorem Refines.again (h : Refines L s) (hs : s.Sound) (hk : k < 2 ^ 32 - 1) (hc : s.loop.timer_counter + 1 < 2 ^ 64) :
    ∃ L', L.uv_timer_again k = some (if (s.cb k).isSome then 0 else -EINVAL, L') ∧
      Refines L' { s with loop := if (s.cb k).isSome then s.loop.timerAgain k (s.period k) else s.loop } := by
  unfold uv_loop_t.uv_timer_again
  rw [h.cb k, h.period k]
  cases hcb : s.cb k with
  | none => exact ⟨L, rfl, h⟩
  | some cb =>
    by_cases hzero : s.period k = 0
    · refine ⟨L, if_pos hzero, ?_⟩
      rw [Loop.timerAgain, if_pos hzero]
      exact h
    · obtain ⟨L₁, hstop, h₁, -⟩ := h.stop hs k
      obtain ⟨L₂, hstart, h₂⟩ := h₁.start (hs.stop k) cb hk (hs.repeats k) (hs.repeats k) hc
      have hperiod : (L₁.timers k).period = s.period k := h₁.period k
      refine ⟨L₂, ?_, ?_⟩
      · dsimp only
        rw [if_neg hzero, hstop]
        simp only [Option.bind_eq_bind, Option.bind_some, hperiod]
        rw [hstart]
        rfl
      · have hsame : Clock.start { s with loop := s.loop.timerStop k } k cb (s.period k) (s.period k) =
            { s with loop := s.loop.timerStart k (s.period k) (s.period k) } := by
          unfold Clock.start Loop.timerStart Loop.timerStop
          simp only [List.filter_filter, Bool.and_self, ← hcb, Function.update_eq_self]
        rw [hsame] at h₂
        simp only [Option.isSome_some, if_true, Loop.timerAgain, if_neg hzero]
        exact h₂

/-- **The first timer**: two active timers have different starts, so it is one. -/
theorem Refines.min (h : Refines L s) (hs : s.Sound) : L.timer_heap.heap_min = s.loop.heapMin.map Active.handle := by
  cases hmin : s.loop.heapMin with
  | none =>
    refine h.heap.min_eq_none.2 (Finset.eq_empty_of_forall_notMem fun k hk => ?_)
    obtain ⟨a, ha, -⟩ := mem_handles.1 hk
    rw [Loop.heapMin_eq_none.1 hmin] at ha
    cases ha
  | some a =>
    obtain ⟨ha, hfirst⟩ := Loop.heapMin_spec hmin
    have hmem : a.handle ∈ s.handles := mem_handles.2 ⟨a, ha, rfl⟩
    cases hk : L.timer_heap.heap_min with
    | none =>
      rw [h.heap.min_eq_none.1 hk] at hmem
      cases hmem
    | some k =>
      obtain ⟨hkmem, hle⟩ := h.heap.min_le hk
      obtain ⟨b, hb, rfl⟩ := mem_handles.1 hkmem
      have hba : b.key ≤ a.key := by
        rw [← h.timer b hb, ← h.timer a ha]
        exact hle _ hmem
      have hkey : a.key = b.key := le_antisymm (hfirst b hb) hba
      have hstart : a.start_id = b.start_id := congrArg (fun p => (ofLex p).2) hkey
      rw [hs.unique a ha b hb hstart]
      rfl

theorem Refines.timeout (h : Refines L s) {a : Active} (ha : a ∈ s.loop.timers) :
    (L.timers a.handle).timeout = a.timeout :=
  congrArg (fun p => (ofLex p).1) (h.timer a ha)

theorem step_run_timer_some {a : Active} (hmin : s.loop.heapMin = some a) : s.step .run_timer =
    if s.loop.time < a.timeout then (.called none, s)
    else (.called ((s.cb a.handle).map fun cb => (a.handle, cb)),
      { s with loop := (s.loop.timerStop a.handle).timerAgain a.handle a.period }) := by
  simp only [Clock.step, hmin]

theorem step_run_timer_none (hmin : s.loop.heapMin = none) : s.step .run_timer = (.called none, s) := by
  simp only [Clock.step, hmin]

/-- **A round** of `uv__run_timers`. -/
theorem Refines.run_timer (h : Refines L s) (hs : s.Sound) (hc : s.loop.timer_counter + 1 < 2 ^ 64) :
    ∃ L' cb, L.run_timer = some (cb, L') ∧ (s.step .run_timer).1 = .called cb ∧ Refines L' (s.step .run_timer).2 := by
  unfold uv_loop_t.run_timer
  rw [h.min hs]
  cases hmin : s.loop.heapMin with
  | none =>
    rw [step_run_timer_none hmin]
    exact ⟨L, none, rfl, rfl, h⟩
  | some a =>
    obtain ⟨ha, -⟩ := Loop.heapMin_spec hmin
    rw [step_run_timer_some hmin]
    dsimp only [Option.map_some]
    rw [h.time, h.timeout ha]
    by_cases hlt : s.loop.time < a.timeout
    · rw [if_pos hlt, if_pos hlt]
      exact ⟨L, none, rfl, rfl, h⟩
    · rw [if_neg hlt, if_neg hlt]
      obtain ⟨L₁, hstop, h₁, -⟩ := h.stop hs a.handle
      obtain ⟨L₂, hagain, h₂⟩ := h₁.again (hs.stop a.handle) (hs.few a ha) hc
      obtain ⟨cb, hcb⟩ := Option.isSome_iff_exists.1 (hs.started a ha)
      have hcb₂ : (L₂.timers a.handle).timer_cb = some cb := (h₂.cb a.handle).trans hcb
      simp only [hcb, Option.isSome_some, if_true, ← hs.period a ha] at h₂
      refine ⟨L₂, some (a.handle, cb), ?_, by rw [hcb]; rfl, h₂⟩
      rw [hstop]
      simp only [Option.bind_eq_bind, Option.bind_some, hagain, hcb₂]

/-- The numbers of a call fit in their types, a timer that is made is not active, and there are fewer timers than an
`unsigned int` counts. -/
def Clock.Fits (s : Clock C) : TimerCall C → Prop
  | .init k => k ∉ s.handles
  | .start k _ timeout period => k < 2 ^ 32 - 1 ∧ timeout < 2 ^ 64 ∧ period < 2 ^ 64 ∧ s.loop.timer_counter + 1 < 2 ^ 64
  | .again k => k < 2 ^ 32 - 1 ∧ s.loop.timer_counter + 1 < 2 ^ 64
  | .set_repeat _ period => period < 2 ^ 64
  | .update_time ms => s.loop.time + ms < 2 ^ 64
  | .run_timer => s.loop.timer_counter + 1 < 2 ^ 64
  | _ => True

theorem Clock.Sound.again (hs : s.Sound) (hk : k < 2 ^ 32 - 1) (hcb : (s.cb k).isSome) :
    Clock.Sound { s with loop := s.loop.timerAgain k (s.period k) } := by
  unfold Loop.timerAgain
  split
  · exact hs
  · obtain ⟨cb, hcb⟩ := Option.isSome_iff_exists.1 hcb
    have hstart := hs.start cb (s.period k) hk (hs.repeats k)
    unfold Clock.start at hstart
    rwa [← hcb, Function.update_eq_self, Function.update_eq_self] at hstart

theorem mem_setRepeat {period : Nat} {a : Active} : a ∈ (s.setRepeat k period).loop.timers ↔
    ∃ b ∈ s.loop.timers, a = { b with period := if b.handle = k then period else b.period } := by
  dsimp only [Clock.setRepeat]
  rw [List.mem_map]
  constructor
  · rintro ⟨b, hb, rfl⟩
    refine ⟨b, hb, ?_⟩
    split <;> rfl
  · rintro ⟨b, hb, rfl⟩
    refine ⟨b, hb, ?_⟩
    split <;> rfl

theorem handles_setRepeat {period : Nat} : (s.setRepeat k period).handles = s.handles := by
  ext j
  simp only [mem_handles, mem_setRepeat]
  grind

theorem Clock.Sound.step (hs : s.Sound) {call : TimerCall C} (hfits : s.Fits call) : (s.step call).2.Sound := by
  cases call with
  | init k =>
    have hne : ∀ a ∈ s.loop.timers, a.handle ≠ k := fun a ha he => hfits (mem_handles.2 ⟨a, ha, he⟩)
    refine ⟨hs.distinct, hs.older, hs.unique, fun a ha => ?_, fun a ha => ?_, hs.now, fun j => ?_, hs.few⟩
    · exact (hs.period a ha).trans (Function.update_of_ne (hne a ha) _ _).symm
    · dsimp only [Clock.step]
      rw [Function.update_of_ne (hne a ha)]
      exact hs.started a ha
    · dsimp only [Clock.step]
      rw [Function.update_apply]
      split
      · decide
      · exact hs.repeats j
  | start k cb timeout period =>
    cases cb with
    | none => exact hs
    | some cb => exact hs.start cb timeout hfits.1 hfits.2.2.1
  | stop k => exact hs.stop k
  | again k =>
    dsimp only [Clock.step]
    split
    · rename_i hcb
      exact hs.again hfits.1 hcb
    · exact hs
  | set_repeat k period =>
    refine ⟨?_, fun a ha => ?_, fun a ha b hb he => ?_, fun a ha => ?_, fun a ha => ?_, hs.now, fun j => ?_,
      fun a ha => ?_⟩
    · have hsame : (s.setRepeat k period).loop.timers.map Active.handle = s.loop.timers.map Active.handle := by
        dsimp only [Clock.setRepeat]
        rw [List.map_map]
        refine List.map_congr_left fun a _ => ?_
        dsimp only [Function.comp]
        split <;> rfl
      exact (congrArg List.Nodup hsame).mpr hs.distinct
    · obtain ⟨b, hb, rfl⟩ := mem_setRepeat.1 ha
      exact hs.older b hb
    · obtain ⟨c, hc, rfl⟩ := mem_setRepeat.1 ha
      obtain ⟨d, hd, rfl⟩ := mem_setRepeat.1 hb
      rw [hs.unique c hc d hd he]
    · obtain ⟨b, hb, rfl⟩ := mem_setRepeat.1 ha
      dsimp only [Clock.step, Clock.setRepeat]
      rw [Function.update_apply]
      split
      · rfl
      · exact hs.period b hb
    · obtain ⟨b, hb, rfl⟩ := mem_setRepeat.1 ha
      exact hs.started b hb
    · dsimp only [Clock.step, Clock.setRepeat]
      rw [Function.update_apply]
      split
      · exact hfits
      · exact hs.repeats j
    · obtain ⟨b, hb, rfl⟩ := mem_setRepeat.1 ha
      exact hs.few b hb
  | update_time ms => exact ⟨hs.distinct, hs.older, hs.unique, hs.period, hs.started, hfits, hs.repeats, hs.few⟩
  | next_timeout =>
    dsimp only [Clock.step]
    split <;> exact hs
  | run_timer =>
    cases hmin : s.loop.heapMin with
    | none =>
      rw [step_run_timer_none hmin]
      exact hs
    | some a =>
      obtain ⟨ha, -⟩ := Loop.heapMin_spec hmin
      rw [step_run_timer_some hmin]
      split
      · exact hs
      · rw [hs.period a ha]
        exact (hs.stop a.handle).again (hs.few a ha) (hs.started a ha)

/-- **A call** does on the loop of libuv what it does on the clock. -/
theorem step_refines (h : Refines L s) (hs : s.Sound) {call : TimerCall C} (hfits : s.Fits call) :
    ∃ L', L.step call = some ((s.step call).1, L') ∧ Refines L' (s.step call).2 := by
  cases call with
  | init k =>
    have htimers : ∀ j, (L.uv_timer_init k).timers j =
        if j = k then { L.timers k with timer_cb := none, period := 0, active := false } else L.timers j :=
      fun j => Function.update_apply ..
    have hkey : ∀ j, (L.uv_timer_init k).key j = L.key j := fun j => by
      unfold uv_loop_t.key
      rw [htimers]
      split
      · rename_i hj
        rw [hj]
      · rfl
    refine ⟨L.uv_timer_init k, rfl, h.time, h.counter, h.heap.congr fun j _ => hkey j, h.count, fun j => ?_,
      fun j => ?_, fun j => ?_, fun a ha => (hkey a.handle).trans (h.timer a ha)⟩
    · rw [htimers]
      split
      · rename_i hj
        exact iff_of_false Bool.false_ne_true (hj ▸ hfits)
      · exact h.active j
    · dsimp only [Clock.step]
      rw [htimers, Function.update_apply]
      split
      · rfl
      · exact h.cb j
    · dsimp only [Clock.step]
      rw [htimers, Function.update_apply]
      split
      · rfl
      · exact h.period j
  | start k cb timeout period =>
    cases cb with
    | none => exact ⟨L, rfl, h⟩
    | some cb =>
      obtain ⟨hk, ht, hp, hc⟩ := hfits
      obtain ⟨L', hstart, h'⟩ := h.start hs cb hk ht hp hc
      exact ⟨L', by rw [uv_loop_t.step, hstart]; rfl, h'⟩
  | stop k =>
    obtain ⟨L', hstop, h', -⟩ := h.stop hs k
    exact ⟨L', by rw [uv_loop_t.step, hstop]; rfl, h'⟩
  | again k =>
    obtain ⟨L', hagain, h'⟩ := h.again hs hfits.1 hfits.2
    exact ⟨L', by rw [uv_loop_t.step, hagain]; rfl, h'⟩
  | set_repeat k period =>
    have htimers : ∀ j, (L.uv_timer_set_repeat k period).timers j =
        if j = k then { L.timers k with period := period } else L.timers j := fun j => Function.update_apply ..
    have hkey : ∀ j, (L.uv_timer_set_repeat k period).key j = L.key j := fun j => by
      unfold uv_loop_t.key
      rw [htimers]
      split
      · rename_i hj
        rw [hj]
      · rfl
    refine ⟨L.uv_timer_set_repeat k period, rfl, h.time, h.counter, ?_, ?_, fun j => ?_, fun j => ?_, fun j => ?_,
      fun a ha => ?_⟩
    · rw [Clock.step, handles_setRepeat]
      exact h.heap.congr fun j _ => hkey j
    · rw [Clock.step, handles_setRepeat]
      exact h.count
    · rw [htimers, Clock.step, handles_setRepeat, ← h.active j]
      split
      · rename_i hj
        rw [hj]
      · rfl
    · refine Eq.trans ?_ (h.cb j)
      rw [htimers]
      split
      · rename_i hj
        rw [hj]
      · rfl
    · dsimp only [Clock.step, Clock.setRepeat]
      rw [htimers, Function.update_apply]
      split
      · rfl
      · exact h.period j
    · obtain ⟨b, hb, rfl⟩ := mem_setRepeat.1 ha
      exact (hkey b.handle).trans (h.timer b hb)
  | update_time ms => exact ⟨_, rfl, congrArg (· + ms) h.time, h.counter, h.heap, h.count, h.active, h.cb,
      h.period, h.timer⟩
  | next_timeout =>
    refine ⟨L, ?_, ?_⟩
    · dsimp only [uv_loop_t.step, Clock.step, uv_loop_t.next_timeout]
      rw [h.min hs]
      cases hmin : s.loop.heapMin with
      | none => rfl
      | some a =>
        dsimp only [Option.map_some]
        rw [h.time, h.timeout (Loop.heapMin_spec hmin).1]
    · dsimp only [Clock.step]
      split <;> exact h
  | run_timer =>
    obtain ⟨L', cb, hrun, hcb, h'⟩ := h.run_timer hs hfits
    exact ⟨L', by rw [uv_loop_t.step, hrun, hcb]; rfl, h'⟩

end Refinement

/-! ## Runs -/

/-- A run on the loop of libuv. -/
def uv_loop_t.run {C : Type} (L : uv_loop_t C) : List (TimerCall C) → Option (List (Seen C) × uv_loop_t C)
  | [] => some ([], L)
  | call :: calls => do
    let r ← L.step call
    let rest ← uv_loop_t.run r.2 calls
    some (r.1 :: rest.1, rest.2)

/-- What is seen of a run on the clock. -/
def Clock.seen {C : Type} (s : Clock C) : List (TimerCall C) → List (Seen C)
  | [] => []
  | call :: calls => (s.step call).1 :: Clock.seen (s.step call).2 calls

/-- A loop without timers, and the nodes that are in memory before they are used. -/
def uv_loop_t.init (C : Type) (time : Nat) (node : Nat → heap_node) : uv_loop_t C :=
  ⟨time, 0, .init node, 0, fun _ => ⟨none, 0, 0, 0, false⟩⟩

/-- A clock without timers. -/
def Clock.init (C : Type) (time : Nat) : Clock C := ⟨⟨time, 0, []⟩, fun _ => none, fun _ => 0⟩

section Runs

variable {C : Type} {L : uv_loop_t C} {s : Clock C}

theorem refines_init (time : Nat) (node : Nat → heap_node) :
    Refines (uv_loop_t.init C time node) (Clock.init C time) where
  time := rfl
  counter := rfl
  heap := Heap.holds_init node
  count := rfl
  active k := iff_of_false Bool.false_ne_true (Finset.notMem_empty k)
  cb _ := rfl
  period _ := rfl
  timer _ ha := absurd ha List.not_mem_nil

theorem sound_init {time : Nat} (ht : time < 2 ^ 64) : (Clock.init C time).Sound where
  distinct := List.nodup_nil
  older _ ha := absurd ha List.not_mem_nil
  unique _ ha := absurd ha List.not_mem_nil
  period _ ha := absurd ha List.not_mem_nil
  started _ ha := absurd ha List.not_mem_nil
  now := ht
  repeats _ := Nat.two_pow_pos 64
  few _ ha := absurd ha List.not_mem_nil

/-- **A run** from states that correspond. -/
theorem run_refines : ∀ (calls : List (TimerCall C)) {L : uv_loop_t C} {s : Clock C}, Refines L s → s.Sound →
    Run.Along (fun s call => (s.step call).2) Clock.Fits s calls →
    ∃ L', L.run calls = some (s.seen calls, L') ∧ Refines L' (calls.foldl (fun s call => (s.step call).2) s)
  | [], L, _, h, _, _ => ⟨L, rfl, h⟩
  | call :: calls, L, s, h, hs, hfits => by
    obtain ⟨L₁, hstep, h₁⟩ := step_refines h hs hfits.1
    obtain ⟨L₂, hrun, h₂⟩ := run_refines calls h₁ (hs.step hfits.1) hfits.2
    refine ⟨L₂, ?_, h₂⟩
    simp only [uv_loop_t.run, hstep, Option.bind_eq_bind, Option.bind_some, hrun, Clock.seen]

/-- **The timers of libuv**: every run from a loop without timers whose numbers fit in their types comes to an end, no
`NULL` is followed, and what is seen of it is what the clock shows; the heap has the nodes of the active timers then, in
order. -/
theorem uv_timers_refine {time : Nat} (ht : time < 2 ^ 64) (node : Nat → heap_node) (calls : List (TimerCall C))
    (hfits : Run.Along (fun s call => (s.step call).2) Clock.Fits (Clock.init C time) calls) :
    ∃ L, (uv_loop_t.init C time node).run calls = some ((Clock.init C time).seen calls, L) ∧
      Refines L (calls.foldl (fun s call => (s.step call).2) (Clock.init C time)) :=
  run_refines calls (refines_init time node) (sound_init ht) hfits

end Runs

/-- Two timers, of which the one that is started last is due first, and repeats. -/
def twoTimers : List (TimerCall Nat) :=
  [.init 0, .init 1, .start 0 (some 7) 10 0, .start 1 (some 8) 3 4, .update_time 11, .run_timer, .run_timer,
    .next_timeout, .stop 1, .next_timeout]

theorem uv_timers_refine_two : ∃ L, (uv_loop_t.init Nat 5 fun _ => ⟨none, none, none⟩).run twoTimers =
    some ([.result 0, .result 0, .result 0, .result 0, .result 0, .called (some (1, 8)), .called (some (0, 7)),
      .result 4, .result 0, .result (-1)], L) := by
  obtain ⟨L, hrun, -⟩ := uv_timers_refine (show 5 < 2 ^ 64 by decide) (fun _ => ⟨none, none, none⟩) twoTimers
    ⟨List.not_mem_nil, List.not_mem_nil, ⟨by decide, by decide, by decide, by decide⟩,
      ⟨by decide, by decide, by decide, by decide⟩,
      (show 5 + 11 < 2 ^ 64 by decide), (show 2 + 1 < 2 ^ 64 by decide), (show 3 + 1 < 2 ^ 64 by decide), trivial,
      trivial, trivial, trivial⟩
  exact ⟨L, hrun⟩

end XCore.Timer
