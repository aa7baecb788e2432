import Mathlib.Data.List.MinMax
import Mathlib.Data.List.Nodup
import Mathlib.Data.Prod.Lex
import Mathlib.Tactic.Ring

/-!
# The timers of the event loop (`timer.c` of libuv)

The heap of a loop is a list of the timers that are active; `uv__run_timers` takes the first by the time at which it is
due and by the number of its start (`timer_less_than`). `handles` and `Running` are what later modules know of a loop:

- `running_start`, `running_stop`, `running_again`: what the operations do to them;
- `heapMin_spec`: the timer that is taken is active, and no other comes before it.
-/

namespace XCore.Timer

/-- An active timer: when it is due, the number of its start, and its `repeat`. -/
structure Active where
  handle : Nat
  timeout : Nat
  start_id : Nat
  period : Nat
  deriving DecidableEq

/-- The loop: its clock, the number of the next start, and its heap. -/
structure Loop where
  time : Nat
  timer_counter : Nat
  timers : List Active

/-- What timers are compared by. -/
def Active.key (a : Active) : ℕ ×ₗ ℕ := toLex (a.timeout, a.start_id)

namespace Loop

/-- `heap_min`. -/
def heapMin (L : Loop) : Option Active := L.timers.argmin Active.key

/-- `uv_timer_stop`. -/
def timerStop (L : Loop) (h : Nat) : Loop := { L with timers := L.timers.filter fun a => a.handle ≠ h }

/-- `uv_timer_start`; the time at which a timer is due is a `uint64`. -/
def timerStart (L : Loop) (h timeout period : Nat) : Loop :=
  { time := L.time
    timer_counter := L.timer_counter + 1
    timers := (L.timerStop h).timers ++ [⟨h, min (L.time + timeout) (2 ^ 64 - 1), L.timer_counter, period⟩] }

/-- `uv_timer_again`. -/
def timerAgain (L : Loop) (h period : Nat) : Loop := if period = 0 then L else L.timerStart h period period

/-- A timer is active. -/
def Running (L : Loop) (h : Nat) : Prop := ∃ a ∈ L.timers, a.handle = h

variable {L : Loop} {h k : Nat}

@[simp] theorem timerStop_time : (L.timerStop h).time = L.time := rfl

@[simp] theorem timerStop_counter : (L.timerStop h).timer_counter = L.timer_counter := rfl

@[simp] theorem timerStart_time {timeout period : Nat} : (L.timerStart h timeout period).time = L.time := rfl

@[simp] theorem timerAgain_time {period : Nat} : (L.timerAgain h period).time = L.time := by
  unfold timerAgain
  split <;> rfl

theorem mem_timerStop {a : Active} : a ∈ (L.timerStop h).timers ↔ a ∈ L.timers ∧ a.handle ≠ h := by
  simp [timerStop]

theorem mem_timerStart {a : Active} {timeout period : Nat} : a ∈ (L.timerStart h timeout period).timers ↔
    (a ∈ L.timers ∧ a.handle ≠ h) ∨ a = ⟨h, min (L.time + timeout) (2 ^ 64 - 1), L.timer_counter, period⟩ := by
  rw [timerStart, List.mem_append, mem_timerStop, List.mem_singleton]

theorem mem_timerAgain {a : Active} {period : Nat} (ha : a ∈ L.timers) (hne : a.handle ≠ h) :
    a ∈ (L.timerAgain h period).timers := by
  unfold timerAgain
  split
  · exact ha
  · exact mem_timerStart.2 (Or.inl ⟨ha, hne⟩)

theorem counter_le_timerAgain {period : Nat} : L.timer_counter ≤ (L.timerAgain h period).timer_counter := by
  unfold timerAgain
  split
  · exact le_rfl
  · exact Nat.le_succ _

theorem running_stop : (L.timerStop h).Running k ↔ L.Running k ∧ k ≠ h := by
  constructor
  · rintro ⟨a, ha, rfl⟩
    rw [mem_timerStop] at ha
    exact ⟨⟨a, ha.1, rfl⟩, ha.2⟩
  · rintro ⟨⟨a, ha, rfl⟩, hne⟩
    exact ⟨a, mem_timerStop.2 ⟨ha, hne⟩, rfl⟩

theorem running_start {timeout period : Nat} : (L.timerStart h timeout period).Running k ↔ L.Running k ∨ k = h := by
  constructor
  · rintro ⟨a, ha, rfl⟩
    rcases mem_timerStart.1 ha with ha | rfl
    · exact Or.inl ⟨a, ha.1, rfl⟩
    · exact Or.inr rfl
  · intro hk
    by_cases hne : k = h
    · exact ⟨_, mem_timerStart.2 (Or.inr rfl), hne.symm⟩
    · obtain ⟨a, ha, rfl⟩ := hk.resolve_right hne
      exact ⟨a, mem_timerStart.2 (Or.inl ⟨ha, hne⟩), rfl⟩

theorem running_again {period : Nat} : (L.timerAgain h period).Running k ↔ L.Running k ∨ (period ≠ 0 ∧ k = h) := by
  rw [timerAgain]
  split
  · rename_i hp
    simp [hp]
  · rename_i hp
    rw [running_start]
    simp [hp]

theorem heapMin_spec {a : Active} (ha : L.heapMin = some a) : a ∈ L.timers ∧ ∀ b ∈ L.timers, a.key ≤ b.key :=
  ⟨List.argmin_mem ha, fun _ hb => List.le_of_mem_argmin hb ha⟩

theorem heapMin_eq_none : L.heapMin = none ↔ L.timers = [] := List.argmin_eq_none

/-! ## Handles -/

/-- No two active timers have one handle. -/
def Distinct (L : Loop) : Prop := (L.timers.map Active.handle).Nodup

theorem Distinct.eq {a b : Active} (hL : L.Distinct) (ha : a ∈ L.timers) (hb : b ∈ L.timers)
    (h : a.handle = b.handle) : a = b :=
  List.inj_on_of_nodup_map hL ha hb h

theorem Distinct.sub {M : Loop} (hL : L.Distinct) (h : M.timers.Sublist L.timers) : M.Distinct := hL.sublist (h.map _)

theorem Distinct.stop (hL : L.Distinct) : (L.timerStop h).Distinct := hL.sub List.filter_sublist

theorem Distinct.start (hL : L.Distinct) {timeout period : Nat} : (L.timerStart h timeout period).Distinct := by
  unfold Distinct timerStart
  rw [List.map_append, List.nodup_append]
  refine ⟨hL.stop, List.nodup_singleton _, ?_⟩
  intro k hk j hj
  obtain ⟨a, ha, rfl⟩ := List.mem_map.1 hk
  rw [List.map_singleton, List.mem_singleton] at hj
  subst hj
  exact (mem_timerStop.1 ha).2

theorem Distinct.again (hL : L.Distinct) {period : Nat} : (L.timerAgain h period).Distinct := by
  unfold timerAgain
  split
  · exact hL
  · exact hL.start

end Loop

end XCore.Timer
