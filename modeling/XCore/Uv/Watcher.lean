import XCore.Lib.Ring

/-!
# Watchers of the loop (`unix/loop-watcher.c`)

`uv_prepare_t`, `uv_check_t` and `uv_idle_t` have the same functions. The active handles are in a ring of the loop;
`uv__run_<name>` moves all of them to a ring of its own, and puts each back at the end before it calls it. A callback
may start and stop handles.

- `Watchers.step` is the code on the nodes of `queue.h`, `Turns.step` the same on lists; no handle is called without a
  callback, and the lists are what the rings hold (`watchers_refine`);
- so a run of the watchers calls the handles that were active when it began, in the order of the ring and at most once
  each, without those that are stopped before their turn (`watchers_turn`).
-/

namespace XCore.Uv

open XCore.Rings

/-- The nodes of `queue.h`: `loop-><name>_handles`, `queue` in `uv__run_<name>`, and those in the handles. -/
inductive QUEUE
  | handles
  | queue
  | handle (h : Nat)
deriving DecidableEq

/-- The watchers of one type; `running` between the calls of `uv__run_<name>`. -/
structure Watchers (C : Type) where
  links : Links QUEUE
  active : Nat → Bool
  cb : Nat → Option C
  running : Bool

/-- A call of a program, the loop that comes to the watchers, or a callback that returns. -/
inductive WatcherCall (C : Type)
  | start (h : Nat) (cb : Option C)
  | stop (h : Nat)
  | run
  | ret

/-- What is seen: the result of `start`, a call of a callback, the end of `uv__run_<name>`. -/
inductive WatcherSeen (C : Type)
  | result (r : Int)
  | call (h : Nat) (cb : C)
  | ended

namespace Watchers

variable {C : Type}

def uv_start (w : Watchers C) (h : Nat) (cb : Option C) : Watchers C × Int :=
  if w.active h then (w, 0)
  else match cb with
    | none => (w, -22)
    | some f => ({ w with
        links := w.links.insertHead .handles (.handle h)
        cb := Function.update w.cb h (some f)
        active := Function.update w.active h true }, 0)

def uv_stop (w : Watchers C) (h : Nat) : Watchers C :=
  if w.active h then { w with links := w.links.remove (.handle h), active := Function.update w.active h false } else w

/-- A round of `uv__run_<name>`; `none` where the node is in no handle, or the handle has no callback. -/
def round (w : Watchers C) : Option (Watchers C × List (WatcherSeen C)) :=
  match w.links.next .queue with
  | .queue => some ({ w with running := false }, [.ended])
  | .handles => none
  | .handle h => (w.cb h).map fun f =>
    ({ w with links := (w.links.remove (.handle h)).insertTail .handles (.handle h) }, [.call h f])

def step (w : Watchers C) : WatcherCall C → Option (Watchers C × List (WatcherSeen C))
  | .start h cb => some ((w.uv_start h cb).1, [.result (w.uv_start h cb).2])
  | .stop h => some (w.uv_stop h, [])
  | .run => if w.running then some (w, []) else round { w with links := w.links.move .handles .queue, running := true }
  | .ret => if w.running then w.round else some (w, [])

def run (w : Watchers C) : List (WatcherCall C) → Option (Watchers C × List (WatcherSeen C))
  | [] => some (w, [])
  | c :: cs => (w.step c).bind fun r => (run r.1 cs).map fun r' => (r'.1, r.2 ++ r'.2)

/-- No handle has been started. -/
def init (m : Links QUEUE) : Watchers C := ⟨m.init .handles, fun _ => false, fun _ => none, false⟩

end Watchers

/-! ## On lists -/

/-- The handles that wait for the next time, and those whose turn comes. -/
structure Turns (C : Type) where
  waiting : List Nat
  turn : List Nat
  cb : Nat → Option C
  running : Bool

namespace Turns

variable {C : Type}

def round (s : Turns C) : Turns C × List (WatcherSeen C) :=
  match s.turn with
  | [] => ({ s with running := false }, [.ended])
  | h :: t => ({ s with waiting := s.waiting ++ [h], turn := t }, (s.cb h).toList.map (.call h))

def step (s : Turns C) : WatcherCall C → Turns C × List (WatcherSeen C)
  | .start h cb =>
    if h ∈ s.waiting ++ s.turn then (s, [.result 0])
    else match cb with
      | none => (s, [.result (-22)])
      | some f => ({ s with waiting := h :: s.waiting, cb := Function.update s.cb h (some f) }, [.result 0])
  | .stop h => ({ s with waiting := s.waiting.erase h, turn := s.turn.erase h }, [])
  | .run => if s.running then (s, []) else round { s with waiting := [], turn := s.waiting, running := true }
  | .ret => if s.running then s.round else (s, [])

def run (s : Turns C) : List (WatcherCall C) → Turns C × List (WatcherSeen C)
  | [] => (s, [])
  | c :: cs => ((run (s.step c).1 cs).1, (s.step c).2 ++ (run (s.step c).1 cs).2)

def init : Turns C := ⟨[], [], fun _ => none, false⟩

/-- No handle is in two places, and each has a callback. -/
structure Sound (s : Turns C) : Prop where
  nodup : (s.waiting ++ s.turn).Nodup
  idle : s.running = false → s.turn = []
  called : ∀ h ∈ s.waiting ++ s.turn, (s.cb h).isSome

theorem Sound.not_turn {s : Turns C} (hs : s.Sound) {h : Nat} (hh : h ∈ s.waiting) : h ∉ s.turn := fun hturn =>
  (List.nodup_append.1 hs.nodup).2.2 h hh h hturn rfl

end Turns

/-! ## One step -/

section Refine

variable {C : Type} {w : Watchers C} {s : Turns C}

/-- The rings hold the lists. -/
structure Watches (w : Watchers C) (s : Turns C) : Prop where
  sound : s.Sound
  waiting : Ring w.links .handles (s.waiting.map .handle)
  turn : s.running → Ring w.links .queue (s.turn.map .handle)
  active : ∀ h, w.active h ↔ h ∈ s.waiting ++ s.turn
  cb : w.cb = s.cb
  running : w.running = s.running

/-- Two rings have no node in common if their heads are two nodes outside of the handles, and no handle is in both. -/
theorem apart {p q : QUEUE} {a b : List Nat} (hpq : p ≠ q) (hp : ∀ h, p ≠ .handle h) (hq : ∀ h, q ≠ .handle h)
    (hab : ∀ h ∈ a, h ∉ b) :
    ∀ y ∈ p :: a.map .handle, y ∉ q :: b.map .handle := by
  simp only [List.mem_cons, List.mem_map, not_or]
  rintro y (rfl | ⟨h, hh, rfl⟩)
  · refine ⟨hpq, ?_⟩
    rintro ⟨h, -, he⟩
    exact hp h he.symm
  · refine ⟨(hq h).symm, ?_⟩
    rintro ⟨k, hk, he⟩
    obtain rfl : k = h := QUEUE.handle.inj he
    exact hab k hh hk

theorem Watches.start (hw : Watches w s) (h : Nat) (cb : Option C) :
    Watches (w.uv_start h cb).1 (s.step (.start h cb)).1 ∧
    (s.step (.start h cb)).2 = [.result (w.uv_start h cb).2] := by
  have hactive := hw.active h
  by_cases hmem : h ∈ s.waiting ++ s.turn
  · simp only [Watchers.uv_start, Turns.step, if_pos (hactive.2 hmem), if_pos hmem]
    exact ⟨hw, trivial⟩
  · have hoff : ¬w.active h := fun hon => hmem (hactive.1 hon)
    simp only [Watchers.uv_start, Turns.step, if_neg hoff, if_neg hmem]
    cases cb with
    | none => exact ⟨hw, rfl⟩
    | some f =>
      obtain ⟨hsound, hwaiting, hturn, hact, hcb, hrunning⟩ := hw
      have hnot := hmem
      simp only [List.mem_append, not_or] at hnot
      dsimp only
      refine ⟨⟨⟨?_, hsound.idle, fun k hk => ?_⟩, ?_, fun hrun => ?_, fun k => ?_, by rw [hcb], hrunning⟩, rfl⟩
      · exact List.nodup_cons.2 ⟨hmem, hsound.nodup⟩
      · by_cases hk' : k = h
        · simp [hk']
        · have hcalled := hsound.called k (by simpa [hk'] using hk)
          simpa [Function.update_of_ne hk'] using hcalled
      · exact hwaiting.insertHead (by simp [hnot.1])
      · refine (hturn hrun).frame (hwaiting.changes_insertHead _)
          (apart (b := h :: s.waiting) (by simp) (by simp) (by simp) ?_)
        intro k hk hk'
        rcases List.mem_cons.1 hk' with rfl | hk'
        · exact hnot.2 hk
        · exact hsound.not_turn hk' hk
      · by_cases hk : k = h
        · simp [hk]
        · simpa [Function.update_of_ne hk, hk] using hact k

theorem Watches.stop (hw : Watches w s) (h : Nat) : Watches (w.uv_stop h) (s.step (.stop h)).1 := by
  have hactive := hw.active h
  have hsound := hw.sound
  have hdisj := List.nodup_append.1 hsound.nodup
  by_cases hmem : h ∈ s.waiting ++ s.turn
  · have hsound' : (s.step (.stop h)).1.Sound := by
      refine ⟨?_, fun hrun => ?_, fun k hk => ?_⟩
      · exact hsound.nodup.sublist (List.Sublist.append List.erase_sublist List.erase_sublist)
      · simp [Turns.step, hsound.idle hrun]
      · refine hsound.called k ?_
        simp only [Turns.step, List.mem_append] at hk ⊢
        exact hk.imp List.mem_of_mem_erase List.mem_of_mem_erase
    have hact : ∀ k, Function.update w.active h false k ↔ k ∈ s.waiting.erase h ++ s.turn.erase h := by
      intro k
      by_cases hk : k = h
      · subst hk
        simp [hdisj.1.mem_erase_iff, hdisj.2.1.mem_erase_iff]
      · rw [Function.update_of_ne hk, hw.active k]
        simp [List.mem_erase_of_ne hk]
    simp only [Watchers.uv_stop, if_pos (hactive.2 hmem)]
    rcases List.mem_append.1 hmem with hin | hin
    · obtain ⟨l, r, -, hsplit, herase⟩ := List.exists_erase_eq hin
      have hturn : s.turn.erase h = s.turn := List.erase_of_not_mem (hsound.not_turn hin)
      have hring := hw.waiting
      rw [hsplit, List.map_append, List.map_cons] at hring
      refine ⟨hsound', ?_, fun hrun => ?_, hact, hw.cb, hw.running⟩
      · simp only [Turns.step, herase, List.map_append]
        exact hring.remove
      · simp only [Turns.step, hturn]
        refine (hw.turn hrun).frame hring.changes_remove ?_
        rw [← List.map_cons, ← List.map_append, ← hsplit]
        exact apart (by simp) (by simp) (by simp) fun k hk hk' => hsound.not_turn hk' hk
    · obtain ⟨l, r, -, hsplit, herase⟩ := List.exists_erase_eq hin
      have hwaiting : s.waiting.erase h = s.waiting := List.erase_of_not_mem fun hin' => hsound.not_turn hin' hin
      have hrun : s.running := by
        cases hr : s.running with
        | true => rfl
        | false =>
          rw [hsound.idle hr] at hin
          cases hin
      have hring := hw.turn hrun
      rw [hsplit, List.map_append, List.map_cons] at hring
      refine ⟨hsound', ?_, fun _ => ?_, hact, hw.cb, hw.running⟩
      · simp only [Turns.step, hwaiting]
        refine hw.waiting.frame hring.changes_remove ?_
        rw [← List.map_cons, ← List.map_append, ← hsplit]
        exact apart (by simp) (by simp) (by simp) fun _ hk => hsound.not_turn hk
      · simp only [Turns.step, herase, List.map_append]
        exact hring.remove
  · have hoff : ¬w.active h := fun hon => hmem (hactive.1 hon)
    have hnot := hmem
    simp only [List.mem_append, not_or] at hnot
    simp only [Watchers.uv_stop, if_neg hoff, Turns.step, List.erase_of_not_mem hnot.1, List.erase_of_not_mem hnot.2]
    exact hw

theorem Watches.round (hw : Watches w s) (hrun : s.running) :
    ∃ w', w.round = some (w', s.round.2) ∧ Watches w' s.round.1 := by
  have hsound := hw.sound
  have hring := hw.turn hrun
  cases hturn : s.turn with
  | nil =>
    rw [hturn] at hring
    have hnext : w.links.next .queue = .queue := hring.next_eq_self.2 rfl
    refine ⟨{ w with running := false }, by simp [Watchers.round, hnext, Turns.round, hturn], ?_⟩
    simp only [Turns.round, hturn]
    have hactive : ∀ h, w.active h ↔ h ∈ s.waiting ++ [] := fun h => hturn ▸ hw.active h
    exact ⟨⟨hturn ▸ hsound.nodup, fun _ => rfl, hturn ▸ hsound.called⟩, hw.waiting, by simp, hactive, hw.cb, rfl⟩
  | cons h t =>
    have hnodup := List.nodup_append.1 hsound.nodup
    have hapart : ∀ k ∈ s.waiting, k ∉ h :: t := fun k hk => hturn ▸ hsound.not_turn hk
    rw [hturn] at hring hnodup
    rw [List.map_cons] at hring
    have hnext : w.links.next .queue = .handle h := hring.path.1
    obtain ⟨f, hf⟩ := Option.isSome_iff_exists.1 (hsound.called h (by simp [hturn]))
    have hremoved : Ring (w.links.remove (.handle h)) .queue (t.map .handle) := Ring.remove (l := []) hring
    have hnotwaiting : h ∉ s.waiting := fun hin => hapart h hin List.mem_cons_self
    have hnott : h ∉ t := (List.nodup_cons.1 hnodup.2.1).1
    have hwaiting : Ring (w.links.remove (.handle h)) .handles (s.waiting.map .handle) := by
      refine hw.waiting.frame (Ring.changes_remove (l := []) hring)
        (apart (b := h :: t) (by simp) (by simp) (by simp) hapart)
    refine ⟨{ w with links := (w.links.remove (.handle h)).insertTail .handles (.handle h) },
      by simp [Watchers.round, hnext, Turns.round, hturn, hw.cb, hf], ?_⟩
    simp only [Turns.round, hturn]
    have hperm : s.waiting ++ s.turn = s.waiting ++ [h] ++ t := by simp [hturn]
    refine ⟨⟨hperm ▸ hsound.nodup, fun hidle => ?_, hperm ▸ hsound.called⟩, ?_, fun _ => ?_, fun k => ?_,
      hw.cb, hw.running⟩
    · rw [show s.running = false from hidle] at hrun
      cases hrun
    · rw [List.map_append]
      exact hwaiting.insertTail (by simp [hnotwaiting])
    · refine hremoved.frame (hwaiting.changes_insertTail _)
        (apart (b := h :: s.waiting) (by simp) (by simp) (by simp) ?_)
      intro k hk hk'
      rcases List.mem_cons.1 hk' with rfl | hk'
      · exact hnott hk
      · exact hapart k hk' (List.mem_cons_of_mem h hk)
    · exact hperm ▸ hw.active k

/-- All handles that wait have their turn. -/
def Turns.begin (s : Turns C) : Turns C := { s with waiting := [], turn := s.waiting, running := true }

theorem Watches.begin (hw : Watches w s) (hidle : s.running = false) :
    Watches { w with links := w.links.move .handles .queue, running := true } s.begin := by
  obtain ⟨hqueue, hhandles⟩ := hw.waiting.move (n := .queue) (by simp)
  have hnodup := hw.sound.nodup
  have hcalled := hw.sound.called
  have hactive := hw.active
  simp only [hw.sound.idle hidle, List.append_nil] at hnodup hcalled hactive
  exact ⟨⟨hnodup, by simp [Turns.begin], hcalled⟩, hhandles, fun _ => hqueue, hactive, hw.cb, rfl⟩

/-- **A step** of the code is one on lists. -/
theorem Watches.step (hw : Watches w s) (c : WatcherCall C) :
    ∃ w', w.step c = some (w', (s.step c).2) ∧ Watches w' (s.step c).1 := by
  cases c with
  | start h cb =>
    obtain ⟨hnext, hseen⟩ := hw.start h cb
    exact ⟨_, by rw [Watchers.step, hseen], hnext⟩
  | stop h => exact ⟨_, rfl, hw.stop h⟩
  | run =>
    simp only [Watchers.step, Turns.step, hw.running]
    by_cases hrun : s.running
    · simp only [if_pos hrun]
      exact ⟨w, rfl, hw⟩
    · simp only [if_neg hrun]
      exact (hw.begin (by simpa using hrun)).round rfl
  | ret =>
    simp only [Watchers.step, Turns.step, hw.running]
    by_cases hrun : s.running
    · simp only [if_pos hrun]
      exact hw.round hrun
    · simp only [if_neg hrun]
      exact ⟨w, rfl, hw⟩

theorem Watches.run (hw : Watches w s) (cs : List (WatcherCall C)) :
    ∃ w', w.run cs = some (w', (s.run cs).2) ∧ Watches w' (s.run cs).1 := by
  induction cs generalizing w s with
  | nil => exact ⟨w, rfl, hw⟩
  | cons c cs ih =>
    obtain ⟨w₁, hstep, hw₁⟩ := hw.step c
    obtain ⟨w₂, hrun, hw₂⟩ := ih hw₁
    exact ⟨w₂, by simp [Watchers.run, Turns.run, hstep, hrun], hw₂⟩

theorem watches_init (m : Links QUEUE) : Watches (.init m : Watchers C) .init where
  sound := ⟨by simp [Turns.init], fun _ => rfl, by simp [Turns.init]⟩
  waiting := ring_init m .handles
  turn := by simp [Turns.init]
  active h := by simp [Watchers.init, Turns.init]
  cb := rfl
  running := rfl

/-- **The watchers of the loop**: whatever is called, no pointer leads to something that is no handle, no handle is
called without a callback, what is seen is what the lists show, and the rings hold the lists then. -/
theorem watchers_refine (m : Links QUEUE) (cs : List (WatcherCall C)) :
    ∃ w, (Watchers.init m).run cs = some (w, (Turns.init.run cs).2) ∧ Watches w (Turns.init.run cs).1 :=
  (watches_init m).run cs

/-! ## A turn -/

/-- The handles that are called. -/
def handlesCalled (out : List (WatcherSeen C)) : List Nat := out.filterMap fun
  | .call h _ => some h
  | _ => none

theorem handlesCalled_append (out out' : List (WatcherSeen C)) :
    handlesCalled (out ++ out') = handlesCalled out ++ handlesCalled out' := List.filterMap_append ..

theorem Turns.run_append (cs cs' : List (WatcherCall C)) :
    s.run (cs ++ cs') = (((s.run cs).1.run cs').1, (s.run cs).2 ++ ((s.run cs).1.run cs').2) := by
  induction cs generalizing s with
  | nil => simp [Turns.run]
  | cons c cs ih => simp [Turns.run, ih]

theorem Turns.start_turn (h : Nat) (cb : Option C) :
    (s.step (.start h cb)).1.turn = s.turn ∧ handlesCalled (s.step (.start h cb)).2 = [] := by
  simp only [Turns.step]
  split
  · exact ⟨rfl, rfl⟩
  · cases cb <;> exact ⟨rfl, rfl⟩

/-- Until the next time only handles are called whose turn comes, and in the end each of them has been called or
stopped. -/
theorem Watches.turns (hw : Watches w s) {cs : List (WatcherCall C)} (hcs : .run ∉ cs) :
    (handlesCalled (s.run cs).2).Sublist s.turn ∧
      ∀ h ∈ s.turn, (s.run cs).1.running = false → h ∈ handlesCalled (s.run cs).2 ∨ .stop h ∈ cs := by
  induction cs generalizing w s with
  | nil =>
    refine ⟨List.nil_sublist _, fun h hh hidle => ?_⟩
    rw [hw.sound.idle hidle] at hh
    cases hh
  | cons c cs ih =>
    simp only [List.mem_cons, not_or] at hcs
    obtain ⟨w', -, hw'⟩ := hw.step c
    obtain ⟨hsub, hall⟩ := ih hw' hcs.2
    simp only [Turns.run, handlesCalled_append, List.mem_append, List.mem_cons]
    cases c with
    | start h cb =>
      obtain ⟨hturn, hnone⟩ := s.start_turn h cb
      rw [hturn] at hsub hall
      rw [hnone]
      refine ⟨hsub, fun k hk hidle => ?_⟩
      rcases hall k hk hidle with hcalled | hstop
      · exact .inl (.inr hcalled)
      · exact .inr (.inr hstop)
    | stop h =>
      refine ⟨hsub.trans List.erase_sublist, fun k hk hidle => ?_⟩
      by_cases hkh : k = h
      · exact .inr (.inl (by rw [hkh]))
      · rcases hall k ((List.mem_erase_of_ne hkh).2 hk) hidle with hcalled | hstop
        · exact .inl (.inr hcalled)
        · exact .inr (.inr hstop)
    | run => exact absurd rfl hcs.1
    | ret =>
      by_cases hrun : s.running
      · rw [show s.step .ret = s.round from if_pos hrun] at hsub hall ⊢
        cases hturn : s.turn with
        | nil =>
          have hround : s.round = ({ s with running := false }, [.ended]) := by simp [Turns.round, hturn]
          rw [hround] at hsub ⊢
          exact ⟨by simpa [handlesCalled, hturn] using hsub, by simp⟩
        | cons h t =>
          obtain ⟨f, hf⟩ := Option.isSome_iff_exists.1 (hw.sound.called h (by simp [hturn]))
          have hround : s.round = ({ s with waiting := s.waiting ++ [h], turn := t }, [.call h f]) := by
            simp [Turns.round, hturn, hf]
          rw [hround] at hsub hall ⊢
          refine ⟨hsub.cons_cons h, fun k hk hidle => ?_⟩
          rcases List.mem_cons.1 hk with rfl | hk
          · exact .inl (.inl (by simp [handlesCalled]))
          · rcases hall k hk hidle with hcalled | hstop
            · exact .inl (.inr hcalled)
            · exact .inr (.inr hstop)
      · rw [show s.step .ret = (s, []) from if_neg hrun] at hsub hall ⊢
        refine ⟨hsub, fun k hk hidle => ?_⟩
        rcases hall k hk hidle with hcalled | hstop
        · exact .inl (.inr hcalled)
        · exact .inr (.inr hstop)

/-- **A turn of the watchers**: from any state between two runs of them, `uv__run_<name>` calls only handles that were
active, in the order of the ring and at most once each, whatever the callbacks start; it calls none that is stopped
before its turn, and when it has returned all others have been called. -/
theorem watchers_turn {m : Links QUEUE} {before cs : List (WatcherCall C)} {w w' : Watchers C}
    {seen out : List (WatcherSeen C)}
    (hbefore : (Watchers.init m).run before = some (w, seen)) (hidle : w.running = false) (hcs : .run ∉ cs)
    (hrun : w.run (.run :: cs) = some (w', out)) :
    ∃ hs : List Nat, Ring w.links .handles (hs.map .handle) ∧ (∀ h, w.active h ↔ h ∈ hs) ∧ hs.Nodup ∧
    (handlesCalled out).Sublist hs ∧
      (∀ h ∈ hs, w'.running = false → h ∈ handlesCalled out ∨ .stop h ∈ cs) ∧
      ∀ h cs₁ cs₂ w₁ out₁, cs = cs₁ ++ .stop h :: cs₂ → w.run (.run :: cs₁) = some (w₁, out₁) → h ∉ handlesCalled out₁ →
        h ∉ handlesCalled out := by
  obtain ⟨w₀, hrun₀, hw⟩ := (watches_init m).run before
  generalize Turns.init.run before = r at hrun₀ hw
  obtain rfl : w = w₀ := by
    rw [hbefore] at hrun₀
    exact congrArg Prod.fst (Option.some.inj hrun₀)
  have hsidle : r.1.running = false := hw.running ▸ hidle
  have hbegin := hw.begin hsidle
  -- the first round is one like those after a callback
  have hsame : ∀ cs : List (WatcherCall C), r.1.run (.run :: cs) = r.1.begin.run (.ret :: cs) := by
    intro cs
    simp [Turns.run, Turns.step, hsidle, Turns.begin]
  have hseen : ∀ {cs : List (WatcherCall C)} {w' : Watchers C} {out : List (WatcherSeen C)},
      w.run (.run :: cs) = some (w', out) →
      out = (r.1.begin.run (.ret :: cs)).2 ∧ Watches w' (r.1.begin.run (.ret :: cs)).1 := by
    intro cs w' out h
    obtain ⟨w'', hrun'', hw''⟩ := hw.run (.run :: cs)
    rw [h, hsame] at hrun''
    rw [hsame] at hw''
    cases Option.some.inj hrun''
    exact ⟨rfl, hw''⟩
  have hnodup := hw.sound.nodup
  have hactive := hw.active
  simp only [hw.sound.idle hsidle, List.append_nil] at hnodup hactive
  obtain ⟨rfl, hw'⟩ := hseen hrun
  obtain ⟨hsub, hall⟩ := hbegin.turns (show .run ∉ .ret :: cs by simp [hcs])
  refine ⟨r.1.waiting, hw.waiting, hactive, hnodup, hsub, fun h hh hend => ?_,
    fun h cs₁ cs₂ w₁ out₁ hsplit hfirst hnot => ?_⟩
  · simpa using hall h hh (hw'.running ▸ hend)
  · obtain ⟨rfl, hw₁⟩ := hseen hfirst
    subst hsplit
    have hstopped := hw₁.stop h
    obtain ⟨hlate, -⟩ := hstopped.turns (show .run ∉ cs₂ by simp at hcs; tauto)
    have hgone : h ∉ (r.1.begin.run (.ret :: cs₁)).1.turn.erase h := by
      have hdisj := List.nodup_append.1 hw₁.sound.nodup
      simp [hdisj.2.1.mem_erase_iff]
    rw [← List.cons_append, Turns.run_append, handlesCalled_append]
    generalize r.1.begin.run (.ret :: cs₁) = r₁ at hnot hlate hgone ⊢
    simp only [Turns.run, handlesCalled_append, List.mem_append, not_or]
    exact ⟨hnot, by simp [Turns.step, handlesCalled], fun hmem => hgone (hlate.subset hmem)⟩

/-- Two handles; the callback of the one that is called first stops the other and starts a third. -/
def twoStarted : Watchers Nat := (((Watchers.init ⟨id, id⟩).uv_start 0 (some 7)).1.uv_start 1 (some 8)).1

theorem watchers_turn_two : ∃ hs : List Nat, (handlesCalled [WatcherSeen.call 1 8, .result 0, .ended]).Sublist hs ∧
    ∀ h ∈ hs, h ∈ handlesCalled [WatcherSeen.call 1 8, .result 0, .ended] ∨
      .stop h ∈ ([.stop 0, .start 2 (some 9), .ret] : List (WatcherCall Nat)) := by
  have hbefore : (Watchers.init ⟨id, id⟩).run [.start 0 (some 7), .start 1 (some 8)] = some
    (twoStarted, [.result 0, .result 0]) := rfl
  have hrun : twoStarted.run [.run, .stop 0, .start 2 (some 9), .ret] = some (_, [.call 1 8, .result 0, .ended]) := rfl
  obtain ⟨hs, -, -, -, hsub, hall, -⟩ := watchers_turn hbefore rfl (by simp) hrun
  exact ⟨hs, hsub, fun h hh => hall h hh rfl⟩

end Refine

end XCore.Uv
