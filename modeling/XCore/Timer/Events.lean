import XCore.Timer.Registry

/-!
# The order of events

`OnEvent` puts a call of `DispatchEvent` off to a timer of its own that is due at once. The loop makes these calls in
the order of the events, each exactly once (`events_in_order`): the events that have been emitted are those that have
been dispatched, followed by those that are pending, and nothing is pending when no timer is due.

`Queued` is the invariant: the timers of the pending events are due, in the order in which the loop takes them.
-/

namespace XCore.Timer

open XCore.Lua XCore.Run XCore.Monitor

variable {V : Type} {I : Objects} {s : Timers V}

/-- The events of a trace, as the calls that are put off. -/
def emitted (tr : List (Out V)) : List (Call V) := tr.filterMap fun
  | .emit c => some c
  | .call _ => none

/-- The calls of closures in a trace. -/
def calls (tr : List (Out V)) : List (Call V) := tr.filterMap fun
  | .call c => some c
  | .emit _ => none

/-- The calls of a list that are made by some timers. -/
def callsBy (ks : List Nat) (cs : List (Call V)) : List (Call V) := cs.filter fun c => c.handle ∈ ks

/-- The calls that the loop makes for events. -/
def dispatched (tr : List (Out V)) : List (Call V) := callsBy ((emitted tr).map Call.handle) (calls tr)

/-- What a call of `OnEvent` asks for. -/
def Action.event : Action V → Option (Owner × List V)
  | .OnEvent self name args => some (self, name :: args)
  | _ => none

/-- Events come from objects that dispatch them, and no timers are deleted by owner or by the name `DispatchEvent`. -/
def Undisturbed (I : Objects) : Action V → Prop
  | .DelTimerByName _ _ func => func ≠ some Timers.dispatchEvent
  | .DelAll _ _ => False
  | .OnEvent self _ _ => I.has self Timers.dispatchEvent = true
  | _ => True

/-- A timer with the name `DispatchEvent` is started by `OnEvent` only. -/
def OnlyByEvent : Action V → Prop
  | .AddTimer _ _ _ _ func _ => func ≠ some Timers.dispatchEvent
  | .NextTick _ func _ => func ≠ some Timers.dispatchEvent
  | _ => True

/-- Closures emit nothing themselves. -/
theorem emitted_fire (s : Timers V) (k : Nat) : emitted (s.fire I k).2 = [] := by
  unfold Timers.fire
  split
  · rfl
  · split <;> rfl

/-- The timers `acts` of the pending events `P` are due, in order, and will find their entries. -/
structure Queued (I : Objects) (s : Timers V) (P : List (Call V)) (acts : List Active) : Prop where
  distinct : s.loop.Distinct
  fresh : ∀ a ∈ s.loop.timers, a.handle < s.created
  keys : ∀ o t k, s.own o = some t → k ∈ t → k < s.created
  handles : acts.map Active.handle = P.map Call.handle
  armed : ∀ a ∈ acts, a ∈ s.loop.timers
  sorted : acts.Pairwise fun a b => a.key < b.key
  due : ∀ a ∈ acts, a.timeout ≤ s.loop.time ∧ a.timeout ≤ 2 ^ 64 - 1 ∧ a.start_id < s.loop.timer_counter ∧ a.period = 0
  event : ∀ c ∈ P, c.callback = some Timers.dispatchEvent ∧ s.callbacks c.handle = some ⟨c.obj, true, c.args⟩
  found : ∀ c ∈ P, ∃ q t, s.find I c.obj = some (q, t) ∧ t.lookup c.handle = some Timers.dispatchEvent
  only : ∀ c ∈ P, ∀ o t f, s.own o = some t → t.lookup c.handle = some f → f = Timers.dispatchEvent

namespace Queued

variable {P : List (Call V)} {acts : List Active}

theorem init (time counter : Nat) : Queued I (Timers.init time counter : Timers V) [] [] where
  distinct := List.nodup_nil
  fresh _ h := by cases h
  keys _ _ _ h := by cases h
  handles := rfl
  armed _ h := by cases h
  sorted := .nil
  due _ h := by cases h
  event _ h := by cases h
  found _ h := by cases h
  only _ h := by cases h

/-- The timer of a pending event is active. -/
theorem active (hq : Queued I s P acts) {k : Nat} (hk : k ∈ P.map Call.handle) : ∃ a ∈ acts, a.handle = k := by
  rw [← hq.handles] at hk
  exact List.mem_map.1 hk

theorem made (hq : Queued I s P acts) {k : Nat} (hk : k ∈ P.map Call.handle) : k < s.created := by
  obtain ⟨a, ha, rfl⟩ := hq.active hk
  exact hq.fresh a (hq.armed a ha)

/-- Without its first event. -/
theorem tail {c : Call V} {a : Active} (hq : Queued I s (c :: P) (a :: acts)) : Queued I s P acts where
  distinct := hq.distinct
  fresh := hq.fresh
  keys := hq.keys
  handles := (List.cons.inj hq.handles).2
  armed b hb := hq.armed b (List.mem_cons_of_mem _ hb)
  sorted := hq.sorted.of_cons
  due b hb := hq.due b (List.mem_cons_of_mem _ hb)
  event d hd := hq.event d (List.mem_cons_of_mem _ hd)
  found d hd := hq.found d (List.mem_cons_of_mem _ hd)
  only d hd := hq.only d (List.mem_cons_of_mem _ hd)

/-- The clock goes on. -/
theorem advanced (hq : Queued I s P acts) (ms : Nat) :
    Queued I { s with loop := { s.loop with time := s.loop.time + ms } } P acts where
  distinct := hq.distinct
  fresh := hq.fresh
  keys := hq.keys
  handles := hq.handles
  armed := hq.armed
  sorted := hq.sorted
  due a ha := ⟨(hq.due a ha).1.trans (Nat.le_add_right _ _), (hq.due a ha).2⟩
  event := hq.event
  found := hq.found
  only := hq.only

/-- A handle is made and not started. -/
theorem raised (hq : Queued I s P acts) : Queued I s.timerNew P acts where
  distinct := hq.distinct
  fresh a ha := (hq.fresh a ha).trans (Nat.lt_succ_self _)
  keys o t k ho hk := (hq.keys o t k ho hk).trans (Nat.lt_succ_self _)
  handles := hq.handles
  armed := hq.armed
  sorted := hq.sorted
  due := hq.due
  event := hq.event
  found := hq.found
  only := hq.only

/-- Another timer is started. -/
theorem added (hq : Queued I s P acts) (o : Owner) (timeout period : Nat) (c : Closure V) (f : Func) :
    Queued I ((s.timerNew.start s.created timeout period c).put I o s.created f) P acts := by
  have hne : ∀ {k}, k ∈ P.map Call.handle → k ≠ s.created := fun hk => (hq.made hk).ne
  constructor
  · exact hq.distinct.start
  · intro a ha
    change a.handle < s.created + 1
    rcases Loop.mem_timerStart.1 ha with ⟨ha, -⟩ | rfl
    · exact (hq.fresh a ha).trans (Nat.lt_succ_self _)
    · exact Nat.lt_succ_self _
  · intro p t k hp hk
    rcases Timers.own_of_own_put hp hk with rfl | ⟨u, hu, hk⟩
    · exact Nat.lt_succ_self _
    · exact (hq.keys p u k hu hk).trans (Nat.lt_succ_self _)
  · exact hq.handles
  · intro a ha
    have hold := hq.armed a ha
    exact Loop.mem_timerStart.2 (Or.inl ⟨hold, (hq.fresh a hold).ne⟩)
  · exact hq.sorted
  · intro a ha
    obtain ⟨h1, h2, h3, h4⟩ := hq.due a ha
    exact ⟨h1, h2, h3.trans (Nat.lt_succ_self _), h4⟩
  · intro d hd
    obtain ⟨h1, h2⟩ := hq.event d hd
    refine ⟨h1, ?_⟩
    change Function.update s.callbacks s.created (some c) d.handle = _
    rw [Function.update_of_ne (hne (List.mem_map_of_mem hd))]
    exact h2
  · intro d hd
    obtain ⟨q, t, hf, ht⟩ := hq.found d hd
    have hnew : ∃ u, ((s.timerNew.start s.created timeout period c).put I o s.created f).find I d.obj = some (q, u) ∧
        ∀ j, j ≠ s.created → u.lookup j = t.lookup j := Timers.find_put hf
    obtain ⟨u, hu, hkeep⟩ := hnew
    exact ⟨q, u, hu, by rw [hkeep _ (hne (List.mem_map_of_mem hd))]; exact ht⟩
  · intro d hd p t g hp hg
    rw [Timers.own_put_lookup hp (hne (List.mem_map_of_mem hd))] at hg
    obtain ⟨u, hu, hg⟩ := Option.bind_eq_some_iff.1 hg
    exact hq.only d hd p u g hu hg

/-- An event is emitted. -/
theorem emit (hq : Queued I s P acts) (o : Owner) (args : List V) :
    ∃ a, Queued I ((s.timerNew.start s.created 0 0 ⟨o, true, args⟩).put I o s.created Timers.dispatchEvent)
      (P ++ [⟨s.created, o, some Timers.dispatchEvent, args⟩]) (acts ++ [a]) := by
  have hold := hq.added o 0 0 ⟨o, true, args⟩ Timers.dispatchEvent
  refine ⟨⟨s.created, min (s.loop.time + 0) (2 ^ 64 - 1), s.loop.timer_counter, 0⟩, ?_⟩
  constructor
  · exact hold.distinct
  · exact hold.fresh
  · exact hold.keys
  · rw [List.map_append, List.map_append, hq.handles]
    rfl
  · intro b hb
    rcases List.mem_append.1 hb with hb | hb
    · exact hold.armed b hb
    · cases List.mem_singleton.1 hb
      exact Loop.mem_timerStart.2 (Or.inr rfl)
  · refine List.pairwise_append.2 ⟨hq.sorted, List.pairwise_singleton _ _, ?_⟩
    intro b hb b' hb'
    cases List.mem_singleton.1 hb'
    obtain ⟨h1, h2, h3, -⟩ := hq.due b hb
    have hle : b.timeout ≤ min (s.loop.time + 0) (2 ^ 64 - 1) := le_min h1 h2
    rw [Active.key, Active.key, Prod.Lex.toLex_lt_toLex]
    rcases hle.lt_or_eq with h | h
    · exact Or.inl h
    · exact Or.inr ⟨h, h3⟩
  · intro b hb
    rcases List.mem_append.1 hb with hb | hb
    · exact hold.due b hb
    · cases List.mem_singleton.1 hb
      exact ⟨Nat.min_le_left _ _, Nat.min_le_right _ _, Nat.lt_succ_self _, rfl⟩
  · intro d hd
    rcases List.mem_append.1 hd with hd | hd
    · exact hold.event d hd
    · cases List.mem_singleton.1 hd
      exact ⟨rfl, Function.update_self ..⟩
  · intro d hd
    rcases List.mem_append.1 hd with hd | hd
    · exact hold.found d hd
    · cases List.mem_singleton.1 hd
      exact Timers.find_put_self
  · intro d hd p t g hp hg
    rcases List.mem_append.1 hd with hd | hd
    · exact hold.only d hd p t g hp hg
    · cases List.mem_singleton.1 hd
      rcases Timers.own_put_lookup_self hp hg with rfl | ⟨u, hu, hg⟩
      · rfl
      · exact absurd (hq.keys p u _ hu (AList.lookup_isSome.1 (by rw [hg]; rfl))) (Nat.lt_irrefl _)

/-- Timers of no pending event are stopped. -/
theorem removed {o q : Owner} {t u : Table} {ks : List Nat} (hq : Queued I s P acts) (hf : s.find I o = some (q, t))
    (hrem : ∀ k ∈ ks, k ∉ u) (hrest : ∀ k, k ∉ ks → u.lookup k = t.lookup k) (hks : ∀ k ∈ ks, k ∉ P.map Call.handle) :
    Queued I ((s.setTable q u).stopAll ks) P acts := by
  have ht := Timers.own_of_find hf
  have hkeep : ∀ {k}, k ∈ P.map Call.handle → u.lookup k = t.lookup k := fun hk => hrest _ fun hmem => hks _ hmem hk
  constructor
  · refine hq.distinct.sub ?_
    rw [Timers.stopAll_eq]
    exact List.filter_sublist
  · intro a ha
    rw [Timers.stopAll_created]
    exact hq.fresh a (Timers.mem_stopAll.1 ha).1
  · intro p v k hp hk
    rw [Timers.stopAll_created]
    obtain ⟨f, hk⟩ := Option.isSome_iff_exists.1 (AList.lookup_isSome.2 hk)
    obtain ⟨-, w, hw, hk⟩ := Timers.entry_stopAll ht hrem hrest hp hk
    exact hq.keys p w k hw (AList.lookup_isSome.1 (by rw [hk]; rfl))
  · exact hq.handles
  · intro a ha
    refine Timers.mem_stopAll.2 ⟨hq.armed a ha, fun hmem => hks _ hmem ?_⟩
    rw [← hq.handles]
    exact List.mem_map_of_mem ha
  · exact hq.sorted
  · intro a ha
    rw [Timers.stopAll_eq]
    exact hq.due a ha
  · intro c hc
    rw [Timers.stopAll_callbacks]
    exact hq.event c hc
  · intro c hc
    obtain ⟨p, v, hp, hv⟩ := hq.found c hc
    have hfind : (s.setTable q u).find I c.obj = some (p, if p = q then u else v) :=
      Timers.find_setTable (Or.inl (by rw [ht]; exact Option.some_ne_none _)) hp
    refine ⟨p, if p = q then u else v, ?_, ?_⟩
    · unfold Timers.find at hfind ⊢
      rw [Timers.stopAll_own]
      exact hfind
    · split
      · rename_i hpq
        subst hpq
        rw [Timers.own_of_find hp] at ht
        cases ht
        rw [hkeep (List.mem_map_of_mem hc)]
        exact hv
      · exact hv
  · intro c hc p v g hp hg
    obtain ⟨-, w, hw, hg⟩ := Timers.entry_stopAll ht hrem hrest hp hg
    exact hq.only c hc p w g hw hg

/-- A timer of no pending event is due. -/
theorem otherDue (hq : Queued I s P acts) {a : Active} (ha : a ∈ s.loop.timers) (hne : a.handle ∉ P.map Call.handle) :
    Queued I (s.due a) P acts where
  distinct := hq.distinct.stop.again
  fresh b hb := by
    by_cases hba : b.handle = a.handle
    · rw [hba]
      exact hq.fresh a ha
    · obtain ⟨c, hc, hcb⟩ : s.loop.Running b.handle := by
        rcases Loop.running_again.1 ⟨b, hb, rfl⟩ with h | ⟨-, h⟩
        · exact (Loop.running_stop.1 h).1
        · exact absurd h hba
      rw [← hcb]
      exact hq.fresh c hc
  keys := hq.keys
  handles := hq.handles
  armed b hb := by
    have hba : b.handle ≠ a.handle := by
      intro h
      apply hne
      rw [← hq.handles, ← h]
      exact List.mem_map_of_mem hb
    exact Loop.mem_timerAgain (Loop.mem_timerStop.2 ⟨hq.armed b hb, hba⟩) hba
  sorted := hq.sorted
  due b hb := by
    obtain ⟨h1, h2, h3, h4⟩ := hq.due b hb
    refine ⟨?_, h2, h3.trans_le (Loop.counter_le_timerAgain (L := s.loop.timerStop a.handle)), h4⟩
    unfold Timers.due
    rw [Loop.timerAgain_time]
    exact h1
  event := hq.event
  found := hq.found
  only := hq.only

/-- The closure of a timer of no pending event. -/
theorem otherFire (hq : Queued I s P acts) {k : Nat} (hne : k ∉ P.map Call.handle) :
    Queued I (s.fire I k).1 P acts := by
  unfold Timers.fire
  split
  · exact hq
  · split
    · exact hq
    · rename_i q t hf
      dsimp only
      split
      · have hgone : ∀ j ∈ [k], j ∉ t.erase k := by
          intro j hj
          cases List.mem_singleton.1 hj
          simp
        have hother : ∀ j, j ∉ [k] → (t.erase k).lookup j = t.lookup j := by
          intro j hj
          rw [List.mem_singleton] at hj
          exact AList.lookup_erase_ne hj
        refine hq.removed hf hgone hother fun j hj => ?_
        cases List.mem_singleton.1 hj
        exact hne
      · exact hq

/-- The timer of a pending event that the loop takes is that of the first one. -/
theorem first {a : Active} (hq : Queued I s P acts) (hm : s.loop.heapMin = some a) (hk : a.handle ∈ P.map Call.handle) :
    ∃ acts', acts = a :: acts' := by
  obtain ⟨ha, hmin⟩ := Loop.heapMin_spec hm
  obtain ⟨b, hb, hba⟩ := hq.active hk
  have hab := hq.distinct.eq (hq.armed b hb) ha hba
  subst hab
  cases acts with
  | nil => cases hb
  | cons b' acts' =>
    rcases List.mem_cons.1 hb with rfl | hb
    · exact ⟨acts', rfl⟩
    · have hlt := (List.pairwise_cons.1 hq.sorted).1 b hb
      exact absurd (hmin b' (hq.armed b' List.mem_cons_self)) (not_le_of_gt hlt)

/-- The first pending event is dispatched. -/
theorem dispatch {a : Active} {c : Call V} (hq : Queued I s (c :: P) (a :: acts)) (ha : a.handle = c.handle) :
    Queued I ((s.due a).fire I a.handle).1 P acts ∧ ((s.due a).fire I a.handle).2 = [.call c] ∧
      ¬((s.due a).fire I a.handle).1.loop.Running c.handle := by
  obtain ⟨hcall, hclosure⟩ := hq.event c List.mem_cons_self
  obtain ⟨q, t, hf, ht⟩ := hq.found c List.mem_cons_self
  obtain ⟨-, -, -, hp⟩ := hq.due a List.mem_cons_self
  have hnot : c.handle ∉ P.map Call.handle := by
    rw [← (List.cons.inj hq.handles).2, ← ha, List.mem_map]
    rintro ⟨b, hb, hba⟩
    have hab := hq.distinct.eq (hq.armed b (List.mem_cons_of_mem _ hb)) (hq.armed a List.mem_cons_self) hba
    subst hab
    exact lt_irrefl _ ((List.pairwise_cons.1 hq.sorted).1 b hb)
  rw [Timers.fire_due (c := ⟨c.obj, true, c.args⟩) (by rw [ha]; exact hclosure) hf, if_pos rfl,
    Timers.stop_due hp, ha, ht]
  refine ⟨?_, ?_, ?_⟩
  · refine hq.tail.removed hf ?_ ?_ ?_
    · intro k hk
      cases List.mem_singleton.1 hk
      simp
    · intro k hk
      rw [List.mem_singleton] at hk
      exact AList.lookup_erase_ne hk
    · intro k hk
      cases List.mem_singleton.1 hk
      exact hnot
  · rw [← hcall]
  · intro hrun
    exact (Timers.running_stopAll.1 hrun).2 (List.mem_singleton.2 rfl)

/-- What an action does to the pending events. -/
def Moves (I : Objects) (s : Timers V) (P : List (Call V)) (r : Timers V × List (Out V)) : Prop :=
  (∃ acts, Queued I r.1 (P ++ emitted r.2) acts ∧ ∀ c ∈ calls r.2, c.handle < s.created ∧
    c.handle ∉ P.map Call.handle) ∨
  ∃ c P' acts, P = c :: P' ∧ r.2 = [.call c] ∧ Queued I r.1 P' acts ∧ c.handle < r.1.created ∧
  ¬r.1.loop.Running c.handle

theorem quiet {s' : Timers V} (hq : Queued I s' P acts) : Moves I s P (s', []) := by
  refine Or.inl ⟨acts, ?_, ?_⟩
  · rw [show emitted ([] : List (Out V)) = [] from rfl, List.append_nil]
    exact hq
  · intro c hc
    cases hc

theorem runTimer (hq : Queued I s P acts) : Moves I s P (s.runTimer I) := by
  rcases Timers.runTimer_cases (I := I) s with ⟨h, -⟩ | ⟨a, hm, -, h⟩
  · rw [h]
    exact hq.quiet
  · have ha := (Loop.heapMin_spec hm).1
    obtain ⟨-, hcreated, -, hcall⟩ := Timers.fire_spec (I := I) (s.due a) a.handle
    rw [h]
    by_cases hk : a.handle ∈ P.map Call.handle
    · obtain ⟨acts', rfl⟩ := hq.first hm hk
      cases P with
      | nil => cases hk
      | cons c P' =>
        have hac : a.handle = c.handle := (List.cons.inj hq.handles).1
        obtain ⟨hq', hout, hrun⟩ := hq.dispatch hac
        refine Or.inr ⟨c, P', acts', rfl, hout, hq', ?_, hrun⟩
        rw [hcreated, ← hac]
        exact hq.fresh a ha
    · refine Or.inl ⟨acts, ?_, ?_⟩
      · rw [emitted_fire, List.append_nil]
        exact (hq.otherDue ha hk).otherFire hk
      · intro c hc
        obtain ⟨o, ho, hoc⟩ := List.mem_filterMap.1 hc
        cases o with
        | emit d => cases hoc
        | call d =>
          cases hoc
          rw [hcall c ho]
          exact ⟨hq.fresh a ha, hk⟩

/-- **One action** emits an event, which is then pending, dispatches the first event that is pending, or does
neither. -/
theorem step (hq : Queued I s P acts) (a : Action V) (hun : Undisturbed I a)
    (hdel : ∀ self obj k, a = .DelTimer self obj k → k ∉ P.map Call.handle) : Moves I s P (s.step I a) := by
  have hstep := Timers.stepped I s a
  generalize s.step I a = r at hstep
  cases hstep with
  | same => exact hq.quiet
  | added self target delay interval f => exact (hq.added _ _ _ _ f).quiet
  | raised => exact hq.raised.quiet
  | removed h =>
    obtain ⟨q, t, u, hf, rfl, hrem, hrest⟩ := h.found
    refine (hq.removed hf (fun k hk => (hrem k hk).2) hrest fun k hk => ?_).quiet
    cases List.mem_singleton.1 hk
    exact hdel _ _ _ rfl
  | removedByName hf h =>
    obtain ⟨q', t', u, hf', rfl, hrem, hrest⟩ := h.found
    rw [hf] at hf'
    cases hf'
    refine (hq.removed hf (fun k hk => (hrem k hk).2) hrest fun k hk hmem => hun ?_).quiet
    obtain ⟨c, hc, rfl⟩ := List.mem_map.1 hmem
    rw [hq.only c hc _ _ _ (Timers.own_of_find hf) (Timers.mem_keysOf.1 hk)]
  | cleared => exact hun.elim
  | ticked self f => exact (hq.added _ _ _ _ f).quiet
  | emitted self name args =>
    obtain ⟨a, ha⟩ := hq.emit self (name :: args)
    refine Or.inl ⟨acts ++ [a], ha, fun c hc => ?_⟩
    cases hc
  | advanced ms => exact (hq.advanced ms).quiet
  | ran => exact hq.runTimer

end Queued

/-! ## Runs -/

theorem emitted_append (tr tr' : List (Out V)) : emitted (tr ++ tr') = emitted tr ++ emitted tr' :=
  List.filterMap_append

theorem calls_append (tr tr' : List (Out V)) : calls (tr ++ tr') = calls tr ++ calls tr' := List.filterMap_append

theorem mem_calls {tr : List (Out V)} {c : Call V} : c ∈ calls tr ↔ Out.call c ∈ tr := by
  unfold calls
  rw [List.mem_filterMap]
  constructor
  · rintro ⟨o, ho, hc⟩
    cases o with
    | emit d => cases hc
    | call d =>
      cases hc
      exact ho
  · intro h
    exact ⟨_, h, rfl⟩

theorem callsBy_append (ks : List Nat) (cs ds : List (Call V)) :
    callsBy ks (cs ++ ds) = callsBy ks cs ++ callsBy ks ds :=
  List.filter_append ..

/-- What an action emits has the handle that is made next. -/
structure Emits (s : Timers V) (r : Timers V × List (Out V)) : Prop where
  grows : s.created ≤ r.1.created
  new : emitted r.2 = [] ∨ ∃ c, emitted r.2 = [c] ∧ c.handle = s.created ∧ c.callback = some Timers.dispatchEvent ∧
    s.created < r.1.created

theorem emits_step (s : Timers V) (a : Action V) : Emits s (s.step I a) := by
  have hstop : ∀ {o : Owner} {ks : List Nat} {s' : Timers V}, Timers.Removed I s o ks s' → s.created ≤ s'.created := by
    intro o ks s' h
    obtain ⟨q, t, u, -, rfl, -⟩ := h.found
    rw [Timers.stopAll_created]
    exact le_rfl
  have hstep := Timers.stepped I s a
  generalize s.step I a = r at hstep
  cases hstep with
  | same => exact ⟨le_rfl, Or.inl rfl⟩
  | added => exact ⟨Nat.le_succ _, Or.inl rfl⟩
  | raised => exact ⟨Nat.le_succ _, Or.inl rfl⟩
  | removed h => exact ⟨hstop h, Or.inl rfl⟩
  | removedByName _ h => exact ⟨hstop h, Or.inl rfl⟩
  | cleared =>
    refine ⟨?_, Or.inl rfl⟩
    dsimp only
    rw [Timers.stopAll_created]
    exact le_rfl
  | ticked => exact ⟨Nat.le_succ _, Or.inl rfl⟩
  | emitted => exact ⟨Nat.le_succ _, Or.inr ⟨_, rfl, rfl, rfl, Nat.lt_succ_self _⟩⟩
  | advanced ms => exact ⟨le_rfl, Or.inl rfl⟩
  | ran =>
    rcases Timers.runTimer_cases (I := I) s with ⟨h, -⟩ | ⟨a, -, -, h⟩
    · rw [h]
      exact ⟨le_rfl, Or.inl rfl⟩
    · rw [h]
      exact ⟨(Timers.fire_spec (I := I) (s.due a) a.handle).2.1.ge, Or.inl (emitted_fire _ _)⟩

/-- The events that are emitted from a state on have handles that are made from then on. -/
theorem emitted_trace : ∀ (as : List (Action V)) (s : Timers V),
    (∀ c ∈ emitted (trace (Timers.step I) s as), s.created ≤ c.handle ∧ c.callback = some Timers.dispatchEvent) ∧
      ((emitted (trace (Timers.step I) s as)).map Call.handle).Nodup
  | [], _ => ⟨fun _ hc => (List.not_mem_nil hc).elim, List.nodup_nil⟩
  | a :: as, s => by
    obtain ⟨hgrow, hnew⟩ := emits_step (I := I) s a
    obtain ⟨ih, ihnd⟩ := emitted_trace as (s.step I a).1
    rw [trace, emitted_append]
    rcases hnew with hnil | ⟨c, hc, hk, hcall, hlt⟩
    · rw [hnil, List.nil_append]
      exact ⟨fun d hd => ⟨hgrow.trans (ih d hd).1, (ih d hd).2⟩, ihnd⟩
    · rw [hc]
      constructor
      · intro d hd
        rcases List.mem_cons.1 hd with rfl | hd
        · exact ⟨hk.ge, hcall⟩
        · exact ⟨hgrow.trans (ih d hd).1, (ih d hd).2⟩
      · refine List.nodup_cons.2 ⟨fun hmem => ?_, ihnd⟩
        obtain ⟨d, hd, hdk⟩ := List.mem_map.1 hmem
        have hle := (ih d hd).1
        omega

/-- The events of a trace are those of the actions. -/
theorem emitted_events : ∀ (as : List (Action V)) (s : Timers V), (∀ a ∈ as, Undisturbed I a) →
    (emitted (trace (Timers.step I) s as)).map (fun c => (c.obj, c.args)) = as.filterMap Action.event
  | [], _, _ => rfl
  | a :: as, s, h => by
    have hone : (emitted (s.step I a).2).map (fun c => (c.obj, c.args)) = a.event.toList := by
      cases a with
      | OnEvent self name args =>
        have hhas : I.has self Timers.dispatchEvent = true := h _ List.mem_cons_self
        change (emitted (s.OnEvent I self name args).2).map _ = _
        rcases Timers.OnEvent_cases (I := I) s self name args with ⟨-, he⟩ | ⟨hno, -⟩
        · rw [he]
          rfl
        · rw [hhas] at hno
          cases hno
      | runTimer =>
        change (emitted (s.runTimer I).2).map _ = _
        rcases Timers.runTimer_cases (I := I) s with ⟨he, -⟩ | ⟨b, -, -, he⟩
        · rw [he]
          rfl
        · rw [he, emitted_fire]
          rfl
      | _ => rfl
    rw [trace, emitted_append, List.map_append, hone, emitted_events as _ fun b hb => h b (List.mem_cons_of_mem _ hb)]
    cases he : a.event with
    | none => rw [List.filterMap_cons_none he]; rfl
    | some e => rw [List.filterMap_cons_some he]; rfl

/-- **Runs** dispatch pending events in order. -/
theorem Queued.run : ∀ (as : List (Action V)) {s : Timers V} {P : List (Call V)} {acts : List Active},
    Queued I s P acts → (∀ a ∈ as, Undisturbed I a) →
    (∀ self obj k, .DelTimer self obj k ∈ as → k ∉ (P ++ emitted (trace (Timers.step I) s as)).map Call.handle) →
    ∃ P' acts', Queued I (as.foldl (Timers.next I) s) P' acts' ∧ P ++ emitted (trace (Timers.step I) s as) =
      callsBy ((P ++ emitted (trace (Timers.step I) s as)).map Call.handle) (calls (trace (Timers.step I) s as)) ++ P'
  | [], _, P, acts, hq, _, _ => ⟨P, acts, hq, by simp [trace, emitted, calls, callsBy]⟩
  | a :: as, s, P, acts, hq, hun, hdel => by
    have hun' : ∀ b ∈ as, Undisturbed I b := fun b hb => hun b (List.mem_cons_of_mem _ hb)
    have hone : ∀ self obj k, a = .DelTimer self obj k → k ∉ P.map Call.handle := by
      rintro self obj k rfl hk
      refine hdel self obj k List.mem_cons_self ?_
      rw [List.map_append]
      exact List.mem_append_left _ hk
    have hnew := (emitted_trace (I := I) (a :: as) s).1
    rw [trace, emitted_append] at hdel hnew ⊢
    rw [calls_append, callsBy_append]
    rcases hq.step a (hun a List.mem_cons_self) hone with ⟨acts₁, hq₁, hcalls⟩ | ⟨c, P₁, acts₁, rfl, hout, hq₁,
      hmade, hrun⟩
    · obtain ⟨P', acts', hq', heq⟩ := Queued.run as hq₁ hun' fun self obj k hmem => by
        rw [List.append_assoc]
        exact hdel self obj k (List.mem_cons_of_mem _ hmem)
      refine ⟨P', acts', hq', ?_⟩
      rw [List.append_assoc] at heq
      have hnil : callsBy
          ((P ++ (emitted (s.step I a).2 ++ emitted (trace (Timers.step I) (s.step I a).1 as))).map Call.handle)
          (calls (s.step I a).2) = [] := by
        refine List.filter_eq_nil_iff.2 fun c hc => ?_
        obtain ⟨hlt, hP⟩ := hcalls c hc
        rw [decide_eq_true_eq, List.map_append, List.mem_append, not_or]
        refine ⟨hP, fun hmem => ?_⟩
        obtain ⟨d, hd, hdc⟩ := List.mem_map.1 hmem
        have hle := (hnew d hd).1
        omega
      rw [hnil, List.nil_append]
      exact heq
    · have hnoemit : emitted (s.step I a).2 = [] := by
        rw [hout]
        rfl
      rw [hnoemit, List.nil_append] at hdel ⊢
      obtain ⟨P', acts', hq', heq⟩ := Queued.run as hq₁ hun' fun self obj k hmem hk => by
        exact hdel self obj k (List.mem_cons_of_mem _ hmem) (List.mem_cons_of_mem _ hk)
      refine ⟨P', acts', hq', ?_⟩
      have hidle : (s.next I a).Idle c.handle := ⟨hmade, hrun⟩
      have hhead : callsBy ((c :: P₁ ++ emitted (trace (Timers.step I) (s.step I a).1 as)).map Call.handle)
          (calls (s.step I a).2) = [c] := by
        rw [hout]
        exact List.filter_cons_of_pos (decide_eq_true List.mem_cons_self)
      have hrest : callsBy ((c :: P₁ ++ emitted (trace (Timers.step I) (s.step I a).1 as)).map Call.handle)
          (calls (trace (Timers.step I) (s.step I a).1 as)) =
          callsBy ((P₁ ++ emitted (trace (Timers.step I) (s.step I a).1 as)).map Call.handle)
            (calls (trace (Timers.step I) (s.step I a).1 as)) := by
        refine List.filter_congr fun d hd => ?_
        have hne := hidle.not_called (I := I) as d (mem_calls.1 hd)
        rw [List.cons_append, List.map_cons, decide_eq_decide, List.mem_cons]
        exact or_iff_right hne
      rw [hhead, hrest, List.cons_append, List.cons_append, List.nil_append]
      exact congrArg _ heq

/-! ## Timers by name -/

/-- The entries with the name `DispatchEvent` belong to events. -/
def Named (s : Timers V) (ks : List Nat) : Prop :=
  ∀ o t k, s.own o = some t → t.lookup k = some Timers.dispatchEvent → k ∈ ks

namespace Named

variable {ks : List Nat}

theorem added (h : Named s ks) (o : Owner) (timeout period : Nat) (c : Closure V) {f : Func}
    (hf : f ≠ Timers.dispatchEvent) :
    Named ((s.timerNew.start s.created timeout period c).put I o s.created f) ks := by
  intro p t k hp hk
  by_cases hkc : k = s.created
  · subst hkc
    rcases Timers.own_put_lookup_self hp hk with he | ⟨u, hu, hk⟩
    · exact absurd he.symm hf
    · exact h p u _ hu hk
  · rw [Timers.own_put_lookup hp hkc] at hk
    obtain ⟨u, hu, hk⟩ := Option.bind_eq_some_iff.1 hk
    exact h p u k hu hk

theorem emit (h : Named s ks) (o : Owner) (timeout period : Nat) (c : Closure V) :
    Named ((s.timerNew.start s.created timeout period c).put I o s.created Timers.dispatchEvent)
    (ks ++ [s.created]) := by
  intro p t k hp hk
  by_cases hkc : k = s.created
  · subst hkc
    exact List.mem_append_right _ (List.mem_singleton.2 rfl)
  · rw [Timers.own_put_lookup hp hkc] at hk
    obtain ⟨u, hu, hk⟩ := Option.bind_eq_some_iff.1 hk
    exact List.mem_append_left _ (h p u k hu hk)

theorem removed {o : Owner} {js : List Nat} {s' : Timers V} (h : Named s ks) (hr : Timers.Removed I s o js s') :
    Named s' ks := by
  intro p v k hp hk
  obtain ⟨w, hw, hk⟩ := hr.entry hp hk
  exact h p w k hw hk

theorem fire (h : Named s ks) (k : Nat) :
    Named (s.fire I k).1 ks ∧ ∀ c ∈ calls (s.fire I k).2, c.callback = some Timers.dispatchEvent → c.handle ∈ ks := by
  unfold Timers.fire
  split
  · refine ⟨h, ?_⟩
    intro c hc
    cases hc
  · split
    · refine ⟨h, ?_⟩
      intro c hc hcall
      cases List.mem_singleton.1 hc
      cases hcall
    · rename_i c q t hf
      have ht := Timers.own_of_find hf
      dsimp only
      constructor
      · split
        · intro p v j hp hj
          by_cases hpq : p = q
          · subst hpq
            rw [Timers.stop, Timers.setTable_own] at hp
            cases hp
            have hjk : j ≠ k := by
              rintro rfl
              rw [AList.lookup_erase] at hj
              cases hj
            rw [AList.lookup_erase_ne hjk] at hj
            exact h p t j ht hj
          · rw [Timers.stop, Timers.setTable_own_ne hpq] at hp
            exact h p v j hp hj
        · exact h
      · intro d hd hcall
        cases List.mem_singleton.1 hd
        exact h q t k ht hcall

/-- **One action** calls `DispatchEvent` for events only. -/
theorem step (h : Named s ks) (a : Action V) (hun : Undisturbed I a) (honly : OnlyByEvent a) :
    Named (s.next I a) (ks ++ (emitted (s.step I a).2).map Call.handle) ∧
      ∀ c ∈ calls (s.step I a).2, c.callback = some Timers.dispatchEvent → c.handle ∈ ks := by
  have hquiet : ∀ {s' : Timers V}, Named s' ks → Named s' (ks ++ (emitted ([] : List (Out V))).map Call.handle) ∧
      ∀ c ∈ calls ([] : List (Out V)), c.callback = some Timers.dispatchEvent → c.handle ∈ ks := by
    intro s' hs'
    refine ⟨?_, ?_⟩
    · rw [show emitted ([] : List (Out V)) = [] from rfl, List.map_nil, List.append_nil]
      exact hs'
    · intro c hc
      cases hc
  have hstep := Timers.stepped I s a
  unfold Timers.next
  generalize s.step I a = r at hstep
  cases hstep with
  | same => exact hquiet h
  | added self target delay interval f => exact hquiet (h.added _ _ _ _ fun hf => honly (congrArg some hf))
  | raised => exact hquiet h
  | removed he => exact hquiet (h.removed he)
  | removedByName _ he => exact hquiet (h.removed he)
  | cleared => exact hun.elim
  | ticked self f => exact hquiet (h.added _ _ _ _ fun hf => honly (congrArg some hf))
  | emitted =>
    refine ⟨h.emit _ _ _ _, ?_⟩
    intro c hc
    cases hc
  | advanced ms => exact hquiet h
  | ran =>
    rcases Timers.runTimer_cases (I := I) s with ⟨he, -⟩ | ⟨b, -, -, he⟩
    · rw [he]
      exact hquiet h
    · have hdue : Named (s.due b) ks := h
      rw [he, emitted_fire, List.map_nil, List.append_nil]
      exact hdue.fire b.handle

/-- The calls of `DispatchEvent` in a run are those of events. -/
theorem run : ∀ (as : List (Action V)) {s : Timers V} {ks : List Nat}, Named s ks → (∀ a ∈ as, Undisturbed I a) →
    (∀ a ∈ as, OnlyByEvent a) → ∀ c ∈ calls (trace (Timers.step I) s as), c.callback = some Timers.dispatchEvent →
      c.handle ∈ ks ++ (emitted (trace (Timers.step I) s as)).map Call.handle
  | [], _, _, _, _, _, c, hc, _ => by cases hc
  | a :: as, s, ks, h, hun, honly, c, hc, hcall => by
    obtain ⟨hnext, hnow⟩ := h.step a (hun a List.mem_cons_self) (honly a List.mem_cons_self)
    rw [trace, calls_append, List.mem_append] at hc
    rw [trace, emitted_append, List.map_append, ← List.append_assoc]
    rcases hc with hc | hc
    · exact List.mem_append_left _ (List.mem_append_left _ (hnow c hc hcall))
    · exact run as hnext (fun b hb => hun b (List.mem_cons_of_mem _ hb))
        (fun b hb => honly b (List.mem_cons_of_mem _ hb)) c hc hcall

end Named

/-- **The order of events**: in a run without `DelAll` and without `DelTimerByName` of `DispatchEvent`, the events of
the actions are those that have been dispatched, in order, followed by those that are pending, whose timers are due. No
event is dispatched twice; when no timer is due, all have been; and if no other timers have that name, these are all the
calls of `DispatchEvent`. (`OnEvent` returns no handle, so that `DelTimer` is never given that of an event.) -/
theorem events_in_order (I : Objects) (time counter : Nat) (as : List (Action V)) (hun : ∀ a ∈ as, Undisturbed I a)
    (hdel : ∀ self obj k, .DelTimer self obj k ∈ as →
      k ∉ (emitted (trace (Timers.step I) (Timers.init time counter) as)).map Call.handle) :
    (emitted (trace (Timers.step I) (Timers.init time counter) as)).map (fun c => (c.obj, c.args)) =
        as.filterMap Action.event ∧
    ((emitted (trace (Timers.step I) (Timers.init time counter) as)).map Call.handle).Nodup ∧
    (∃ pending, emitted (trace (Timers.step I) (Timers.init time counter) as) =
        dispatched (trace (Timers.step I) (Timers.init time counter) as) ++ pending ∧
      ∀ c ∈ pending, ∃ a ∈ (as.foldl (Timers.next I) (Timers.init time counter)).loop.timers,
        a.handle = c.handle ∧ a.timeout ≤ (as.foldl (Timers.next I) (Timers.init time counter)).loop.time) ∧
    ((∀ a ∈ (as.foldl (Timers.next I) (Timers.init time counter)).loop.timers,
        (as.foldl (Timers.next I) (Timers.init time counter)).loop.time < a.timeout) →
      dispatched (trace (Timers.step I) (Timers.init time counter) as) =
        emitted (trace (Timers.step I) (Timers.init time counter) as)) ∧
    ((∀ a ∈ as, OnlyByEvent a) →
      (calls (trace (Timers.step I) (Timers.init time counter) as)).filter
      (fun c => c.callback = some Timers.dispatchEvent) =
        dispatched (trace (Timers.step I) (Timers.init time counter) as)) := by
  obtain ⟨hnew, hnodup⟩ := emitted_trace (I := I) as (Timers.init time counter)
  obtain ⟨pending, acts, hq, heq⟩ := Queued.run (I := I) as (Queued.init time counter) hun hdel
  rw [List.nil_append] at heq
  have hdue : ∀ c ∈ pending, ∃ a ∈ (as.foldl (Timers.next I) (Timers.init time counter)).loop.timers,
      a.handle = c.handle ∧ a.timeout ≤ (as.foldl (Timers.next I) (Timers.init time counter)).loop.time := by
    intro c hc
    obtain ⟨a, ha, hac⟩ := hq.active (List.mem_map_of_mem hc)
    exact ⟨a, hq.armed a ha, hac, (hq.due a ha).1⟩
  refine ⟨emitted_events as _ hun, hnodup, ⟨pending, heq, hdue⟩, ?_, ?_⟩
  · intro hlate
    have hnil : pending = [] := by
      rw [List.eq_nil_iff_forall_not_mem]
      intro c hc
      obtain ⟨a, ha, -, hle⟩ := hdue c hc
      exact absurd hle (Nat.not_le.2 (hlate a ha))
    rw [hnil, List.append_nil] at heq
    exact heq.symm
  · intro honly
    have hnone : Named (Timers.init time counter : Timers V) [] := by
      intro o t k ho
      cases ho
    refine List.filter_congr fun c hc => decide_eq_decide.2 ⟨?_, ?_⟩
    · exact fun hcall => Named.run as hnone hun honly c hc hcall
    · intro hmem
      have hdisp : c ∈ dispatched (trace (Timers.step I) (Timers.init time counter) as) :=
        List.mem_filter.2 ⟨hc, decide_eq_true hmem⟩
      have hem : c ∈ emitted (trace (Timers.step I) (Timers.init time counter) as) := by
        rw [heq]
        exact List.mem_append_left _ hdisp
      exact (hnew c hem).2

/-- Events of two objects, one emitted while another is dispatched. -/
def chatting : List (Action Nat) :=
  [.OnEvent 1 10 [], .OnEvent 2 20 [5], .runTimer, .OnEvent 1 30 [], .runTimer, .runTimer, .runTimer]

theorem events_in_order_chatting :
    (emitted (trace (Timers.step plain) (Timers.init 0 0) chatting)).map (fun c => (c.obj, c.args)) =
      [(1, [10]), (2, [20, 5]), (1, [30])] ∧
    dispatched (trace (Timers.step plain) (Timers.init 0 0) chatting) =
        emitted (trace (Timers.step plain) (Timers.init 0 0) chatting) := by
  have hun : ∀ a ∈ chatting, Undisturbed plain a := by
    intro a ha
    simp only [chatting, List.mem_cons, List.not_mem_nil, or_false] at ha
    rcases ha with rfl | rfl | rfl | rfl | rfl | rfl | rfl <;> trivial
  have hdel : ∀ self obj k, .DelTimer self obj k ∈ chatting →
      k ∉ (emitted (trace (Timers.step plain) (Timers.init 0 0) chatting)).map Call.handle := by
    intro self obj k h
    simp [chatting] at h
  have hrun := events_in_order plain 0 0 chatting hun hdel
  refine ⟨hrun.1, hrun.2.2.2.1 ?_⟩
  intro a ha
  cases ha

end XCore.Timer
