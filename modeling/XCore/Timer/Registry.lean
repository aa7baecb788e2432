import XCore.Timer.Timer

/-!
# The registry of timers

On owners that resolve `__Timer` to their own tables the loop and the tables agree (`timer_registry`): a timer is active
exactly as long as it is a key of its owner's table. So a closure always finds its callback, a timer that has been
deleted is not called again, and a one-shot timer is called at most once.

`Registered` is the invariant; `Registered.added`, `Registered.removed` and `Registered.expired` keep it.
-/

namespace XCore.Timer

open XCore.Lua XCore.Run XCore.Monitor

variable {V : Type} {I : Objects} {s : Timers V} {k : Nat}

/-- The object whose table a call works on. -/
def Action.owner : Action V → Option Owner
  | .AddTimer self obj _ _ _ _ => some (obj.getD self)
  | .DelTimer self obj _ => some (obj.getD self)
  | .DelTimerByName self obj _ => some (obj.getD self)
  | .DelAll self obj => some (obj.getD self)
  | .NextTick self _ _ => some self
  | .OnEvent self _ _ => some self
  | .advance _ => none
  | .runTimer => none

/-- An object resolves `__Timer` to its own table, if to any. -/
def OwnTable (I : Objects) (s : Timers V) (o : Owner) : Prop := ∀ q t, s.find I o = some (q, t) → q = o

/-- A timer is a key of its owner's table. -/
def Key (I : Objects) (s : Timers V) (k : Nat) : Prop :=
  ∃ c q t, s.callbacks k = some c ∧ s.find I c.obj = some (q, t) ∧ k ∈ t

/-- The calls of a timer's closure in a trace. -/
def callsOf (k : Nat) (tr : List (Out V)) : List (Call V) := tr.filterMap fun
  | .call c => if c.handle = k then some c else none
  | .emit _ => none

/-- The loop and the tables agree. -/
structure Registered (s : Timers V) : Prop where
  fresh : ∀ k c, s.callbacks k = some c → k < s.created
  owned : ∀ k c, s.callbacks k = some c → s.own c.obj ≠ none
  running : ∀ k, s.loop.Running k → ∃ c t, s.callbacks k = some c ∧ s.own c.obj = some t ∧ k ∈ t
  keyed : ∀ o t k, s.own o = some t → k ∈ t → s.loop.Running k ∧ ∃ c, s.callbacks k = some c ∧ c.obj = o
  once : ∀ a ∈ s.loop.timers, ∀ c, s.callbacks a.handle = some c → (c.once = true ↔ a.period = 0)

namespace Registered

theorem init (time counter : Nat) : Registered (Timers.init time counter : Timers V) where
  fresh _ _ h := by cases h
  owned _ _ h := by cases h
  running _ h := by
    obtain ⟨a, ha, -⟩ := h
    cases ha
  keyed _ _ _ h := by cases h
  once _ h := by cases h

/-- An object that finds its own table. -/
theorem ownTable_of_find {o : Owner} {t : Table} (h : s.find I o = some (o, t)) : OwnTable I s o := by
  intro q u hq
  rw [h] at hq
  cases hq
  rfl

/-- A timer is active exactly when it is a key of its owner's table. -/
theorem running_iff (hs : Registered s) : s.loop.Running k ↔ Key I s k := by
  constructor
  · intro hk
    obtain ⟨c, t, hc, ht, hmem⟩ := hs.running k hk
    exact ⟨c, c.obj, t, hc, Timers.find_own ht, hmem⟩
  · rintro ⟨c, q, t, hc, hf, hmem⟩
    exact (hs.keyed q t k (Timers.own_of_find hf) hmem).1

/-- A clock that goes on, and a handle that is not started. -/
theorem idle (hs : Registered s) (loop : Loop) (hl : loop.timers = s.loop.timers) (n : Nat) (hn : s.created ≤ n)
    (pinned : List Nat) : Registered { s with loop := loop, created := n, pinned := pinned } where
  fresh k c hc := (hs.fresh k c hc).trans_le hn
  owned := hs.owned
  running k hk := hs.running k (by unfold Loop.Running; rw [← hl]; exact hk)
  keyed o t k ho hk := by
    have hrun := (hs.keyed o t k ho hk).1
    unfold Loop.Running at hrun ⊢
    rw [hl]
    exact ⟨hrun, (hs.keyed o t k ho hk).2⟩
  once a ha := hs.once a (hl ▸ ha)

/-- An entry that is put into an object's own table. -/
theorem put_own {o : Owner} {f : Func} (hown : OwnTable I s o) :
    s.put I o k f = s.setTable o (((s.own o).getD ∅).insert k f) := by
  unfold Timers.put
  cases hf : s.find I o with
  | none =>
    cases ho : s.own o with
    | none => rfl
    | some t =>
      rw [Timers.find_own ho] at hf
      cases hf
  | some r =>
    obtain ⟨q, t⟩ := r
    have hq := hown q t hf
    subst hq
    rw [Timers.own_of_find hf]
    rfl

/-- The entries of the tables after one is put into an object's own. -/
theorem entry_put {o p : Owner} {f g : Func} {t : Table} {j : Nat} (hown : OwnTable I s o)
    (h : (s.put I o k f).own p = some t)
    (hj : t.lookup j = some g) : (p = o ∧ j = k ∧ g = f) ∨ ∃ u, s.own p = some u ∧ u.lookup j = some g := by
  rw [put_own hown] at h
  by_cases hp : p = o
  · subst hp
    rw [Timers.setTable_own] at h
    cases h
    by_cases hjk : j = k
    · subst hjk
      rw [AList.lookup_insert] at hj
      exact Or.inl ⟨rfl, rfl, (Option.some.inj hj).symm⟩
    · rw [AList.lookup_insert_ne hjk] at hj
      cases ho : s.own p with
      | none =>
        rw [ho] at hj
        cases hj
      | some u =>
        rw [ho] at hj
        exact Or.inr ⟨u, rfl, hj⟩
  · rw [Timers.setTable_own_ne hp] at h
    exact Or.inr ⟨t, h, hj⟩

/-- A timer is started. -/
theorem added {o : Owner} (hs : Registered s) (hown : OwnTable I s o) (timeout period : Nat) (args : List V)
    (f : Func) :
    Registered ((s.timerNew.start s.created timeout period ⟨o, period == 0, args⟩).put I o s.created f) := by
  have hnew : ∀ c, s.callbacks s.created ≠ some c := fun c hc => absurd (hs.fresh _ c hc) (Nat.lt_irrefl _)
  have hput : (s.timerNew.start s.created timeout period ⟨o, period == 0, args⟩).put I o s.created f =
      (s.timerNew.start s.created timeout period ⟨o, period == 0, args⟩).setTable o
      (((s.own o).getD ∅).insert s.created f) :=
    put_own hown
  have hold : ∀ {k c}, s.callbacks k = some c →
      Function.update s.callbacks s.created (some ⟨o, period == 0, args⟩) k = some c := by
    intro k c hc
    rw [Function.update_of_ne]
    · exact hc
    · rintro rfl
      exact hnew c hc
  constructor
  · intro k c hc
    change Function.update s.callbacks s.created _ k = some c at hc
    change k < s.created + 1
    by_cases hk : k = s.created
    · omega
    · rw [Function.update_of_ne hk] at hc
      exact (hs.fresh k c hc).trans (Nat.lt_succ_self _)
  · intro k c hc
    change Function.update s.callbacks s.created _ k = some c at hc
    rw [hput]
    by_cases ho : c.obj = o
    · rw [ho, Timers.setTable_own]
      exact Option.some_ne_none _
    · rw [Timers.setTable_own_ne ho]
      by_cases hk : k = s.created
      · subst hk
        rw [Function.update_self] at hc
        cases hc
        exact absurd rfl ho
      · rw [Function.update_of_ne hk] at hc
        exact hs.owned k c hc
  · intro k hk
    rw [hput]
    rcases Loop.running_start.1 hk with hk | rfl
    · obtain ⟨c, t, hc, ht, hmem⟩ := hs.running k hk
      by_cases ho : c.obj = o
      · refine ⟨c, _, hold hc, by rw [ho]; exact Timers.setTable_own, ?_⟩
        rw [ho] at ht
        rw [ht]
        exact (AList.mem_insert _).2 (Or.inr hmem)
      · exact ⟨c, t, hold hc, by rw [Timers.setTable_own_ne ho]; exact ht, hmem⟩
    · exact ⟨_, _, Function.update_self .., Timers.setTable_own, (AList.mem_insert _).2 (Or.inl rfl)⟩
  · intro o' t k ht hk
    obtain ⟨g, hk⟩ := Option.isSome_iff_exists.1 (AList.lookup_isSome.2 hk)
    have hentry := entry_put (s := s.timerNew.start s.created timeout period ⟨o, period == 0, args⟩) hown ht hk
    rcases hentry with ⟨rfl, rfl, -⟩ | ⟨u, hu, hk⟩
    · exact ⟨Loop.running_start.2 (Or.inr rfl), _, Function.update_self .., rfl⟩
    · obtain ⟨hrun, c, hc, hobj⟩ := hs.keyed o' u k hu (AList.lookup_isSome.1 (by rw [hk]; rfl))
      exact ⟨Loop.running_start.2 (Or.inl hrun), c, hold hc, hobj⟩
  · exact fun a ha c hc => Timers.once_start hs.once timeout period o args ha hc

/-- Timers are stopped and their entries removed. -/
theorem removed {o : Owner} {ks : List Nat} {s' : Timers V} (hs : Registered s) (hown : OwnTable I s o)
    (h : Timers.Removed I s o ks s') : Registered s' := by
  obtain ⟨q, t, u, hf, rfl, hks, hrest⟩ := h.found
  have hq := hown q t hf
  subst hq
  have ht := Timers.own_of_find hf
  have hother : ∀ {c : Closure V} {v k}, s.callbacks k = some c → s.own c.obj = some v → k ∈ v → k ∈ ks →
      c.obj = q := by
    intro c v k hc hv hk hmem
    obtain ⟨-, c', hc', hobj⟩ := hs.keyed q t k ht (hks k hmem).1
    rw [hc] at hc'
    cases hc'
    exact hobj
  constructor
  · intro k c hc
    rw [Timers.stopAll_callbacks] at hc
    rw [Timers.stopAll_created]
    exact hs.fresh k c hc
  · intro k c hc
    rw [Timers.stopAll_callbacks] at hc
    rw [Timers.stopAll_own]
    by_cases ho : c.obj = q
    · rw [ho, Timers.setTable_own]
      exact Option.some_ne_none _
    · rw [Timers.setTable_own_ne ho]
      exact hs.owned k c hc
  · intro k hk
    rw [Timers.running_stopAll] at hk
    obtain ⟨c, v, hc, hv, hmem⟩ := hs.running k hk.1
    rw [Timers.stopAll_callbacks, Timers.stopAll_own]
    by_cases ho : c.obj = q
    · refine ⟨c, u, hc, by rw [ho]; exact Timers.setTable_own, ?_⟩
      rw [ho, ht] at hv
      cases hv
      rw [← AList.lookup_isSome, hrest k hk.2, AList.lookup_isSome]
      exact hmem
    · exact ⟨c, v, hc, by rw [Timers.setTable_own_ne ho]; exact hv, hmem⟩
  · intro o' v k hv hk
    obtain ⟨f, hk⟩ := Option.isSome_iff_exists.1 (AList.lookup_isSome.2 hk)
    obtain ⟨hnot, w, hw, hk⟩ := Timers.entry_stopAll ht (fun j hj => (hks j hj).2) hrest hv hk
    have hmem : k ∈ w := AList.lookup_isSome.1 (by rw [hk]; rfl)
    obtain ⟨hrun, c, hc, hobj⟩ := hs.keyed o' w k hw hmem
    rw [Timers.running_stopAll, Timers.stopAll_callbacks]
    refine ⟨⟨hrun, fun hks => hnot ?_ hks⟩, c, hc, hobj⟩
    rw [← hobj]
    exact hother hc (hobj ▸ hw) hmem hks
  · intro a ha c hc
    rw [Timers.stopAll_callbacks] at hc
    exact hs.once a (Timers.mem_stopAll.1 ha).1 c hc

/-- A timer is started again. -/
theorem repeated {a : Active} (hs : Registered s) (ha : a ∈ s.loop.timers) (hp : a.period ≠ 0) :
    Registered (s.due a) := by
  have hrun : ∀ k, (s.due a).loop.Running k ↔ s.loop.Running k := by
    intro k
    unfold Timers.due
    rw [Loop.running_again, Loop.running_stop]
    constructor
    · rintro (h | ⟨-, rfl⟩)
      · exact h.1
      · exact ⟨a, ha, rfl⟩
    · intro h
      by_cases hk : k = a.handle
      · exact Or.inr ⟨hp, hk⟩
      · exact Or.inl ⟨h, hk⟩
  constructor
  · exact hs.fresh
  · exact hs.owned
  · intro k hk
    exact hs.running k ((hrun k).1 hk)
  · intro o t k ho hk
    exact ⟨(hrun k).2 (hs.keyed o t k ho hk).1, (hs.keyed o t k ho hk).2⟩
  · exact fun b hb c hc => Timers.once_due hs.once ha hp hb hc

/-- A round of the loop: nothing is due, or a timer is called, whose entry is found, and removed if it is a one-shot. -/
theorem runTimer_cases (hs : Registered s) (I : Objects) : s.runTimer I = (s, []) ∨ ∃ a c t f, a ∈ s.loop.timers ∧
    s.callbacks a.handle = some c ∧ t.lookup a.handle = some f ∧ s.find I c.obj = some (c.obj, t) ∧
    s.runTimer I = (if c.once then (s.setTable c.obj (t.erase a.handle)).stopAll [a.handle] else s.due a,
      [.call ⟨a.handle, c.obj, some f, c.args⟩]) := by
  rcases Timers.runTimer_cases (I := I) s with h | ⟨a, hm, -, h⟩
  · exact Or.inl h.1
  · have ha := (Loop.heapMin_spec hm).1
    obtain ⟨c, t, hc, ht, hk⟩ := hs.running a.handle ⟨a, ha, rfl⟩
    obtain ⟨f, hf⟩ := Option.isSome_iff_exists.1 (AList.lookup_isSome.2 hk)
    have hfind := Timers.find_own (I := I) ht
    refine Or.inr ⟨a, c, t, f, ha, hc, hf, hfind, ?_⟩
    rw [h, Timers.fire_due hc hfind, hf]
    cases honce : c.once with
    | false => rfl
    | true => rw [if_pos rfl, if_pos rfl, Timers.stop_due ((hs.once a ha c hc).1 honce)]

end Registered

/-! ## Steps -/

/-- An action works on owners that resolve `__Timer` to their own tables. -/
def OnOwnTables (I : Objects) (s : Timers V) (a : Action V) : Prop := ∀ o, a.owner = some o → OwnTable I s o

/-- What an action does, seen from the registry. -/
structure Kept (s : Timers V) (r : Timers V × List (Out V)) : Prop where
  registered : Registered r.1
  grows : s.created ≤ r.1.created
  keeps : ∀ k c, s.callbacks k = some c → r.1.callbacks k = some c
  called : ∀ k, callsOf k r.2 = [] ∨ ∃ c, callsOf k r.2 = [c] ∧ c.callback ≠ none ∧ s.loop.Running k ∧
    ∀ d, s.callbacks k = some d → d.once = true → ¬r.1.loop.Running k

namespace Kept

theorem same (hs : Registered s) : Kept s (s, []) where
  registered := hs
  grows := le_rfl
  keeps _ _ h := h
  called _ := Or.inl rfl

theorem advanced (hs : Registered s) (ms : Nat) :
    Kept s ({ s with loop := { s.loop with time := s.loop.time + ms } }, []) where
  registered := hs.idle { s.loop with time := s.loop.time + ms } rfl _ le_rfl _
  grows := le_rfl
  keeps _ _ h := h
  called _ := Or.inl rfl

theorem raised (hs : Registered s) : Kept s (s.timerNew, []) where
  registered := hs.idle _ rfl _ (Nat.le_succ _) _
  grows := Nat.le_succ _
  keeps _ _ h := h
  called _ := Or.inl rfl

theorem added {o : Owner} (hs : Registered s) (hown : OwnTable I s o) (timeout period : Nat) (args : List V) (f : Func)
    {out : List (Out V)} (hout : ∀ k, callsOf k out = []) :
    Kept s ((s.timerNew.start s.created timeout period ⟨o, period == 0, args⟩).put I o s.created f, out) where
  registered := hs.added hown timeout period args f
  grows := Nat.le_succ _
  keeps k c h := by
    change Function.update s.callbacks s.created _ k = some c
    rw [Function.update_of_ne (Nat.ne_of_lt (hs.fresh k c h))]
    exact h
  called k := Or.inl (hout k)

theorem removed {o : Owner} {ks : List Nat} {s' : Timers V} (hs : Registered s) (hown : OwnTable I s o)
    (h : Timers.Removed I s o ks s') : Kept s (s', []) := by
  have hreg := hs.removed hown h
  obtain ⟨q, t, u, -, rfl, -, -⟩ := h.found
  constructor
  · exact hreg
  · rw [Timers.stopAll_created]
    exact le_rfl
  · intro k c hc
    rw [Timers.stopAll_callbacks]
    exact hc
  · exact fun _ => Or.inl rfl

theorem runTimer (hs : Registered s) (I : Objects) : Kept s (s.runTimer I) := by
  rcases hs.runTimer_cases I with h | ⟨a, c, t, f, ha, hc, hf, hfind, h⟩
  · rw [h]
    exact same hs
  · have hrun : s.loop.Running a.handle := ⟨a, ha, rfl⟩
    have hkey : a.handle ∈ t := AList.lookup_isSome.1 (by rw [hf]; rfl)
    have hcalls : ∀ k, callsOf k [Out.call ⟨a.handle, c.obj, some f, c.args⟩] =
        if a.handle = k then [⟨a.handle, c.obj, some f, c.args⟩] else [] := by
      intro k
      unfold callsOf
      rw [List.filterMap_cons]
      dsimp only
      split <;> simp_all
    rw [h]
    cases honce : c.once with
    | true =>
      rw [if_pos rfl]
      have hkept := removed hs (Registered.ownTable_of_find hfind) (Timers.Removed.erase hfind hkey)
      refine ⟨hkept.registered, hkept.grows, hkept.keeps, fun k => ?_⟩
      rw [hcalls]
      split
      · rename_i hk
        subst hk
        refine Or.inr ⟨_, rfl, Option.some_ne_none _, hrun, fun _ _ _ hrun' => ?_⟩
        exact (Timers.running_stopAll.1 hrun').2 (List.mem_singleton.2 rfl)
      · exact Or.inl rfl
    | false =>
      have hp : a.period ≠ 0 := by
        intro hp
        rw [(hs.once a ha c hc).2 hp] at honce
        cases honce
      rw [if_neg (by decide)]
      refine ⟨hs.repeated ha hp, le_rfl, fun _ _ h => h, fun k => ?_⟩
      rw [hcalls]
      split
      · rename_i hk
        subst hk
        refine Or.inr ⟨_, rfl, Option.some_ne_none _, hrun, fun d hd honce' => ?_⟩
        rw [hc] at hd
        cases hd
        rw [honce] at honce'
        cases honce'
      · exact Or.inl rfl

end Kept

/-- **One action** keeps the registry. -/
theorem Registered.step (hs : Registered s) (a : Action V) (hown : OnOwnTables I s a) : Kept s (s.step I a) := by
  have hstep := Timers.stepped I s a
  generalize s.step I a = r at hstep
  cases hstep with
  | same => exact Kept.same hs
  | added => exact Kept.added hs (hown _ rfl) _ _ _ _ fun _ => rfl
  | raised => exact Kept.raised hs
  | removed h => exact Kept.removed hs (hown _ rfl) h
  | removedByName _ h => exact Kept.removed hs (hown _ rfl) h
  | cleared hf =>
    have hq := hown _ rfl _ _ hf
    subst hq
    refine Kept.removed hs (hown _ rfl) ⟨_, _, ∅, hf, rfl, fun k hk => ⟨hk, AList.notMem_empty _⟩, fun k hk => ?_⟩
    exact (AList.lookup_eq_none.2 hk).symm
  | ticked => exact Kept.added hs (hown _ rfl) 0 0 _ _ fun _ => rfl
  | emitted => exact Kept.added hs (hown _ rfl) 0 0 _ _ fun _ => rfl
  | advanced ms => exact Kept.advanced hs ms
  | ran => exact Kept.runTimer hs I

/-! ## Runs -/

theorem callsOf_append (tr tr' : List (Out V)) : callsOf k (tr ++ tr') = callsOf k tr ++ callsOf k tr' :=
  List.filterMap_append

theorem mem_callsOf {tr : List (Out V)} {c : Call V} : c ∈ callsOf k tr ↔ Out.call c ∈ tr ∧ c.handle = k := by
  unfold callsOf
  rw [List.mem_filterMap]
  constructor
  · rintro ⟨o, ho, hc⟩
    cases o with
    | emit d => cases hc
    | call d =>
      dsimp only at hc
      split at hc
      · cases hc
        exact ⟨ho, by assumption⟩
      · cases hc
  · rintro ⟨ho, hc⟩
    exact ⟨_, ho, if_pos hc⟩

/-- A timer that is not active any more is not called. -/
theorem callsOf_idle (as : List (Action V)) (h : s.Idle k) : callsOf k (trace (Timers.step I) s as) = [] := by
  rw [List.eq_nil_iff_forall_not_mem]
  intro c hc
  rw [mem_callsOf] at hc
  exact h.not_called as c hc.1 hc.2

/-- Closures find their callbacks. -/
theorem callback_found : ∀ (as : List (Action V)) {s : Timers V}, Registered s →
    Along (Timers.next I) (OnOwnTables I) s as → ∀ c ∈ callsOf k (trace (Timers.step I) s as), c.callback ≠ none
  | [], _, _, _, c, hc => by cases hc
  | a :: as, s, hs, h, c, hc => by
    have hstep := hs.step a h.1
    rw [trace, callsOf_append, List.mem_append] at hc
    rcases hc with hc | hc
    · rcases hstep.called k with hnil | ⟨d, hd, hcall, -, -⟩
      · rw [hnil] at hc
        cases hc
      · rw [hd, List.mem_singleton] at hc
        subst hc
        exact hcall
    · exact callback_found as hstep.registered h.2 c hc

/-- A closure stays with its timer. -/
theorem closure_kept : ∀ (as : List (Action V)) {s : Timers V}, Registered s →
    Along (Timers.next I) (OnOwnTables I) s as → ∀ c, s.callbacks k = some c →
    (as.foldl (Timers.next I) s).callbacks k = some c
  | [], _, _, _, _, hc => hc
  | a :: as, _, hs, h, c, hc => by
    have hstep := hs.step a h.1
    exact closure_kept as hstep.registered h.2 c (hstep.keeps k c hc)

/-- A one-shot timer is called at most once. -/
theorem called_once : ∀ (as : List (Action V)) {s : Timers V}, Registered s →
    Along (Timers.next I) (OnOwnTables I) s as → ∀ c, (as.foldl (Timers.next I) s).callbacks k = some c →
    c.once = true →
      (callsOf k (trace (Timers.step I) s as)).length ≤ 1
  | [], _, _, _, _, _, _ => Nat.zero_le _
  | a :: as, s, hs, h, c, hc, honce => by
    have hstep := hs.step a h.1
    rw [trace, callsOf_append, List.length_append]
    have ih := called_once as hstep.registered h.2 c hc honce
    rcases hstep.called k with hnil | ⟨d, hd, -, hrun, hend⟩
    · rw [hnil, List.length_nil, Nat.zero_add]
      exact ih
    · obtain ⟨c', -, hc', -, -⟩ := hs.running k hrun
      have hlast := closure_kept as hstep.registered h.2 c' (hstep.keeps k c' hc')
      change (as.foldl (Timers.next I) (Timers.next I s a)).callbacks k = some c' at hlast
      rw [List.foldl_cons, hlast] at hc
      cases hc
      have hk := (hs.fresh k c hc').trans_le hstep.grows
      rw [hd, callsOf_idle as ⟨hk, hend c hc' honce⟩]
      exact le_rfl

/-- **The timer registry**: along a run on owners with their own tables, a timer is active exactly as long as it is a
key of its owner's table; a closure finds its callback; a timer that is no key any more is not called; a one-shot timer
is called at most once. -/
theorem timer_registry (I : Objects) (time counter : Nat) (as : List (Action V))
    (h : Along (Timers.next I) (OnOwnTables I) (Timers.init time counter) as) :
    Throughout (Timers.next I) (fun s => ∀ k, s.loop.Running k ↔ Key I s k) (Timers.init time counter) as ∧
    (∀ c, Out.call c ∈ trace (Timers.step I) (Timers.init time counter) as → c.callback ≠ none) ∧
    (∀ as₁ as₂ k, as = as₁ ++ as₂ → k < (as₁.foldl (Timers.next I) (Timers.init time counter)).created →
      ¬Key I (as₁.foldl (Timers.next I) (Timers.init time counter)) k →
      callsOf k (trace (Timers.step I) (as₁.foldl (Timers.next I) (Timers.init time counter)) as₂) = []) ∧
    ∀ k c, (as.foldl (Timers.next I) (Timers.init time counter)).callbacks k = some c → c.once = true →
      (callsOf k (trace (Timers.step I) (Timers.init time counter) as)).length ≤ 1 := by
  have hinit : Registered (Timers.init time counter : Timers V) := Registered.init time counter
  have hkeep : ∀ (s : Timers V) a, Registered s → OnOwnTables I s a → Registered (Timers.next I s a) :=
    fun s a hs ha => (hs.step a ha).registered
  refine ⟨?_, ?_, ?_, ?_⟩
  · exact (h.throughout hkeep hinit).mono fun s hs k => hs.running_iff
  · intro c hc
    exact callback_found as hinit h c (mem_callsOf.2 ⟨hc, rfl⟩)
  · rintro as₁ as₂ k rfl hk hkey
    obtain ⟨h₁, h₂⟩ := along_append.1 h
    have hs := (h₁.throughout hkeep hinit).last
    exact callsOf_idle as₂ ⟨hk, fun hrun => hkey (hs.running_iff.1 hrun)⟩
  · intro k c hc honce
    exact called_once as hinit h c hc honce

/-- Objects without classes. -/
def plain : Objects where
  index _ := none
  chain o := [o]
  chain_eq _ := rfl
  has _ _ := true

theorem ownTable_plain (s : Timers V) (o : Owner) : OwnTable plain s o := by
  intro q t h
  rw [Timers.find_eq] at h
  cases ho : s.own o with
  | none =>
    rw [ho] at h
    cases h
  | some u =>
    rw [ho] at h
    cases h
    rfl

/-- A timer that repeats and is deleted when it has been called, and a one-shot timer. -/
def ticking : List (Action Nat) :=
  [.AddTimer 1 none (some (.int 5)) (some (.int 5)) (some (.method "Tick")) [],
    .AddTimer 1 (some 2) (some (.int 6)) (some (.int 0))
    (some (.fn 7)) [8], .advance 6, .runTimer, .DelTimer 1 none 0, .runTimer, .runTimer]

theorem timer_registry_ticking :
    Throughout (Timers.next plain) (fun s => ∀ k, s.loop.Running k ↔ Key plain s k) (Timers.init 0 0) ticking ∧
    (∀ c, Out.call c ∈ trace (Timers.step plain) (Timers.init 0 0) ticking → c.callback ≠ none) ∧
    (callsOf 1 (trace (Timers.step plain) (Timers.init 0 0) ticking)).length ≤ 1 := by
  have h : Along (Timers.next plain) (OnOwnTables plain) (Timers.init 0 0) ticking :=
    ⟨fun _ _ => ownTable_plain _ _, fun _ _ => ownTable_plain _ _, fun _ _ => ownTable_plain _ _,
      fun _ _ => ownTable_plain _ _,
      fun _ _ => ownTable_plain _ _, fun _ _ => ownTable_plain _ _, fun _ _ => ownTable_plain _ _, trivial⟩
  have hrun := timer_registry plain 0 0 ticking h
  exact ⟨hrun.1, hrun.2.1, hrun.2.2.2 1 ⟨2, true, [8]⟩ rfl rfl⟩

end XCore.Timer
