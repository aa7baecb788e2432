import XCore.Timer.Registry

/-!
# The handles of timers

A handle is pinned in the registry of luv from `uv.timer_new` until it is closed, and the module stops its timers
without closing them. So the pinned handles are those of pending timers only in runs in which no timer ever ends
(`handles_released_iff`): one event is enough for a handle that stays.

`Balanced` is the invariant of these runs: the pinned handles are those of the active timers, and keys of tables.
-/

namespace XCore.Timer

open XCore.Lua XCore.Run

variable {V : Type} {I : Objects} {s : Timers V}

/-- Every pinned handle is a key of a table, and there are no more of them than pending timers. -/
def Released (s : Timers V) : Prop :=
  (∀ k ∈ s.pinned, ∃ o t, s.own o = some t ∧ k ∈ t) ∧ s.pinned.length ≤ s.loop.timers.length

/-- The arguments of `AddTimer` are refused by its own checks or accepted by `uv.timer_start`. -/
def Startable (delay interval : Option Number) (func : Option Func) : Prop :=
  ∀ d i f, delay = some d → interval = some i → func = some f → d.lt (.int 0) = false → i.lt (.int 0) = false →
    f.callable = true → d.toInteger ≠ none ∧ i.toInteger ≠ none

/-- An action neither ends a timer nor makes a handle that it does not start. -/
def NoneEnds (I : Objects) (s : Timers V) : Action V → Prop
  | .AddTimer _ _ delay interval func _ => Startable delay interval func
  | .DelTimer self obj timer => ∀ q t, s.find I (obj.getD self) = some (q, t) → timer ∉ t
  | .DelTimerByName self obj func => ∀ f q t k, func = some f → s.find I (obj.getD self) = some (q, t) →
      t.lookup k ≠ some f
  | .DelAll self obj => ∀ q t k, s.find I (obj.getD self) = some (q, t) → k ∉ t
  | .NextTick _ _ _ => True
  | .OnEvent _ _ _ => True
  | .advance _ => True
  | .runTimer => ∀ a, s.loop.heapMin = some a → a.timeout ≤ s.loop.time → a.period ≠ 0

/-- The pinned handles are those of the active timers. -/
structure Balanced (s : Timers V) : Prop where
  handles : (s.loop.timers.map Active.handle).Perm s.pinned
  nodup : s.pinned.Nodup
  fresh : ∀ k ∈ s.pinned, k < s.created
  keyed : ∀ k ∈ s.pinned, ∃ o t, s.own o = some t ∧ k ∈ t
  keys : ∀ o t k, s.own o = some t → k ∈ t → k ∈ s.pinned
  once : ∀ a ∈ s.loop.timers, ∀ c, s.callbacks a.handle = some c → (c.once = true ↔ a.period = 0)

namespace Balanced

theorem init (time counter : Nat) : Balanced (Timers.init time counter : Timers V) where
  handles := .refl _
  nodup := List.nodup_nil
  fresh _ h := by cases h
  keyed _ h := by cases h
  keys _ _ _ h := by cases h
  once _ h := by cases h

theorem length (hs : Balanced s) : s.loop.timers.length = s.pinned.length := by
  rw [← hs.handles.length_eq, List.length_map]

theorem released (hs : Balanced s) : Released s := ⟨hs.keyed, hs.length.ge⟩

/-- A key of a table is an active timer. -/
theorem exists_active (hs : Balanced s) {o : Owner} {t : Table} {k : Nat} (ho : s.own o = some t) (hk : k ∈ t) :
    ∃ a ∈ s.loop.timers, a.handle = k :=
  List.mem_map.1 (hs.handles.mem_iff.2 (hs.keys o t k ho hk))

/-- A timer is started. -/
theorem added (hs : Balanced s) (o : Owner) (timeout period : Nat) (args : List V) (f : Func) :
    Balanced ((s.timerNew.start s.created timeout period ⟨o, period == 0, args⟩).put I o s.created f) := by
  have hnew : ∀ a ∈ s.loop.timers, a.handle ≠ s.created := fun a ha =>
    (hs.fresh _ (hs.handles.mem_iff.1 (List.mem_map_of_mem ha))).ne
  have hstop : (s.loop.timerStop s.created).timers = s.loop.timers :=
    List.filter_eq_self.2 fun a ha => decide_eq_true (hnew a ha)
  have hself : ∃ q t,
      ((s.timerNew.start s.created timeout period ⟨o, period == 0, args⟩).put I o s.created f).find I o =
      some (q, t) ∧ t.lookup s.created = some f := Timers.find_put_self
  obtain ⟨q, t, hf, hk⟩ := hself
  constructor
  · change (((s.loop.timerStop s.created).timers ++ [_]).map Active.handle).Perm (s.created :: s.pinned)
    rw [hstop, List.map_append]
    exact (List.perm_append_singleton _ _).trans (hs.handles.cons _)
  · refine List.nodup_cons.2 ⟨fun h => ?_, hs.nodup⟩
    exact Nat.lt_irrefl _ (hs.fresh _ h)
  · intro k hk
    rcases List.mem_cons.1 hk with rfl | hk
    · exact Nat.lt_succ_self _
    · exact (hs.fresh k hk).trans (Nat.lt_succ_self _)
  · intro k hmem
    rcases List.mem_cons.1 hmem with rfl | hmem
    · exact ⟨q, t, Timers.own_of_find hf, AList.lookup_isSome.1 (by rw [hk]; rfl)⟩
    · obtain ⟨p, u, hp, hu⟩ := hs.keyed k hmem
      have hold : ∃ v, ((s.timerNew.start s.created timeout period ⟨o, period == 0, args⟩).put I o s.created f).own p =
          some v ∧ ∀ j ∈ u, j ∈ v := Timers.own_put_of_own hp
      obtain ⟨v, hv, hkeep⟩ := hold
      exact ⟨p, v, hv, hkeep k hu⟩
  · intro p u k hp hu
    rcases Timers.own_of_own_put hp hu with rfl | ⟨v, hv, hmem⟩
    · exact List.mem_cons_self
    · exact List.mem_cons_of_mem _ (hs.keys p v k hv hmem)
  · exact fun a ha c hc => Timers.once_start hs.once timeout period o args ha hc

/-- An object without entries gets an empty table. -/
theorem cleared (hs : Balanced s) {o q : Owner} {t : Table} (hf : s.find I o = some (q, t)) (ht : ∀ k, k ∉ t) :
    Balanced (s.setTable o ∅) where
  handles := hs.handles
  nodup := hs.nodup
  fresh := hs.fresh
  keyed k hk := by
    obtain ⟨p, u, hp, hu⟩ := hs.keyed k hk
    have hne : p ≠ o := by
      rintro rfl
      rw [Timers.find_own hp] at hf
      cases hf
      exact ht k hu
    exact ⟨p, u, by rw [Timers.setTable_own_ne hne]; exact hp, hu⟩
  keys p u k hp hk := by
    by_cases hpo : p = o
    · subst hpo
      rw [Timers.setTable_own] at hp
      cases hp
      exact absurd hk (AList.notMem_empty _)
    · rw [Timers.setTable_own_ne hpo] at hp
      exact hs.keys p u k hp hk
  once := hs.once

/-- A timer that repeats is started again. -/
theorem repeated (hs : Balanced s) {a : Active} (ha : a ∈ s.loop.timers) (hp : a.period ≠ 0) : Balanced (s.due a) := by
  have hnd : (s.loop.timers.map Active.handle).Nodup := hs.handles.nodup_iff.2 hs.nodup
  constructor
  · refine List.Perm.trans ?_ hs.handles
    change ((((s.loop.timerStop a.handle).timerAgain a.handle a.period).timers).map Active.handle).Perm _
    have hfilter : ((s.loop.timerStop a.handle).timerStop a.handle).timers.map Active.handle =
        (s.loop.timers.map Active.handle).erase a.handle := by
      rw [hnd.erase_eq_filter, List.filter_map]
      simp only [Loop.timerStop, List.filter_filter, Function.comp_def, bne, beq_eq_decide, Bool.and_self,
        ne_eq, decide_not]
    rw [Loop.timerAgain, if_neg hp, Loop.timerStart, List.map_append, hfilter]
    have hmem : a.handle ∈ s.loop.timers.map Active.handle := List.mem_map_of_mem ha
    exact (List.perm_append_singleton _ _).trans (List.perm_cons_erase hmem).symm
  · exact hs.nodup
  · exact hs.fresh
  · exact hs.keyed
  · exact hs.keys
  · exact fun b hb c hc => Timers.once_due hs.once ha hp hb hc

/-- No pinned handle is released when a timer is stopped. -/
theorem not_released (hs : Balanced s) {a : Active} {s' : Timers V} (ha : a ∈ s.loop.timers)
    (hpin : s'.pinned = s.pinned)
    (hsub : s'.loop.timers.Sublist (s.loop.timers.filter fun b => b.handle ≠ a.handle)) : ¬Released s' := by
  rintro ⟨-, hle⟩
  have hlt : (s.loop.timers.filter fun b => b.handle ≠ a.handle).length < s.loop.timers.length :=
    List.length_filter_lt_length_iff_exists.2 ⟨a, ha, by simp⟩
  have := hsub.length_le
  rw [hpin, ← hs.length] at hle
  omega

/-! ## Steps -/

/-- Timers of a table that are stopped. -/
theorem not_released_stopAll (hs : Balanced s) {o q p : Owner} {t u : Table} {ks : List Nat} {k : Nat}
    (hf : s.find I o = some (q, t)) (hk : k ∈ t) (hmem : k ∈ ks) : ¬Released ((s.setTable p u).stopAll ks) := by
  obtain ⟨a, ha, rfl⟩ := hs.exists_active (Timers.own_of_find hf) hk
  refine hs.not_released ha (by rw [Timers.stopAll_pinned]; rfl) ?_
  rw [Timers.stopAll_eq]
  refine List.monotone_filter_right _ fun b hb => ?_
  rw [decide_eq_true_eq] at hb ⊢
  rintro h
  exact hb (h ▸ hmem)

theorem removed {o : Owner} {ks : List Nat} {s' : Timers V} (hs : Balanced s) (h : Timers.Removed I s o ks s')
    (hne : ks ≠ []) :
    ¬Released s' := by
  obtain ⟨q, t, u, hf, rfl, hks, -⟩ := h.found
  obtain ⟨k, hk⟩ := List.exists_mem_of_ne_nil ks hne
  exact hs.not_released_stopAll hf (hks k hk).1 hk

/-- A handle that is not started stays. -/
theorem not_released_timerNew (hs : Balanced s) : ¬Released s.timerNew := by
  rintro ⟨-, hle⟩
  change s.pinned.length + 1 ≤ s.loop.timers.length at hle
  rw [hs.length] at hle
  omega

/-- The closure of a timer that repeats changes nothing. -/
theorem fire_repeated {a : Active} (hs : Balanced s) (ha : a ∈ s.loop.timers) (hp : a.period ≠ 0) :
    ((s.due a).fire I a.handle).1 = s.due a := by
  unfold Timers.fire
  split
  · rfl
  · rename_i c hc
    have honce : c.once = false := by
      rw [← Bool.not_eq_true]
      exact fun h => hp ((hs.once a ha c hc).1 h)
    split
    · rfl
    · rw [honce]
      rfl

/-- `AddTimer` raises exactly when its arguments pass its checks and are then refused. -/
theorem AddTimer_startable (s : Timers V) (self : Owner) (obj : Option Owner) (delay interval : Option Number)
    (func : Option Func) (args : List V) : Startable delay interval func ↔
      (s.AddTimer I self obj delay interval func args).2 ≠ .error .noInteger := by
  unfold Timers.AddTimer
  split
  · rename_i d i f
    split
    · rename_i hlt
      refine iff_of_true ?_ (by simp)
      rintro d' i' f' ⟨⟩ ⟨⟩ ⟨⟩ hd hi -
      rw [hd, hi] at hlt
      cases hlt
    · rename_i hlt
      rw [Bool.or_eq_true, not_or, Bool.not_eq_true, Bool.not_eq_true] at hlt
      split
      · rename_i hcall
        refine iff_of_true ?_ (by simp)
        rintro d' i' f' ⟨⟩ ⟨⟩ ⟨⟩ - - hc
        rw [hc] at hcall
        cases hcall
      · rename_i hcall
        dsimp only
        split
        · rename_i timeout period hd hi
          refine iff_of_true ?_ (by simp)
          rintro d' i' f' ⟨⟩ ⟨⟩ ⟨⟩ - - -
          rw [hd, hi]
          exact ⟨Option.some_ne_none _, Option.some_ne_none _⟩
        · rename_i hnone
          refine iff_of_false (fun h => ?_) (by simp)
          obtain ⟨hd, hi⟩ := h d i f rfl rfl rfl hlt.1 hlt.2 (by simpa using hcall)
          obtain ⟨x, hx⟩ := Option.ne_none_iff_exists'.1 hd
          obtain ⟨y, hy⟩ := Option.ne_none_iff_exists'.1 hi
          exact hnone x y hx hy
  · rename_i hnone
    refine iff_of_true ?_ (by simp)
    rintro d' i' f' rfl rfl rfl - - -
    exact absurd rfl (hnone d' i' f' rfl rfl)

/-- An action that ends no timer keeps the balance, and after any other a handle is not released. -/
def Weighs (I : Objects) (s : Timers V) (a : Action V) : Prop :=
  (NoneEnds I s a → Balanced (s.next I a)) ∧ (Released (s.next I a) → NoneEnds I s a)

theorem weighs_AddTimer (hs : Balanced s) (self : Owner) (obj : Option Owner) (delay interval : Option Number)
    (func : Option Func) (args : List V) : Weighs I s (.AddTimer self obj delay interval func args) := by
  change (Startable delay interval func → Balanced (s.AddTimer I self obj delay interval func args).1) ∧
    (Released (s.AddTimer I self obj delay interval func args).1 → Startable delay interval func)
  rw [AddTimer_startable (I := I) s self obj delay interval func args]
  rcases Timers.AddTimer_cases (I := I) s self obj delay interval func args with ⟨_, _, f, -, h⟩ | h | h
  · rw [h]
    exact ⟨fun _ => hs.added _ _ _ args f, fun _ => by simp⟩
  · rw [h]
    exact ⟨fun _ => hs, fun _ => by simp⟩
  · rw [h]
    exact ⟨fun hn => absurd rfl hn, fun hr => absurd hr hs.not_released_timerNew⟩

theorem weighs_DelTimer (hs : Balanced s) (self : Owner) (obj : Option Owner) (timer : Nat) :
    Weighs I s (.DelTimer self obj timer) := by
  change (_ → Balanced (s.DelTimer I self obj timer)) ∧ (Released (s.DelTimer I self obj timer) → _)
  unfold Timers.DelTimer NoneEnds
  cases hf : s.find I (obj.getD self) with
  | none =>
    refine ⟨fun _ => hs, fun _ q t h => ?_⟩
    rw [hf] at h
    cases h
  | some r =>
    obtain ⟨q, t⟩ := r
    dsimp only
    split
    · rename_i hk
      refine ⟨fun h => absurd hk (h q t hf), fun hr => absurd hr ?_⟩
      exact hs.not_released_stopAll hf hk (List.mem_singleton.2 rfl)
    · rename_i hk
      refine ⟨fun _ => hs, fun _ q' t' h => ?_⟩
      rw [hf] at h
      cases h
      exact hk

theorem weighs_DelTimerByName (hs : Balanced s) (self : Owner) (obj : Option Owner) (func : Option Func) :
    Weighs I s (.DelTimerByName self obj func) := by
  change (_ → Balanced (s.DelTimerByName I self obj func)) ∧ (Released (s.DelTimerByName I self obj func) → _)
  unfold Timers.DelTimerByName NoneEnds
  cases func with
  | none =>
    refine ⟨fun _ => hs, fun _ f q t k h => ?_⟩
    cases h
  | some f =>
    cases hf : s.find I (obj.getD self) with
    | none =>
      refine ⟨fun _ => hs, fun _ f' q t k _ h => ?_⟩
      rw [hf] at h
      cases h
    | some r =>
      obtain ⟨q, t⟩ := r
      dsimp only
      constructor
      · intro h
        have hnil : Timers.keysOf t f = [] := by
          rw [List.eq_nil_iff_forall_not_mem]
          exact fun k hk => h f q t k rfl hf (Timers.mem_keysOf.1 hk)
        have hsame : s.setTable q t = s := by
          unfold Timers.setTable
          rw [← Timers.own_of_find hf, Function.update_eq_self]
        rw [hnil, Timers.stopAll, List.foldl_nil, List.foldl_nil, hsame]
        exact hs
      · intro hr f' q' t' k hf' h hk
        rw [hf] at h
        cases h
        cases hf'
        exact hs.not_released_stopAll hf (AList.lookup_isSome.1 (by rw [hk]; rfl)) (Timers.mem_keysOf.2 hk) hr

theorem weighs_DelAll (hs : Balanced s) (self : Owner) (obj : Option Owner) : Weighs I s (.DelAll self obj) := by
  change (_ → Balanced (s.DelAll I self obj)) ∧ (Released (s.DelAll I self obj) → _)
  unfold Timers.DelAll NoneEnds
  cases hf : s.find I (obj.getD self) with
  | none =>
    refine ⟨fun _ => hs, fun _ q t k h => ?_⟩
    rw [hf] at h
    cases h
  | some r =>
    obtain ⟨q, t⟩ := r
    dsimp only
    constructor
    · intro h
      have hnil : t.keys = [] := by
        rw [List.eq_nil_iff_forall_not_mem]
        exact fun k hk => h q t k hf hk
      rw [hnil]
      exact hs.cleared hf fun k hk => h q t k hf hk
    · intro hr q' t' k h hk
      rw [hf] at h
      cases h
      exact hs.not_released_stopAll hf hk hk hr

theorem weighs_runTimer (hs : Balanced s) : Weighs I s .runTimer := by
  change (_ → Balanced (s.runTimer I).1) ∧ (Released (s.runTimer I).1 → _)
  rcases Timers.runTimer_cases (I := I) s with ⟨h, hnone⟩ | ⟨a, hm, hdue, h⟩
  · rw [h]
    refine ⟨fun _ => hs, fun _ a hm hdue => ?_⟩
    exact absurd hdue (Nat.not_le.2 (hnone a (Loop.heapMin_spec hm).1))
  · have ha := (Loop.heapMin_spec hm).1
    rw [h]
    constructor
    · intro hn
      have hp := hn a hm hdue
      rw [hs.fire_repeated ha hp]
      exact hs.repeated ha hp
    · intro hr b hb _ hp
      rw [hm] at hb
      cases hb
      obtain ⟨hpin, -, hsub, -⟩ := Timers.fire_spec (I := I) (s.due a) a.handle
      have hloop : (s.due a).loop = s.loop.timerStop a.handle := by
        unfold Timers.due
        rw [hp]
        rfl
      rw [hloop] at hsub
      exact hs.not_released ha hpin hsub hr

/-- **One action** keeps the balance, or a handle that is not released. -/
theorem step (hs : Balanced s) (a : Action V) : Weighs I s a := by
  cases a with
  | AddTimer self obj delay interval func args => exact hs.weighs_AddTimer ..
  | DelTimer self obj timer => exact hs.weighs_DelTimer ..
  | DelTimerByName self obj func => exact hs.weighs_DelTimerByName ..
  | DelAll self obj => exact hs.weighs_DelAll ..
  | NextTick self func args =>
    change (_ → Balanced (s.NextTick I self func args).1) ∧ (_ → True)
    refine ⟨fun _ => ?_, fun _ => trivial⟩
    rcases Timers.NextTick_cases (I := I) s self func args with ⟨f, -, h⟩ | h
    · rw [h]
      exact hs.added self 0 0 args f
    · rw [h]
      exact hs
  | OnEvent self name args =>
    change (_ → Balanced (s.OnEvent I self name args).1) ∧ (_ → True)
    refine ⟨fun _ => ?_, fun _ => trivial⟩
    rcases Timers.OnEvent_cases (I := I) s self name args with ⟨-, h⟩ | ⟨-, h⟩
    · rw [h]
      exact hs.added self 0 0 _ _
    · rw [h]
      exact hs
  | advance ms => exact ⟨fun _ => ⟨hs.handles, hs.nodup, hs.fresh, hs.keyed, hs.keys, hs.once⟩, fun _ => trivial⟩
  | runTimer => exact hs.weighs_runTimer

end Balanced

/-- **Handles of timers**: throughout a run every pinned handle is a key of a table, and there are no more of them than
pending timers, exactly when no timer ends in it and `AddTimer` does not raise. -/
theorem handles_released_iff (I : Objects) (time counter : Nat) (as : List (Action V)) :
    Throughout (Timers.next I) Released (Timers.init time counter) as ↔
      Along (Timers.next I) (NoneEnds I) (Timers.init time counter) as :=
  throughout_iff_along (fun _ hs => hs.released) (fun _ a hs => (hs.step a).1) (fun _ a hs => (hs.step a).2)
    (Balanced.init time counter)

/-- One event that is dispatched leaves its handle pinned. -/
theorem handle_of_event_pinned :
    ¬Throughout (Timers.next plain) Released (Timers.init 0 0) [.OnEvent 0 "login" [], .runTimer] := by
  rintro ⟨-, -, -, h⟩
  revert h
  decide

end XCore.Timer
