import XCore.Class.Spared
import XCore.Lib.Fold

/-!
# Histories of an attribute

Two histories of an object that end with the same active counters of an attribute leave it with the same value
(`history_independent`) if they are quiet and if active counters of one priority may be swapped. In a quiet step
`self:DelCounter(counter)`, which should take a change back and does nothing, is called for no counter of the attribute:
none is deleted, disabled or cleared, and none is added below a counter that is registered (`Quiet`). And `FlushCounter`
computes counters of one priority from a common value only if it runs them together. A counter that is added and deleted
leaves its value (`deleted_counter_counts`).

`folded_next` is the step: what a quiet call adds for the attribute, it adds above what is there (`Extends`); the rest
of what it does is for other attributes.
-/

namespace XCore.Objects

open XCore.Lua XCore.Raise XCore.Run XCore.Fold
open XCore.CObject (Value Store)
open XCore.Counters (Integer fracVal again fracVal_intCast again_intCast)

variable {κ γ β α : Type} [DecidableEq κ] [DecidableEq γ]

/-! ## Quiet calls -/

/-- A formula that reads an attribute of a value, and returns a value. -/
inductive Code.Yields (A : κ) (v : α) : Code κ α → α → Prop
  | ret (w : α) : Code.Yields A v (.ret (.val w)) w
  | get {next : Value α → Code κ α} {w : α} : Code.Yields A v (next (.val v)) w → Code.Yields A v (.get A next) w

/-- The formulas of the counters of an attribute read only it and the arguments, and return what a function does. -/
def ReadsOwn (info : κ → Option (Info κ β α)) (A : κ) (f : κ → α → List β → α) : Prop :=
  ∀ k i, info k = some i → i.Attr = A → ∀ v args, (i.Formula (some args)).Yields A v (f k v args)

/-- The priorities of the counters of an attribute are integers. -/
def IntegerPri (info : κ → Option (Info κ β α)) (A : κ) : Prop :=
  ∀ k i, info k = some i → i.Attr = A → ∃ m : ℤ, i.Pri = m

/-- What is subtracted is added again. -/
def Machine.Undoes (E : Machine γ α) : Prop :=
  ∀ a b, ∃ d, E.sub (.val b) (.val a) = .ok d ∧ E.add (.val a) d = .ok (.val b)

theorem undoes_numbers [AddCommGroup α] : (Machine.numbers α).Undoes :=
  fun a b => ⟨.val (b - a), rfl, by simp [Machine.numbers]⟩

/-- The priorities of the counters of an attribute in a list, until a name is unknown. -/
def prisOn (info : κ → Option (Info κ β α)) (A : κ) : List (κ × List β) → List ℚ
  | [] => []
  | e :: list =>
    match info e.1 with
    | none => []
    | some i => if i.Attr = A then i.Pri :: prisOn info A list else prisOn info A list

/-- The lists of groups that are disabled, each taken once. -/
def enabled : (AList fun _ : γ => List (κ × List β)) → List γ → List (κ × List β)
  | _, [] => []
  | disabled, g :: gs =>
    match disabled.lookup g with
    | none => enabled disabled gs
    | some list => list ++ enabled (disabled.erase g) gs

namespace Call

/-- A call does not set an attribute. -/
def Spares (A : κ) : Call κ γ β α → Prop
  | .Set k _ _ => k ≠ A
  | .SetAttrs tbl => ∀ e ∈ tbl, e.1 ≠ A
  | .Load _ => False
  | _ => True

variable (E : Machine γ α) (s : Obj κ γ β α)

/-- The counters that a call adds. -/
def adds : Call κ γ β α → List (κ × List β)
  | .AddCounter name args => [(name, args)]
  | .AddCounterGroup name list => if (s.CounterDisableMap.lookup name).isSome then [] else list
  | .EnableCounterByGroups names => enabled s.CounterDisableMap names
  | .EnableAllDisableCounter => enabled s.CounterDisableMap (E.pairs s.CounterDisableMap.keys)
  | _ => []

/-- The ids that a call gives to `DelCounter`, and what it clears. -/
def deletes : Call κ γ β α → List Nat
  | .DelCounter id => [id]
  | .AddCounterGroup name _ | .DelCounterGroup name =>
    if (s.CounterDisableMap.lookup name).isSome then [] else s.group name
  | .DisableCounterByGroups names => names.flatMap s.group
  | .EnableCounterByGroups names => (names.filter fun g => (s.CounterDisableMap.lookup g).isSome).flatMap s.group
  | .EnableAllDisableCounter => s.CounterDisableMap.keys.flatMap s.group
  | .ClearCounter => s.CounterMap
  | _ => []

end Call

/-- A call that deletes no counter of the attribute, and adds none below one that is registered. -/
structure Quiet (info : κ → Option (Info κ β α)) (E : Machine γ α) (A : κ) (s : Obj κ γ β α) (c : Call κ γ β α) :
    Prop where
  spares : c.Spares A
  deletes : ∀ id ∈ c.deletes s, id ∉ s.CounterSubMap A
  above : ∀ id ∈ s.CounterSubMap A, ∀ p ∈ prisOn info A (c.adds E s), s.pri id ≤ p
  rises : (prisOn info A (c.adds E s)).Pairwise (· ≤ ·)

variable {C : Config κ β α} {E : Machine γ α} {n : Nat} {info : κ → Option (Info κ β α)} {f : κ → α → List β → α}
    {A B : κ} {b v w : α}
  {s t : Obj κ γ β α} {id : Nat}

/-! ## Counters of the attribute -/

omit [DecidableEq γ] in
theorem run_yields {c : Code κ α} (hc : c.Yields A v w) (h : C.Holds s A v) :
    exec (C.run (C.Get (n + 1)) c) s = (.ok (.val w), s) := by
  induction hc with
  | ret w => rfl
  | get _ ih =>
    unfold Config.run
    rw [exec_bind, Get_holds h]
    exact ih

omit [DecidableEq γ] in
/-- The attribute is set. -/
theorem Set_on (hA : C.Untouched A) (h : C.Holds s A v) (w : α) (noclean : Bool) :
    ∃ t, exec (C.Set A (.val w) noclean) s = (.ok (), t) ∧ Beside s t ∧ C.Holds t A w := by
  obtain ⟨st, hst, -⟩ := h
  rcases Set_spec hA A (.val w) noclean s with ⟨hnone, -⟩ | ⟨t, hset, hbeside, hkept⟩
  · rw [hst] at hnone
    cases hnone
  · exact ⟨t, hset, hbeside, st, hst, by rw [hkept st hst, if_pos rfl]⟩

omit [DecidableEq γ] in
/-- No counter is run. -/
theorem RunCounters_none (hA : C.Untouched A) (h : C.Holds s A v) (NoClean : Bool) :
    ∃ t, exec (C.RunCounters E (n + 1) A [] NoClean) s = (.ok (), t) ∧ Beside s t ∧ C.Holds t A v := by
  obtain ⟨t, hset, ht⟩ := Set_on hA h v NoClean
  refine ⟨t, ?_, ht⟩
  unfold Config.RunCounters
  rw [exec_bind, Get_holds h]
  dsimp only
  rw [List.foldlM_nil, pure_bind, hset]

omit [DecidableEq γ] in
/-- One counter is run. -/
theorem RunCounters_one (hA : C.Untouched A) (h : C.Holds s A v) {c : Counter κ β α} (hc : s.counters id = some c)
    (hadd : E.add (.val v) c.Change = .ok (.val w)) (NoClean : Bool) :
    ∃ t, exec (C.RunCounters E (n + 1) A [id] NoClean) s = (.ok (), t) ∧ Beside (s.put A id) t ∧ C.Holds t A w := by
  have hput : C.Holds (s.put A id) A v := h
  obtain ⟨t, hset, ht⟩ := Set_on hA hput w NoClean
  refine ⟨t, ?_, ht⟩
  have hturn : exec (Config.runCounter E A (.val v) id) s = (.ok (.val w), s.put A id) := by
    unfold Config.runCounter counter
    simp only [exec_bind, exec_get, hc, exec_pure, exec_ofResult, hadd, exec_modify]
  unfold Config.RunCounters
  rw [exec_bind, Get_holds h]
  dsimp only
  rw [List.foldlM_cons, bind_assoc, exec_bind, hturn]
  dsimp only
  rw [List.foldlM_nil, pure_bind, hset]

omit [DecidableEq γ] in
/-- A flush of the attribute that runs no counter again, up to `flushLoop`. -/
theorem FlushCounter_quiet (h : C.Holds s A v) {p : ℚ} (hp : ∀ id ∈ s.CounterSubMap A, again p (s.pri id) = false)
    (l : List Nat) :
    exec (C.FlushCounter E (n + 1) A p l) s =
      exec (C.flushLoop E (n + 1) A (E.sort s.pri l) p (.val v) [] >>=
        fun _ => modify fun s => s.OnEvent (.CounterChange A)) s := by
  have hold : (s.CounterSubMap A).filter (fun id => again p (s.pri id)) = [] := by
    rw [List.filter_eq_nil_iff]
    intro id hid
    rw [hp id hid]
    exact Bool.false_ne_true
  unfold Config.FlushCounter
  rw [exec_bind, exec_get]
  dsimp only
  rw [hold, List.append_nil]
  change exec (C.Get (n + 1) A >>= fun _ => _) s = _
  rw [exec_bind, Get_holds h]

omit [DecidableEq γ] in
/-- A flush of a new counter alone. -/
theorem FlushCounter_add (hA : C.Untouched A) (hE : E.Undoes) (h : C.Holds s A v) {c : Counter κ β α}
    (hc : s.counters id = some c)
    (hp : ∀ i ∈ s.CounterSubMap A, again c.Pri (s.pri i) = false) (hfrac : fracVal c.Pri = 0) {g : Formula κ β α}
    (hg : C.formula c.Name = some g) (hw : (g (some c.Var)).Yields A v w) :
    ∃ t d, exec (C.FlushCounter E (n + 1) A c.Pri [id]) s = (.ok (), t) ∧ Beside ((s.setChange id d).put A id) t ∧
    C.Holds t A w := by
  obtain ⟨d, hsub, hadd⟩ := hE v w
  have hchange : exec (C.change E (n + 1) id c (.val v)) s = (.ok (), s.setChange id d) := by
    unfold Config.change
    rw [hg]
    simp only [exec_bind, run_yields hw h, exec_ofResult, hsub, exec_modify]
  have htable : (s.setChange id d).counters id = some { c with Change := d } := by
    dsimp only [Obj.setChange]
    rw [Function.update_self, hc]
    rfl
  have hchanged : C.Holds (s.setChange id d) A v := h
  obtain ⟨t, hrun, hbeside, ht⟩ := RunCounters_one (E := E) (n := n) hA hchanged htable hadd false
  refine ⟨t.OnEvent (.CounterChange A), d, ?_, order_beside.trans hbeside ⟨rfl, rfl, rfl, rfl, rfl, rfl, rfl⟩, ht⟩
  have hsame : ¬(c.Pri ≠ c.Pri ∨ 0 < fracVal c.Pri) := by simp [hfrac]
  have hread : exec (counter id) s = (.ok c, s) := by
    unfold counter
    simp only [exec_bind, exec_get, hc, exec_pure]
  have hloop : exec (C.flushLoop E (n + 1) A [id] c.Pri (.val v) []) s = (.ok (), t) := by
    unfold Config.flushLoop
    rw [exec_bind, hread]
    dsimp only
    rw [if_neg hsame, exec_bind, hchange]
    exact hrun
  have hsort : E.sort s.pri [id] = [id] := List.perm_singleton.1 (E.perm _ _)
  rw [FlushCounter_quiet h hp, hsort, exec_bind, hloop]
  rfl

/-- A counter is added alone. -/
structure AddedOne (C : Config κ β α) (A : κ) (i : Info κ β α) (e : κ × List β) (w : α) (s t : Obj κ γ β α) : Prop where
  id : t.CounterID = s.CounterID + 1
  counters : ∃ d, t.counters = Function.update s.counters (s.CounterID + 1) (some ⟨e.1, e.2, i.Pri, d⟩)
  map : t.CounterMap = enter s.CounterMap (s.CounterID + 1)
  sub : t.CounterSubMap = Function.update s.CounterSubMap A (enter (s.CounterSubMap A) (s.CounterID + 1))
  groups : t.CounterGroupMap = s.CounterGroupMap
  disabled : t.CounterDisableMap = s.CounterDisableMap
  active : t.active = s.active ++ [s.CounterID + 1]
  value : C.Holds t A w

omit [DecidableEq κ] [DecidableEq γ] in
/-- A counter of an integer priority runs none again that has no higher one. -/
theorem again_of_le {p : ℚ} (hp : ∃ m : ℤ, p = m) {q : ℚ} (hq : q ≤ p) : again p q = false := by
  obtain ⟨m, rfl⟩ := hp
  rw [again_intCast, decide_eq_false_iff_not, not_lt]
  exact hq

omit [DecidableEq γ] in
/-- `AddCounter` of a counter of the attribute. -/
theorem AddCounter_on (hC : C.Counter = some info) (hA : C.Untouched A) (hE : E.Undoes) (hown : ReadsOwn info A f)
    (hpri : IntegerPri info A) (hs : Folded C info f A b s) (h : C.Holds s A v) {e : κ × List β} {i : Info κ β α}
    (hi : info e.1 = some i)
    (hiA : i.Attr = A) (habove : ∀ id ∈ s.CounterSubMap A, s.pri id ≤ i.Pri) :
    ∃ t, exec (C.AddCounter E (n + 1) info e.1 e.2) s = (.ok (s.CounterID + 1), t) ∧
    AddedOne C A i e (runCall f v e) s t := by
  let c : Counter κ β α := ⟨e.1, e.2, i.Pri, E.zero⟩
  have hint := hpri e.1 i hi hiA
  have hfrac : fracVal i.Pri = 0 := by
    obtain ⟨m, hm⟩ := hint
    rw [hm, fracVal_intCast]
  have halloc : C.Holds (s.alloc c) A v := h
  have htable : (s.alloc c).counters (s.CounterID + 1) = some c := Function.update_self ..
  obtain ⟨-, hkept⟩ := spared_alloc c s hs
  have hquiet : ∀ id ∈ (s.alloc c).CounterSubMap A, again c.Pri ((s.alloc c).pri id) = false := by
    intro id hid
    rw [hkept.pri (hs.sub A id hid)]
    exact again_of_le hint (habove id hid)
  obtain ⟨t, d, hflush, hbeside, ht⟩ := FlushCounter_add (n := n) hA hE halloc htable hquiet hfrac
    (formula_counter hC hi)
    (hown e.1 i hi hiA v e.2)
  refine ⟨t.setActive (t.active ++ [s.CounterID + 1]), ?_, ?_⟩
  · unfold Config.AddCounter
    rw [hi]
    rw [exec_bind_of exec_get, exec_bind_of (exec_modify _), hiA]
    exact exec_bind_of hflush
  · refine ⟨hbeside.id, ⟨d, ?_⟩, hbeside.map, hbeside.sub, hbeside.groups, hbeside.disabled, ?_, ht⟩
    · change t.counters = _
      rw [hbeside.counters]
      change Function.update (Function.update s.counters (s.CounterID + 1) (some c)) (s.CounterID + 1) _ = _
      rw [Function.update_idem, htable]
      rfl
    · change t.active ++ _ = _
      rw [hbeside.active]
      rfl

omit [DecidableEq γ] in
/-- An active counter of the attribute is registered for it. -/
theorem Folded.mem_activesOn (hs : Folded C info f A b s) {e : κ × List β} (he : e ∈ s.activesOn info A) :
    ∃ id ∈ s.CounterSubMap A, priOf info e = s.pri id := by
  obtain ⟨he, hA⟩ := List.mem_filter.1 he
  obtain ⟨id, hid, hcall⟩ := List.mem_filterMap.1 he
  obtain ⟨B, hB⟩ := hs.known id hid
  obtain ⟨e', hcall', hattr, hpri⟩ := hB.call
  rw [hcall] at hcall'
  cases hcall'
  rw [of_decide_eq_true hA] at hattr
  cases hattr
  exact ⟨id, hs.registered id hid hB, hpri⟩

omit [DecidableEq γ] in
/-- One more counter is active. -/
theorem activesOn_append (hactive : t.active = s.active ++ [id]) (hcall : ∀ i ∈ s.active, t.call i = s.call i)
    {e : κ × List β} (he : t.call id = some e) :
    t.activesOn info A = s.activesOn info A ++ if (info e.1).map Info.Attr = some A then [e] else [] := by
  have hold : s.active.filterMap t.call = s.active.filterMap s.call := List.filterMap_congr hcall
  unfold Obj.activesOn Obj.actives
  rw [hactive, List.filterMap_append, hold, List.filter_append]
  congr 1
  have hone : [id].filterMap t.call = [e] := by rw [List.filterMap_cons_some he, List.filterMap_nil]
  rw [hone]
  by_cases h : (info e.1).map Info.Attr = some A
  · rw [if_pos h]
    exact List.filter_cons_of_pos (decide_eq_true h)
  · rw [if_neg h]
    exact List.filter_cons_of_neg (by rwa [decide_eq_true_eq])

/-- New counters of the attribute have these priorities. -/
structure Extends (A : κ) (ps : List ℚ) (s t : Obj κ γ β α) : Prop where
  id : s.CounterID ≤ t.CounterID
  sub : ∀ id ∈ t.CounterSubMap A, (id ∈ s.CounterSubMap A ∧ t.pri id = s.pri id) ∨ (s.CounterID < id ∧ t.pri id ∈ ps)

/-- No counter of the attribute has a higher priority. -/
def Above (A : κ) (s : Obj κ γ β α) (ps : List ℚ) : Prop := ∀ id ∈ s.CounterSubMap A, ∀ p ∈ ps, s.pri id ≤ p

section

variable {ps qs : List ℚ}

omit [DecidableEq γ] in
theorem Kept.extends (h : Kept A s t) (hs : Folded C info f A b s) (ps : List ℚ) : Extends A ps s t := by
  refine ⟨h.id, fun id hid => .inl ?_⟩
  rw [h.sub] at hid
  exact ⟨hid, h.pri (hs.sub A id hid)⟩

omit [DecidableEq κ] [DecidableEq γ] in
theorem Extends.mono (h : Extends A ps s t) (hps : ps ⊆ qs) : Extends A qs s t :=
  ⟨h.id, fun id hid => (h.sub id hid).imp_right (And.imp_right fun hp => hps hp)⟩

omit [DecidableEq κ] [DecidableEq γ] in
theorem Extends.trans {u : Obj κ γ β α} (h : Extends A ps s t) (h' : Extends A qs t u) : Extends A (ps ++ qs) s u := by
  refine ⟨h.id.trans h'.id, fun id hid => ?_⟩
  rcases h'.sub id hid with ⟨hid, hpri⟩ | ⟨hlt, hq⟩
  · rw [hpri]
    exact (h.sub id hid).imp_right (And.imp_right fun hp => List.mem_append_left _ hp)
  · exact .inr ⟨h.id.trans_lt hlt, List.mem_append_right _ hq⟩

omit [DecidableEq κ] [DecidableEq γ] in
/-- What rises after some counters is above them. -/
theorem Extends.above (h : Extends A ps s t) (habove : Above A s (ps ++ qs)) (hrises : (ps ++ qs).Pairwise (· ≤ ·)) :
    Above A t qs := by
  intro id hid q hq
  rcases h.sub id hid with ⟨hid, hpri⟩ | ⟨-, hp⟩
  · rw [hpri]
    exact habove id hid q (List.mem_append_right _ hq)
  · exact (List.pairwise_append.1 hrises).2.2 _ hp q hq

omit [DecidableEq κ] [DecidableEq γ] in
theorem Above.mono (h : Above A s qs) (hps : ps ⊆ qs) : Above A s ps := fun id hid p hp => h id hid p (hps hp)

end

section

variable {e : κ × List β} {i : Info κ β α}

omit [DecidableEq γ] in
theorem AddedOne.tables (h : AddedOne C A i e w s t) (hs : Folded C info f A b s) {c : Counter κ β α}
    (hc : s.counters id = some c) : t.counters id = some c := by
  obtain ⟨d, hcounters⟩ := h.counters
  have := hs.table id c hc
  rw [hcounters, Function.update_of_ne (by omega), hc]

omit [DecidableEq γ] in
theorem AddedOne.placed (h : AddedOne C A i e w s t) (hs : Folded C info f A b s) (hid : Placed info s id B) :
    Placed info t id B := by
  obtain ⟨c, i', hc, hplaced⟩ := hid
  exact ⟨c, i', h.tables hs hc, hplaced⟩

omit [DecidableEq γ] in
/-- The table of the new counter. -/
theorem AddedOne.table (h : AddedOne C A i e w s t) :
    ∃ d, t.counters (s.CounterID + 1) = some ⟨e.1, e.2, i.Pri, d⟩ := by
  obtain ⟨d, hcounters⟩ := h.counters
  exact ⟨d, by rw [hcounters, Function.update_self]⟩

omit [DecidableEq γ] in
theorem AddedOne.mem_sub (h : AddedOne C A i e w s t) :
    id ∈ t.CounterSubMap B ↔ id ∈ s.CounterSubMap B ∨ (B = A ∧ id = s.CounterID + 1) := by
  rw [h.sub]
  by_cases hB : B = A
  · subst hB
    rw [Function.update_self, mem_enter]
    simp
  · rw [Function.update_of_ne hB]
    simp [hB]

omit [DecidableEq γ] in
theorem AddedOne.activesOn (h : AddedOne C A i e w s t) (hs : Folded C info f A b s) (hi : info e.1 = some i)
    (hiA : i.Attr = A) : t.activesOn info A = s.activesOn info A ++ [e] := by
  have hcall : ∀ id ∈ s.active, t.call id = s.call id := by
    intro id hid
    obtain ⟨B, c, i', hc, -⟩ := hs.known id hid
    unfold Obj.call
    rw [h.tables hs hc, hc]
  have hattr : (info e.1).map Info.Attr = some A := by rw [hi, Option.map_some, hiA]
  have he : t.call (s.CounterID + 1) = some e := by
    obtain ⟨d, hnew⟩ := h.table
    unfold Obj.call
    rw [hnew]
    rfl
  rw [activesOn_append h.active hcall he, if_pos hattr]

omit [DecidableEq γ] in
theorem AddedOne.extends (h : AddedOne C A i e w s t) (hs : Folded C info f A b s) : Extends A [i.Pri] s t := by
  refine ⟨h.id ▸ Nat.le_succ _, fun id hid => ?_⟩
  rcases h.mem_sub.1 hid with hid | ⟨-, rfl⟩
  · obtain ⟨c, i', hc, -⟩ := hs.sub A id hid
    refine .inl ⟨hid, ?_⟩
    unfold Obj.pri
    rw [h.tables hs hc, hc]
  · obtain ⟨d, hnew⟩ := h.table
    refine .inr ⟨Nat.lt_succ_self _, ?_⟩
    unfold Obj.pri
    rw [hnew]
    exact List.mem_singleton_self _

omit [DecidableEq γ] in
/-- A counter of the attribute is added. -/
theorem Folded.add (hs : Folded C info f A b s) (hi : info e.1 = some i) (hiA : i.Attr = A)
    (habove : ∀ id ∈ s.CounterSubMap A, s.pri id ≤ i.Pri)
    (h : AddedOne C A i e (runCall f ((s.activesOn info A).foldl (runCall f) b) e) s t) :
    Folded C info f A b t ∧ Extends A [i.Pri] s t := by
  have hnew : Placed info t (s.CounterID + 1) A := by
    obtain ⟨d, hnew⟩ := h.table
    exact ⟨_, i, hnew, hi, hiA, rfl⟩
  have hon := h.activesOn hs hi hiA
  refine ⟨⟨?_, ?_, ?_, ?_, ?_, ?_, ?_, ?_, ?_⟩, h.extends hs⟩
  · intro id c hc
    obtain ⟨d, hcounters⟩ := h.counters
    rw [h.id]
    by_cases hid : id = s.CounterID + 1
    · exact hid.le
    · rw [hcounters, Function.update_of_ne hid] at hc
      exact (hs.table id c hc).trans (Nat.le_succ _)
  · intro B id hidB
    rcases h.mem_sub.1 hidB with hidB | ⟨rfl, rfl⟩
    · exact h.placed hs (hs.sub B id hidB)
    · exact hnew
  · intro id hidm
    rw [h.map] at hidm
    rcases mem_enter.1 hidm with hidm | rfl
    · obtain ⟨B, hB⟩ := hs.map id hidm
      exact ⟨B, h.mem_sub.2 (.inl hB)⟩
    · exact ⟨A, h.mem_sub.2 (.inr ⟨rfl, rfl⟩)⟩
  · intro id hidA
    rw [h.map, mem_enter]
    exact (h.mem_sub.1 hidA).imp (hs.mapped id) And.right
  · intro g id hidg
    unfold Obj.group at hidg
    rw [h.groups] at hidg
    rw [h.id]
    exact (hs.groups g id hidg).trans (Nat.le_succ _)
  · intro id hida
    rw [h.active] at hida
    rcases List.mem_append.1 hida with hida | hida
    · obtain ⟨B, hB⟩ := hs.known id hida
      exact ⟨B, h.placed hs hB⟩
    · rw [List.mem_singleton.1 hida]
      exact ⟨A, hnew⟩
  · intro id hida hidA
    rw [h.active] at hida
    rw [h.mem_sub]
    rcases List.mem_append.1 hida with hida | hida
    · obtain ⟨B, hB⟩ := hs.known id hida
      cases hidA.attr_eq (h.placed hs hB)
      exact .inl (hs.registered id hida hB)
    · exact .inr ⟨rfl, List.mem_singleton.1 hida⟩
  · rw [hon, List.foldl_append]
    exact h.value
  · rw [hon]
    refine List.pairwise_append.2 ⟨hs.sorted, List.pairwise_singleton .., ?_⟩
    intro d' hd e' he'
    have hpri : priOf info e = i.Pri := by
      unfold priOf
      rw [hi]
      rfl
    obtain ⟨id', hid', hp⟩ := hs.mem_activesOn hd
    rw [List.mem_singleton.1 he', hp, hpri]
    exact habove id' hid'

end

omit [DecidableEq γ] in
/-- Other counters are active, none of which is of the attribute. -/
theorem Folded.setActive (hs : Folded C info f A b s) {ids : List Nat} (hknown : ∀ id ∈ ids, ∃ B, Placed info s id B)
    (hregistered : ∀ id ∈ ids, Placed info s id A → id ∈ s.active)
    (hon : (s.setActive ids).activesOn info A = s.activesOn info A) :
    Folded C info f A b (s.setActive ids) ∧ Kept A s (s.setActive ids) := by
  refine ⟨⟨hs.table, hs.sub, hs.map, hs.mapped, hs.groups, hknown, fun id hid hA => ?_, ?_, hon ▸ hs.sorted⟩,
    ⟨le_rfl, fun _ c hc => ⟨c.Change, hc⟩, rfl⟩⟩
  · exact hs.registered id (hregistered id hid hA) hA
  · rw [hon]
    exact hs.value

omit [DecidableEq γ] in
theorem spared_activate (hB : B ≠ A) (hid : Placed info s id B) :
    Spared C info f A b s (s.setActive (s.active ++ [id])) := by
  intro hs
  refine hs.setActive (fun i hi => ?_) (fun i hi hA => ?_) ?_
  · rcases List.mem_append.1 hi with hi | hi
    · exact hs.known i hi
    · rw [List.mem_singleton.1 hi]
      exact ⟨B, hid⟩
  · rcases List.mem_append.1 hi with hi | hi
    · exact hi
    · rw [List.mem_singleton.1 hi] at hA
      exact absurd (hid.attr_eq hA) hB
  · obtain ⟨e, he, hattr, -⟩ := hid.call
    have hnot : (info e.1).map Info.Attr ≠ some A := by
      rw [hattr]
      exact fun h => hB (Option.some.inj h)
    have happend : (s.setActive (s.active ++ [id])).active = s.active ++ [id] := rfl
    rw [activesOn_append happend (fun _ _ => rfl) he, if_neg hnot, List.append_nil]

omit [DecidableEq γ] in
theorem spared_deactivate (hB : B ≠ A) (hid : Placed info s id B) :
    Spared C info f A b s (s.setActive (s.active.filter (· ≠ id))) := by
  intro hs
  refine hs.setActive (fun i hi => hs.known i (List.mem_of_mem_filter hi)) (fun i hi _ => List.mem_of_mem_filter hi) ?_
  obtain ⟨e, he, hattr, -⟩ := hid.call
  have hnot : (info e.1).map Info.Attr ≠ some A := by
    rw [hattr]
    exact fun h => hB (Option.some.inj h)
  change ((s.active.filter (· ≠ id)).filterMap s.call).filter _ = (s.active.filterMap s.call).filter _
  rw [List.filter_filterMap, List.filter_filterMap, List.filterMap_filter]
  apply List.filterMap_congr
  intro i _
  by_cases hi : i = id
  · subst hi
    rw [he, if_neg (by simp), Option.filter_some, if_neg (by rwa [decide_eq_true_eq])]
  · rw [if_pos (by simpa using hi)]

/-! ## Calls of counters -/

omit [DecidableEq γ] in
/-- `AddCounter` of a counter of another attribute. -/
theorem AddCounter_other (hA : C.Untouched A) {e : κ × List β} {i : Info κ β α} (hi : info e.1 = some i)
    (hiA : i.Attr ≠ A) :
    Frames (Spared C info f A b) (C.AddCounter E n info e.1 e.2 : Method κ γ β α Nat) := by
  intro s hs
  let c : Counter κ β α := ⟨e.1, e.2, i.Pri, E.zero⟩
  have hplaced : Placed info (s.alloc c) (s.CounterID + 1) i.Attr := ⟨c, i, Function.update_self .., hi, rfl, rfl⟩
  obtain ⟨halloc, hkept⟩ := spared_alloc c s hs
  have hids : ∀ id ∈ [s.CounterID + 1], Placed info (s.alloc c) id i.Attr := by
    intro id hid
    rwa [List.mem_singleton.1 hid]
  obtain ⟨hflush, hkept'⟩ := flush_other (E := E) (n := n) (p := i.Pri) hA hiA hids halloc
  unfold Config.AddCounter
  rw [hi]
  dsimp only
  rw [exec_bind_of exec_get, exec_bind_of (exec_modify _), exec_bind]
  generalize hrun : exec (C.FlushCounter E n i.Attr i.Pri [s.CounterID + 1]) (s.alloc c) = r at hflush hkept'
  obtain ⟨_ | _, t⟩ := r
  · exact ⟨hflush, order_kept.trans hkept hkept'⟩
  · obtain ⟨hactive, hkept''⟩ := spared_activate hiA (hkept'.placed hplaced) hflush
    exact ⟨hactive, order_kept.trans (order_kept.trans hkept hkept') hkept''⟩

omit [DecidableEq γ] in
/-- `AddCounter`, of a counter of the attribute that has none above it, or of another one. -/
theorem AddCounter_step (hC : C.Counter = some info) (hA : C.Untouched A) (hE : E.Undoes) (hown : ReadsOwn info A f)
    (hpri : IntegerPri info A) (hs : Folded C info f A b s) (e : κ × List β) (habove : Above A s (prisOn info A [e]))
    {r : Except LuaError Nat} (h : exec (C.AddCounter E (n + 1) info e.1 e.2) s = (r, t)) :
    Folded C info f A b t ∧ Extends A (prisOn info A [e]) s t ∧ (∀ id, r = .ok id → info e.1 ≠ none) := by
  cases hi : info e.1 with
  | none =>
    unfold Config.AddCounter at h
    rw [hi] at h
    cases h
    exact ⟨hs, (order_kept.refl s).extends hs _, fun id hr => by cases hr⟩
  | some i =>
    by_cases hiA : i.Attr = A
    · have hone : prisOn info A [e] = [i.Pri] := by simp [prisOn, hi, hiA]
      have hbelow : ∀ id ∈ s.CounterSubMap A, s.pri id ≤ i.Pri := fun id hid => habove id hid _ (by simp [hone])
      obtain ⟨t', hadd, hadded⟩ := AddCounter_on (n := n) hC hA hE hown hpri hs hs.value hi hiA hbelow
      rw [hadd] at h
      cases h
      obtain ⟨ht, hextends⟩ := hs.add hi hiA hbelow hadded
      exact ⟨ht, hone ▸ hextends, fun _ _ => Option.some_ne_none i⟩
    · obtain ⟨ht, hkept⟩ := AddCounter_other (E := E) (n := n + 1) hA hi hiA s hs
      rw [h] at ht hkept
      exact ⟨ht, hkept.extends hs _, fun _ _ => Option.some_ne_none i⟩

omit [DecidableEq γ] in
/-- The priorities in a list of which all names are known, and in what follows. -/
theorem prisOn_append {l : List (κ × List β)} (hl : ∀ e ∈ l, info e.1 ≠ none) (l' : List (κ × List β)) :
    prisOn info A (l ++ l') = prisOn info A l ++ prisOn info A l' := by
  induction l with
  | nil => rfl
  | cons e l ih =>
    have hrest := ih fun e' he' => hl e' (List.mem_cons_of_mem e he')
    obtain ⟨i, hi⟩ := Option.ne_none_iff_exists'.1 (hl e List.mem_cons_self)
    by_cases hiA : i.Attr = A
    · simp [prisOn, hi, hiA, hrest]
    · simp [prisOn, hi, hiA, hrest]

omit [DecidableEq γ] in
theorem prisOn_sublist (l l' : List (κ × List β)) : (prisOn info A l).Sublist (prisOn info A (l ++ l')) := by
  induction l with
  | nil => exact List.nil_sublist _
  | cons e l ih =>
    rw [List.cons_append]
    unfold prisOn
    split
    · exact List.nil_sublist _
    · split
      · exact ih.cons_cons _
      · exact ih

omit [DecidableEq γ] in
/-- The loop of `AddCounterGroup`. -/
theorem AddCounters_step (hC : C.Counter = some info) (hA : C.Untouched A) (hE : E.Undoes) (hown : ReadsOwn info A f)
    (hpri : IntegerPri info A) : ∀ (list : List (κ × List β)) {s t : Obj κ γ β α} {r : Except LuaError (List Nat)},
    Folded C info f A b s → Above A s (prisOn info A list) → (prisOn info A list).Pairwise (· ≤ ·) →
    exec (list.mapM fun e => C.AddCounter E (n + 1) info e.1 e.2) s = (r, t) →
    Folded C info f A b t ∧ Extends A (prisOn info A list) s t ∧ (∀ ids, r = .ok ids → ∀ e ∈ list, info e.1 ≠ none)
  | [], s, t, r, hs, _, _, h => by
    rw [List.mapM_nil, exec_pure] at h
    cases h
    exact ⟨hs, (order_kept.refl s).extends hs _, fun _ _ e he => absurd he List.not_mem_nil⟩
  | e :: list, s, t, r, hs, habove, hrises, h => by
    have hhead : (prisOn info A [e]).Sublist (prisOn info A (e :: list)) := prisOn_sublist [e] list
    rw [List.mapM_cons, exec_bind] at h
    generalize hadd : exec (C.AddCounter E (n + 1) info e.1 e.2) s = q at h
    obtain ⟨q, u⟩ := q
    obtain ⟨hu, hextends, hknown⟩ := AddCounter_step hC hA hE hown hpri hs e (habove.mono hhead.subset) hadd
    cases q with
    | error err =>
      cases h
      exact ⟨hu, hextends.mono hhead.subset, fun ids hr => by cases hr⟩
    | ok id =>
      have hsplit : prisOn info A (e :: list) = prisOn info A [e] ++ prisOn info A list := by
        refine prisOn_append (l := [e]) (fun e' he' => ?_) list
        rw [List.mem_singleton.1 he']
        exact hknown id rfl
      rw [hsplit] at habove hrises ⊢
      dsimp only at h
      rw [exec_bind] at h
      generalize hrest : exec (list.mapM fun e => C.AddCounter E (n + 1) info e.1 e.2) u = q at h
      obtain ⟨q, u'⟩ := q
      obtain ⟨hu', hextends', hknown'⟩ := AddCounters_step hC hA hE hown hpri list hu (hextends.above habove hrises)
        (List.pairwise_append.1 hrises).2.1 hrest
      cases q with
      | error err =>
        cases h
        exact ⟨hu', hextends.trans hextends', fun ids hr => by cases hr⟩
      | ok ids =>
        cases h
        refine ⟨hu', hextends.trans hextends', fun _ _ e' he' => ?_⟩
        rcases List.mem_cons.1 he' with rfl | he'
        · exact hknown id rfl
        · exact hknown' ids rfl e' he'

omit [DecidableEq γ] in
/-- `DelCounter` of an id that is not registered for the attribute. -/
theorem DelCounter_other (hA : C.Untouched A) (hid : id ∉ s.CounterSubMap A) :
    Spared C info f A b s (exec (C.DelCounter E n info id) s).2 := by
  intro hs
  unfold Config.DelCounter
  rw [exec_bind_of exec_get]
  split
  · rename_i hmem
    obtain ⟨B, hB⟩ := hs.map id hmem
    have hne : B ≠ A := by
      rintro rfl
      exact hid hB
    obtain ⟨ht, hkept⟩ := spared_deactivate hne (hs.sub B id hB) hs
    obtain ⟨c, i, hc, hi, rfl, -⟩ := hs.sub B id hB
    have hread : exec (counter id) (s.setActive (s.active.filter (· ≠ id))) =
        (.ok c, s.setActive (s.active.filter (· ≠ id))) := by
      have hc' : (s.setActive (s.active.filter (· ≠ id))).counters id = some c := hc
      unfold counter
      simp only [exec_bind, exec_get, hc', exec_pure]
    rw [exec_bind_of (exec_modify _), exec_bind_of hread, hi]
    obtain ⟨hflush, hkept'⟩ := flush_other (E := E) (n := n) (p := c.Pri) (l := []) hA hne
      (fun id hid => absurd hid List.not_mem_nil) ht
    exact ⟨hflush, order_kept.trans hkept hkept'⟩
  · exact order_spared.refl s hs

omit [DecidableEq γ] in
theorem DelCounters_other (hA : C.Untouched A) {ids : List Nat} (hids : ∀ id ∈ ids, id ∉ s.CounterSubMap A) :
    Spared C info f A b s (exec (ids.forM fun id => C.DelCounter E n info id) s).2 := by
  intro hs
  let I : Obj κ γ β α → Prop := fun s => Folded C info f A b s ∧ ∀ id ∈ ids, id ∉ s.CounterSubMap A
  have hloop : Frames (fun s t : Obj κ γ β α => I s → I t ∧ Kept A s t)
      (ids.forM fun id => C.DelCounter E n info id) := by
    refine Frames.forM (order_keeps order_kept) ids fun id hid s hs => ?_
    obtain ⟨ht, hkept⟩ := DelCounter_other (E := E) (n := n) hA (hs.2 id hid) hs.1
    exact ⟨⟨ht, fun i hi => hkept.sub ▸ hs.2 i hi⟩, hkept⟩
  obtain ⟨⟨ht, -⟩, hkept⟩ := hloop s ⟨hs, hids⟩
  exact ⟨ht, hkept⟩

/-! ## Calls of groups -/

omit [DecidableEq γ] in
/-- Groups are assigned to. -/
theorem Folded.regroup (hs : Folded C info f A b s) {groups : γ → Option (List Nat)}
    {disabled : AList fun _ : γ => List (κ × List β)} (hgroups : ∀ g, ∀ id ∈ (groups g).getD [], id ≤ s.CounterID) :
    Folded C info f A b { s with CounterGroupMap := groups, CounterDisableMap := disabled } :=
  ⟨hs.table, hs.sub, hs.map, hs.mapped, hgroups, hs.known, hs.registered, hs.value, hs.sorted⟩

omit [DecidableEq κ] in
/-- The ids of groups when one has other ids. -/
theorem group_update (s : Obj κ γ β α) (g : γ) (ids : Option (List Nat)) (h : γ) :
    (Function.update s.CounterGroupMap g ids h).getD [] = if h = g then ids.getD [] else s.group h := by
  by_cases hg : h = g
  · subst hg
    rw [Function.update_self, if_pos rfl]
  · rw [Function.update_of_ne hg, if_neg hg]
    rfl

omit [DecidableEq κ] in
theorem group_forgotten (s : Obj κ γ β α) (g h : γ) :
    (Function.update s.CounterGroupMap g none h).getD [] ⊆ s.group h := by
  rw [group_update]
  split
  · exact List.nil_subset _
  · exact List.Subset.refl _

/-- `DelCounterGroup` of a group that is disabled, or has no counters of the attribute. -/
theorem DelCounterGroup_step (hA : C.Untouched A) (hs : Folded C info f A b s) {g : γ} {notCleanDisable : Bool}
    (hg : (s.CounterDisableMap.lookup g).isSome = false ∨ notCleanDisable = true →
      ∀ id ∈ s.group g, id ∉ s.CounterSubMap A)
    {r : Except LuaError Unit} (h : exec (C.DelCounterGroup E n info g notCleanDisable) s = (r, t)) :
    Folded C info f A b t ∧ Kept A s t ∧ (∀ h, t.group h ⊆ s.group h) ∧
      ((s.CounterDisableMap.lookup g).isSome = false → t.CounterDisableMap = s.CounterDisableMap) := by
  unfold Config.DelCounterGroup at h
  rw [exec_bind_of exec_get] at h
  split at h
  · rename_i hdisabled
    rw [Bool.and_eq_true] at hdisabled
    cases h
    refine ⟨hs.regroup hs.groups, ⟨le_rfl, fun _ c hc => ⟨c.Change, hc⟩, rfl⟩, fun h => List.Subset.refl _,
      fun hnone => ?_⟩
    rw [hnone] at hdisabled
    exact absurd hdisabled.2 Bool.false_ne_true
  · rename_i henabled
    have hids : ∀ id ∈ s.group g, id ∉ s.CounterSubMap A := by
      apply hg
      cases notCleanDisable with
      | true => exact .inr rfl
      | false => exact .inl (by simpa using henabled)
    split at h
    · cases h
      exact ⟨hs, order_kept.refl s, fun h => List.Subset.refl _, fun _ => rfl⟩
    · rename_i ids hsome
      have hgroup : s.group g = ids := by rw [Obj.group, hsome, Option.getD_some]
      rw [hgroup] at hids
      obtain ⟨ht, hkept⟩ := DelCounters_other (E := E) (n := n) hA hids hs
      have hgrows : Grows s (exec (ids.forM fun id => C.DelCounter E n info id) s).2 :=
        Frames.forM order_grows ids (fun id _ => framed_grows.delCounter id) s
      have hsame : ∀ h, (exec (ids.forM fun id => C.DelCounter E n info id) s).2.group h = s.group h := by
        intro h
        unfold Obj.group
        rw [hgrows.groups]
      rw [exec_bind] at h
      generalize exec (ids.forM fun id => C.DelCounter E n info id) s = q at h ht hkept hgrows hsame
      obtain ⟨_ | _, u⟩ := q
      · cases h
        exact ⟨ht, hkept, fun h => hsame h ▸ List.Subset.refl _, fun _ => hgrows.disabled⟩
      · cases h
        have hsub : ∀ h, (Function.update u.CounterGroupMap g none h).getD [] ⊆ u.group h := group_forgotten u g
        refine ⟨ht.regroup fun h id hid => ht.groups h id (hsub h hid), ⟨hkept.id, hkept.tables, hkept.sub⟩,
          fun h => ?_, fun _ => hgrows.disabled⟩
        rw [← hsame h]
        exact hsub h

/-- `AddCounterGroup` of a group that is disabled, or replaces no counters of the attribute and adds none below
others. -/
theorem AddCounterGroup_step (hC : C.Counter = some info) (hA : C.Untouched A) (hE : E.Undoes)
    (hown : ReadsOwn info A f)
    (hpri : IntegerPri info A) (hs : Folded C info f A b s) {g : γ} {list : List (κ × List β)}
    (hg : (s.CounterDisableMap.lookup g).isSome = false → (∀ id ∈ s.group g, id ∉ s.CounterSubMap A) ∧
      Above A s (prisOn info A list) ∧ (prisOn info A list).Pairwise (· ≤ ·))
    {r : Except LuaError Unit} (h : exec (C.AddCounterGroup E (n + 1) info g list) s = (r, t)) :
    Folded C info f A b t ∧ Extends A (prisOn info A list) s t ∧ (∀ h, h ≠ g → t.group h ⊆ s.group h) ∧
      ((s.CounterDisableMap.lookup g).isSome = false → t.CounterDisableMap = s.CounterDisableMap ∧
        (r = .ok () → ∀ e ∈ list, info e.1 ≠ none)) := by
  unfold Config.AddCounterGroup at h
  rw [exec_bind_of exec_get] at h
  split at h
  · rename_i hdisabled
    cases h
    have hkept : Kept A s { s with CounterDisableMap := s.CounterDisableMap.insert g list } :=
      ⟨le_rfl, fun _ c hc => ⟨c.Change, hc⟩, rfl⟩
    refine ⟨hs.regroup hs.groups, hkept.extends hs _, fun h _ => List.Subset.refl _, fun hnone => ?_⟩
    rw [hnone] at hdisabled
    exact absurd hdisabled Bool.false_ne_true
  · rename_i hnone
    rw [Bool.not_eq_true] at hnone
    obtain ⟨hids, habove, hrises⟩ := hg hnone
    rw [exec_bind] at h
    generalize hdel : exec (C.DelCounterGroup E (n + 1) info g false) s = q at h
    obtain ⟨q, u⟩ := q
    obtain ⟨hu, hkept, hsub, hsame⟩ := DelCounterGroup_step hA hs (fun _ => hids) hdel
    have hextends := hkept.extends hs []
    cases q with
    | error err =>
      cases h
      exact ⟨hu, hextends.mono (List.nil_subset _), fun h _ => hsub h, fun _ => ⟨hsame hnone, fun hr => by cases hr⟩⟩
    | ok _ =>
      dsimp only at h
      rw [exec_bind] at h
      generalize hadd : exec (list.mapM fun v => C.AddCounter E (n + 1) info v.1 v.2) u = q at h
      obtain ⟨q, u'⟩ := q
      have hgrows := grows_of_exec (Frames.mapM order_grows list fun v _ => framed_grows.addCounter v.1 v.2) hadd
      obtain ⟨hu', hextends', hknown⟩ := AddCounters_step hC hA hE hown hpri list hu
        (hextends.above habove hrises) hrises hadd
      have hgroup : ∀ h, u'.group h = u.group h := by
        intro h
        unfold Obj.group
        rw [hgrows.groups]
      cases q with
      | error err =>
        cases h
        refine ⟨hu', hextends.trans hextends', fun h _ => hgroup h ▸ hsub h,
          fun _ => ⟨hgrows.disabled.trans (hsame hnone), fun hr => ?_⟩⟩
        cases hr
      | ok ids =>
        cases h
        have hle := (AddCounters_ok hadd).1
        have hids' : ∀ h, ∀ id ∈ (Function.update u'.CounterGroupMap g (some ids) h).getD [], id ≤ u'.CounterID := by
          intro h id hid
          rw [group_update] at hid
          split at hid
          · exact hle id hid
          · exact hu'.groups h id hid
        have hextends'' := hextends.trans hextends'
        refine ⟨hu'.regroup hids', ⟨hextends''.id, hextends''.sub⟩, fun h hne => ?_,
          fun _ => ⟨hgrows.disabled.trans (hsame hnone), fun _ => ?_⟩⟩
        · change (Function.update u'.CounterGroupMap g (some ids) h).getD [] ⊆ _
          rw [group_update, if_neg hne, hgroup]
          exact hsub h
        · exact hknown ids rfl

/-- `EnableCounterByGroups`. -/
theorem EnableCounterByGroups_step (hC : C.Counter = some info) (hA : C.Untouched A) (hE : E.Undoes)
    (hown : ReadsOwn info A f)
    (hpri : IntegerPri info A) : ∀ (names : List γ) {s : Obj κ γ β α}, Folded C info f A b s →
    (∀ g ∈ names, (s.CounterDisableMap.lookup g).isSome → ∀ id ∈ s.group g, id ∉ s.CounterSubMap A) →
    Above A s (prisOn info A (enabled s.CounterDisableMap names)) →
    (prisOn info A (enabled s.CounterDisableMap names)).Pairwise (· ≤ ·) →
    Folded C info f A b (exec (C.EnableCounterByGroups E (n + 1) info names) s).2
  | [], s, hs, _, _, _ => hs
  | g :: names, s, hs, hdel, habove, hrises => by
    change Folded C info f A b
      (exec (C.enableGroup E (n + 1) info g >>= fun _ => C.EnableCounterByGroups E (n + 1) info names) s).2
    unfold enabled at habove hrises
    rw [exec_bind]
    generalize henable : exec (C.enableGroup E (n + 1) info g) s = q
    obtain ⟨q, t⟩ := q
    unfold Config.enableGroup at henable
    rw [exec_bind_of exec_get] at henable
    split at henable
    · rename_i hnone
      rw [hnone] at habove hrises
      cases henable
      exact EnableCounterByGroups_step hC hA hE hown hpri names hs
        (fun h hh => hdel h (List.mem_cons_of_mem g hh)) habove hrises
    · rename_i list hsome
      rw [hsome] at habove hrises
      rw [exec_bind_of (exec_modify _)] at henable
      have hsub : (prisOn info A list).Sublist (prisOn info A (list ++ enabled (s.CounterDisableMap.erase g) names)) :=
        prisOn_sublist _ _
      have hids : ∀ id ∈ s.group g, id ∉ s.CounterSubMap A := hdel g List.mem_cons_self (by rw [hsome]; rfl)
      let s₁ : Obj κ γ β α := { s with CounterDisableMap := s.CounterDisableMap.erase g }
      have hs₁ : Folded C info f A b s₁ := hs.regroup hs.groups
      have hnone : (s₁.CounterDisableMap.lookup g).isSome = false := by
        change ((s.CounterDisableMap.erase g).lookup g).isSome = false
        rw [AList.lookup_erase]
        rfl
      obtain ⟨ht, hextends, hother, hrest⟩ := AddCounterGroup_step hC hA hE hown hpri hs₁
        (fun _ => ⟨hids, habove.mono hsub.subset, hrises.sublist hsub⟩) henable
      cases q with
      | error err => exact ht
      | ok _ =>
        obtain ⟨hdisabled, hknown⟩ := hrest hnone
        have hdisabled' : t.CounterDisableMap = s.CounterDisableMap.erase g := hdisabled
        rw [prisOn_append (hknown rfl)] at habove hrises
        refine EnableCounterByGroups_step hC hA hE hown hpri names ht (fun h hh hsomeh id hid hidA => ?_) ?_ ?_
        · rw [hdisabled'] at hsomeh
          have hne : h ≠ g := by
            rintro rfl
            rw [AList.lookup_erase] at hsomeh
            cases hsomeh
          rw [AList.lookup_erase_ne hne] at hsomeh
          have hids' : id ∈ s.group h := hother h hne hid
          rcases hextends.sub id hidA with ⟨hidA, -⟩ | ⟨hlt, -⟩
          · exact hdel h (List.mem_cons_of_mem g hh) hsomeh id hids' hidA
          · exact absurd (hs.groups h id hids') (Nat.not_le.2 hlt)
        · rw [hdisabled']
          exact hextends.above habove hrises
        · rw [hdisabled']
          exact (List.pairwise_append.1 hrises).2.1

/-- `DisableCounterByGroups` of groups without counters of the attribute. -/
theorem DisableCounterByGroups_step (hA : C.Untouched A) {names : List γ} (hs : Folded C info f A b s)
    (hdel : ∀ g ∈ names, ∀ id ∈ s.group g, id ∉ s.CounterSubMap A) :
    Folded C info f A b (exec (C.DisableCounterByGroups E n info names) s).2 := by
  let I : Obj κ γ β α → Prop := fun s => Folded C info f A b s ∧ ∀ g ∈ names, ∀ id ∈ s.group g, id ∉ s.CounterSubMap A
  have hI : Order fun s t : Obj κ γ β α => I s → I t := order_kept_property I
  have hnote : ∀ {u : Obj κ γ β α → Obj κ γ β α}, (∀ s, ∃ disabled, u s = { s with CounterDisableMap := disabled }) →
      Frames (fun s t : Obj κ γ β α => I s → I t) (modify u : Method κ γ β α PUnit) := by
    intro u hu
    refine Frames.modify fun s hs => ?_
    obtain ⟨disabled, hu⟩ := hu s
    rw [hu]
    exact ⟨hs.1.regroup hs.1.groups, hs.2⟩
  have hgroup : ∀ g ∈ names, Frames (fun s t : Obj κ γ β α => I s → I t) (C.disableGroup E n info g) := by
    intro g hg
    refine Frames.get_bind fun s => ?_
    refine Frames.bind hI (Frames.foldlM hI _ (fun id _ list => ?_) _)
      (fun list => Frames.bind hI (hnote fun _ => ⟨_, rfl⟩) fun _ => ?_) s
    · refine Frames.bind hI ?_ fun note => ?_
      · refine Frames.get_bind fun t => ?_
        split
        · exact Frames.bind hI (frames_counter hI id) (fun c => Frames.pure hI _) t
        · exact hI.refl t
      · dsimp only
        split
        · exact Frames.bind hI (hnote fun _ => ⟨_, rfl⟩) fun _ => Frames.pure hI _
        · exact Frames.pure hI _
    · intro t ht
      generalize hrun : exec (C.DelCounterGroup E n info g true) t = q
      obtain ⟨q, u⟩ := q
      obtain ⟨hu, hkept, hsub, -⟩ := DelCounterGroup_step hA ht.1 (fun _ => ht.2 g hg) hrun
      exact ⟨hu, fun h hh id hid => hkept.sub ▸ ht.2 h hh id (hsub h hid)⟩
  exact (Frames.forM hI names hgroup s ⟨hs, hdel⟩).1

/-! ## Runs -/

/-- **One quiet call.** -/
theorem folded_next (hC : C.Counter = some info) (hA : C.Untouched A) (hE : E.Undoes) (hown : ReadsOwn info A f)
    (hpri : IntegerPri info A) (hs : Folded C info f A b s) (c : Call κ γ β α) (hc : Quiet info E A s c) :
    Folded C info f A b (next C E (n + 1) s c) := by
  obtain ⟨hspares, hdeletes, habove, hrises⟩ := hc
  have hmethod : ∀ {m : (κ → Option (Info κ β α)) → Method κ γ β α Unit}, Folded C info f A b (exec (m info) s).2 →
      Folded C info f A b (exec (C.withCounters m) s).2 := by
    intro m h
    unfold Config.withCounters
    rwa [hC]
  cases c with
  | Get k => exact (Frames.discard order_spared (spared_get hA (n + 1) k) s hs).1
  | Set k value noclean => exact (spared_set hA hspares value noclean s hs).1
  | SetAttrs tbl =>
    refine (Frames.forM order_spared tbl (fun e he => ?_) s hs).1
    split
    · exact spared_set hA (hspares e he) _ _
    · exact Frames.pure order_spared _
  | Load data => exact hspares.elim
  | ClearSave => exact ⟨hs.table, hs.sub, hs.map, hs.mapped, hs.groups, hs.known, hs.registered, hs.value, hs.sorted⟩
  | AddCounter name args =>
    refine hmethod ?_
    rw [exec_discard]
    exact (AddCounter_step hC hA hE hown hpri hs (name, args) habove Prod.mk.eta.symm).1
  | DelCounter id => exact hmethod (DelCounter_other hA (hdeletes id (List.mem_singleton_self id)) hs).1
  | ClearCounter =>
    have hnone : s.activesOn info A = [] := by
      rw [List.eq_nil_iff_forall_not_mem]
      intro e he
      obtain ⟨id, hid, -⟩ := hs.mem_activesOn he
      exact hdeletes id (hs.mapped id hid) hid
    have hvalue := hs.value
    rw [hnone] at hvalue
    have hnil : ∀ {id : Nat} {p : Prop}, id ∈ ([] : List Nat) → p := fun hid => absurd hid List.not_mem_nil
    exact hmethod ⟨hs.table, fun _ _ => hnil, fun _ => hnil, fun _ => hnil, hs.groups, fun _ => hnil, fun _ => hnil,
      hvalue, List.Pairwise.nil⟩
  | AddCounterGroup name list =>
    refine hmethod (AddCounterGroup_step hC hA hE hown hpri hs (fun hnone => ?_) Prod.mk.eta.symm).1
    simp only [Call.deletes, Call.adds, hnone, Bool.false_eq_true, if_false] at hdeletes habove hrises
    exact ⟨hdeletes, habove, hrises⟩
  | DelCounterGroup name =>
    refine hmethod (DelCounterGroup_step hA hs (fun hnone => ?_) Prod.mk.eta.symm).1
    have hnone := hnone.resolve_right Bool.false_ne_true
    simpa only [Call.deletes, hnone, Bool.false_eq_true, if_false] using hdeletes
  | DisableCounterByGroups names =>
    exact hmethod (DisableCounterByGroups_step hA hs fun g hg id hid => hdeletes id (List.mem_flatMap.2 ⟨g, hg, hid⟩))
  | EnableCounterByGroups names =>
    refine hmethod (EnableCounterByGroups_step hC hA hE hown hpri names hs (fun g hg hsome id hid => ?_) habove hrises)
    exact hdeletes id (List.mem_flatMap.2 ⟨g, List.mem_filter.2 ⟨hg, hsome⟩, hid⟩)
  | EnableAllDisableCounter =>
    refine hmethod (EnableCounterByGroups_step hC hA hE hown hpri _ hs (fun g hg _ id hid => ?_) habove hrises)
    exact hdeletes id (List.mem_flatMap.2 ⟨g, (E.perm_pairs _).subset hg, hid⟩)

/-- No counter has been added to an object. -/
structure Fresh (s : Obj κ γ β α) : Prop where
  counters : ∀ id, s.counters id = none
  map : s.CounterMap = []
  sub : ∀ B, s.CounterSubMap B = []
  groups : ∀ g, s.CounterGroupMap g = none
  active : s.active = []

omit [DecidableEq γ] in
theorem Fresh.folded (h : Fresh s) (hb : C.Holds s A b) : Folded C info f A b s := by
  have hon : s.activesOn info A = [] := by
    unfold Obj.activesOn Obj.actives
    rw [h.active]
    rfl
  have hnil : ∀ {l : List Nat} {id : Nat} {p : Prop}, l = [] → id ∈ l → p :=
    fun hl hid => absurd hid (hl ▸ List.not_mem_nil)
  refine ⟨fun id c hc => ?_, fun B _ => hnil (h.sub B), fun _ => hnil h.map, fun _ => hnil (h.sub A),
    fun g _ => hnil ?_, fun _ => hnil h.active, fun _ => hnil h.active, ?_, ?_⟩
  · rw [h.counters] at hc
    cases hc
  · unfold Obj.group
    rw [h.groups]
    rfl
  · rw [hon]
    exact hb
  · rw [hon]
    exact List.Pairwise.nil

/-- What quiet histories make of an attribute. -/
theorem folded_of_quiet (hC : C.Counter = some info) (hA : C.Untouched A) (hE : E.Undoes) (hown : ReadsOwn info A f)
    (hpri : IntegerPri info A) (hfresh : Fresh s) (hb : C.Holds s A b) {cs : List (Call κ γ β α)}
    (h : Along (next C E (n + 1)) (Quiet info E A) s cs) : Folded C info f A b (cs.foldl (next C E (n + 1)) s) := by
  have hkeep : ∀ (s : Obj κ γ β α) c, Folded C info f A b s → Quiet info E A s c →
      Folded C info f A b (next C E (n + 1) s c) :=
    fun _ c hs hc => folded_next hC hA hE hown hpri hs c hc
  exact (h.throughout hkeep (hfresh.folded hb)).last

/-- **A counter that is added and deleted** leaves the value of its formula. -/
theorem deleted_counter_counts (hC : C.Counter = some info) (hA : C.Untouched A) (hE : E.Undoes)
    (hown : ReadsOwn info A f)
    (hpri : IntegerPri info A) (hfresh : Fresh s) (hb : C.Holds s A b) {k : κ} {i : Info κ β α} (hi : info k = some i)
    (hiA : i.Attr = A)
    (args : List β) :
    (next C E (n + 1) (next C E (n + 1) s (.AddCounter k args)) (.DelCounter (s.CounterID + 1))).active = [] ∧
      C.Holds (next C E (n + 1) (next C E (n + 1) s (.AddCounter k args)) (.DelCounter (s.CounterID + 1))) A
      (f k b args) := by
  have hs : Folded C info f A b s := hfresh.folded hb
  have hbelow : ∀ id ∈ s.CounterSubMap A, s.pri id ≤ i.Pri := by
    intro id hid
    rw [hfresh.sub] at hid
    exact absurd hid List.not_mem_nil
  obtain ⟨t, hadd, hone⟩ := AddCounter_on (n := n) (e := (k, args)) hC hA hE hown hpri hs hb hi hiA hbelow
  have hnext : next C E (n + 1) s (.AddCounter k args) = t := by
    change (exec (C.withCounters fun info => discard (C.AddCounter E (n + 1) info k args)) s).2 = t
    unfold Config.withCounters
    rw [hC]
    dsimp only
    rw [exec_discard, hadd]
  rw [hnext]
  obtain ⟨-, ⟨d, hcounters⟩, hmap, hsub, -, -, hactive, hvalue⟩ := hone
  have hmem : s.CounterID + 1 ∈ t.CounterMap := by
    rw [hmap]
    exact mem_enter.2 (.inr rfl)
  let c : Counter κ β α := ⟨k, args, i.Pri, d⟩
  let t₁ : Obj κ γ β α := t.setActive (t.active.filter (· ≠ s.CounterID + 1))
  have hc : t₁.counters (s.CounterID + 1) = some c := by
    change t.counters _ = _
    rw [hcounters, Function.update_self]
  have hquiet : ∀ id ∈ t₁.CounterSubMap A, again c.Pri (t₁.pri id) = false := by
    intro id hid
    change id ∈ t.CounterSubMap A at hid
    rw [hsub, Function.update_self, hfresh.sub, mem_enter, or_iff_right List.not_mem_nil] at hid
    have hpri' : t₁.pri id = c.Pri := by
      unfold Obj.pri
      rw [hid, hc]
      rfl
    rw [hpri']
    exact again_of_le (hpri k i hi hiA) le_rfl
  have hvalue₁ : C.Holds t₁ A (f k b args) := hvalue
  obtain ⟨u, hrun, hbeside, hu⟩ := RunCounters_none (E := E) (n := n) hA hvalue₁ false
  have hsort : E.sort t₁.pri [] = [] := List.perm_nil.1 (E.perm _ _)
  have hflush : exec (C.FlushCounter E (n + 1) A c.Pri []) t₁ = (.ok (), u.OnEvent (.CounterChange A)) := by
    rw [FlushCounter_quiet hvalue₁ hquiet, hsort]
    exact exec_bind_of hrun
  have hread : exec (counter (s.CounterID + 1)) t₁ = (.ok c, t₁) := by
    unfold counter
    simp only [exec_bind, exec_get, hc, exec_pure]
  have hdel : next C E (n + 1) t (.DelCounter (s.CounterID + 1)) = u.OnEvent (.CounterChange A) := by
    change (exec (C.withCounters fun info => C.DelCounter E (n + 1) info (s.CounterID + 1)) t).2 = _
    unfold Config.withCounters Config.DelCounter
    rw [hC]
    dsimp only
    rw [exec_bind_of exec_get, if_pos hmem, exec_bind_of (exec_modify _), exec_bind_of hread, hi]
    dsimp only
    rw [hiA, hflush]
  rw [hdel]
  refine ⟨?_, hu⟩
  change u.active = []
  rw [hbeside.active]
  change t.active.filter _ = []
  rw [hactive, hfresh.active]
  simp

/-- A counter that adds its argument to one attribute, one that multiplies it, and one that sets another attribute. -/
def boosts : Nat → Option (Info Nat Integer Integer)
  | 1 => some ⟨fun args => .get 0 fun
    | .val v => .ret (.val (v + (args.getD []).headD 0))
    | _ => .raise, 1, 0⟩
  | 2 => some ⟨fun args => .get 0 fun
    | .val v => .ret (.val (v * (args.getD []).headD 0))
    | _ => .raise, 1, 0⟩
  | 3 => some ⟨fun _ => .ret (.val 7), 3, 5⟩
  | _ => none

def boosted (k : Nat) (v : Integer) (args : List Integer) : Integer :=
  if k = 1 then v + args.headD 0 else v * args.headD 0

/-- Two saved attributes, the second of which drops a third. -/
def boost : Config Nat Integer Integer where
  Save k := if k = 0 ∨ k = 5 then some none else none
  Temp _ := none
  Relation k := if k = 5 then [6] else []
  Counter := some boosts

theorem boosts_cases {k : Nat} {i : Info Nat Integer Integer} (hi : boosts k = some i) :
    (i.Attr = 0 ∧ i.Pri = 1 ∧ ∀ v args, (i.Formula (some args)).Yields 0 v (boosted k v args)) ∨ i.Attr = 5 := by
  unfold boosts at hi
  split at hi
  · cases hi
    exact .inl ⟨rfl, rfl, fun v args => .get (.ret _)⟩
  · cases hi
    exact .inl ⟨rfl, rfl, fun v args => .get (.ret _)⟩
  · cases hi
    exact .inr rfl
  · cases hi

theorem boost_untouched {A : Nat} (hA : A = 0 ∨ A = 5) : boost.Untouched A := by
  refine ⟨fun k _ => ?_, fun k f hf args => ?_⟩
  · change A ∉ if k = 5 then [6] else []
    rcases hA with rfl | rfl
    · split <;> simp
    · split <;> simp
  · have hform : boost.formula k = (boosts k).map Info.Formula := by
      unfold Config.formula boost
      dsimp only
      by_cases h : k = 0 ∨ k = 5 <;> simp [h]
    rw [hform, Option.map_eq_some_iff] at hf
    obtain ⟨i, hi, rfl⟩ := hf
    unfold boosts at hi
    split at hi
    · cases hi
      rintro (_ | _ | v) <;> trivial
    · cases hi
      rintro (_ | _ | v) <;> trivial
    · cases hi
      trivial
    · cases hi

theorem boosts_own : ReadsOwn boosts 0 boosted := by
  intro k i hi hA v args
  rcases boosts_cases hi with ⟨-, -, h⟩ | h
  · exact h v args
  · rw [hA] at h
    cases h

theorem boosts_pri : IntegerPri boosts 0 := by
  intro k i hi hA
  rcases boosts_cases hi with ⟨-, h, -⟩ | h
  · exact ⟨1, by rw [h]; rfl⟩
  · rw [hA] at h
    cases h

/-- An object that has 100. -/
def hundred : Obj Nat Nat Integer Integer := { Obj.new with SaveAttr := fun k => if k = 0 then .val 100 else .nil }

theorem hundred_fresh : Fresh hundred := ⟨fun _ => rfl, rfl, fun _ => rfl, fun _ => rfl, rfl⟩

theorem hundred_holds : boost.Holds hundred 0 100 := ⟨.save, rfl, rfl⟩

instance (A : Nat) (c : Call Nat Nat Integer Integer) : Decidable (c.Spares A) := by
  cases c <;> unfold Call.Spares <;> infer_instance

instance (s : Obj Nat Nat Integer Integer) (c : Call Nat Nat Integer Integer) :
    Decidable (Quiet boosts (.numbers _) 0 s c) :=
  decidable_of_iff (c.Spares 0 ∧ (∀ id ∈ c.deletes s, id ∉ s.CounterSubMap 0) ∧
    (∀ id ∈ s.CounterSubMap 0, ∀ p ∈ prisOn boosts 0 (c.adds (.numbers _) s), s.pri id ≤ p) ∧
    (prisOn boosts 0 (c.adds (.numbers _) s)).Pairwise (· ≤ ·))
    ⟨fun h => ⟨h.1, h.2.1, h.2.2.1, h.2.2.2⟩, fun h => ⟨h.spares, h.deletes, h.above, h.rises⟩⟩

/-- A group that is disabled before it has counters, and enabled; a counter of another attribute that is added and
deleted. -/
def grouped : List (Call Nat Nat Integer Integer) :=
  [.DisableCounterByGroups [4], .AddCounterGroup 4 [(1, [10]), (3, [])], .EnableAllDisableCounter, .DelCounter 2,
    .AddCounter 1 [5]]

/-- Counters of one priority that may not be swapped. -/
example : ([.AddCounter 1 [10], .AddCounter 2 [2]].foldl (next boost (.numbers _) 3) hundred).SaveAttr 0 = .val 220 ∧
    ([.AddCounter 2 [2], .AddCounter 1 [10]].foldl (next boost (.numbers _) 3) hundred).SaveAttr 0 = .val 210 := by
  decide +kernel

end XCore.Objects
