import XCore.Class.History

/-!
# Two parts of an object

`XCore.CObject` and `XCore.Counters` have parts of what an object is, and an object does what they do.

- `XCore.CObject` has attributes without counters, and formulas that are queries: `shows_Set` and `answers_Get`, for
  objects that show an instance (`Shows`).
- `XCore.Counters` has counters, and attributes as integers that `Set` assigns to, and nothing else: `objects_simulate`,
  for attributes that hold integers, where `Relation` lists none of them under an attribute of its store, and formulas
  of counters read such attributes, set none and return an integer (`Plain`). `Sim` relates an object to one of
  `XCore.Counters`: the attributes are equal, and the ids of the one are those of the counters of the other. `Steps` is
  what a method does, and `Follows` a run.
-/

namespace XCore.Objects

open XCore.Lua XCore.Raise
open XCore.CObject (Value Store)
open XCore.Counters (Integer fracVal again)

/-! ## Attributes -/

section

variable {κ γ β α : Type}

/-- A query as a formula. -/
def Code.ofQuery : Query κ (Value α) → Code κ α
  | .ret v => .ret v
  | .ask k next => .get k fun v => ofQuery (next v)

/-- A configuration whose attributes are those of one of `XCore.CObject`. -/
structure Config.Matches (D : Config κ β α) (C : CObject.Config κ α) : Prop where
  store : ∀ k, D.store k = C.store k
  relation : ∀ k, D.Relation k = C.Relation k
  formula : ∀ k, D.formula k = (C.formula k).map fun f _ => Code.ofQuery f

/-- An object whose stores, flags and events are those of an instance. -/
structure Shows (s : Obj κ γ β α) (i : CObject.Inst κ α) : Prop where
  temp : ∀ k, s.TempAttr k = i.attr .temp k
  save : ∀ k, s.SaveAttr k = i.attr .save k
  flags : ∀ k, k ∈ s.SaveAttrFlag ↔ i.flags k = true
  events : s.events = i.events.map .AttrChange

/-- A method does what a function on instances does; an error of the function leaves no instance. -/
def Answers (r : Except LuaError (Value α × CObject.Inst κ α)) (x : Except LuaError (Value α) × Obj κ γ β α) : Prop :=
  match r with
  | .ok (v, i) => x.1 = .ok v ∧ Shows x.2 i
  | .error e => x.1 = .error e

variable [DecidableEq κ] {C : CObject.Config κ α} {D : Config κ β α} {s : Obj κ γ β α} {i : CObject.Inst κ α}

omit [DecidableEq κ] in
theorem Answers.cases {r : Except LuaError (Value α × CObject.Inst κ α)} {x : Except LuaError (Value α) × Obj κ γ β α}
    (h : Answers r x) :
    (∃ v j t, r = .ok (v, j) ∧ x = (.ok v, t) ∧ Shows t j) ∨ ∃ e t, r = .error e ∧ x = (.error e, t) := by
  obtain ⟨y, t⟩ := x
  cases r with
  | error e =>
    cases h
    exact .inr ⟨e, t, rfl, rfl⟩
  | ok a =>
    obtain ⟨hy, ht⟩ := h
    cases hy
    exact .inl ⟨a.1, a.2, t, rfl, rfl, ht⟩

omit [DecidableEq κ] in
theorem Shows.kept (h : Shows s i) (st : Store) (k : κ) : s.kept st k = i.attr st k := by
  cases st with
  | temp => exact h.temp k
  | save => exact h.save k

omit [DecidableEq κ] in
theorem Shows.event (h : Shows s i) (k : κ) : Shows (s.OnEvent (.AttrChange k)) (i.onEvent k) := by
  refine ⟨h.temp, h.save, h.flags, ?_⟩
  change s.events ++ [.AttrChange k] = (i.events ++ [k]).map .AttrChange
  rw [h.events, List.map_append]
  rfl

theorem Shows.writeTemp (h : Shows s i) (k : κ) (v : Value α) : Shows (s.writeTemp k v) (i.write .temp k v) := by
  refine ⟨fun d => ?_, h.save, h.flags, h.events⟩
  change Function.update s.TempAttr k v d = Function.update (i.attr .temp) k v d
  rw [funext h.temp]

theorem Shows.writeSave (h : Shows s i) (k : κ) (v : Value α) : Shows (s.writeSave k v) (i.write .save k v) := by
  refine ⟨h.temp, fun d => ?_, h.flags, h.events⟩
  change Function.update s.SaveAttr k v d = Function.update (i.attr .save) k v d
  rw [funext h.save]

theorem Shows.flag (h : Shows s i) (k : κ) : Shows (s.flag k) { i with flags := Function.update i.flags k true } := by
  refine ⟨h.temp, h.save, fun d => ?_, h.events⟩
  change d ∈ s.SaveAttrFlag.insert k ↔ Function.update i.flags k true d = true
  rw [List.mem_insert_iff, h.flags, Function.update_apply]
  by_cases hd : d = k
  · simp [hd]
  · simp [hd]

/-- The loop of `Set` over the attributes that depend on one. -/
theorem Shows.clean_temp (hD : D.Matches C) (h : Shows s i) (k : κ) :
    Shows ((D.Relation k).foldl (fun s d => (s.writeTemp d .nil).OnEvent (.AttrChange d)) s) (C.clean .temp k i) := by
  unfold CObject.Config.clean
  rw [hD.relation]
  induction C.Relation k generalizing s i with
  | nil => exact h
  | cons d l ih => exact ih ((h.writeTemp d .nil).event d)

theorem Shows.clean_save (hD : D.Matches C) (h : Shows s i) (k : κ) :
    Shows ((D.Relation k).foldl (fun s d => (s.writeSave d .nil).OnEvent (.AttrChange d)) s) (C.clean .save k i) := by
  unfold CObject.Config.clean
  rw [hD.relation]
  induction C.Relation k generalizing s i with
  | nil => exact h
  | cons d l ih => exact ih ((h.writeSave d .nil).event d)

/-- `Set` does what that of an instance does, or there is no such attribute. -/
theorem shows_Set (hD : D.Matches C) (h : Shows s i) (k : κ) (v : Value α) (noclean : Bool) :
    (∃ j t, C.Set k v noclean i = .ok j ∧ exec (D.Set k v noclean) s = (.ok (), t) ∧ Shows t j) ∨
      C.Set k v noclean i = .error .callNil ∧ exec (D.Set k v noclean) s = (.error .callNil, s) := by
  unfold Config.Set CObject.Config.Set
  rw [hD.store]
  cases C.store k with
  | none => exact .inr ⟨rfl, rfl⟩
  | some st =>
    refine .inl ?_
    cases st with
    | temp => exact ⟨_, _, rfl, rfl, ((h.writeTemp k v).event k).clean_temp hD k⟩
    | save =>
      refine ⟨_, _, rfl, rfl, ?_⟩
      have hset := ((h.writeSave k v).flag k).event k
      cases noclean with
      | false => exact hset.clean_save hD k
      | true => exact hset

/-- A formula, if `Get` does what it does. -/
theorem answers_run {m : CObject.Inst κ α → κ → Except LuaError (Value α × CObject.Inst κ α)}
    {G : κ → Method κ γ β α (Value α)}
    (hG : ∀ (s : Obj κ γ β α) i, Shows s i → ∀ k, Answers (m i k) (exec (G k) s)) :
    ∀ (f : Query κ (Value α)) {s : Obj κ γ β α}
    {i : CObject.Inst κ α}, Shows s i → Answers (f.run (fun k i => m i k) i) (exec (D.run G (.ofQuery f)) s)
  | .ret _, _, _, h => ⟨rfl, h⟩
  | .ask k next, s, i, h => by
    unfold Code.ofQuery Config.run Query.run
    rw [exec_bind]
    rcases (hG s i h k).cases with ⟨v, j, t, hm, hget, ht⟩ | ⟨e, t, hm, hget⟩
    · rw [hm, hget]
      exact answers_run hG (next v) ht
    · rw [hm, hget]
      exact rfl

/-- `Get` does what that of an instance does. -/
theorem answers_Get (hD : D.Matches C) : ∀ (n : Nat) (s : Obj κ γ β α) (i : CObject.Inst κ α), Shows s i →
    ∀ k, Answers (C.Get n k i) (exec (D.Get n k) s)
  | 0, _, _, _, _ => rfl
  | n + 1, s, i, h, k => by
    unfold Config.Get CObject.Config.Get
    rw [hD.store]
    cases C.store k with
    | none => exact rfl
    | some st =>
      rw [exec_bind_of exec_get, h.kept st k]
      dsimp only
      split
      · exact ⟨rfl, h⟩
      · rw [hD.formula]
        cases C.formula k with
        | none => exact ⟨rfl, h⟩
        | some f =>
          rw [Option.map_some]
          dsimp only
          rw [exec_bind]
          rcases (answers_run (answers_Get hD n) f h).cases with ⟨v, j, t, hf, hrun, ht⟩ | ⟨e, t, hf, hrun⟩
          · rw [hf, hrun]
            dsimp only
            rw [exec_bind]
            rcases shows_Set hD ht k v false with ⟨j', u, hset', hset, hu⟩ | ⟨hset', hset⟩
            · rw [hset', hset]
              exact ⟨rfl, hu⟩
            · rw [hset', hset]
              exact rfl
          · rw [hf, hrun]
            exact rfl

end

variable {κ γ : Type} [DecidableEq κ] [DecidableEq γ]

/-! ## Configurations with counters -/

/-- A formula that reads some attributes, and returns an integer. -/
inductive Code.Computes (K : κ → Prop) (attr : κ → Integer) : Code κ Integer → Integer → Prop
  | ret (w : Integer) : Code.Computes K attr (.ret (.val w)) w
  | get {k : κ} {next : Value Integer → Code κ Integer} {w : Integer} : K k →
      Code.Computes K attr (next (.val (attr k))) w → Code.Computes K attr (.get k next) w

/-- A configuration whose counters change and read attributes that nothing else changes, as `F` says. -/
structure Plain (C : Config κ Integer Integer) (info : κ → Option (Info κ Integer Integer)) (F : κ → Counters.Info κ)
    (K : κ → Prop) :
    Prop where
  counter : C.Counter = some info
  untouched : ∀ A, K A → C.Untouched A
  on : ∀ k i, info k = some i → K i.Attr
  attr : ∀ k i, info k = some i → (F k).Attr = i.Attr
  pri : ∀ k i, info k = some i → (F k).Pri = i.Pri
  formula : ∀ k i, info k = some i → ∀ attr args, (i.Formula (some args)).Computes K attr ((F k).Formula attr args)

/-- The arithmetic is that of integers, and counters are sorted alike. -/
structure Machine.Agrees (E : Machine γ Integer) (S : Counters.Sorting κ) : Prop where
  zero : E.zero = .val 0
  add : ∀ a b, E.add (.val a) (.val b) = .ok (.val (a + b))
  sub : ∀ a b, E.sub (.val a) (.val b) = .ok (.val (a - b))
  sort : ∀ (pri : Nat → ℚ) (l : List (Counters.Counter κ)), (∀ c ∈ l, pri c.Id = c.Pri) →
    E.sort pri (l.map Counters.Counter.Id) = (S.sort l).map Counters.Counter.Id

omit [DecidableEq κ] in
theorem agrees_insertion : (Machine.numbers Integer).Agrees (.insertion : Counters.Sorting κ) where
  zero := rfl
  add _ _ := rfl
  sub _ _ := rfl
  sort pri l h := by
    refine (List.map_insertionSort _ (fun a b => pri a ≤ pri b) _ l fun c hc d hd => ?_).symm
    rw [h c hc, h d hd]

/-! ## Related objects -/

/-- The name in a list of counters, if it has an entry. -/
def named (info : κ → Option (Info κ Integer Integer)) (e : κ × List Integer) : Option κ × List Integer :=
  (if (info e.1).isSome then some e.1 else none, e.2)

/-- The table of a counter. -/
structure Known (info : κ → Option (Info κ Integer Integer)) (s : Obj κ γ Integer Integer) (s' : Counters.Obj κ κ γ)
    (c : Counters.Counter κ) : Prop where
  table : s.counters c.Id = some ⟨c.Name, c.Var, c.Pri, .val (s'.change c.Id)⟩
  entry : ∃ i, info c.Name = some i

/-- An object does what one of `XCore.Counters` does, but for `active`. -/
structure Sim (C : Config κ Integer Integer) (info : κ → Option (Info κ Integer Integer)) (K : κ → Prop)
    (s : Obj κ γ Integer Integer) (s' : Counters.Obj κ κ γ) : Prop where
  attr : ∀ A, K A → C.Holds s A (s'.attr A)
  id : s.CounterID = s'.CounterID
  tables : ∀ id c, s.counters id = some c → id ≤ s.CounterID
  known : ∀ c ∈ s'.CounterMap, Known info s s' c
  map : s.CounterMap = s'.CounterMap.map Counters.Counter.Id
  knownSub : ∀ B, ∀ c ∈ s'.CounterSubMap B, Known info s s' c
  sub : ∀ B, s.CounterSubMap B = (s'.CounterSubMap B).map Counters.Counter.Id
  groups : s.CounterGroupMap = s'.CounterGroupMap
  disabled : ∀ g, s'.CounterDisableMap g = (s.CounterDisableMap.lookup g).map (List.map (named info))

/-- An object does what one of `XCore.Counters` does. -/
structure Simulates (C : Config κ Integer Integer) (info : κ → Option (Info κ Integer Integer)) (K : κ → Prop)
    (s : Obj κ γ Integer Integer) (s' : Counters.Obj κ κ γ) : Prop extends Sim C info K s s' where
  active : s.active = s'.active.map Counters.Counter.Id

/-- Steps of both that know the counters that were known, and add and delete none. -/
structure Steps (C : Config κ Integer Integer) (info : κ → Option (Info κ Integer Integer)) (K : κ → Prop)
    (s : Obj κ γ Integer Integer)
    (s' : Counters.Obj κ κ γ) (t : Obj κ γ Integer Integer) (t' : Counters.Obj κ κ γ) : Prop where
  sim : Sim C info K t t'
  known : ∀ c, Known info s s' c → Known info t t' c
  active : t.active = s.active
  active' : t'.active = s'.active

variable {C : Config κ Integer Integer} {E : Machine γ Integer} {S : Counters.Sorting κ} {n : Nat}
  {info : κ → Option (Info κ Integer Integer)} {F : κ → Counters.Info κ} {K : κ → Prop} {A : κ}
  {s t : Obj κ γ Integer Integer}
  {s' t' : Counters.Obj κ κ γ} {c d : Counters.Counter κ}

omit [DecidableEq κ] in
theorem Steps.refl (hs : Sim C info K s s') : Steps C info K s s' s s' := ⟨hs, fun _ h => h, rfl, rfl⟩

omit [DecidableEq κ] in
theorem Steps.trans {u : Obj κ γ Integer Integer} {u' : Counters.Obj κ κ γ} (h : Steps C info K s s' t t')
    (h' : Steps C info K t t' u u') : Steps C info K s s' u u' := 
  ⟨h'.sim, fun c hc => h'.known c (h.known c hc), h'.active.trans h.active, h'.active'.trans h.active'⟩

section

omit [DecidableEq κ] [DecidableEq γ]

theorem Known.pri (h : Known info s s' c) : s.pri c.Id = c.Pri := by
  unfold Obj.pri
  rw [h.table]
  rfl

/-- A counter is known by its id. -/
theorem Known.eq (hc : Known info s s' c) (hd : Known info s s' d) (h : c.Id = d.Id) : c = d := by
  have htable := hc.table
  rw [h, hd.table] at htable
  obtain ⟨id, name, var, pri⟩ := c
  obtain ⟨id', name', var', pri'⟩ := d
  cases h
  cases htable
  rfl

theorem exec_counter (h : Known info s s' c) :
    exec (counter c.Id) s = (.ok ⟨c.Name, c.Var, c.Pri, .val (s'.change c.Id)⟩, s) := by
  unfold counter
  simp only [exec_bind, exec_get, h.table, exec_pure]

/-- An id that is in a map is that of a counter that is. -/
theorem mem_map_id {l : List (Counters.Counter κ)} (hl : ∀ d ∈ l, Known info s s' d) (hc : Known info s s' c) :
    c.Id ∈ l.map Counters.Counter.Id ↔ c ∈ l := by
  constructor
  · intro h
    obtain ⟨d, hd, hid⟩ := List.mem_map.1 h
    rw [← (hl d hd).eq hc hid]
    exact hd
  · exact List.mem_map_of_mem

end

/-! ## Attributes of counters -/

theorem run_computes {code : Code κ Integer} {w : Integer} (hs : Sim C info K s s') (h : code.Computes K s'.attr w) :
    exec (C.run (C.Get (n + 1)) code) s = (.ok (.val w), s) := by
  induction h with
  | ret w => rfl
  | get hk _ ih =>
    unfold Config.run
    rw [exec_bind, Get_holds (hs.attr _ hk)]
    exact ih

omit [DecidableEq κ] in
/-- An assignment that leaves the counters. -/
theorem Sim.beside (hs : Sim C info K s s') (h : Beside s t) {attr : κ → Integer}
    (hattr : ∀ A, K A → C.Holds t A (attr A)) :
    Steps C info K s s' t { s' with attr := attr } := by
  have hknown : ∀ c, Known info s s' c → Known info t { s' with attr := attr } c :=
    fun c hc => ⟨by rw [h.counters]; exact hc.table, hc.entry⟩
  refine ⟨⟨hattr, h.id.trans hs.id, fun id c hc => ?_, fun c hc => hknown c (hs.known c hc), h.map.trans hs.map,
    fun B c hc => hknown c (hs.knownSub B c hc), fun B => ?_, h.groups.trans hs.groups, fun g => ?_⟩, hknown,
    h.active, rfl⟩
  · rw [h.id]
    exact hs.tables id c (h.counters ▸ hc)
  · rw [h.sub]
    exact hs.sub B
  · rw [h.disabled]
    exact hs.disabled g

/-- `Set` of an attribute. -/
theorem sim_Set (hP : Plain C info F K) (hs : Sim C info K s s') (hA : K A) (w : Integer) (noclean : Bool) :
    ∃ t, exec (C.Set A (.val w) noclean) s = (.ok (), t) ∧ Steps C info K s s' t (s'.setAttr A w) := by
  obtain ⟨st, hst, -⟩ := hs.attr A hA
  obtain ⟨t, hset, hbeside⟩ : ∃ t, exec (C.Set A (.val w) noclean) s = (.ok (), t) ∧ Beside s t := by
    rcases Set_spec (hP.untouched A hA) A (.val w) noclean s with ⟨hnone, -⟩ | ⟨t, hset, hbeside, -⟩
    · rw [hst] at hnone
      cases hnone
    · exact ⟨t, hset, hbeside⟩
  refine ⟨t, hset, hs.beside hbeside fun B hB => ?_⟩
  obtain ⟨st, hst, hv⟩ := hs.attr B hB
  rcases Set_spec (hP.untouched B hB) A (.val w) noclean s with ⟨-, hset'⟩ | ⟨t', hset', -, hkept⟩
  · rw [hset] at hset'
    cases hset'
  · rw [hset] at hset'
    cases hset'
    refine ⟨st, hst, ?_⟩
    rw [hkept st hst, hv, Function.update_apply]
    by_cases h : A = B
    · rw [if_pos h, if_pos h.symm]
    · rw [if_neg h, if_neg (Ne.symm h)]

/-! ## Flushes -/

/-- A counter is entered in the maps. -/
theorem sim_put (hs : Sim C info K s s') (hc : Known info s s' c) (A : κ) :
    Steps C info K s s' (s.put A c.Id) (s'.put A c) := by
  have henter : ∀ {l : List (Counters.Counter κ)}, (∀ d ∈ l, Known info s s' d) →
      enter (l.map Counters.Counter.Id) c.Id = (if c ∈ l then l else l ++ [c]).map Counters.Counter.Id := by
    intro l hl
    unfold enter
    by_cases h : c ∈ l
    · rw [if_pos h, if_pos ((mem_map_id hl hc).2 h)]
    · rw [if_neg h, if_neg fun h' => h ((mem_map_id hl hc).1 h'), List.map_append]
      rfl
  have hknown : ∀ {l : List (Counters.Counter κ)}, (∀ d ∈ l, Known info s s' d) → ∀ d ∈ if c ∈ l then l else l ++ [c],
      Known info (s.put A c.Id) (s'.put A c) d := by
    intro l hl d hd
    split at hd
    · exact ⟨(hl d hd).table, (hl d hd).entry⟩
    · rcases List.mem_append.1 hd with hd | hd
      · exact ⟨(hl d hd).table, (hl d hd).entry⟩
      · rw [List.mem_singleton.1 hd]
        exact ⟨hc.table, hc.entry⟩
  refine ⟨⟨hs.attr, hs.id, hs.tables, hknown hs.known, ?_, fun B d hd => ?_, fun B => ?_, hs.groups, hs.disabled⟩,
    fun d hd => ⟨hd.table, hd.entry⟩, rfl, rfl⟩
  · change enter s.CounterMap c.Id = _
    rw [hs.map]
    exact henter hs.known
  · change d ∈ Function.update s'.CounterSubMap A _ B at hd
    by_cases hB : B = A
    · subst hB
      rw [Function.update_self] at hd
      exact hknown (hs.knownSub B) d hd
    · rw [Function.update_of_ne hB] at hd
      exact ⟨(hs.knownSub B d hd).table, (hs.knownSub B d hd).entry⟩
  · change Function.update s.CounterSubMap A _ B = (Function.update s'.CounterSubMap A _ B).map _
    by_cases hB : B = A
    · subst hB
      rw [Function.update_self, Function.update_self, hs.sub]
      exact henter (hs.knownSub B)
    · rw [Function.update_of_ne hB, Function.update_of_ne hB]
      exact hs.sub B

omit [DecidableEq κ] in
/-- A change is assigned. -/
theorem sim_setChange (hs : Sim C info K s s') (hc : Known info s s' c) (v : Integer) :
    Steps C info K s s' (s.setChange c.Id (.val v)) (s'.setChange c v) := by
  have hknown : ∀ d, Known info s s' d → Known info (s.setChange c.Id (.val v)) (s'.setChange c v) d := by
    intro d hd
    refine ⟨?_, hd.entry⟩
    change Function.update s.counters c.Id _ d.Id = some
      ⟨d.Name, d.Var, d.Pri, .val (Function.update s'.change c.Id v d.Id)⟩
    by_cases h : d.Id = c.Id
    · cases hd.eq hc h
      rw [Function.update_self, Function.update_self, hc.table]
      rfl
    · rw [Function.update_of_ne h, Function.update_of_ne h]
      exact hd.table
  refine ⟨⟨hs.attr, hs.id, fun id e he => ?_, fun d hd => hknown d (hs.known d hd), hs.map,
    fun B d hd => hknown d (hs.knownSub B d hd), hs.sub, hs.groups, hs.disabled⟩, hknown, rfl, rfl⟩
  change Function.update s.counters c.Id _ id = some e at he
  by_cases h : id = c.Id
  · rw [h]
    exact hs.tables _ _ hc.table
  · rw [Function.update_of_ne h] at he
    exact hs.tables id e he

/-- The counters of a list are run. -/
theorem sim_runCounters (hE : E.Agrees S) (A : κ) : ∀ (l : List (Counters.Counter κ)) {s : Obj κ γ Integer Integer}
    {s' : Counters.Obj κ κ γ}, Sim C info K s s' → (∀ c ∈ l, Known info s s' c) → ∀ v : Integer,
    ∃ t, exec ((l.map Counters.Counter.Id).foldlM (Config.runCounter E A) (.val v)) s =
        (.ok (.val (l.foldl (fun v c => v + s'.change c.Id) v)), t) ∧
      Steps C info K s s' t (l.foldl (fun s c => s.put A c) s')
  | [], s, s', hs, _, v => ⟨s, rfl, .refl hs⟩
  | c :: l, s, s', hs, hl, v => by
    have hc := hl c List.mem_cons_self
    have hput := sim_put hs hc A
    obtain ⟨t, ht, hsteps⟩ := sim_runCounters hE A l hput.sim
      (fun d hd => hput.known d (hl d (List.mem_cons_of_mem c hd)))
      (v + s'.change c.Id)
    refine ⟨t, ?_, hput.trans hsteps⟩
    have hturn : exec (Config.runCounter E A (.val v) c.Id) s = (.ok (.val (v + s'.change c.Id)), s.put A c.Id) := by
      unfold Config.runCounter
      simp only [exec_bind, exec_counter hc, exec_ofResult, hE.add, exec_modify, exec_pure]
    rw [List.map_cons, List.foldlM_cons, exec_bind_of hturn]
    exact ht

/-- `RunCounters`. -/
theorem sim_RunCounters (hP : Plain C info F K) (hE : E.Agrees S) (hA : K A) (hs : Sim C info K s s')
    {l : List (Counters.Counter κ)} (hl : ∀ c ∈ l, Known info s s' c) (NoClean : Bool) :
    ∃ t, exec (C.RunCounters E (n + 1) A (l.map Counters.Counter.Id) NoClean) s = (.ok (), t) ∧
      Steps C info K s s' t (s'.RunCounters A l) := by
  obtain ⟨t, hrun, hsteps⟩ := sim_runCounters hE A l hs hl (s'.attr A)
  obtain ⟨u, hset, hsteps'⟩ := sim_Set hP hsteps.sim hA (l.foldl (fun v c => v + s'.change c.Id) (s'.attr A)) NoClean
  refine ⟨u, ?_, hsteps.trans hsteps'⟩
  unfold Config.RunCounters
  rw [exec_bind_of (Get_holds (hs.attr A hA)), exec_bind_of hrun]
  exact hset

omit [DecidableEq γ] in
theorem RunCounters_change (A : κ) (l : List (Counters.Counter κ)) (s' : Counters.Obj κ κ γ) :
    (s'.RunCounters A l).change = s'.change := by
  change (l.foldl (fun s c => s.put A c) s').change = s'.change
  induction l generalizing s' with
  | nil => rfl
  | cons d l ih => exact ih (s'.put A d)

/-- The change of a counter. -/
theorem sim_change (hP : Plain C info F K) (hE : E.Agrees S) (hs : Sim C info K s s') (hc : Known info s s' c)
    (b : Integer) {e : Counter κ Integer Integer} (he : e = ⟨c.Name, c.Var, c.Pri, .val (s'.change c.Id)⟩) :
    ∃ t, exec (C.change E (n + 1) c.Id e (.val b)) s = (.ok (), t) ∧
      Steps C info K s s' t (s'.setChange c ((F c.Name).Formula s'.attr c.Var - b)) := by
  obtain ⟨i, hi⟩ := hc.entry
  refine ⟨_, ?_, sim_setChange hs hc _⟩
  unfold Config.change
  rw [he, formula_counter hP.counter hi]
  simp only [exec_bind, run_computes hs (hP.formula _ i hi s'.attr c.Var), exec_ofResult, hE.sub, exec_modify]

/-- The second loop of `FlushCounter`. -/
theorem sim_flushLoop (hP : Plain C info F K) (hE : E.Agrees S) (hA : K A) :
    ∀ (cs : List (Counters.Counter κ)) (p : ℚ) (b : Integer) {l : List (Counters.Counter κ)}
      {s : Obj κ γ Integer Integer} {s' : Counters.Obj κ κ γ},
    Sim C info K s s' → (∀ c ∈ l ++ cs, Known info s s' c) →
    ∃ t, exec (C.flushLoop E (n + 1) A (cs.map Counters.Counter.Id) p (.val b) (l.map Counters.Counter.Id)) s =
        (.ok (), t) ∧
      Steps C info K s s' t (Counters.flushLoop F A cs p b l s')
  | [], p, b, l, s, s', hs, hl => sim_RunCounters hP hE hA hs (fun c hc => hl c (List.mem_append_left _ hc)) false
  | c :: cs, p, b, l, s, s', hs, hl => by
    have hc := hl c (List.mem_append_right _ List.mem_cons_self)
    rw [List.map_cons]
    unfold Config.flushLoop Counters.flushLoop
    rw [exec_bind_of (exec_counter hc)]
    dsimp only
    by_cases hbranch : c.Pri ≠ p ∨ 0 < fracVal p
    · rw [if_pos hbranch, if_pos hbranch]
      obtain ⟨t, hrun, hsteps⟩ := sim_RunCounters (n := n) hP hE hA hs
        (fun d hd => hl d (List.mem_append_left _ hd)) true
      have hct := hsteps.known c hc
      obtain ⟨u, hset, hsteps'⟩ := sim_change (n := n) hP hE hsteps.sim hct ((s'.RunCounters A l).attr A)
        (e := ⟨c.Name, c.Var, c.Pri, .val (s'.change c.Id)⟩) (by rw [RunCounters_change])
      obtain ⟨w, hrest, hsteps''⟩ := sim_flushLoop hP hE hA cs c.Pri ((s'.RunCounters A l).attr A)
        (l := [c]) hsteps'.sim fun d hd => by
        rcases List.mem_cons.1 hd with rfl | hd
        · exact hsteps'.known _ hct
        · exact hsteps'.known _ (hsteps.known _ (hl d (List.mem_append_right _ (List.mem_cons_of_mem c hd))))
      refine ⟨w, ?_, (hsteps.trans hsteps').trans hsteps''⟩
      rw [exec_bind_of hrun, exec_bind_of (Get_holds (hsteps.sim.attr A hA)), exec_bind_of hset]
      exact hrest
    · rw [if_neg hbranch, if_neg hbranch]
      obtain ⟨t, hset, hsteps⟩ := sim_change (n := n) hP hE hs hc b
        (e := ⟨c.Name, c.Var, c.Pri, .val (s'.change c.Id)⟩) rfl
      obtain ⟨u, hrest, hsteps'⟩ := sim_flushLoop hP hE hA cs p b (l := l ++ [c]) hsteps.sim fun d hd => by
        refine hsteps.known d (hl d ?_)
        rwa [List.append_cons]
      refine ⟨u, ?_, hsteps.trans hsteps'⟩
      rw [exec_bind_of hset]
      rw [List.map_append] at hrest
      exact hrest

omit [DecidableEq κ] in
/-- The first loop of `FlushCounter`. -/
theorem sim_reset (hE : E.Agrees S) :
    ∀ (l : List (Counters.Counter κ)) {s : Obj κ γ Integer Integer} {s' : Counters.Obj κ κ γ},
    Sim C info K s s' → (∀ c ∈ l, Known info s s' c) →
    ∃ t, exec ((l.map Counters.Counter.Id).forM fun id =>
      (modify fun s => s.setChange id E.zero : Method κ γ Integer Integer PUnit)) s =
        (.ok (), t) ∧ Steps C info K s s' t (l.foldl (fun s c => (s.DelCounterOf c).setChange c 0) s')
  | [], s, s', hs, _ => ⟨s, rfl, .refl hs⟩
  | c :: l, s, s', hs, hl => by
    have hset := sim_setChange hs (hl c List.mem_cons_self) 0
    obtain ⟨t, hrest, hsteps⟩ := sim_reset hE l hset.sim fun d hd => hset.known d (hl d (List.mem_cons_of_mem c hd))
    refine ⟨t, ?_, hset.trans hsteps⟩
    change exec (modify _ >>= fun _ => List.forM (l.map Counters.Counter.Id) _) s = _
    rw [exec_bind_of (exec_modify _), hE.zero]
    rw [hE.zero] at hrest
    exact hrest

/-- `FlushCounter`. -/
theorem sim_FlushCounter (hP : Plain C info F K) (hE : E.Agrees S) (hA : K A) (hs : Sim C info K s s') (p : ℚ)
    {l : List (Counters.Counter κ)} (hl : ∀ c ∈ l, Known info s s' c) :
    ∃ t, exec (C.FlushCounter E (n + 1) A p (l.map Counters.Counter.Id)) s = (.ok (), t) ∧
      Steps C info K s s' t (Counters.FlushCounter F S A p l s') := by
  let old := (s'.CounterSubMap A).filter fun c => again p c.Pri
  have hold : ∀ c ∈ old, Known info s s' c := fun c hc => hs.knownSub A c (List.mem_of_mem_filter hc)
  have hids : (s.CounterSubMap A).filter (fun id => again p (s.pri id)) = old.map Counters.Counter.Id := by
    rw [hs.sub, List.filter_map]
    congr 1
    refine List.filter_congr fun c hc => ?_
    change again p (s.pri c.Id) = again p c.Pri
    rw [(hs.knownSub A c hc).pri]
  have hall : ∀ c ∈ l ++ old, Known info s s' c := fun c hc => (List.mem_append.1 hc).elim (hl c) (hold c)
  have hsort : E.sort s.pri (l.map Counters.Counter.Id ++ old.map Counters.Counter.Id) =
      (S.sort (l ++ old)).map Counters.Counter.Id := by
    rw [← List.map_append]
    exact hE.sort s.pri (l ++ old) fun c hc => (hall c hc).pri
  obtain ⟨t, hreset, hsteps⟩ := sim_reset hE old hs hold
  obtain ⟨u, hloop, hsteps'⟩ := sim_flushLoop (n := n) hP hE hA (S.sort (l ++ old)) p
    ((old.foldl (fun s c => (s.DelCounterOf c).setChange c 0) s').attr A) (l := []) hsteps.sim fun c hc =>
      hsteps.known c (hall c ((S.perm _).subset hc))
  refine ⟨u.OnEvent (.CounterChange A), ?_, hsteps.trans (hsteps'.trans ?_)⟩
  · unfold Config.FlushCounter
    rw [exec_bind_of exec_get]
    dsimp only
    rw [List.map_nil] at hloop
    rw [hids, hsort, exec_bind_of hreset, exec_bind_of (Get_holds (hsteps.sim.attr A hA)), exec_bind_of hloop]
    rfl
  · have hevent : Beside u (u.OnEvent (.CounterChange A)) := ⟨rfl, rfl, rfl, rfl, rfl, rfl, rfl⟩
    exact hsteps'.sim.beside hevent hsteps'.sim.attr

/-! ## Counters -/

omit [DecidableEq κ] in
/-- Other groups, other lists of groups that are disabled, and other counters that are active. -/
theorem Sim.update (hs : Sim C info K s s') {groups groups' : γ → Option (List Nat)}
    {d : AList fun _ : γ => List (κ × List Integer)} {d' : γ → Option (List (Option κ × List Integer))}
    (ids : List Nat) (cs : List (Counters.Counter κ)) (hgroups : groups = groups')
    (hd : ∀ g, d' g = (d.lookup g).map (List.map (named info))) :
    Sim C info K { s with CounterGroupMap := groups, CounterDisableMap := d, active := ids }
      { s' with CounterGroupMap := groups', CounterDisableMap := d', active := cs } :=
  ⟨hs.attr, hs.id, hs.tables, fun c hc => ⟨(hs.known c hc).table, (hs.known c hc).entry⟩, hs.map,
    fun B c hc => ⟨(hs.knownSub B c hc).table, (hs.knownSub B c hc).entry⟩, hs.sub, hgroups, hd⟩

omit [DecidableEq κ] in
/-- The counter that `AddCounter` makes. -/
theorem sim_alloc (hP : Plain C info F K) (hE : E.Agrees S) (hs : Sim C info K s s') {name : κ}
    {i : Info κ Integer Integer} (hi : info name = some i) (args : List Integer) (a : List (Counters.Counter κ)) :
    let c : Counters.Counter κ := ⟨s'.CounterID + 1, name, args, (F name).Pri⟩
    let t' :=
      { s' with CounterID := s'.CounterID + 1, change := Function.update s'.change (s'.CounterID + 1) 0, active := a }
    Sim C info K (s.alloc ⟨name, args, i.Pri, E.zero⟩) t' ∧ Known info (s.alloc ⟨name, args, i.Pri, E.zero⟩) t' c := by
  intro c t'
  have hnew : Known info (s.alloc ⟨name, args, i.Pri, E.zero⟩) t' c := by
    refine ⟨?_, i, hi⟩
    change Function.update s.counters (s.CounterID + 1) _ (s'.CounterID + 1) =
      some ⟨name, args, (F name).Pri, .val (Function.update s'.change (s'.CounterID + 1) 0 (s'.CounterID + 1))⟩
    rw [hs.id, Function.update_self, Function.update_self, hE.zero, hP.pri name i hi]
  have hknown : ∀ d, Known info s s' d → Known info (s.alloc ⟨name, args, i.Pri, E.zero⟩) t' d := by
    intro d hd
    have hle := hs.tables d.Id _ hd.table
    have hne : d.Id ≠ s.CounterID + 1 := by omega
    refine ⟨?_, hd.entry⟩
    change Function.update s.counters (s.CounterID + 1) _ d.Id =
      some ⟨d.Name, d.Var, d.Pri, .val (Function.update s'.change (s'.CounterID + 1) 0 d.Id)⟩
    rw [← hs.id, Function.update_of_ne hne, Function.update_of_ne hne]
    exact hd.table
  refine ⟨⟨hs.attr, congrArg (· + 1) hs.id, fun id e he => ?_, fun d hd => hknown d (hs.known d hd), hs.map,
    fun B d hd => hknown d (hs.knownSub B d hd), hs.sub, hs.groups, hs.disabled⟩, hnew⟩
  change Function.update s.counters (s.CounterID + 1) _ id = some e at he
  change id ≤ s.CounterID + 1
  by_cases h : id = s.CounterID + 1
  · omega
  · rw [Function.update_of_ne h] at he
    exact (hs.tables id e he).trans (Nat.le_succ _)

/-- `AddCounter`. -/
theorem sim_AddCounter (hP : Plain C info F K) (hE : E.Agrees S) (hs : Simulates C info K s s') (e : κ × List Integer) :
    ∃ t, exec (C.AddCounter E (n + 1) info e.1 e.2) s =
        ((Counters.AddCounter F S (named info e).1 (named info e).2 s').1, t) ∧
      Simulates C info K t (Counters.AddCounter F S (named info e).1 (named info e).2 s').2 := by
  unfold Config.AddCounter named
  cases hi : info e.1 with
  | none => exact ⟨s, rfl, hs⟩
  | some i =>
    obtain ⟨halloc, hnew⟩ := sim_alloc hP hE hs.toSim hi e.2 (s'.active ++ [⟨s'.CounterID + 1, e.1, e.2, (F e.1).Pri⟩])
    obtain ⟨t, hflush, hsteps⟩ := sim_FlushCounter (n := n) hP hE (hP.on e.1 i hi) halloc i.Pri fun c hc => by
      rw [List.mem_singleton.1 hc]
      exact hnew
    refine ⟨t.setActive (t.active ++ [s.CounterID + 1]), ?_, ?_⟩
    · dsimp only
      rw [exec_bind_of exec_get, exec_bind_of (exec_modify _), hs.id]
      refine (exec_bind_of hflush).trans ?_
      rfl
    · rw [← hP.attr e.1 i hi, ← hP.pri e.1 i hi] at hsteps
      refine ⟨hsteps.sim.update _ _ hsteps.sim.groups hsteps.sim.disabled, ?_⟩
      change t.active ++ [s.CounterID + 1] = List.map _ _
      rw [hsteps.active]
      refine Eq.trans ?_ (congrArg (List.map Counters.Counter.Id) hsteps.active').symm
      change s.active ++ _ = List.map _ (s'.active ++ [_])
      rw [List.map_append, ← hs.active, hs.id]
      rfl

omit [DecidableEq κ] in
/-- The counter of an id that is in `__CounterMap`. -/
theorem Sim.find (hs : Sim C info K s s') (id : Nat) :
    (id ∈ s.CounterMap ∧ ∃ c, s'.CounterMap.find? (fun c => c.Id = id) = some c ∧ Known info s s' c ∧ c.Id = id) ∨
      id ∉ s.CounterMap ∧ s'.CounterMap.find? (fun c => c.Id = id) = none := by
  rw [hs.map]
  cases hfind : s'.CounterMap.find? fun c => c.Id = id with
  | none =>
    refine .inr ⟨fun h => ?_, rfl⟩
    obtain ⟨c, hc, hid⟩ := List.mem_map.1 h
    exact List.find?_eq_none.1 hfind c hc (decide_eq_true hid)
  | some c =>
    have hc := List.mem_of_find?_eq_some hfind
    have hid : c.Id = id := by simpa using List.find?_some hfind
    exact .inl ⟨List.mem_map.2 ⟨c, hc, hid⟩, c, rfl, hs.known c hc, hid⟩

/-- `DelCounter`. -/
theorem sim_DelCounter (hP : Plain C info F K) (hE : E.Agrees S) (hs : Simulates C info K s s') (id : Nat) :
    ∃ t, exec (C.DelCounter E (n + 1) info id) s = (.ok (), t) ∧
      Simulates C info K t (Counters.DelCounter F S id s') := by
  unfold Config.DelCounter Counters.DelCounter
  rw [exec_bind_of exec_get]
  rcases hs.find id with ⟨hmem, c, hfind, hc, hid⟩ | ⟨hmem, hfind⟩
  · rw [if_pos hmem, hfind]
    dsimp only
    subst hid
    obtain ⟨i, hi⟩ := hc.entry
    have hdeleted : Sim C info K (s.setActive (s.active.filter (· ≠ c.Id)))
        { s' with active := s'.active.filter fun d => d.Id ≠ c.Id } :=
      hs.toSim.update _ _ hs.groups hs.disabled
    have hknown : Known info (s.setActive (s.active.filter (· ≠ c.Id)))
        { s' with active := s'.active.filter fun d => d.Id ≠ c.Id } c :=
      ⟨hc.table, hc.entry⟩
    obtain ⟨t, hflush, hsteps⟩ := sim_FlushCounter (n := n) (l := []) hP hE (hP.on c.Name i hi) hdeleted c.Pri
      fun d hd => by cases hd
    rw [exec_bind_of (exec_modify _), exec_bind_of (exec_counter hknown)]
    dsimp only
    rw [hi]
    rw [← hP.attr c.Name i hi] at hsteps
    refine ⟨t, hflush, hsteps.sim, ?_⟩
    refine hsteps.active.trans (Eq.trans ?_ (congrArg (List.map Counters.Counter.Id) hsteps.active').symm)
    change s.active.filter _ = List.map _ (s'.active.filter _)
    rw [hs.active, List.filter_map]
    rfl
  · rw [if_neg hmem, hfind]
    exact ⟨s, rfl, hs⟩

omit [DecidableEq κ] in
/-- `ClearCounter`. -/
theorem sim_ClearCounter (hs : Simulates C info K s s') :
    ∃ t, exec (Config.ClearCounter : Method κ γ Integer Integer Unit) s = (.ok (), t) ∧
      Simulates C info K t (Counters.ClearCounter s') := by
  have hcleared : s'.CounterMap.foldl (fun s c => s.DelCounterOf c) s' = s' := by
    induction s'.CounterMap with
    | nil => rfl
    | cons c l ih => exact ih
  refine ⟨_, exec_modify _, ?_⟩
  unfold Counters.ClearCounter
  rw [hcleared]
  exact ⟨⟨hs.attr, hs.id, hs.tables, fun _ hc => (List.not_mem_nil hc).elim, rfl,
    fun _ _ hc => (List.not_mem_nil hc).elim, fun _ => rfl, hs.groups, hs.disabled⟩, rfl⟩

/-! ## Groups of counters -/

omit [DecidableEq κ] in
/-- The list of a group that is disabled is another one. -/
theorem Simulates.disable (hs : Simulates C info K s s') {d : AList fun _ : γ => List (κ × List Integer)}
    {d' : γ → Option (List (Option κ × List Integer))} (hd : ∀ g, d' g = (d.lookup g).map (List.map (named info))) :
    Simulates C info K { s with CounterDisableMap := d } { s' with CounterDisableMap := d' } :=
  ⟨hs.toSim.update _ _ hs.groups hd, hs.active⟩

omit [DecidableEq κ] in
theorem Simulates.erase (hs : Simulates C info K s s') (g : γ) :
    Simulates C info K { s with CounterDisableMap := s.CounterDisableMap.erase g }
      { s' with CounterDisableMap := Function.update s'.CounterDisableMap g none } := by
  refine hs.disable fun h => ?_
  by_cases hg : h = g
  · subst hg
    rw [Function.update_self, AList.lookup_erase]
    rfl
  · rw [Function.update_of_ne hg, AList.lookup_erase_ne hg]
    exact hs.disabled h

omit [DecidableEq κ] in
theorem Simulates.insert (hs : Simulates C info K s s') (g : γ) (list : List (κ × List Integer)) :
    Simulates C info K { s with CounterDisableMap := s.CounterDisableMap.insert g list }
      { s' with CounterDisableMap := Function.update s'.CounterDisableMap g (some (list.map (named info))) } := by
  refine hs.disable fun h => ?_
  by_cases hg : h = g
  · subst hg
    rw [Function.update_self, AList.lookup_insert]
    rfl
  · rw [Function.update_of_ne hg, AList.lookup_insert_ne hg]
    exact hs.disabled h

omit [DecidableEq κ] in
/-- The ids of a group are other ones. -/
theorem Simulates.group (hs : Simulates C info K s s') (g : γ) (ids : Option (List Nat)) :
    Simulates C info K { s with CounterGroupMap := Function.update s.CounterGroupMap g ids }
      { s' with CounterGroupMap := Function.update s'.CounterGroupMap g ids } :=
  ⟨hs.toSim.update _ _ (congrArg (fun m => Function.update m g ids) hs.groups) hs.disabled, hs.active⟩

omit [DecidableEq κ] in
theorem Simulates.isSome (hs : Simulates C info K s s') (g : γ) :
    (s'.CounterDisableMap g).isSome = (s.CounterDisableMap.lookup g).isSome := by rw [hs.disabled, Option.isSome_map]

/-- The counters of a list are deleted. -/
theorem sim_dels (hP : Plain C info F K) (hE : E.Agrees S) : ∀ (ids : List Nat) {s : Obj κ γ Integer Integer}
    {s' : Counters.Obj κ κ γ}, Simulates C info K s s' →
    ∃ t, exec (ids.forM fun id => C.DelCounter E (n + 1) info id) s = (.ok (), t) ∧
      Simulates C info K t (ids.foldl (fun s id => Counters.DelCounter F S id s) s')
  | [], s, _, hs => ⟨s, rfl, hs⟩
  | id :: ids, _, _, hs => by
    obtain ⟨t, hdel, ht⟩ := sim_DelCounter (n := n) hP hE hs id
    obtain ⟨u, hrest, hu⟩ := sim_dels hP hE ids ht
    exact ⟨u, (exec_bind_of hdel).trans hrest, hu⟩

/-- `DelCounterGroup`. -/
theorem sim_DelCounterGroup (hP : Plain C info F K) (hE : E.Agrees S) (hs : Simulates C info K s s') (name : γ)
    (notCleanDisable : Bool) :
    ∃ t, exec (C.DelCounterGroup E (n + 1) info name notCleanDisable) s = (.ok (), t) ∧
      Simulates C info K t (Counters.DelCounterGroup F S name notCleanDisable s') := by
  unfold Config.DelCounterGroup Counters.DelCounterGroup
  rw [exec_bind_of exec_get, hs.isSome]
  dsimp only
  split
  · exact ⟨_, exec_modify _, hs.erase name⟩
  · rw [congrFun hs.groups name]
    cases s'.CounterGroupMap name with
    | none => exact ⟨s, rfl, hs⟩
    | some ids =>
      obtain ⟨t, hdels, ht⟩ := sim_dels (n := n) hP hE ids hs
      exact ⟨_, (exec_bind_of hdels).trans (exec_modify _), ht.group name none⟩

/-- The counters of a list are added. -/
theorem sim_addCounters (hP : Plain C info F K) (hE : E.Agrees S) :
    ∀ (list : List (κ × List Integer)) {s : Obj κ γ Integer Integer} {s' : Counters.Obj κ κ γ},
    Simulates C info K s s' →
    ∃ t, exec (list.mapM fun v => C.AddCounter E (n + 1) info v.1 v.2) s =
        ((Counters.addCounters F S (list.map (named info)) s').1, t) ∧
      Simulates C info K t (Counters.addCounters F S (list.map (named info)) s').2
  | [], s, _, hs => ⟨s, rfl, hs⟩
  | e :: list, s, s', hs => by
    obtain ⟨t, hadd, ht⟩ := sim_AddCounter (n := n) hP hE hs e
    rw [List.map_cons, List.mapM_cons, exec_bind, hadd]
    unfold Counters.addCounters
    generalize Counters.AddCounter F S (named info e).1 (named info e).2 s' = r at ht
    obtain ⟨_ | id, t'⟩ := r
    · exact ⟨t, rfl, ht⟩
    · obtain ⟨u, hrest, hu⟩ := sim_addCounters hP hE list ht
      dsimp only
      rw [exec_bind, hrest]
      generalize Counters.addCounters F S (list.map (named info)) t' = r at hu
      obtain ⟨_ | ids, u'⟩ := r
      · exact ⟨u, rfl, hu⟩
      · exact ⟨u, rfl, hu⟩

/-- `AddCounterGroup`. -/
theorem sim_AddCounterGroup (hP : Plain C info F K) (hE : E.Agrees S) (hs : Simulates C info K s s') (name : γ)
    (list : List (κ × List Integer)) :
    ∃ t, exec (C.AddCounterGroup E (n + 1) info name list) s =
        ((Counters.AddCounterGroup F S name (list.map (named info)) s').1, t) ∧
      Simulates C info K t (Counters.AddCounterGroup F S name (list.map (named info)) s').2 := by
  unfold Config.AddCounterGroup Counters.AddCounterGroup
  rw [exec_bind_of exec_get, hs.isSome]
  split
  · exact ⟨_, exec_modify _, hs.insert name list⟩
  · obtain ⟨t, hdel, ht⟩ := sim_DelCounterGroup (n := n) hP hE hs name false
    obtain ⟨u, hadd, hu⟩ := sim_addCounters (n := n) hP hE list ht
    rw [exec_bind_of hdel, exec_bind, hadd]
    generalize Counters.addCounters F S (list.map (named info)) _ = r at hu
    obtain ⟨_ | ids, u'⟩ := r
    · exact ⟨u, rfl, hu⟩
    · exact ⟨_, exec_modify _, hu.group name (some ids)⟩

omit [DecidableEq κ] in
/-- The inner loop of `DisableCounterByGroups`, which changes the lists of groups that are disabled only. -/
theorem sim_notes (hs : Simulates C info K s s') (v : γ) (isOld : Bool) :
    ∀ (ids : List Nat) (list : List (κ × List Integer)) (d : AList fun _ : γ => List (κ × List Integer)),
    d.lookup v = (if isOld then some list else none) →
    ∃ (d' : AList fun _ : γ => List (κ × List Integer)) (notes : List (κ × List Integer)),
      exec (ids.foldlM (Config.noteCounter v isOld) list) { s with CounterDisableMap := d } =
        (if (Counters.disabledOf s' ids).2 then .error .indexNil else .ok (list ++ notes),
          { s with CounterDisableMap := d' }) ∧
      notes.map (named info) = (Counters.disabledOf s' ids).1 ∧
      d'.lookup v = (if isOld then some (list ++ notes) else none) ∧ ∀ g, g ≠ v → d'.lookup g = d.lookup g
  | [], list, d, hv => by
    refine ⟨d, [], ?_, rfl, ?_, fun _ _ => rfl⟩
    · rw [List.append_nil]
      rfl
    · rw [List.append_nil]
      exact hv
  | id :: ids, list, d, hv => by
    rw [List.foldlM_cons, exec_bind]
    unfold Counters.disabledOf
    rcases hs.find id with ⟨hmem, c, hfind, hc, rfl⟩ | ⟨hmem, hfind⟩
    · obtain ⟨i, hi⟩ := hc.entry
      let note : κ × List Integer := (c.Name, c.Var)
      have hnote : named info note = (some c.Name, c.Var) := by
        unfold named
        rw [hi]
        rfl
      let d₁ := if isOld then d.insert v (list ++ [note]) else d
      have hturn : exec (Config.noteCounter v isOld list c.Id) { s with CounterDisableMap := d } =
          (.ok (list ++ [note]), { s with CounterDisableMap := d₁ }) := by
        have hread : exec (Config.noteOf c.Id) { s with CounterDisableMap := d } =
            (.ok note, { s with CounterDisableMap := d }) := by
          have hknown : Known info { s with CounterDisableMap := d } s' c := ⟨hc.table, hc.entry⟩
          unfold Config.noteOf
          rw [exec_bind_of exec_get, if_pos hmem, exec_bind_of (exec_counter hknown)]
          rfl
        unfold Config.noteCounter
        rw [exec_bind_of hread]
        cases isOld <;> rfl
      have hv₁ : d₁.lookup v = if isOld then some (list ++ [note]) else none := by
        cases isOld with
        | false => exact hv
        | true => exact AList.lookup_insert d
      have hkeep : ∀ g, g ≠ v → d₁.lookup g = d.lookup g := by
        intro g hg
        cases isOld with
        | false => rfl
        | true => exact AList.lookup_insert_ne hg
      obtain ⟨d', notes, hrest, hnotes, hv', hkeep'⟩ := sim_notes hs v isOld ids (list ++ [note]) d₁ hv₁
      rw [List.append_assoc, List.singleton_append] at hrest hv'
      rw [hturn, hfind]
      refine ⟨d', note :: notes, hrest, ?_, hv', fun g hg => (hkeep' g hg).trans (hkeep g hg)⟩
      rw [List.map_cons, hnote, hnotes]
    · have hturn : exec (Config.noteCounter v isOld list id) { s with CounterDisableMap := d } =
          (.error .indexNil, { s with CounterDisableMap := d }) := by
        unfold Config.noteCounter Config.noteOf
        simp only [exec_bind, exec_get, if_neg hmem, exec_throw]
      rw [hturn, hfind]
      refine ⟨d, [], rfl, rfl, ?_, fun _ _ => rfl⟩
      rw [List.append_nil]
      exact hv

/-- `DisableCounterByGroups`. -/
theorem sim_DisableCounterByGroups (hP : Plain C info F K) (hE : E.Agrees S) :
    ∀ (names : List γ) {s : Obj κ γ Integer Integer} {s' : Counters.Obj κ κ γ}, Simulates C info K s s' →
    ∃ t, exec (C.DisableCounterByGroups E (n + 1) info names) s =
        ((Counters.DisableCounterByGroups F S names s').1, t) ∧
      Simulates C info K t (Counters.DisableCounterByGroups F S names s').2
  | [], s, _, hs => ⟨s, rfl, hs⟩
  | v :: names, s, s', hs => by
    let old := s.CounterDisableMap.lookup v
    have hold : old = if old.isSome then some (old.getD []) else none := by cases old <;> rfl
    obtain ⟨d, notes, hrun, hnotes, hv, hkeep⟩ :=
      sim_notes hs v old.isSome ((s'.CounterGroupMap v).getD []) (old.getD [])
      s.CounterDisableMap hold
    have hlist : (s'.CounterDisableMap v).getD [] ++ (Counters.disabledOf s' ((s'.CounterGroupMap v).getD [])).1 =
        (old.getD [] ++ notes).map (named info) := by
      rw [hs.disabled, List.map_append, hnotes]
      change (old.map (List.map (named info))).getD [] ++ _ = _
      cases old <;> rfl
    change ∃ t, exec (C.disableGroup E (n + 1) info v >>= fun _ => C.DisableCounterByGroups E
      (n + 1) info names) s = _ ∧ _
    unfold Config.disableGroup Counters.DisableCounterByGroups
    dsimp only
    rw [hlist, exec_bind, exec_bind_of exec_get, congrFun hs.groups v, exec_bind, hrun]
    cases (Counters.disabledOf s' ((s'.CounterGroupMap v).getD [])).2 with
    | true =>
      refine ⟨_, rfl, hs.disable fun g => ?_⟩
      by_cases hg : g = v
      · subst hg
        rw [Function.update_self, hv, hs.disabled]
        change Option.map _ (old.map _) = _
        cases old <;> rfl
      · rw [Function.update_of_ne hg, hkeep g hg]
        exact hs.disabled g
    | false =>
      have hset : Simulates C info K { s with CounterDisableMap := d.insert v (old.getD [] ++ notes) }
          { s' with CounterDisableMap :=
            Function.update s'.CounterDisableMap v (some ((old.getD [] ++ notes).map (named info))) } := by
        refine hs.disable fun g => ?_
        by_cases hg : g = v
        · subst hg
          rw [Function.update_self, AList.lookup_insert]
          rfl
        · rw [Function.update_of_ne hg, AList.lookup_insert_ne hg, hkeep g hg]
          exact hs.disabled g
      obtain ⟨t, hdel, ht⟩ := sim_DelCounterGroup (n := n) hP hE hset v true
      rw [if_neg Bool.false_ne_true]
      dsimp only
      rw [exec_bind_of (exec_modify _), hdel]
      exact sim_DisableCounterByGroups hP hE names ht

/-- `EnableCounterByGroups`. -/
theorem sim_EnableCounterByGroups (hP : Plain C info F K) (hE : E.Agrees S) :
    ∀ (names : List γ) {s : Obj κ γ Integer Integer} {s' : Counters.Obj κ κ γ}, Simulates C info K s s' →
    ∃ t, exec (C.EnableCounterByGroups E (n + 1) info names) s = ((Counters.EnableCounterByGroups F S names s').1, t) ∧
      Simulates C info K t (Counters.EnableCounterByGroups F S names s').2
  | [], s, _, hs => ⟨s, rfl, hs⟩
  | g :: names, s, s', hs => by
    change ∃ t, exec (C.enableGroup E (n + 1) info g >>= fun _ => C.EnableCounterByGroups E (n + 1) info names) s = _ ∧
      _
    unfold Config.enableGroup Counters.EnableCounterByGroups
    rw [exec_bind, exec_bind_of exec_get, hs.disabled]
    cases s.CounterDisableMap.lookup g with
    | none => exact sim_EnableCounterByGroups hP hE names hs
    | some list =>
      obtain ⟨t, hadd, ht⟩ := sim_AddCounterGroup (n := n) hP hE (hs.erase g) g list
      rw [Option.map_some]
      dsimp only
      rw [exec_bind_of (exec_modify _), hadd]
      generalize Counters.AddCounterGroup F S g (list.map (named info)) _ = r at ht
      obtain ⟨_ | _, t'⟩ := r
      · exact ⟨t, rfl, ht⟩
      · exact sim_EnableCounterByGroups hP hE names ht

/-! ## Other attributes -/

/-- What keeps some attributes, and the counters. -/
def Attributes (C : Config κ Integer Integer) (K : κ → Prop) (attr : κ → Integer) (s t : Obj κ γ Integer Integer) :
    Prop :=
  (∀ A, K A → C.Holds s A (attr A)) → (∀ A, K A → C.Holds t A (attr A)) ∧ Beside s t

section

variable {attr : κ → Integer}

omit [DecidableEq κ] [DecidableEq γ] in
theorem order_attributes : Order (Attributes C K attr : Obj κ γ Integer Integer → Obj κ γ Integer Integer → Prop) :=
  order_keeps order_beside

omit [DecidableEq γ] in
theorem beside_set (k : κ) (v : Value Integer) (noclean : Bool) :
    Frames Beside (C.Set k v noclean : Method κ γ Integer Integer Unit) := by
  intro s
  unfold Config.Set
  cases C.store k with
  | none => exact order_beside.refl s
  | some st =>
    cases st with
    | temp =>
      obtain ⟨t, ht, hbeside, -⟩ := drop_temp (C.Relation k) ((s.writeTemp k v).OnEvent (.AttrChange k))
      change Beside s (C.SetTemp k v noclean s)
      unfold Config.SetTemp
      rw [ht]
      exact ⟨hbeside.id, hbeside.counters, hbeside.map, hbeside.sub, hbeside.groups, hbeside.disabled, hbeside.active⟩
    | save =>
      obtain ⟨t, ht, hbeside, -⟩ := drop_save (C.Relation k) (((s.writeSave k v).flag k).OnEvent (.AttrChange k))
      change Beside s (C.SetSave k v noclean s)
      unfold Config.SetSave
      dsimp only
      rw [ht]
      cases noclean
      · exact ⟨hbeside.id, hbeside.counters, hbeside.map, hbeside.sub, hbeside.groups, hbeside.disabled, hbeside.active⟩
      · exact ⟨rfl, rfl, rfl, rfl, rfl, rfl, rfl⟩

omit [DecidableEq γ] in
/-- An attribute is set that is none of them. -/
theorem attributes_set (hP : Plain C info F K) {k : κ} (hk : ¬K k) (v : Value Integer) (noclean : Bool) :
    Frames (Attributes C K attr) (C.Set k v noclean : Method κ γ Integer Integer Unit) := by
  refine fun s hs => ⟨fun A hA => ?_, beside_set k v noclean s⟩
  obtain ⟨st, hst, hv⟩ := hs A hA
  rcases Set_spec (hP.untouched A hA) k v noclean s with ⟨-, hset⟩ | ⟨t, hset, -, hkept⟩
  · rw [hset]
    exact hs A hA
  · rw [hset]
    refine ⟨st, hst, ?_⟩
    rw [hkept st hst, if_neg fun h : k = A => hk (h ▸ hA)]
    exact hv

omit [DecidableEq γ] in
theorem attributes_run (hP : Plain C info F K) {G : κ → Method κ γ Integer Integer (Value Integer)}
    (hG : ∀ k, Frames (Attributes C K attr) (G k)) :
    ∀ c : Code κ Integer, (∀ A, K A → c.Spares A) → Frames (Attributes C K attr) (C.run G c)
  | .ret v, _ => Frames.pure order_attributes v
  | .raise, _ => Frames.throw order_attributes _
  | .get k next, h => Frames.bind order_attributes (hG k) fun v => attributes_run hP hG (next v) fun A hA => h A hA v
  | .set k v noclean next, h => by
    have hk : ¬K k := fun hk => (h k hk).1 rfl
    exact Frames.bind order_attributes (attributes_set hP hk v noclean) fun _ =>
      attributes_run hP hG next fun A hA => (h A hA).2

omit [DecidableEq γ] in
/-- `Get` of an attribute; one of them has a value. -/
theorem attributes_get (hP : Plain C info F K) :
    ∀ n k, Frames (Attributes C K attr) (C.Get n k : Method κ γ Integer Integer (Value Integer))
  | 0, _ => Frames.throw order_attributes _
  | n + 1, k => by
    by_cases hk : K k
    · intro s hs
      rw [Get_holds (hs k hk)]
      exact ⟨hs, order_beside.refl s⟩
    · refine frames_get order_attributes (fun g hg => ?_) fun v => attributes_set hP hk v false
      exact attributes_run hP (attributes_get hP n) (g none) fun A hA => (hP.untouched A hA).formulas k g hg none

end

omit [DecidableEq κ] in
theorem Simulates.attributes (hs : Simulates C info K s s') (h : Attributes C K s'.attr s t) :
    Simulates C info K t s' := by
  obtain ⟨hattr, hbeside⟩ := h hs.attr
  have hsteps := hs.toSim.beside hbeside hattr
  exact ⟨hsteps.sim, hsteps.active.trans hs.active⟩

/-! ## Runs -/

/-- A call that is none for `XCore.Counters`, or one. -/
inductive Does (E : Machine γ Integer) (info : κ → Option (Info κ Integer Integer)) (K : κ → Prop)
    (s : Obj κ γ Integer Integer) : Call κ γ Integer Integer → List (Counters.Action κ κ γ) → Prop
  | Get (k : κ) : Does E info K s (.Get k) []
  | ClearSave : Does E info K s .ClearSave []
  | other {k : κ} (v : Value Integer) (noclean : Bool) : ¬K k → Does E info K s (.Set k v noclean) []
  | Set {k : κ} (w : Integer) (noclean : Bool) : K k → Does E info K s (.Set k (.val w) noclean) [.SetAttr k w]
  | AddCounter (e : κ × List Integer) :
      Does E info K s (.AddCounter e.1 e.2) [.AddCounter (named info e).1 (named info e).2]
  | DelCounter (id : Nat) : Does E info K s (.DelCounter id) [.DelCounter id]
  | ClearCounter : Does E info K s .ClearCounter [.ClearCounter]
  | AddCounterGroup (name : γ) (list : List (κ × List Integer)) :
      Does E info K s (.AddCounterGroup name list) [.AddCounterGroup name (list.map (named info))]
  | DelCounterGroup (name : γ) : Does E info K s (.DelCounterGroup name) [.DelCounterGroup name]
  | DisableCounterByGroups (names : List γ) :
      Does E info K s (.DisableCounterByGroups names) [.DisableCounterByGroups names]
  | EnableCounterByGroups (names : List γ) :
      Does E info K s (.EnableCounterByGroups names) [.EnableCounterByGroups names]
  | EnableAllDisableCounter :
      Does E info K s .EnableAllDisableCounter [.EnableCounterByGroups (E.pairs s.CounterDisableMap.keys)]

/-- The calls of a run, and what they are for `XCore.Counters`. -/
inductive Follows (C : Config κ Integer Integer) (E : Machine γ Integer) (n : Nat)
    (info : κ → Option (Info κ Integer Integer)) (K : κ → Prop) :
    Obj κ γ Integer Integer → List (Call κ γ Integer Integer) → List (Counters.Action κ κ γ) → Prop
  | nil (s : Obj κ γ Integer Integer) : Follows C E n info K s [] []
  | cons {s : Obj κ γ Integer Integer} {c : Call κ γ Integer Integer} {as : List (Counters.Action κ κ γ)}
      {cs : List (Call κ γ Integer Integer)} {bs : List (Counters.Action κ κ γ)} : Does E info K s c as →
      Follows C E n info K (next C E n s c) cs bs → Follows C E n info K s (c :: cs) (as ++ bs)

/-- One call. -/
theorem simulates_next (hP : Plain C info F K) (hE : E.Agrees S) (hs : Simulates C info K s s')
    {c : Call κ γ Integer Integer} {as : List (Counters.Action κ κ γ)} (h : Does E info K s c as) :
    Simulates C info K (next C E (n + 1) s c) (as.foldl (Counters.next F S) s') := by
  have hwith : ∀ m : (κ → Option (Info κ Integer Integer)) → Method κ γ Integer Integer Unit,
      C.withCounters m = m info := by
    intro m
    unfold Config.withCounters
    rw [hP.counter]
  have hmethod : ∀ {m : (κ → Option (Info κ Integer Integer)) → Method κ γ Integer Integer Unit}
      {r : Except LuaError Unit} {t' : Counters.Obj κ κ γ}, (∃ t, exec (m info) s = (r, t) ∧ Simulates C info K t t') →
      Simulates C info K (exec (C.withCounters m) s).2 t' := by
    rintro m r t' ⟨t, hm, ht⟩
    rw [hwith, hm]
    exact ht
  cases h with
  | Get k =>
    change Simulates C info K (exec (discard (C.Get (n + 1) k)) s).2 s'
    rw [exec_discard]
    exact hs.attributes (attributes_get hP (n + 1) k s)
  | ClearSave => exact hs.attributes fun hattr => ⟨hattr, rfl, rfl, rfl, rfl, rfl, rfl, rfl⟩
  | other v noclean hk => exact hs.attributes (attributes_set hP hk v noclean s)
  | Set w noclean hk =>
    obtain ⟨t, hset, hsteps⟩ := sim_Set hP hs.toSim hk w noclean
    change Simulates C info K (exec (C.Set _ (.val w) noclean) s).2 _
    rw [hset]
    refine ⟨hsteps.sim, ?_⟩
    exact hsteps.active.trans (hs.active.trans (congrArg (List.map Counters.Counter.Id) hsteps.active').symm)
  | AddCounter e =>
    obtain ⟨t, hadd, ht⟩ := sim_AddCounter (n := n) hP hE hs e
    change Simulates C info K (exec (C.withCounters fun info => discard (C.AddCounter E (n + 1) info e.1 e.2)) s).2 _
    rw [hwith, exec_discard, hadd]
    exact ht
  | DelCounter id => exact hmethod (sim_DelCounter hP hE hs id)
  | ClearCounter => exact hmethod (sim_ClearCounter hs)
  | AddCounterGroup name list => exact hmethod (sim_AddCounterGroup hP hE hs name list)
  | DelCounterGroup name => exact hmethod (sim_DelCounterGroup hP hE hs name false)
  | DisableCounterByGroups names => exact hmethod (sim_DisableCounterByGroups hP hE names hs)
  | EnableCounterByGroups names => exact hmethod (sim_EnableCounterByGroups hP hE names hs)
  | EnableAllDisableCounter => exact hmethod (sim_EnableCounterByGroups hP hE (E.pairs s.CounterDisableMap.keys) hs)

/-- **An object does what one of `XCore.Counters` does**, in every run of calls that `XCore.Counters` has, of `Get`, of
`ClearSave`, and of `Set` of other attributes. -/
theorem objects_simulate (hP : Plain C info F K) (hE : E.Agrees S) {cs : List (Call κ γ Integer Integer)}
    {as : List (Counters.Action κ κ γ)} (h : Follows C E (n + 1) info K s cs as) (hs : Simulates C info K s s') :
    Simulates C info K (cs.foldl (next C E (n + 1)) s) (as.foldl (Counters.next F S) s') := by
  induction h generalizing s' with
  | nil s => exact hs
  | cons hc _ ih =>
    rw [List.foldl_cons, List.foldl_append]
    exact ih (simulates_next hP hE hs hc)

omit [DecidableEq κ] in
/-- An object to which no counter has been added. -/
theorem simulates_init (h : Beside .new s) {attr : κ → Integer} (hattr : ∀ A, K A → C.Holds s A (attr A)) :
    Simulates C info K s (.init attr : Counters.Obj κ κ γ) := by
  refine ⟨⟨hattr, h.id, fun id c hc => ?_, fun _ hc => (List.not_mem_nil hc).elim, h.map,
    fun _ _ hc => (List.not_mem_nil hc).elim, fun B => congrFun h.sub B, h.groups, fun g => ?_⟩, h.active⟩
  · rw [h.counters] at hc
    cases hc
  · rw [h.disabled]
    rfl

/-- The counters of `boosts`. -/
def boostsOf : Nat → Counters.Info Nat
  | 1 => ⟨fun attr args => attr 0 + args.headD 0, 1, 0⟩
  | 2 => ⟨fun attr args => attr 0 * args.headD 0, 1, 0⟩
  | _ => ⟨fun _ _ => 7, 3, 5⟩

/-- Both attributes of `boost` are changed by counters, and `Set` of the second drops a third. -/
example : Plain boost boosts boostsOf fun A => A = 0 ∨ A = 5 := by
  have hcases : ∀ k i, boosts k = some i → (i.Attr = 0 ∨ i.Attr = 5) ∧ (boostsOf k).Attr = i.Attr ∧
      (boostsOf k).Pri = i.Pri ∧
      ∀ attr args, (i.Formula (some args)).Computes (fun A => A = 0 ∨ A = 5) attr ((boostsOf k).Formula attr args) := by
    intro k i hi
    unfold boosts at hi
    split at hi
    · cases hi
      exact ⟨.inl rfl, rfl, rfl, fun _ _ => .get (.inl rfl) (.ret _)⟩
    · cases hi
      exact ⟨.inl rfl, rfl, rfl, fun _ _ => .get (.inl rfl) (.ret _)⟩
    · cases hi
      exact ⟨.inr rfl, rfl, rfl, fun _ _ => .ret _⟩
    · cases hi
  exact ⟨rfl, fun A hA => boost_untouched hA, fun k i hi => (hcases k i hi).1, fun k i hi => (hcases k i hi).2.1,
    fun k i hi => (hcases k i hi).2.2.1, fun k i hi => (hcases k i hi).2.2.2⟩

end XCore.Objects
