import XCore.Class.Object
import XCore.Lib.Run

/-!
# Groups of counters

A group of counters is enabled, as a list of ids in `__CounterGroupMap`, or disabled, as a list of names and arguments
in `__CounterDisableMap`. In runs without `ClearCounter` in which the methods of groups return, a group that has been
added is in exactly one of the maps, and stands for the list that was added last, until it is deleted
(`groups_survive`). A call that raises may lose a group: `EnableCounterByGroups` takes the list out of its map before it
adds the counters (`group_lost`).

`Stands` is the invariant of one group; `Grows` is what attributes and counters change, `Changed` what the methods of a
group change of others.
-/

namespace XCore.Objects

open XCore.Lua XCore.Raise XCore.Run
open XCore.CObject (Value Store)

variable {κ γ β α : Type} [DecidableEq κ] [DecidableEq γ] {C : Config κ β α} {E : Machine γ α} {n : Nat}

/-- The lists of groups that have been added and not deleted since. -/
abbrev Lists (κ γ β : Type) := γ → Option (List (κ × List β))

/-- What a call does to the lists. -/
def define (C : Config κ β α) (d : Lists κ γ β) : Call κ γ β α → Lists κ γ β
  | .AddCounterGroup name list => if C.Counter.isSome then Function.update d name (some list) else d
  | .DelCounterGroup name => if C.Counter.isSome then Function.update d name none else d
  | _ => d

namespace Obj

variable (s : Obj κ γ β α)

/-- A counter as it is found in `__CounterMap`. -/
def read (id : Nat) : Option (κ × List β) :=
  if id ∈ s.CounterMap then (s.counters id).map fun c => (c.Name, c.Var) else none

/-- What a group stands for. -/
def readGroup (g : γ) : Option (List (κ × List β)) :=
  match s.CounterDisableMap.lookup g with
  | some list => some list
  | none => (s.CounterGroupMap g).bind fun ids => ids.mapM s.read

end Obj

/-- No group is in both maps; one that has been added is in one of them, and stands for its list. -/
def Survives (s : Obj κ γ β α) (d : Lists κ γ β) : Prop := ∀ g,
  ¬((s.CounterGroupMap g).isSome ∧ (s.CounterDisableMap.lookup g).isSome) ∧
    ∀ list, d g = some list → ((s.CounterGroupMap g).isSome ∨ (s.CounterDisableMap.lookup g).isSome) ∧
    s.readGroup g = some list

/-- The methods of groups. -/
def Call.onGroups : Call κ γ β α → Bool
  | .AddCounterGroup .. | .DelCounterGroup .. | .DisableCounterByGroups .. | .EnableCounterByGroups ..
  | .EnableAllDisableCounter => true
  | _ => false

/-- A call of a method of groups returns; counters are not cleared. -/
def Settles (C : Config κ β α) (E : Machine γ α) (n : Nat) (s : Obj κ γ β α) (c : Call κ γ β α) : Prop :=
  c ≠ .ClearCounter ∧ (c.onGroups = true → Returns C E n s c)

/-- A call, and the lists. -/
def nextLists (C : Config κ β α) (E : Machine γ α) (n : Nat) (w : Obj κ γ β α × Lists κ γ β) (c : Call κ γ β α) :
    Obj κ γ β α × Lists κ γ β := (next C E n w.1 c, define C w.2 c)

/-! ## Attributes and counters -/

/-- The tables of counters that `AddCounter` has made keep their names and arguments, and stay in `__CounterMap`. -/
structure Counts (s s' : Obj κ γ β α) : Prop where
  id : s.CounterID ≤ s'.CounterID
  map : ∀ id ∈ s.CounterMap, id ∈ s'.CounterMap
  counters : ∀ id ≤ s.CounterID, (s'.counters id).map (fun c => (c.Name, c.Var)) = (s.counters id).map fun c =>
    (c.Name, c.Var)

/-- The methods of attributes and counters do nothing to groups. -/
structure Grows (s s' : Obj κ γ β α) : Prop extends Counts s s' where
  groups : s'.CounterGroupMap = s.CounterGroupMap
  disabled : s'.CounterDisableMap = s.CounterDisableMap

omit [DecidableEq κ] [DecidableEq γ] in
theorem order_counts : Order (Counts : Obj κ γ β α → Obj κ γ β α → Prop) where
  refl _ := ⟨le_rfl, fun _ h => h, fun _ _ => rfl⟩
  trans h h' := ⟨h.id.trans h'.id, fun id hid => h'.map id (h.map id hid),
    fun id hid => (h'.counters id (hid.trans h.id)).trans (h.counters id hid)⟩

omit [DecidableEq κ] [DecidableEq γ] in
theorem order_grows : Order (Grows : Obj κ γ β α → Obj κ γ β α → Prop) where
  refl s := ⟨order_counts.refl s, rfl, rfl⟩
  trans h h' := ⟨order_counts.trans h.toCounts h'.toCounts, h'.groups.trans h.groups, h'.disabled.trans h.disabled⟩

omit [DecidableEq κ] [DecidableEq γ] in
/-- A change of other fields. -/
theorem grows_of_eq {s s' : Obj κ γ β α} (hid : s'.CounterID = s.CounterID) (hmap : s'.CounterMap = s.CounterMap)
    (hcounters : s'.counters = s.counters) (hgroups : s'.CounterGroupMap = s.CounterGroupMap)
    (hdisabled : s'.CounterDisableMap = s.CounterDisableMap) : Grows s s' :=
  ⟨⟨hid.ge, fun id h => hmap ▸ h, fun id _ => by rw [hcounters]⟩, hgroups, hdisabled⟩

omit [DecidableEq κ] [DecidableEq γ] in
theorem grows_foldl {δ : Type} {f : Obj κ γ β α → δ → Obj κ γ β α} (hf : ∀ s d, Grows s (f s d)) :
    ∀ (l : List δ) (s : Obj κ γ β α), Grows s (l.foldl f s)
  | [], s => order_grows.refl s
  | d :: l, s => order_grows.trans (hf s d) (grows_foldl hf l _)

omit [DecidableEq γ] in
theorem framed_grows : Framed C (Grows : Obj κ γ β α → Obj κ γ β α → Prop) where
  order := order_grows
  temp k v noclean s := by
    have hwrite : ∀ (t : Obj κ γ β α) d v, Grows t ((t.writeTemp d v).OnEvent (.AttrChange d)) :=
      fun _ _ _ => grows_of_eq rfl rfl rfl rfl rfl
    exact order_grows.trans (hwrite s k v) (grows_foldl (fun t d => hwrite t d .nil) (C.Relation k) _)
  save k v noclean s := by
    have hset : Grows s (((s.writeSave k v).flag k).OnEvent (.AttrChange k)) := grows_of_eq rfl rfl rfl rfl rfl
    have hwrite : ∀ (t : Obj κ γ β α) d, Grows t ((t.writeSave d .nil).OnEvent (.AttrChange d)) :=
      fun _ _ => grows_of_eq rfl rfl rfl rfl rfl
    unfold Config.SetSave
    dsimp only
    split
    · exact hset
    · exact order_grows.trans hset (grows_foldl hwrite (C.Relation k) _)
  event _ _ := grows_of_eq rfl rfl rfl rfl rfl
  alloc c s := by
    refine ⟨⟨Nat.le_succ _, fun _ h => h, fun id hid => ?_⟩, rfl, rfl⟩
    have hne : id ≠ s.CounterID + 1 := by omega
    simp [Obj.alloc, hne]
  setChange id v s := by
    refine ⟨⟨le_rfl, fun _ h => h, fun id' _ => ?_⟩, rfl, rfl⟩
    unfold Obj.setChange
    by_cases h : id' = id
    · subst h
      simp [Function.comp_def]
    · simp [h]
  put Name id s := ⟨⟨le_rfl, fun _ h => mem_enter.2 (.inl h), fun _ _ => rfl⟩, rfl, rfl⟩
  setActive _ _ := grows_of_eq rfl rfl rfl rfl rfl

omit [DecidableEq κ] [DecidableEq γ] in
/-- What is found of a counter stays. -/
theorem Counts.read {s s' : Obj κ γ β α} (h : Counts s s') {id : Nat} (hid : id ≤ s.CounterID) {e : κ × List β}
    (he : s.read id = some e) : s'.read id = some e := by
  unfold Obj.read at he ⊢
  split at he
  · rename_i hmem
    rw [if_pos (h.map id hmem), h.counters id hid]
    exact he
  · cases he

omit [DecidableEq κ] [DecidableEq γ] in
theorem Counts.mapM_read {s s' : Obj κ γ β α} (h : Counts s s') : ∀ {ids : List Nat} {l : List (κ × List β)},
    (∀ id ∈ ids, id ≤ s.CounterID) → ids.mapM s.read = some l → ids.mapM s'.read = some l
  | [], _, _, hl => hl
  | id :: ids, l, hids, hl => by
    rw [List.mapM_cons] at hl ⊢
    obtain ⟨e, he, hl⟩ := Option.bind_eq_some_iff.1 hl
    obtain ⟨es, hes, hl⟩ := Option.bind_eq_some_iff.1 hl
    rw [h.read (hids id List.mem_cons_self) he]
    have hrest := h.mapM_read (fun i hi => hids i (List.mem_cons_of_mem id hi)) hes
    rw [hrest]
    exact hl

/-! ## Counters that are added -/

omit [DecidableEq κ] [DecidableEq γ] in
/-- The state that a part of a method leaves. -/
theorem grows_of_exec {ρ : Type} {m : Method κ γ β α ρ} (hm : Frames Grows m) {s s' : Obj κ γ β α}
    {r : Except LuaError ρ} (h : exec m s = (r, s')) : Grows s s' := by
  have hs := hm s
  rw [h] at hs
  exact hs

omit [DecidableEq γ] in
theorem runCounter_ok (C : Config κ β α) {Name : κ} : ∀ {ids : List Nat} {v v' : Value α} {s s' : Obj κ γ β α},
    exec (ids.foldlM (Config.runCounter E Name) v) s = (.ok v', s') → ∀ id ∈ ids, id ∈ s'.CounterMap
  | [], _, _, _, _, _, _, hid => absurd hid List.not_mem_nil
  | id :: ids, v, v', s, s', h, i, hi => by
    rw [List.foldlM_cons] at h
    obtain ⟨v₁, t, hturn, hrest⟩ := exec_bind_ok h
    rcases List.mem_cons.1 hi with rfl | hi
    · obtain ⟨c, t₁, -, hturn⟩ := exec_bind_ok hturn
      obtain ⟨v₂, t₂, -, hturn⟩ := exec_bind_ok hturn
      obtain ⟨_, t₃, hput, hturn⟩ := exec_bind_ok hturn
      rw [exec_modify] at hput
      rw [exec_pure] at hturn
      cases hput
      cases hturn
      have hturns : ∀ id ∈ ids, ∀ v, Frames Grows (Config.runCounter (κ := κ) (γ := γ) (β := β) E Name v id) :=
        fun id _ v => frames_runCounter E order_grows ((framed_grows (C := C)).put Name id) v
      have hgrows := grows_of_exec (Frames.foldlM order_grows ids hturns v₁) hrest
      exact hgrows.map _ (mem_enter.2 (.inr rfl))
    · exact runCounter_ok C hrest i hi

omit [DecidableEq γ] in
/-- `RunCounters` puts its counters into `__CounterMap`. -/
theorem RunCounters_ok {Name : κ} {ids : List Nat} {b : Bool} {s s' : Obj κ γ β α}
    (h : exec (C.RunCounters E n Name ids b) s = (.ok (), s')) : ∀ id ∈ ids, id ∈ s'.CounterMap := by
  obtain ⟨v, t, -, h⟩ := exec_bind_ok h
  obtain ⟨v', u, hloop, hset⟩ := exec_bind_ok h
  intro id hid
  exact (grows_of_exec (framed_grows.set Name v' b) hset).map id (runCounter_ok C hloop id hid)

omit [DecidableEq γ] in
theorem flushLoop_ok {Name : κ} : ∀ {ids : List Nat} {p : ℚ} {v : Value α} {l : List Nat} {s s' : Obj κ γ β α},
    exec (C.flushLoop E n Name ids p v l) s = (.ok (), s') → ∀ id ∈ l ++ ids, id ∈ s'.CounterMap
  | [], _, _, l, _, _, h, id, hid => RunCounters_ok h id (by simpa using hid)
  | i :: ids, p, v, l, s, s', h, id, hid => by
    unfold Config.flushLoop at h
    obtain ⟨c, t, -, h⟩ := exec_bind_ok h
    split at h
    · obtain ⟨_, t₁, hrun, h⟩ := exec_bind_ok h
      obtain ⟨v₁, t₂, hget, h⟩ := exec_bind_ok h
      obtain ⟨_, t₃, hchange, h⟩ := exec_bind_ok h
      rcases List.mem_append.1 hid with hid | hid
      · have hgrows := order_grows.trans (grows_of_exec (framed_grows.get n Name) hget)
          (order_grows.trans (grows_of_exec ((framed_grows.flushed Name).change i c v₁) hchange)
            (grows_of_exec ((framed_grows.flushed Name).flushLoop _ _ fun _ _ => trivial) h))
        exact hgrows.map id (RunCounters_ok hrun id hid)
      · exact flushLoop_ok h id hid
    · obtain ⟨_, t₃, hchange, h⟩ := exec_bind_ok h
      exact flushLoop_ok h id (by simpa using hid)

omit [DecidableEq γ] in
/-- `AddCounter` returns the id of a counter that is found under it. -/
theorem AddCounter_ok {info : κ → Option (Info κ β α)} {name : κ} {args : List β} {id : Nat} {s s' : Obj κ γ β α}
    (h : exec (C.AddCounter E n info name args) s = (.ok id, s')) :
    id ≤ s'.CounterID ∧ s'.read id = some (name, args) := by
  unfold Config.AddCounter at h
  split at h
  · cases h
  · rename_i i hi
    obtain ⟨t, _, ht, h⟩ := exec_bind_ok h
    cases ht
    obtain ⟨_, t, halloc, h⟩ := exec_bind_ok h
    rw [exec_modify] at halloc
    cases halloc
    obtain ⟨_, u, hflush, h⟩ := exec_bind_ok h
    obtain ⟨_, u', hactive, h⟩ := exec_bind_ok h
    rw [exec_modify] at hactive
    cases hactive
    rw [exec_pure] at h
    cases h
    have hgrows := grows_of_exec (framed_grows.flushCounter i.Attr i.Pri [s.CounterID + 1]) hflush
    have hmem : s.CounterID + 1 ∈ u.CounterMap := by
      obtain ⟨t₁, _, ht₁, h⟩ := exec_bind_ok hflush
      cases ht₁
      obtain ⟨_, t₂, -, h⟩ := exec_bind_ok h
      obtain ⟨v, t₃, -, h⟩ := exec_bind_ok h
      obtain ⟨_, t₄, hloop, h⟩ := exec_bind_ok h
      rw [exec_modify] at h
      cases h
      refine flushLoop_ok hloop _ ?_
      rw [List.nil_append, (E.perm _ _).mem_iff]
      exact List.mem_append_left _ List.mem_cons_self
    refine ⟨hgrows.id, ?_⟩
    change u.read (s.CounterID + 1) = _
    unfold Obj.read
    rw [if_pos hmem, hgrows.counters (s.CounterID + 1) le_rfl]
    simp [Obj.alloc]

omit [DecidableEq γ] in
/-- The counters of a list are found under the ids that are returned. -/
theorem AddCounters_ok {info : κ → Option (Info κ β α)} :
    ∀ {l : List (κ × List β)} {ids : List Nat} {s s' : Obj κ γ β α},
    exec (l.mapM fun v => C.AddCounter E n info v.1 v.2) s = (.ok ids, s') →
      (∀ id ∈ ids, id ≤ s'.CounterID) ∧ ids.mapM s'.read = some l
  | [], _, _, _, h => by
    rw [List.mapM_nil, exec_pure] at h
    cases h
    exact ⟨fun id hid => absurd hid List.not_mem_nil, rfl⟩
  | v :: l, _, s, s', h => by
    rw [List.mapM_cons] at h
    obtain ⟨id, t, hadd, h⟩ := exec_bind_ok h
    obtain ⟨ids, u, hrest, h⟩ := exec_bind_ok h
    rw [exec_pure] at h
    cases h
    obtain ⟨hle, hread⟩ := AddCounter_ok hadd
    obtain ⟨hids, hreads⟩ := AddCounters_ok hrest
    have hgrows := grows_of_exec (Frames.mapM order_grows l fun v _ => framed_grows.addCounter v.1 v.2) hrest
    constructor
    · intro i hi
      rcases List.mem_cons.1 hi with rfl | hi
      · exact hle.trans hgrows.id
      · exact hids i hi
    · rw [List.mapM_cons, hgrows.read hle hread, hreads]
      rfl

/-! ## One group -/

/-- A group is in one of the maps, and stands for a list. -/
inductive At (s : Obj κ γ β α) (g : γ) (list : List (κ × List β)) : Prop
  | disabled : s.CounterDisableMap.lookup g = some list → s.CounterGroupMap g = none → At s g list
  | enabled (ids : List Nat) : s.CounterDisableMap.lookup g = none → s.CounterGroupMap g = some ids →
    (∀ id ∈ ids, id ≤ s.CounterID) → ids.mapM s.read = some list → At s g list

/-- A group is in one of the maps, and stands for its list if it has been added; or it is in none, and has not. -/
def Stands (s : Obj κ γ β α) (g : γ) (o : Option (List (κ × List β))) : Prop :=
  (∃ list, At s g list ∧ ∀ l, o = some l → l = list) ∨
    (s.CounterDisableMap.lookup g = none ∧ s.CounterGroupMap g = none ∧ o = none)

/-- A method does nothing to groups but one. -/
structure Changed (g : γ) (s s' : Obj κ γ β α) : Prop extends Counts s s' where
  groups : ∀ h, h ≠ g → s'.CounterGroupMap h = s.CounterGroupMap h
  disabled : ∀ h, h ≠ g → s'.CounterDisableMap.lookup h = s.CounterDisableMap.lookup h

omit [DecidableEq κ] in
theorem At.kept {s s' : Obj κ γ β α} {g : γ} {list : List (κ × List β)} (h : At s g list) (hc : Counts s s')
    (hg : s'.CounterGroupMap g = s.CounterGroupMap g)
    (hd : s'.CounterDisableMap.lookup g = s.CounterDisableMap.lookup g) :
    At s' g list := by
  cases h with
  | disabled hlook hnone => exact .disabled (hd.trans hlook) (hg.trans hnone)
  | enabled ids hlook hids hle hread =>
    exact .enabled ids (hd.trans hlook) (hg.trans hids) (fun id hid => (hle id hid).trans hc.id)
      (hc.mapM_read hle hread)

omit [DecidableEq κ] in
theorem Stands.kept {s s' : Obj κ γ β α} {g : γ} {o : Option (List (κ × List β))} (h : Stands s g o) (hc : Counts s s')
    (hg : s'.CounterGroupMap g = s.CounterGroupMap g)
    (hd : s'.CounterDisableMap.lookup g = s.CounterDisableMap.lookup g) :
    Stands s' g o := by
  rcases h with ⟨list, hat, hl⟩ | ⟨hlook, hnone, ho⟩
  · exact Or.inl ⟨list, hat.kept hc hg hd, hl⟩
  · exact Or.inr ⟨hd.trans hlook, hg.trans hnone, ho⟩

omit [DecidableEq κ] in
/-- A group is not in both maps. -/
theorem Stands.apart {s : Obj κ γ β α} {g : γ} {o : Option (List (κ × List β))} (h : Stands s g o) :
    s.CounterDisableMap.lookup g = none ∨ s.CounterGroupMap g = none := by
  rcases h with ⟨list, hat, -⟩ | ⟨hlook, -, -⟩
  · cases hat with
    | disabled _ hnone => exact Or.inr hnone
    | enabled _ hlook => exact Or.inl hlook
  · exact Or.inl hlook

omit [DecidableEq κ] in
theorem At.readGroup {s : Obj κ γ β α} {g : γ} {list : List (κ × List β)} (h : At s g list) :
    s.readGroup g = some list := by
  unfold Obj.readGroup
  cases h with
  | disabled hlook _ => rw [hlook]
  | enabled ids hlook hids _ hread =>
    rw [hlook, hids]
    exact hread

omit [DecidableEq κ] in
theorem order_changed (g : γ) : Order (Changed g : Obj κ γ β α → Obj κ γ β α → Prop) where
  refl s := ⟨order_counts.refl s, fun _ _ => rfl, fun _ _ => rfl⟩
  trans h h' := ⟨order_counts.trans h.toCounts h'.toCounts, fun k hk => (h'.groups k hk).trans (h.groups k hk),
    fun k hk => (h'.disabled k hk).trans (h.disabled k hk)⟩

omit [DecidableEq κ] in
theorem Grows.changed {s s' : Obj κ γ β α} (h : Grows s s') (g : γ) : Changed g s s' :=
  ⟨h.toCounts, fun _ _ => by rw [h.groups], fun _ _ => by rw [h.disabled]⟩

omit [DecidableEq κ] in
/-- An entry of a group in `__CounterGroupMap`. -/
theorem changed_group (s : Obj κ γ β α) (g : γ) (v : Option (List Nat)) :
    Changed g s { s with CounterGroupMap := Function.update s.CounterGroupMap g v } :=
  ⟨⟨le_rfl, fun _ h => h, fun _ _ => rfl⟩, fun _ hk => Function.update_of_ne hk _ _, fun _ _ => rfl⟩

omit [DecidableEq κ] in
theorem changed_insert (s : Obj κ γ β α) (g : γ) (list : List (κ × List β)) :
    Changed g s { s with CounterDisableMap := s.CounterDisableMap.insert g list } :=
  ⟨⟨le_rfl, fun _ h => h, fun _ _ => rfl⟩, fun _ _ => rfl, fun _ hk => AList.lookup_insert_ne hk⟩

omit [DecidableEq κ] in
theorem changed_erase (s : Obj κ γ β α) (g : γ) :
    Changed g s { s with CounterDisableMap := s.CounterDisableMap.erase g } :=
  ⟨⟨le_rfl, fun _ h => h, fun _ _ => rfl⟩, fun _ _ => rfl, fun _ hk => AList.lookup_erase_ne hk⟩

variable {info : κ → Option (Info κ β α)} {g : γ} {s s' : Obj κ γ β α}

/-- `DelCounterGroup` takes the group out of one map. -/
theorem DelCounterGroup_ok {flag : Bool} (h : exec (C.DelCounterGroup E n info g flag) s = (.ok (), s')) :
    Changed g s s' ∧ ((flag = false ∧ s.CounterDisableMap.lookup g ≠ none ∧ s'.CounterDisableMap.lookup g = none ∧
      s'.CounterGroupMap g = s.CounterGroupMap g) ∨
      ((flag = true ∨ s.CounterDisableMap.lookup g = none) ∧
        s'.CounterDisableMap.lookup g = s.CounterDisableMap.lookup g ∧ s'.CounterGroupMap g = none)) := by
  obtain ⟨t, _, ht, h⟩ := exec_bind_ok h
  cases ht
  split at h
  · rename_i hcond
    rw [exec_modify] at h
    cases h
    simp only [Bool.and_eq_true, Bool.not_eq_true', Option.isSome_iff_ne_none] at hcond
    exact ⟨changed_erase s g, Or.inl ⟨hcond.1, hcond.2, AList.lookup_erase _ _, rfl⟩⟩
  · rename_i hcond
    have hflag : flag = true ∨ s.CounterDisableMap.lookup g = none := by
      cases flag with
      | true => exact Or.inl rfl
      | false => exact Or.inr (by simpa using hcond)
    split at h
    · rename_i hnone
      rw [exec_pure] at h
      cases h
      exact ⟨(order_changed g).refl s, Or.inr ⟨hflag, rfl, hnone⟩⟩
    · rename_i ids hids
      obtain ⟨_, t, hloop, h⟩ := exec_bind_ok h
      rw [exec_modify] at h
      cases h
      have hgrows := grows_of_exec (Frames.forM order_grows ids fun id _ => framed_grows.delCounter id) hloop
      refine ⟨(order_changed g).trans (hgrows.changed g) (changed_group t g none),
        Or.inr ⟨hflag, ?_, Function.update_self ..⟩⟩
      change t.CounterDisableMap.lookup g = _
      rw [hgrows.disabled]

/-- `AddCounterGroup` puts the group into one map. -/
theorem AddCounterGroup_ok {list : List (κ × List β)}
    (hs : s.CounterDisableMap.lookup g = none ∨ s.CounterGroupMap g = none)
    (h : exec (C.AddCounterGroup E n info g list) s = (.ok (), s')) : Changed g s s' ∧ At s' g list := by
  obtain ⟨t, _, ht, h⟩ := exec_bind_ok h
  cases ht
  split at h
  · rename_i hsome
    rw [exec_modify] at h
    cases h
    rw [Option.isSome_iff_ne_none] at hsome
    exact ⟨changed_insert s g list, .disabled (AList.lookup_insert _) (hs.resolve_left hsome)⟩
  · rename_i hnone
    obtain ⟨_, t, hdel, h⟩ := exec_bind_ok h
    obtain ⟨ids, u, hadd, h⟩ := exec_bind_ok h
    rw [exec_modify] at h
    cases h
    obtain ⟨hchanged, hdel⟩ := DelCounterGroup_ok hdel
    have hlook : s.CounterDisableMap.lookup g = none := by simpa using hnone
    have htlook : t.CounterDisableMap.lookup g = none := by
      rcases hdel with ⟨-, -, hd, -⟩ | ⟨-, hd, -⟩
      · exact hd
      · exact hd.trans hlook
    have hgrows := grows_of_exec (Frames.mapM order_grows list fun v _ => framed_grows.addCounter v.1 v.2) hadd
    obtain ⟨hle, hread⟩ := AddCounters_ok hadd
    refine ⟨(order_changed g).trans hchanged ((order_changed g).trans (hgrows.changed g) (changed_group u g _)), ?_⟩
    refine .enabled ids ?_ (Function.update_self ..) hle hread
    change u.CounterDisableMap.lookup g = none
    rw [hgrows.disabled, htlook]

omit [DecidableEq κ] in
/-- The notes of a group that is enabled. -/
theorem noteCounter_ok : ∀ {ids : List Nat} {l r : List (κ × List β)} {s s' : Obj κ γ β α},
    exec (ids.foldlM (Config.noteCounter g false) l) s = (.ok r, s') → s' = s ∧ ∃ notes, ids.mapM s.read = some notes ∧
    r = l ++ notes
  | [], l, _, _, _, h => by
    rw [List.foldlM_nil, exec_pure] at h
    cases h
    exact ⟨rfl, [], rfl, (List.append_nil l).symm⟩
  | id :: ids, l, r, s, s', h => by
    rw [List.foldlM_cons] at h
    obtain ⟨l₁, t, hturn, hrest⟩ := exec_bind_ok h
    obtain ⟨note, t₁, hnote, hturn⟩ := exec_bind_ok hturn
    rw [if_neg Bool.false_ne_true] at hturn
    dsimp only at hturn
    rw [exec_pure] at hturn
    cases hturn
    have hread : t = s ∧ s.read id = some note := by
      obtain ⟨u, _, hu, hnote⟩ := exec_bind_ok hnote
      cases hu
      unfold Obj.read
      split at hnote
      · rename_i hmem
        obtain ⟨c, u, hc, hnote⟩ := exec_bind_ok hnote
        rw [exec_pure] at hnote
        cases hnote
        obtain ⟨v, _, hv, hc⟩ := exec_bind_ok hc
        cases hv
        split at hc
        · cases hc
        · rename_i c' hc'
          rw [exec_pure] at hc
          cases hc
          rw [if_pos hmem, hc']
          exact ⟨rfl, rfl⟩
      · cases hnote
    obtain ⟨rfl, hread⟩ := hread
    obtain ⟨rfl, notes, hnotes, rfl⟩ := noteCounter_ok hrest
    refine ⟨rfl, note :: notes, ?_, by simp⟩
    rw [List.mapM_cons, hread, hnotes]
    rfl

/-- `DisableCounterByGroups` leaves a group disabled, with its list. -/
theorem disableGroup_ok {o : Option (List (κ × List β))} (hs : Stands s g o)
    (h : exec (C.disableGroup E n info g) s = (.ok (), s')) : Changed g s s' ∧ Stands s' g o := by
  obtain ⟨t, _, ht, h⟩ := exec_bind_ok h
  cases ht
  obtain ⟨list, t, hnotes, h⟩ := exec_bind_ok h
  obtain ⟨_, u, hput, hdel⟩ := exec_bind_ok h
  rw [exec_modify] at hput
  cases hput
  have hnoted : t = s ∧ ∀ l, o = some l → l = list := by
    rcases hs with ⟨l, hat, hl⟩ | ⟨-, hnone, ho⟩
    · cases hat with
      | disabled hlook hnone =>
        rw [hlook, hnone, Option.getD_none, Option.getD_some, List.foldlM_nil, exec_pure] at hnotes
        cases hnotes
        exact ⟨rfl, hl⟩
      | enabled ids hlook hids _ hread =>
        rw [hlook, hids] at hnotes
        obtain ⟨ht, notes, hmap, hlist⟩ := noteCounter_ok hnotes
        rw [Option.getD_some, hread] at hmap
        cases hmap
        rw [hlist]
        exact ⟨ht, hl⟩
    · rw [hnone, Option.getD_none, List.foldlM_nil, exec_pure] at hnotes
      cases hnotes
      refine ⟨rfl, fun l hl => ?_⟩
      rw [ho] at hl
      cases hl
  obtain ⟨rfl, hl⟩ := hnoted
  obtain ⟨hchanged, hdel⟩ := DelCounterGroup_ok hdel
  refine ⟨(order_changed g).trans (changed_insert t g list) hchanged, Or.inl ⟨list, ?_, hl⟩⟩
  rcases hdel with ⟨hflag, -⟩ | ⟨-, hlook, hnone⟩
  · cases hflag
  · exact .disabled (hlook.trans (AList.lookup_insert _)) hnone

/-- `EnableCounterByGroups` leaves a group that was disabled enabled, with its list. -/
theorem enableGroup_ok {o : Option (List (κ × List β))} (hs : Stands s g o)
    (h : exec (C.enableGroup E n info g) s = (.ok (), s')) : Changed g s s' ∧ Stands s' g o := by
  obtain ⟨t, _, ht, h⟩ := exec_bind_ok h
  cases ht
  split at h
  · rw [exec_pure] at h
    cases h
    exact ⟨(order_changed g).refl s, hs⟩
  · rename_i list hlook
    obtain ⟨_, t, herase, h⟩ := exec_bind_ok h
    rw [exec_modify] at herase
    cases herase
    obtain ⟨hchanged, hat⟩ := AddCounterGroup_ok (Or.inl (AList.lookup_erase _ _)) h
    refine ⟨(order_changed g).trans (changed_erase s g) hchanged, Or.inl ⟨list, hat, ?_⟩⟩
    rcases hs with ⟨l, hat, hl⟩ | ⟨hnone, -, -⟩
    · cases hat with
      | disabled hl' _ =>
        rw [hlook] at hl'
        cases hl'
        exact hl
      | enabled _ hnone => rw [hlook] at hnone; cases hnone
    · rw [hlook] at hnone
      cases hnone

omit [DecidableEq κ] in
/-- A loop over groups that are left as they stand. -/
theorem groups_ok {f : γ → Method κ γ β α Unit}
    (hf : ∀ {g : γ} {o : Option (List (κ × List β))} {s s' : Obj κ γ β α}, Stands s g o →
    exec (f g) s = (.ok (), s') → Changed g s s' ∧ Stands s' g o) {d : Lists κ γ β} :
    ∀ {names : List γ} {s s' : Obj κ γ β α}, (∀ g, Stands s g (d g)) → exec (names.forM f) s = (.ok (), s') →
    ∀ g, Stands s' g (d g)
  | [], _, _, hs, h => by
    change exec (pure ()) _ = _ at h
    cases h
    exact hs
  | v :: names, s, s', hs, h => by
    change exec (f v >>= fun _ => names.forM f) s = _ at h
    obtain ⟨_, t, hv, h⟩ := exec_bind_ok h
    obtain ⟨hchanged, hstands⟩ := hf (hs v) hv
    refine groups_ok hf (fun g => ?_) h
    by_cases hg : g = v
    · subst hg
      exact hstands
    · exact (hs g).kept hchanged.toCounts (hchanged.groups g hg) (hchanged.disabled g hg)

/-- `AddCounterGroup` leaves a group with the list that it is given, and the others as they stand. -/
theorem stands_AddCounterGroup {d : Lists κ γ β} {name : γ} {list : List (κ × List β)} (hs : ∀ g, Stands s g (d g))
    (h : exec (C.AddCounterGroup E n info name list) s = (.ok (), s')) (g : γ) :
    Stands s' g (Function.update d name (some list) g) := by
  obtain ⟨hchanged, hat⟩ := AddCounterGroup_ok (hs name).apart h
  by_cases hg : g = name
  · subst hg
    rw [Function.update_self]
    exact Or.inl ⟨list, hat, fun l hl => (Option.some.inj hl).symm⟩
  · rw [Function.update_of_ne hg]
    exact (hs g).kept hchanged.toCounts (hchanged.groups g hg) (hchanged.disabled g hg)

/-- `DelCounterGroup` leaves a group in no map, and the others as they stand. -/
theorem stands_DelCounterGroup {d : Lists κ γ β} {name : γ} (hs : ∀ g, Stands s g (d g))
    (h : exec (C.DelCounterGroup E n info name false) s = (.ok (), s')) (g : γ) :
    Stands s' g (Function.update d name none g) := by
  obtain ⟨hchanged, hdel⟩ := DelCounterGroup_ok h
  by_cases hg : g = name
  · subst hg
    rw [Function.update_self]
    rcases hdel with ⟨-, hlook, hlook', hgroup'⟩ | ⟨hlook, hlook', hgroup'⟩
    · exact Or.inr ⟨hlook', hgroup'.trans ((hs g).apart.resolve_left hlook), rfl⟩
    · exact Or.inr ⟨hlook'.trans (hlook.resolve_left Bool.false_ne_true), hgroup', rfl⟩
  · rw [Function.update_of_ne hg]
    exact (hs g).kept hchanged.toCounts (hchanged.groups g hg) (hchanged.disabled g hg)

/-! ## Runs -/

omit [DecidableEq κ] in
/-- A method that changes no groups. -/
theorem stands_frames {d : Lists κ γ β} {m : Method κ γ β α Unit} (hm : Frames Grows m)
    (hs : ∀ g, Stands s g (d g)) (g : γ) :
    Stands (exec m s).2 g (d g) := by
  have hgrows := hm s
  exact (hs g).kept hgrows.toCounts (by rw [hgrows.groups]) (by rw [hgrows.disabled])

omit [DecidableEq κ] in
/-- A method of groups that returns: on objects with counters it does what `h` says, on others nothing. -/
theorem stands_withCounters {d d' : Lists κ γ β} {m : (κ → Option (Info κ β α)) → Method κ γ β α Unit}
    (hret : (exec (C.withCounters m) s).1 = .ok ()) (hs : ∀ g, Stands s g (d g)) (hnone : C.Counter = none → d' = d)
    (h : ∀ {info s'}, C.Counter = some info → exec (m info) s = (.ok (), s') → ∀ g, Stands s' g (d' g)) (g : γ) :
    Stands (exec (C.withCounters m) s).2 g (d' g) := by
  unfold Config.withCounters at hret ⊢
  split
  · rename_i hcounter
    rw [hnone hcounter]
    exact hs g
  · rename_i info hcounter
    rw [hcounter] at hret
    refine h hcounter ?_ g
    rw [← hret]

/-- **One call.** -/
theorem stands_next {d : Lists κ γ β} (c : Call κ γ β α) (hs : ∀ g, Stands s g (d g)) (hc : Settles C E n s c) :
    ∀ g, Stands (next C E n s c) g (define C d c g) := by
  cases c with
  | Get k => exact stands_frames (Frames.discard order_grows (framed_grows.get n k)) hs
  | Set k value noclean => exact stands_frames (framed_grows.set k value noclean) hs
  | SetAttrs tbl => exact stands_frames (framed_grows.setAttrs tbl) hs
  | Load data => exact stands_frames (Frames.modify fun _ => grows_of_eq rfl rfl rfl rfl rfl) hs
  | ClearSave => exact stands_frames (Frames.modify fun _ => grows_of_eq rfl rfl rfl rfl rfl) hs
  | AddCounter name args =>
    refine stands_frames (Framed.withCounters order_grows fun info => ?_) hs
    exact Frames.discard order_grows (framed_grows.addCounter name args)
  | DelCounter id => exact stands_frames (Framed.withCounters order_grows fun info => framed_grows.delCounter id) hs
  | ClearCounter => exact absurd rfl hc.1
  | AddCounterGroup name list =>
    refine stands_withCounters (hc.2 rfl) hs (fun hnone => by simp [define, hnone]) fun hsome h => ?_
    rw [define, hsome, Option.isSome_some, if_pos rfl]
    exact stands_AddCounterGroup hs h
  | DelCounterGroup name =>
    refine stands_withCounters (hc.2 rfl) hs (fun hnone => by simp [define, hnone]) fun hsome h => ?_
    rw [define, hsome, Option.isSome_some, if_pos rfl]
    exact stands_DelCounterGroup hs h
  | DisableCounterByGroups names =>
    exact stands_withCounters (hc.2 rfl) hs (fun _ => rfl) fun _ h => groups_ok disableGroup_ok hs h
  | EnableCounterByGroups names =>
    exact stands_withCounters (hc.2 rfl) hs (fun _ => rfl) fun _ h => groups_ok enableGroup_ok hs h
  | EnableAllDisableCounter =>
    refine stands_withCounters (hc.2 rfl) hs (fun _ => rfl) fun _ h => ?_
    obtain ⟨t, _, ht, h⟩ := exec_bind_ok h
    cases ht
    exact groups_ok enableGroup_ok hs h

/-- Two attributes, the first of which drops the second, and a counter for each. -/
def dropping : Config Nat ℤ ℤ where
  Save k := if k < 2 then some none else none
  Temp _ := none
  Relation k := if k = 0 then [1] else []
  Counter := some fun
    | 10 => some ⟨fun _ => .ret (.val 5), 1, 0⟩
    | 11 => some ⟨fun _ => .ret (.val 7), 1, 1⟩
    | _ => none

/-- A group that is disabled, added to, enabled and deleted. -/
def switching : List (Call Nat Nat ℤ ℤ) :=
  [.SetAttrs [(0, .val 0), (1, .val 0)], .AddCounterGroup 2 [(11, [3]), (11, [])], .DisableCounterByGroups [2, 5, 2],
    .AddCounterGroup 2 [(11, [4])], .EnableAllDisableCounter, .DelCounterGroup 5]

instance (s : Obj Nat Nat ℤ ℤ) (c : Call Nat Nat ℤ ℤ) : Decidable (Returns dropping .integers 3 s c) :=
  decidable_of_iff ((exec (invoke dropping .integers 3 c) s).1.isOk = true) (by
    unfold Returns
    cases (exec (invoke dropping .integers 3 c) s).1 with
    | ok _ => simp [Except.isOk, Except.toBool]
    | error _ => simp [Except.isOk, Except.toBool])

end XCore.Objects
