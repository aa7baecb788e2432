import XCore.Class.Group

/-!
# What spares an attribute

An attribute that `Relation` does not list and that no formula sets (`Config.Untouched`) is changed by counters of its
own only. Of the other attributes nothing is asked: they may have no value, be computed by `Get`, drop one another, and
their methods may raise.

- `Folded`: the counters are where they belong, and the attribute is what the formulas of its active counters make of
  its first value, one after another;
- `Spared`: what keeps this, and registers no counter for the attribute. It is what everything does that has to do with
  other attributes: `spared_set`, `spared_get`, and `flush_other` for their counters.
-/

namespace XCore.Objects

open XCore.Lua XCore.Raise
open XCore.CObject (Value Store)
open XCore.Counters (again)

variable {κ γ β α : Type} [DecidableEq κ] [DecidableEq γ]

/-! ## Configurations -/

/-- A formula that does not set an attribute. -/
def Code.Spares (A : κ) : Code κ α → Prop
  | .ret _ | .raise => True
  | .get _ next => ∀ v, (next v).Spares A
  | .set k _ _ next => k ≠ A ∧ next.Spares A

/-- An attribute has a value. -/
def Config.Holds (C : Config κ β α) (s : Obj κ γ β α) (A : κ) (v : α) : Prop :=
  ∃ st, C.store A = some st ∧ s.kept st A = .val v

/-- `Relation` lists an attribute under no attribute of its store, and no formula sets it. -/
structure Config.Untouched (C : Config κ β α) (A : κ) : Prop where
  related : ∀ k, C.store k = C.store A → A ∉ C.Relation k
  formulas : ∀ k f, C.formula k = some f → ∀ args, (f args).Spares A

/-! ## Counters of an object -/

namespace Obj

variable (info : κ → Option (Info κ β α)) (A : κ) (s : Obj κ γ β α)

/-- The name and arguments of a counter. -/
def call (id : Nat) : Option (κ × List β) := (s.counters id).map fun c => (c.Name, c.Var)

/-- The names and arguments of the active counters. -/
def actives : List (κ × List β) := s.active.filterMap s.call

/-- Those of an attribute. -/
def activesOn : List (κ × List β) := s.actives.filter fun e => (info e.1).map Info.Attr = some A

/-- The ids of a group. -/
def group (g : γ) : List Nat := (s.CounterGroupMap g).getD []

end Obj

/-- A counter, given its name and arguments, is run. -/
def runCall (f : κ → α → List β → α) (v : α) (e : κ × List β) : α := f e.1 v e.2

/-- The priority of a counter, given its name and arguments. -/
def priOf (info : κ → Option (Info κ β α)) (e : κ × List β) : ℚ := ((info e.1).map Info.Pri).getD 0

/-- The table of a counter of an attribute. -/
def Placed (info : κ → Option (Info κ β α)) (s : Obj κ γ β α) (id : Nat) (B : κ) : Prop :=
  ∃ c i, s.counters id = some c ∧ info c.Name = some i ∧ i.Attr = B ∧ c.Pri = i.Pri

/-- The counters are where they belong, and the attribute is what its active counters make of its first value, one after
another. -/
structure Folded (C : Config κ β α) (info : κ → Option (Info κ β α)) (f : κ → α → List β → α) (A : κ) (b : α)
    (s : Obj κ γ β α) :
    Prop where
  table : ∀ id c, s.counters id = some c → id ≤ s.CounterID
  sub : ∀ B, ∀ id ∈ s.CounterSubMap B, Placed info s id B
  map : ∀ id ∈ s.CounterMap, ∃ B, id ∈ s.CounterSubMap B
  mapped : ∀ id ∈ s.CounterSubMap A, id ∈ s.CounterMap
  groups : ∀ g, ∀ id ∈ s.group g, id ≤ s.CounterID
  known : ∀ id ∈ s.active, ∃ B, Placed info s id B
  registered : ∀ id ∈ s.active, Placed info s id A → id ∈ s.CounterSubMap A
  value : C.Holds s A ((s.activesOn info A).foldl (runCall f) b)
  sorted : (s.activesOn info A).Pairwise fun d e => priOf info d ≤ priOf info e

/-- The tables stay, and no other counter is registered for the attribute. -/
structure Kept (A : κ) (s t : Obj κ γ β α) : Prop where
  id : s.CounterID ≤ t.CounterID
  tables : ∀ id c, s.counters id = some c → ∃ v, t.counters id = some { c with Change := v }
  sub : t.CounterSubMap A = s.CounterSubMap A

/-- What has to do with other attributes only. -/
def Spared (C : Config κ β α) (info : κ → Option (Info κ β α)) (f : κ → α → List β → α) (A : κ) (b : α)
    (s t : Obj κ γ β α) : Prop :=
  Folded C info f A b s → Folded C info f A b t ∧ Kept A s t

variable {C : Config κ β α} {E : Machine γ α} {n : Nat} {info : κ → Option (Info κ β α)} {f : κ → α → List β → α}
    {A B : κ} {b v w : α}
  {s t : Obj κ γ β α} {id : Nat}

omit [DecidableEq κ] [DecidableEq γ] in
theorem order_kept : Order (Kept A : Obj κ γ β α → Obj κ γ β α → Prop) where
  refl _ := ⟨le_rfl, fun _ c h => ⟨c.Change, h⟩, rfl⟩
  trans hst htu := by
    refine ⟨hst.id.trans htu.id, fun id c h => ?_, htu.sub.trans hst.sub⟩
    obtain ⟨v, hv⟩ := hst.tables id c h
    obtain ⟨w, hw⟩ := htu.tables id _ hv
    exact ⟨w, hw⟩

omit [DecidableEq γ] in
theorem order_spared : Order (Spared C info f A b : Obj κ γ β α → Obj κ γ β α → Prop) := order_keeps order_kept

section

omit [DecidableEq κ] [DecidableEq γ]

theorem Placed.attr_eq (h : Placed info s id A) (h' : Placed info s id B) : A = B := by
  obtain ⟨c, i, hc, hi, rfl, -⟩ := h
  obtain ⟨c', i', hc', hi', rfl, -⟩ := h'
  rw [hc] at hc'
  cases hc'
  rw [hi] at hi'
  cases hi'
  rfl

theorem Kept.placed (h : Kept A s t) (hid : Placed info s id B) : Placed info t id B := by
  obtain ⟨c, i, hc, hi, hB, hpri⟩ := hid
  obtain ⟨v, hv⟩ := h.tables id c hc
  exact ⟨_, i, hv, hi, hB, hpri⟩

theorem Kept.pri (h : Kept A s t) (hid : Placed info s id B) : t.pri id = s.pri id := by
  obtain ⟨c, i, hc, -⟩ := hid
  obtain ⟨v, hv⟩ := h.tables id c hc
  unfold Obj.pri
  rw [hc, hv]
  rfl

theorem Kept.call (h : Kept A s t) (hid : Placed info s id B) : t.call id = s.call id := by
  obtain ⟨c, i, hc, -⟩ := hid
  obtain ⟨v, hv⟩ := h.tables id c hc
  unfold Obj.call
  rw [hc, hv]
  rfl

theorem Placed.call (h : Placed info s id B) :
    ∃ e, s.call id = some e ∧ (info e.1).map Info.Attr = some B ∧ priOf info e = s.pri id := by
  obtain ⟨c, i, hc, hi, rfl, hpri⟩ := h
  refine ⟨(c.Name, c.Var), by rw [Obj.call, hc]; rfl, by rw [hi]; rfl, ?_⟩
  unfold priOf Obj.pri
  rw [hi, hc]
  exact hpri.symm

end

omit [DecidableEq γ] in
/-- A step that keeps the tables, and the value of the attribute. -/
theorem Folded.kept (hs : Folded C info f A b s) (h : Kept A s t)
    (htable : ∀ id c, t.counters id = some c → id ≤ t.CounterID)
    (hsub : ∀ B, ∀ id ∈ t.CounterSubMap B, Placed info t id B) (hmap : ∀ id ∈ t.CounterMap, ∃ B, id ∈ t.CounterSubMap B)
    (hmapped : ∀ id ∈ s.CounterMap, id ∈ t.CounterMap) (hgroups : ∀ g, ∀ id ∈ t.group g, id ≤ t.CounterID)
    (hactive : t.active = s.active) (hvalue : ∀ v, C.Holds s A v → C.Holds t A v) :
    Folded C info f A b t := by
  have hactives : t.actives = s.actives := by
    unfold Obj.actives
    rw [hactive]
    apply List.filterMap_congr
    intro id hid
    obtain ⟨B, hB⟩ := hs.known id hid
    exact h.call hB
  have hon : t.activesOn info A = s.activesOn info A := by rw [Obj.activesOn, hactives, Obj.activesOn]
  refine ⟨htable, hsub, hmap, fun id hid => hmapped id (hs.mapped id (h.sub ▸ hid)), hgroups, fun id hid => ?_,
    fun id hid hA => ?_, ?_, hon ▸ hs.sorted⟩
  · rw [hactive] at hid
    obtain ⟨B, hB⟩ := hs.known id hid
    exact ⟨B, h.placed hB⟩
  · rw [hactive] at hid
    obtain ⟨B, hB⟩ := hs.known id hid
    cases hA.attr_eq (h.placed hB)
    rw [h.sub]
    exact hs.registered id hid hB
  · rw [hon]
    exact hvalue _ hs.value

/-! ## Attributes -/

/-- Counters stay as they are. -/
structure Beside (s t : Obj κ γ β α) : Prop where
  id : t.CounterID = s.CounterID
  counters : t.counters = s.counters
  map : t.CounterMap = s.CounterMap
  sub : t.CounterSubMap = s.CounterSubMap
  groups : t.CounterGroupMap = s.CounterGroupMap
  disabled : t.CounterDisableMap = s.CounterDisableMap
  active : t.active = s.active

section

omit [DecidableEq κ] [DecidableEq γ]

theorem order_beside : Order (Beside : Obj κ γ β α → Obj κ γ β α → Prop) where
  refl _ := ⟨rfl, rfl, rfl, rfl, rfl, rfl, rfl⟩
  trans h h' := ⟨h'.id.trans h.id, h'.counters.trans h.counters, h'.map.trans h.map, h'.sub.trans h.sub,
    h'.groups.trans h.groups, h'.disabled.trans h.disabled, h'.active.trans h.active⟩

theorem Beside.kept (h : Beside s t) : Kept A s t := ⟨h.id.ge, fun _ c hc => ⟨c.Change, h.counters ▸ hc⟩, by rw [h.sub]⟩

end

omit [DecidableEq γ] in
theorem Beside.spared (h : Beside s t) (hvalue : ∀ v, C.Holds s A v → C.Holds t A v) : Spared C info f A b s t := by
  intro hs
  refine ⟨hs.kept h.kept (fun id c hc => ?_) (fun B id hid => ?_) (fun id hid => ?_) (fun _ hid => h.map ▸ hid)
    (fun g id hid => ?_) h.active hvalue, h.kept⟩
  · rw [h.id]
    exact hs.table id c (h.counters ▸ hc)
  · have hkept : Kept A s t := h.kept
    exact hkept.placed (hs.sub B id (h.sub ▸ hid))
  · rw [h.sub]
    exact hs.map id (h.map ▸ hid)
  · rw [h.id]
    refine hs.groups g id ?_
    unfold Obj.group at hid ⊢
    rwa [h.groups] at hid

omit [DecidableEq γ] in
/-- Related attributes of a store are dropped. -/
theorem drop_temp : ∀ (l : List κ) (s : Obj κ γ β α), ∃ t,
    l.foldl (fun s d => (s.writeTemp d .nil).OnEvent (.AttrChange d)) s = t ∧
    Beside s t ∧ t.SaveAttr = s.SaveAttr ∧ ∀ A ∉ l, t.TempAttr A = s.TempAttr A
  | [], s => ⟨s, rfl, order_beside.refl s, rfl, fun _ _ => rfl⟩
  | d :: l, s => by
    obtain ⟨t, ht, hbeside, hsave, htemp⟩ := drop_temp l ((s.writeTemp d .nil).OnEvent (.AttrChange d))
    have hwrite : Beside s ((s.writeTemp d .nil).OnEvent (.AttrChange d)) := ⟨rfl, rfl, rfl, rfl, rfl, rfl, rfl⟩
    refine ⟨t, ht, order_beside.trans hwrite hbeside, hsave, fun A hA => ?_⟩
    rw [List.mem_cons, not_or] at hA
    rw [htemp A hA.2]
    exact Function.update_of_ne hA.1 ..

omit [DecidableEq γ] in
theorem drop_save : ∀ (l : List κ) (s : Obj κ γ β α), ∃ t,
    l.foldl (fun s d => (s.writeSave d .nil).OnEvent (.AttrChange d)) s = t ∧
    Beside s t ∧ t.TempAttr = s.TempAttr ∧ ∀ A ∉ l, t.SaveAttr A = s.SaveAttr A
  | [], s => ⟨s, rfl, order_beside.refl s, rfl, fun _ _ => rfl⟩
  | d :: l, s => by
    obtain ⟨t, ht, hbeside, htemp, hsave⟩ := drop_save l ((s.writeSave d .nil).OnEvent (.AttrChange d))
    have hwrite : Beside s ((s.writeSave d .nil).OnEvent (.AttrChange d)) := ⟨rfl, rfl, rfl, rfl, rfl, rfl, rfl⟩
    refine ⟨t, ht, order_beside.trans hwrite hbeside, htemp, fun A hA => ?_⟩
    rw [List.mem_cons, not_or] at hA
    rw [hsave A hA.2]
    exact Function.update_of_ne hA.1 ..

omit [DecidableEq γ] in
/-- `Set` raises, or sets its attribute, and the attribute in question stays if it is another one. -/
theorem Set_spec (hA : C.Untouched A) (k : κ) (v : Value α) (noclean : Bool) (s : Obj κ γ β α) :
    (C.store k = none ∧ exec (C.Set k v noclean) s = (.error .callNil, s)) ∨
      ∃ t, exec (C.Set k v noclean) s = (.ok (), t) ∧ Beside s t ∧
        ∀ st, C.store A = some st → t.kept st A = if k = A then v else s.kept st A := by
  unfold Config.Set
  cases hk : C.store k with
  | none => exact .inl ⟨rfl, rfl⟩
  | some st =>
    refine .inr ?_
    cases st with
    | temp =>
      obtain ⟨t, ht, hbeside, hsave, htemp⟩ := drop_temp (C.Relation k) ((s.writeTemp k v).OnEvent (.AttrChange k))
      have hwrite : Beside s ((s.writeTemp k v).OnEvent (.AttrChange k)) := ⟨rfl, rfl, rfl, rfl, rfl, rfl, rfl⟩
      refine ⟨t, congrArg (Prod.mk _) ht, order_beside.trans hwrite hbeside, fun st hst => ?_⟩
      cases st with
      | temp =>
        refine (htemp A (hA.related k (hk.trans hst.symm))).trans ?_
        change Function.update s.TempAttr k v A = _
        rw [Function.update_apply]
        exact if_congr eq_comm rfl rfl
      | save =>
        have hne : k ≠ A := by
          rintro rfl
          rw [hk] at hst
          cases hst
        rw [if_neg hne]
        exact congrFun hsave A
    | save =>
      obtain ⟨t, ht, hbeside, htemp, hsave⟩ :=
        drop_save (if noclean then [] else C.Relation k) (((s.writeSave k v).flag k).OnEvent (.AttrChange k))
      have hset : C.SetSave k v noclean s = t := by
        rw [← ht]
        unfold Config.SetSave
        cases noclean <;> rfl
      have hwrite : Beside s (((s.writeSave k v).flag k).OnEvent (.AttrChange k)) := ⟨rfl, rfl, rfl, rfl, rfl, rfl, rfl⟩
      refine ⟨t, congrArg (Prod.mk _) hset, order_beside.trans hwrite hbeside, fun st hst => ?_⟩
      cases st with
      | save =>
        have hnot : A ∉ if noclean then [] else C.Relation k := by
          split
          · exact List.not_mem_nil
          · exact hA.related k (hk.trans hst.symm)
        refine (hsave A hnot).trans ?_
        change Function.update s.SaveAttr k v A = _
        rw [Function.update_apply]
        exact if_congr eq_comm rfl rfl
      | temp =>
        have hne : k ≠ A := by
          rintro rfl
          rw [hk] at hst
          cases hst
        rw [if_neg hne]
        exact congrFun htemp A

omit [DecidableEq γ] in
theorem spared_set (hA : C.Untouched A) {k : κ} (hk : k ≠ A) (v : Value α) (noclean : Bool) :
    Frames (Spared C info f A b) (C.Set k v noclean : Method κ γ β α Unit) := by
  intro s
  rcases Set_spec hA k v noclean s with ⟨-, hset⟩ | ⟨t, hset, hbeside, hkept⟩
  · rw [hset]
    exact order_spared.refl s
  · rw [hset]
    refine hbeside.spared ?_
    rintro w ⟨st, hst, hw⟩
    refine ⟨st, hst, ?_⟩
    rw [hkept st hst, if_neg hk]
    exact hw

omit [DecidableEq γ] in
theorem spared_run (hA : C.Untouched A) {G : κ → Method κ γ β α (Value α)}
    (hG : ∀ k, Frames (Spared C info f A b) (G k)) :
    ∀ c : Code κ α, c.Spares A → Frames (Spared C info f A b) (C.run G c)
  | .ret v, _ => Frames.pure order_spared v
  | .raise, _ => Frames.throw order_spared _
  | .get k next, h => Frames.bind order_spared (hG k) fun v => spared_run hA hG (next v) (h v)
  | .set _ v noclean next, h => Frames.bind order_spared (spared_set hA h.1 v noclean) fun _ =>
    spared_run hA hG next h.2

omit [DecidableEq γ] in
theorem Get_holds (h : C.Holds s A v) : exec (C.Get (n + 1) A) s = (.ok (.val v), s) := by
  obtain ⟨st, hst, hv⟩ := h
  unfold Config.Get
  rw [hst]
  dsimp only
  rw [exec_bind, exec_get]
  dsimp only
  rw [hv]
  rfl

omit [DecidableEq γ] in
/-- `Get` of an attribute; the one in question has a value. -/
theorem spared_get (hA : C.Untouched A) :
    ∀ n k, Frames (Spared C info f A b) (C.Get n k : Method κ γ β α (Value α))
  | 0, _ => Frames.throw order_spared _
  | n + 1, k => by
    by_cases hk : k = A
    · subst hk
      intro s hs
      rw [Get_holds hs.value]
      exact order_spared.refl s hs
    · exact frames_get order_spared (fun g hg => spared_run hA (spared_get hA n) (g none) (hA.formulas k g hg none))
        fun v => spared_set hA hk v false

omit [DecidableEq κ] in
theorem formula_counter (hC : C.Counter = some info) {k : κ} {i : Info κ β α} (hi : info k = some i) :
    C.formula k = some i.Formula := by
  unfold Config.formula
  rw [hC, Option.bind_some, hi]
  rfl

/-! ## Counters of other attributes -/

omit [DecidableEq γ] in
theorem spared_event (e : Event κ) (s : Obj κ γ β α) : Spared C info f A b s (s.OnEvent e) :=
  Beside.spared ⟨rfl, rfl, rfl, rfl, rfl, rfl, rfl⟩ fun _ h => h

omit [DecidableEq κ] [DecidableEq γ] in
theorem kept_setChange (id : Nat) (v : Value α) (s : Obj κ γ β α) : Kept A s (s.setChange id v) := by
  refine ⟨le_rfl, fun i c hc => ?_, rfl⟩
  dsimp only [Obj.setChange]
  by_cases h : i = id
  · subst h
    exact ⟨v, by rw [Function.update_self, hc]; rfl⟩
  · exact ⟨c.Change, by rw [Function.update_of_ne h, hc]⟩

omit [DecidableEq γ] in
theorem spared_setChange (id : Nat) (v : Value α) (s : Obj κ γ β α) : Spared C info f A b s (s.setChange id v) := by
  intro hs
  have hkept : Kept A s (s.setChange id v) := kept_setChange id v s
  refine ⟨hs.kept hkept (fun i c hc => ?_) (fun B i hi => hkept.placed (hs.sub B i hi)) hs.map
    (fun _ h => h) hs.groups rfl fun _ h => h, hkept⟩
  change Function.update s.counters id _ i = _ at hc
  by_cases h : i = id
  · subst h
    rw [Function.update_self, Option.map_eq_some_iff] at hc
    obtain ⟨c', hc', -⟩ := hc
    exact hs.table i c' hc'
  · rw [Function.update_of_ne h] at hc
    exact hs.table i c hc

omit [DecidableEq γ] in
/-- A new table. -/
theorem spared_alloc (c : Counter κ β α) (s : Obj κ γ β α) : Spared C info f A b s (s.alloc c) := by
  intro hs
  have hold : ∀ id c', s.counters id = some c' → (s.alloc c).counters id = some c' := by
    intro id c' hc'
    have := hs.table id c' hc'
    rw [← hc']
    exact Function.update_of_ne (by omega) ..
  have hkept : Kept A s (s.alloc c) := ⟨Nat.le_succ _, fun id c' hc' => ⟨c'.Change, hold id c' hc'⟩, rfl⟩
  refine ⟨hs.kept hkept (fun id c' hc' => ?_) (fun B id hid => hkept.placed (hs.sub B id hid)) hs.map
    (fun _ h => h) (fun g id hid => (hs.groups g id hid).trans (Nat.le_succ _)) rfl fun _ h => h, hkept⟩
  change Function.update s.counters (s.CounterID + 1) (some c) id = some c' at hc'
  change id ≤ s.CounterID + 1
  by_cases h : id = s.CounterID + 1
  · omega
  · rw [Function.update_of_ne h] at hc'
    exact (hs.table id c' hc').trans (Nat.le_succ _)

omit [DecidableEq γ] in
theorem spared_put (hB : B ≠ A) (hid : Placed info s id B) : Spared C info f A b s (s.put B id) := by
  intro hs
  have hkept : Kept A s (s.put B id) := ⟨le_rfl, fun _ c hc => ⟨c.Change, hc⟩, Function.update_of_ne hB.symm ..⟩
  have hsub : ∀ B' i, i ∈ (s.put B id).CounterSubMap B' ↔ i ∈ s.CounterSubMap B' ∨ (B' = B ∧ i = id) := by
    intro B' i
    change i ∈ Function.update s.CounterSubMap B _ B' ↔ _
    by_cases h : B' = B
    · subst h
      rw [Function.update_self, mem_enter]
      simp
    · rw [Function.update_of_ne h]
      simp [h]
  refine ⟨hs.kept hkept hs.table (fun B' i hi => ?_) (fun i hi => ?_) (fun i hi => mem_enter.2 (.inl hi)) hs.groups rfl
    fun _ h => h, hkept⟩
  · rcases (hsub B' i).1 hi with hi | ⟨rfl, rfl⟩
    · exact hkept.placed (hs.sub B' i hi)
    · exact hkept.placed hid
  · rcases mem_enter.1 hi with hi | rfl
    · obtain ⟨B', hB'⟩ := hs.map i hi
      exact ⟨B', (hsub B' i).2 (.inl hB')⟩
    · exact ⟨B, (hsub B i).2 (.inr ⟨rfl, rfl⟩)⟩

omit [DecidableEq γ] in
/-- A flush of another attribute, if it is given counters of that attribute. -/
theorem flush_other (hA : C.Untouched A) (hB : B ≠ A) {p : ℚ} {l : List Nat} (hl : ∀ id ∈ l, Placed info s id B) :
    Spared C info f A b s (exec (C.FlushCounter E n B p l) s).2 := by
  intro hs
  let old := (s.CounterSubMap B).filter fun id => again p (s.pri id)
  let I : Obj κ γ β α → Prop := fun s => Folded C info f A b s ∧ ∀ id ∈ l ++ old, Placed info s id B
  have hlift : ∀ {t u : Obj κ γ β α}, Spared C info f A b t u → I t → I u ∧ Kept A t u := by
    intro t u h ht
    obtain ⟨hu, hkept⟩ := h ht.1
    exact ⟨⟨hu, fun id hid => hkept.placed (ht.2 id hid)⟩, hkept⟩
  have hR : Order fun t u : Obj κ γ β α => I t → I u ∧ Kept A t u := order_keeps order_kept
  have hflushed : Flushed C n B (· ∈ l ++ old) fun t u : Obj κ γ β α => I t → I u ∧ Kept A t u := by
    refine ⟨hR, fun t => hlift (spared_get hA n B t), fun v noclean t => hlift (spared_set hA hB v noclean t),
      fun k g args hg t => ?_, fun id v t => hlift (spared_setChange id v t), fun id hid t ht => ?_⟩
    · exact hlift (spared_run hA (spared_get hA n) (g args) (hA.formulas k g hg args) t)
    · exact hlift (spared_put hB (ht.2 id hid)) ht
  have hold : ∀ id ∈ l ++ old, Placed info s id B := by
    intro id hid
    rcases List.mem_append.1 hid with hid | hid
    · exact hl id hid
    · exact hs.sub B id (List.mem_of_mem_filter hid)
  have hflush : Frames (fun t u : Obj κ γ β α => I t → I u ∧ Kept A t u) (do
      old.forM fun id => modify fun s => s.setChange id E.zero
      let BaseVar ← C.Get n B
      C.flushLoop E n B (E.sort s.pri (l ++ old)) p BaseVar []
      modify fun s => s.OnEvent (.CounterChange B)) := by
    refine Frames.bind hR (Frames.forM hR _ fun id _ => Frames.modify (hflushed.setChange id E.zero)) fun _ => ?_
    refine Frames.bind hR hflushed.get fun v => ?_
    refine Frames.bind hR (hflushed.flushLoop _ _ fun id hid => ?_) fun _ => Frames.modify fun t =>
      hlift (spared_event _ t)
    rw [List.nil_append] at hid
    exact (E.perm _ _).subset hid
  obtain ⟨⟨hfolded, -⟩, hkept⟩ := hflush s ⟨hs, hold⟩
  exact ⟨hfolded, hkept⟩

end XCore.Objects
