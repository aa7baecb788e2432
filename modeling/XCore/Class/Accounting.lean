import Mathlib.Tactic.Abel
import XCore.Class.Counter

/-!
# The sum of the counters of an attribute

An attribute of an object is what it was at first and the changes of its active counters (`counter_accounting`) in runs
in which `self:DelCounter(counter)` is never called: it should take a change back, and does nothing. These are the runs
in which no counter is deleted, disabled or cleared, and none is added below an active counter of its attribute
(`Quiet`).

`Accounted` is the invariant.
-/

namespace XCore.Counters

open XCore.Lua XCore.Run

variable {κ ν γ : Type} [DecidableEq κ] [DecidableEq ν] [DecidableEq γ] {C : ν → Info κ} {S : Sorting ν} {A : κ}

/-- The counters of an attribute. -/
def countersOn (C : ν → Info κ) (A : κ) (cs : List (Counter ν)) : List (Counter ν) :=
  cs.filter fun c => (C c.Name).Attr = A

/-- The changes of some counters on an attribute. -/
def changesOn (C : ν → Info κ) (A : κ) (change : Nat → Integer) (cs : List (Counter ν)) : Integer :=
  ((countersOn C A cs).map fun c => change c.Id).sum

/-- The attribute is its first value and the changes of the active counters. -/
def Accounts (C : ν → Info κ) (A : κ) (b : Integer) (s : Obj κ ν γ) : Prop :=
  s.attr A = b + changesOn C A s.change s.active

instance (b : Integer) (s : Obj κ ν γ) : Decidable (Accounts C A b s) := inferInstanceAs (Decidable (_ = _))

/-- The counters of a group are gone. -/
def GroupGone (s : Obj κ ν γ) (g : γ) : Prop :=
  ∀ ids, s.CounterGroupMap g = some ids → ∀ id ∈ ids, ∀ c ∈ s.CounterMap, c.Id ≠ id

/-- The attribute and the priority of a counter. -/
def place (C : ν → Info κ) (c : Counter ν) : κ × ℚ := ((C c.Name).Attr, c.Pri)

/-- The places of the counters of a list, until a name is unknown. -/
def placesOf (C : ν → Info κ) : List (Option ν × List Integer) → List (κ × ℚ)
  | (some n, _) :: list => ((C n).Attr, (C n).Pri) :: placesOf C list
  | _ => []

/-- A new counter at a place runs none of those at other places again. -/
def QuietAt (others : List (κ × ℚ)) (p : κ × ℚ) : Prop := ∀ q ∈ others, q.1 = p.1 → again p.2 q.2 = false

/-- New counters one after another run none again. -/
def QuietAll : List (κ × ℚ) → List (κ × ℚ) → Prop
  | _, [] => True
  | others, p :: ps => QuietAt others p ∧ QuietAll (others ++ [p]) ps

/-- What `EnableCounterByGroups` does runs no counter again. -/
def QuietGroups (C : ν → Info κ) (gone : γ → Prop) :
    List (κ × ℚ) → (γ → Option (List (Option ν × List Integer))) → List γ → Prop
  | _, _, [] => True
  | others, disabled, g :: gs =>
    match disabled g with
    | none => QuietGroups C gone others disabled gs
    | some list => gone g ∧ QuietAll others (placesOf C list) ∧ ((∀ e ∈ list, e.1 ≠ none) →
        QuietGroups C gone (others ++ placesOf C list) (Function.update disabled g none) gs)

/-- An action in which `self:DelCounter(counter)` is not called; attributes other than the one in question may be
set. -/
def Quiet (C : ν → Info κ) (A : κ) (s : Obj κ ν γ) : Action κ ν γ → Prop
  | .AddCounter name args => QuietAll (s.CounterMap.map (place C)) (placesOf C [(name, args)])
  | .DelCounter id => ∀ c ∈ s.CounterMap, c.Id ≠ id
  | .AddCounterGroup name list => s.CounterDisableMap name = none →
      GroupGone s name ∧ QuietAll (s.CounterMap.map (place C)) (placesOf C list)
  | .DelCounterGroup name => s.CounterDisableMap name = none → GroupGone s name
  | .DisableCounterByGroups names => ∀ g ∈ names, GroupGone s g
  | .EnableCounterByGroups names => QuietGroups C (GroupGone s) (s.CounterMap.map (place C)) s.CounterDisableMap names
  | .ClearCounter => s.CounterMap = []
  | .SetAttr Name _ => Name ≠ A

/-- The maps hold the active counters. -/
structure Maps (C : ν → Info κ) (s : Obj κ ν γ) : Prop where
  map : s.CounterMap = s.active
  sub : ∀ B, s.CounterSubMap B = countersOn C B s.active
  ids : ∀ c ∈ s.active, c.Id ≤ s.CounterID
  groups : ∀ g ids, s.CounterGroupMap g = some ids → ∀ id ∈ ids, id ≤ s.CounterID

omit [DecidableEq ν] in
theorem countersOn_append (cs : List (Counter ν)) (c : Counter ν) :
    countersOn C A (cs ++ [c]) = countersOn C A cs ++ if (C c.Name).Attr = A then [c] else [] := by
  unfold countersOn
  rw [List.filter_append]
  congr 1
  by_cases h : (C c.Name).Attr = A
  · simp [h]
  · simp [h]

/-- A counter is added alone. -/
structure AddedOne (C : ν → Info κ) (n : ν) (args : List Integer) (s : Obj κ ν γ) (c : Counter ν) (s' : Obj κ ν γ) :
    Prop where
  maps : Maps C s'
  counter : c = ⟨s.CounterID + 1, n, args, (C n).Pri⟩
  map : s'.CounterMap = s.CounterMap ++ [c]
  active : s'.active = s.active ++ [c]
  id : s'.CounterID = s.CounterID + 1
  groups : s'.CounterGroupMap = s.CounterGroupMap
  disabled : s'.CounterDisableMap = s.CounterDisableMap
  change : s'.change = Function.update s.change c.Id ((C n).Formula s.attr args - s.attr (C n).Attr)
  attr : s'.attr = Function.update s.attr (C n).Attr ((C n).Formula s.attr args)

namespace Maps

variable {s : Obj κ ν γ}

omit [DecidableEq ν] [DecidableEq γ] in
theorem init (attr : κ → Integer) : Maps C (Obj.init attr : Obj κ ν γ) where
  map := rfl
  sub _ := rfl
  ids _ h := by cases h
  groups _ _ h := by cases h

omit [DecidableEq γ] in
/-- A counter is added, and no other is run again. -/
theorem add {n : ν} (args : List Integer) (hs : Maps C s)
    (hq : QuietAt (s.CounterMap.map (place C)) ((C n).Attr, (C n).Pri)) :
    ∃ c s', AddCounter C S (some n) args s = (.ok c.Id, s') ∧ AddedOne C n args s c s' := by
  let c : Counter ν := ⟨s.CounterID + 1, n, args, (C n).Pri⟩
  let s₁ : Obj κ ν γ := { s with
    CounterID := s.CounterID + 1
    change := Function.update s.change (s.CounterID + 1) 0
    active := s.active ++ [c] }
  let d : Integer := changeOf C s₁ (C n).Attr c
  have hnew : ∀ e ∈ s.active, e.Id ≠ s.CounterID + 1 := by
    intro e he h
    have := hs.ids e he
    omega
  have hnot : c ∉ s.CounterMap := by
    rw [hs.map]
    intro hc
    exact hnew c hc rfl
  have hquiet : ∀ e ∈ s₁.CounterSubMap (C n).Attr, again (C n).Pri e.Pri = false := by
    intro e he
    change e ∈ s.CounterSubMap (C n).Attr at he
    rw [hs.sub, countersOn, List.mem_filter, ← hs.map] at he
    exact hq (place C e) (List.mem_map_of_mem he.1) (of_decide_eq_true he.2)
  have hflush : AddCounter C S (some n) args s =
      (.ok c.Id, ((s₁.setChange c d).put (C n).Attr c).setAttr (C n).Attr (s.attr (C n).Attr + d)) := by
    unfold AddCounter
    dsimp only
    rw [FlushCounter_one hquiet]
  have hvalue : s.attr (C n).Attr + d = (C n).Formula s.attr args := by
    change s.attr (C n).Attr + ((C n).Formula s.attr args - s.attr (C n).Attr) = _
    abel
  have hmap : (s₁.put (C n).Attr c).CounterMap = s.CounterMap ++ [c] := if_neg hnot
  refine ⟨c, _, hflush, ⟨?_, ?_, ?_, ?_⟩, rfl, hmap, rfl, rfl, rfl, rfl, ?_, ?_⟩
  · refine hmap.trans ?_
    rw [hs.map]
    rfl
  · intro B
    change Function.update s.CounterSubMap (C n).Attr
      (if c ∈ s.CounterSubMap (C n).Attr then s.CounterSubMap (C n).Attr else s.CounterSubMap (C n).Attr ++ [c]) B =
        countersOn C B (s.active ++ [c])
    rw [countersOn_append]
    by_cases hB : B = (C n).Attr
    · subst hB
      have hnotsub : c ∉ s.CounterSubMap (C n).Attr := by
        rw [hs.sub]
        intro hc
        exact hnew c (List.mem_filter.1 hc).1 rfl
      rw [Function.update_self, if_neg hnotsub, hs.sub, if_pos rfl]
    · rw [Function.update_of_ne hB, hs.sub, if_neg fun h => hB h.symm, List.append_nil]
  · intro e he
    rcases List.mem_append.1 he with he | he
    · exact (hs.ids e he).trans (Nat.le_succ _)
    · cases List.mem_singleton.1 he
      exact le_rfl
  · intro g ids hg id hid
    exact (hs.groups g ids hg id hid).trans (Nat.le_succ _)
  · change Function.update (Function.update s.change (s.CounterID + 1) 0) (s.CounterID + 1) d = _
    rw [Function.update_idem]
    rfl
  · change Function.update s.attr (C n).Attr (s.attr (C n).Attr + d) = _
    rw [hvalue]

omit [DecidableEq ν] [DecidableEq γ] in
/-- Groups that are assigned to. -/
theorem regroup (hs : Maps C s) (groups : γ → Option (List Nat))
    (hg : ∀ g ids, groups g = some ids → ∀ id ∈ ids, id ≤ s.CounterID)
    (disabled : γ → Option (List (Option ν × List Integer))) :
    Maps C { s with CounterGroupMap := groups, CounterDisableMap := disabled } where
  map := hs.map
  sub := hs.sub
  ids := hs.ids
  groups := hg

end Maps

/-- A property that is kept when a counter is added alone, and that does not depend on groups or on other attributes. -/
structure KeptQuietly (C : ν → Info κ) (A : κ) (P : Obj κ ν γ → Prop) : Prop where
  add : ∀ {n args s c s'}, Maps C s → P s → QuietAt (s.CounterMap.map (place C)) ((C n).Attr, (C n).Pri) →
    AddedOne C n args s c s' → P s'
  regroup : ∀ {s}, P s → ∀ groups disabled, P { s with CounterGroupMap := groups, CounterDisableMap := disabled }
  set : ∀ {s}, P s → ∀ B v, B ≠ A → P (s.setAttr B v)

/-- The maps, and a property beside. -/
structure Good (C : ν → Info κ) (P : Obj κ ν γ → Prop) (s : Obj κ ν γ) : Prop extends Maps C s where
  holds : P s

namespace Good

variable {P : Obj κ ν γ → Prop} {s : Obj κ ν γ}

omit [DecidableEq ν] [DecidableEq γ] in
theorem assign (hP : KeptQuietly C A P) (hs : Good C P s) (groups : γ → Option (List Nat))
    (hg : ∀ g ids, groups g = some ids → ∀ id ∈ ids, id ≤ s.CounterID)
    (disabled : γ → Option (List (Option ν × List Integer))) :
    Good C P { s with CounterGroupMap := groups, CounterDisableMap := disabled } :=
  ⟨hs.toMaps.regroup groups hg disabled, hP.regroup hs.holds groups disabled⟩

/-- Counters at some places are added to an object. -/
structure Added (C : ν → Info κ) (P : Obj κ ν γ → Prop) (s : Obj κ ν γ) (ps : List (κ × ℚ)) (s' : Obj κ ν γ) :
    Prop where
  good : Good C P s'
  groups : s'.CounterGroupMap = s.CounterGroupMap
  disabled : s'.CounterDisableMap = s.CounterDisableMap
  grows : s.CounterID ≤ s'.CounterID
  map : ∃ cs, s'.CounterMap = s.CounterMap ++ cs ∧ (∀ c ∈ cs, s.CounterID < c.Id) ∧ cs.map (place C) = ps

omit [DecidableEq ν] [DecidableEq γ] in
theorem Added.nil (hs : Good C P s) : Added C P s [] s :=
  ⟨hs, rfl, rfl, le_rfl, [], (List.append_nil _).symm, fun _ h => (List.not_mem_nil h).elim, rfl⟩

omit [DecidableEq ν] [DecidableEq γ] in
/-- One counter is added, and then others. -/
theorem Added.cons {n : ν} {args : List Integer} {c : Counter ν} {ps : List (κ × ℚ)} {s₁ s₂ : Obj κ ν γ}
    (hone : AddedOne C n args s c s₁) (h : Added C P s₁ ps s₂) : Added C P s (((C n).Attr, (C n).Pri) :: ps) s₂ := by
  obtain ⟨-, rfl, hmap, -, hid, hgroups, hdisabled, -, -⟩ := hone
  obtain ⟨cs, hcs, hnew, hplace⟩ := h.map
  have hgrows := h.grows
  refine ⟨h.good, h.groups.trans hgroups, h.disabled.trans hdisabled, by omega, ?_⟩
  refine ⟨⟨s.CounterID + 1, n, args, (C n).Pri⟩ :: cs, ?_, ?_, ?_⟩
  · rw [hcs, hmap, List.append_assoc]
    rfl
  · intro e he
    rcases List.mem_cons.1 he with rfl | he
    · exact Nat.lt_succ_self _
    · have := hnew e he
      omega
  · rw [List.map_cons, hplace]
    rfl

omit [DecidableEq γ] in
/-- The loop of `AddCounterGroup`, up to a name that is unknown. -/
theorem addAll (hP : KeptQuietly C A P) : ∀ (list : List (Option ν × List Integer)) {s : Obj κ ν γ}, Good C P s →
    QuietAll (s.CounterMap.map (place C)) (placesOf C list) →
    Added C P s (placesOf C list) (addCounters C S list s).2 ∧ ∀ ids, (addCounters C S list s).1 = .ok ids →
      (∀ id ∈ ids, id ≤ (addCounters C S list s).2.CounterID) ∧ ∀ e ∈ list, e.1 ≠ none
  | [], s, hs, _ => by
    refine ⟨.nil hs, ?_⟩
    intro ids h
    cases h
    exact ⟨fun _ h => (List.not_mem_nil h).elim, fun _ h => (List.not_mem_nil h).elim⟩
  | (none, args) :: list, s, hs, _ => by
    refine ⟨.nil hs, ?_⟩
    intro ids h
    cases h
  | (some n, args) :: list, s, hs, hq => by
    obtain ⟨c, s₁, hadd, hone⟩ := hs.toMaps.add (S := S) args hq.1
    have hs₁ : Good C P s₁ := ⟨hone.maps, hP.add hs.toMaps hs.holds hq.1 hone⟩
    have hq₁ : QuietAll (s₁.CounterMap.map (place C)) (placesOf C list) := by
      rw [hone.map, hone.counter, List.map_append]
      exact hq.2
    obtain ⟨hadded, hok⟩ := addAll hP list hs₁ hq₁
    have hgrows := hadded.grows
    have hid := hone.id
    have hres : addCounters C S ((some n, args) :: list) s =
        ((addCounters C S list s₁).1.map fun ids => c.Id :: ids, (addCounters C S list s₁).2) := by
      rw [addCounters, hadd]
      dsimp only
      cases h : addCounters C S list s₁ with
      | mk r t => cases r <;> rfl
    rw [hres]
    constructor
    · exact hadded.cons hone
    · intro ids hids
      cases hr : (addCounters C S list s₁).1 with
      | error e =>
        rw [hr] at hids
        cases hids
      | ok ids' =>
        rw [hr] at hids
        cases hids
        obtain ⟨hle, hnames⟩ := hok ids' hr
        constructor
        · intro id hid'
          rcases List.mem_cons.1 hid' with rfl | hid'
          · rw [hone.counter]
            change s.CounterID + 1 ≤ (addCounters C S list s₁).2.CounterID
            omega
          · exact hle id hid'
        · intro e he
          rcases List.mem_cons.1 he with rfl | he
          · exact Option.some_ne_none _
          · exact hnames e he

/-- A group whose counters are gone is forgotten. -/
theorem DelCounterGroup_gone {g : γ} {notClean : Bool} (h : notClean = true ∨ s.CounterDisableMap g = none)
    (hg : GroupGone s g) :
    DelCounterGroup C S g notClean s = { s with CounterGroupMap := Function.update s.CounterGroupMap g none } := by
  have hguard : ¬(!notClean && (s.CounterDisableMap g).isSome) = true := by
    rcases h with rfl | h
    · simp
    · rw [h]
      simp
  unfold DelCounterGroup
  rw [if_neg hguard]
  cases hids : s.CounterGroupMap g with
  | none =>
    dsimp only
    rw [← hids, Function.update_eq_self]
  | some ids =>
    have hloop : ∀ js : List Nat, (∀ j ∈ js, j ∈ ids) → js.foldl (fun s id => DelCounter C S id s) s = s := by
      intro js hjs
      induction js with
      | nil => rfl
      | cons j js ih =>
        rw [List.foldl_cons, DelCounter_missing (hg ids hids j (hjs j List.mem_cons_self))]
        exact ih fun k hk => hjs k (List.mem_cons_of_mem _ hk)
    dsimp only
    rw [hloop ids fun _ h => h]

omit [DecidableEq ν] in
/-- The groups that are left when one is forgotten. -/
theorem forget (hs : Good C P s) (g : γ) :
    ∀ g' ids, Function.update s.CounterGroupMap g none g' = some ids → ∀ id ∈ ids, id ≤ s.CounterID := by
  intro g' ids h
  by_cases hg : g' = g
  · subst hg
    rw [Function.update_self] at h
    cases h
  · rw [Function.update_of_ne hg] at h
    exact hs.groups g' ids h

/-- `AddCounterGroup` for a group whose counters are gone. -/
theorem addGroup (hP : KeptQuietly C A P) {g : γ} {list : List (Option ν × List Integer)} (hs : Good C P s)
    (hd : s.CounterDisableMap g = none)
    (hg : GroupGone s g) (hq : QuietAll (s.CounterMap.map (place C)) (placesOf C list)) :
    Good C P (AddCounterGroup C S g list s).2 ∧
    (AddCounterGroup C S g list s).2.CounterDisableMap = s.CounterDisableMap ∧
      (∀ g', g' ≠ g → (AddCounterGroup C S g list s).2.CounterGroupMap g' = s.CounterGroupMap g') ∧
      (∃ cs, (AddCounterGroup C S g list s).2.CounterMap = s.CounterMap ++ cs ∧ (∀ c ∈ cs, s.CounterID < c.Id) ∧
        cs.map (place C) = placesOf C list) ∧
      ((AddCounterGroup C S g list s).1 = .ok () → ∀ e ∈ list, e.1 ≠ none) := by
  have hs₁ := hs.assign hP _ (hs.forget g) s.CounterDisableMap
  obtain ⟨⟨hs₂, hgroups, hdisabled, hgrow, hmap⟩, hok⟩ := hs₁.addAll (S := S) hP list hq
  have hother : ∀ g', g' ≠ g → Function.update s.CounterGroupMap g none g' = s.CounterGroupMap g' := fun g' h =>
    Function.update_of_ne h ..
  unfold AddCounterGroup
  rw [hd, DelCounterGroup_gone (Or.inr hd) hg]
  generalize addCounters C S list { s with CounterGroupMap := Function.update s.CounterGroupMap g none } = r at *
  obtain ⟨r, t⟩ := r
  cases r with
  | error e =>
    refine ⟨hs₂, hdisabled, fun g' h => ?_, hmap, fun h => ?_⟩
    · exact (congrFun hgroups g').trans (hother g' h)
    · cases h
  | ok ids =>
    obtain ⟨hle, hnames⟩ := hok ids rfl
    refine ⟨hs₂.assign hP _ ?_ _, hdisabled, fun g' h => ?_, hmap, fun _ => hnames⟩
    · intro g' js hjs
      by_cases hg' : g' = g
      · subst hg'
        rw [Function.update_self] at hjs
        cases hjs
        exact hle
      · rw [Function.update_of_ne hg'] at hjs
        exact hs₂.groups g' js hjs
    · change Function.update t.CounterGroupMap g (some ids) g' = _
      rw [Function.update_of_ne h]
      exact (congrFun hgroups g').trans (hother g' h)

/-- `DisableCounterByGroups` for groups whose counters are gone. -/
theorem disable (hP : KeptQuietly C A P) :
    ∀ (names : List γ) {s : Obj κ ν γ}, Good C P s → (∀ g ∈ names, GroupGone s g) →
    Good C P (DisableCounterByGroups C S names s).2
  | [], _, hs, _ => hs
  | g :: names, s, hs, hg => by
    unfold DisableCounterByGroups
    dsimp only
    split
    · exact hs.assign hP _ hs.groups _
    · have hgone : ∀ disabled, GroupGone { s with CounterDisableMap := disabled } g := fun _ => hg g List.mem_cons_self
      rw [DelCounterGroup_gone (Or.inl rfl) (hgone _)]
      apply disable hP names
      · exact hs.assign hP _ (hs.forget g) _
      · intro g' hg' ids hids
        change Function.update s.CounterGroupMap g none g' = some ids at hids
        by_cases hgg : g' = g
        · subst hgg
          rw [Function.update_self] at hids
          cases hids
        · rw [Function.update_of_ne hgg] at hids
          exact hg g' (List.mem_cons_of_mem _ hg') ids hids

/-- `EnableCounterByGroups` for groups whose counters are gone. -/
theorem enable (hP : KeptQuietly C A P) (gone : γ → Prop) : ∀ (names : List γ) {s : Obj κ ν γ}, Good C P s →
    (∀ g, s.CounterDisableMap g ≠ none → gone g → GroupGone s g) →
    QuietGroups C gone (s.CounterMap.map (place C)) s.CounterDisableMap names →
    Good C P (EnableCounterByGroups C S names s).2
  | [], _, hs, _, _ => hs
  | g :: names, s, hs, hgone, hq => by
    unfold EnableCounterByGroups
    unfold QuietGroups at hq
    cases hd : s.CounterDisableMap g with
    | none =>
      rw [hd] at hq
      exact enable hP gone names hs hgone hq
    | some list =>
      rw [hd] at hq
      obtain ⟨hg, hall, hrest⟩ := hq
      have hs₁ := hs.assign hP s.CounterGroupMap hs.groups (Function.update s.CounterDisableMap g none)
      have hg₁ : GroupGone { s with CounterDisableMap := Function.update s.CounterDisableMap g none } g :=
        hgone g (by rw [hd]; exact Option.some_ne_none _) hg
      obtain ⟨hs₂, hdisabled, hgroups, ⟨cs, hmap, hnew, hplace⟩, hok⟩ :=
        hs₁.addGroup (S := S) hP (Function.update_self ..) hg₁ hall
      dsimp only
      generalize AddCounterGroup C S g list
        { s with CounterDisableMap := Function.update s.CounterDisableMap g none } = r at *
      obtain ⟨r, t⟩ := r
      cases r with
      | error e => exact hs₂
      | ok u =>
        have hmap' : t.CounterMap = s.CounterMap ++ cs := hmap
        have hdis : t.CounterDisableMap = Function.update s.CounterDisableMap g none := hdisabled
        refine enable hP gone names hs₂ ?_ ?_
        · intro g' hg' hgone' ids hids c hc
          rw [hdis] at hg'
          have hne : g' ≠ g := by
            rintro rfl
            exact hg' (Function.update_self ..)
          rw [Function.update_of_ne hne] at hg'
          have hids' : s.CounterGroupMap g' = some ids := (hgroups g' hne).symm.trans hids
          intro d hd'
          rw [hmap', List.mem_append] at hd'
          rcases hd' with hd' | hd'
          · exact hgone g' hg' hgone' ids hids' c hc d hd'
          · have hle := hs.groups g' ids hids' c hc
            have hlt : s.CounterID < d.Id := hnew d hd'
            omega
        · rw [hmap', hdis, List.map_append, hplace]
          exact hrest (hok rfl)

/-- **One quiet action** keeps the property. -/
theorem next (hP : KeptQuietly C A P) (hs : Good C P s) (a : Action κ ν γ) (ha : Quiet C A s a) :
    Good C P (Counters.next C S s a) := by
  cases a with
  | AddCounter name args =>
    cases name with
    | none => exact hs
    | some n =>
      obtain ⟨c, s', hadd, hone⟩ := hs.toMaps.add (S := S) args ha.1
      change Good C P (AddCounter C S (some n) args s).2
      rw [hadd]
      exact ⟨hone.maps, hP.add hs.toMaps hs.holds ha.1 hone⟩
  | DelCounter id =>
    change Good C P (DelCounter C S id s)
    rw [DelCounter_missing ha]
    exact hs
  | AddCounterGroup name list =>
    cases hd : s.CounterDisableMap name with
    | none => exact (hs.addGroup hP hd (ha hd).1 (ha hd).2).1
    | some old =>
      change Good C P (AddCounterGroup C S name list s).2
      unfold AddCounterGroup
      rw [hd]
      exact hs.assign hP _ hs.groups _
  | DelCounterGroup name =>
    change Good C P (DelCounterGroup C S name false s)
    cases hd : s.CounterDisableMap name with
    | none =>
      rw [DelCounterGroup_gone (Or.inr hd) (ha hd)]
      exact hs.assign hP _ (hs.forget name) _
    | some old =>
      unfold DelCounterGroup
      rw [hd]
      exact hs.assign hP _ hs.groups _
  | DisableCounterByGroups names => exact hs.disable hP names ha
  | EnableCounterByGroups names => exact hs.enable hP (GroupGone s) names (fun _ _ h => h) ha
  | ClearCounter =>
    have hnil : s.CounterMap = [] := ha
    have hact : s.active = [] := hs.map.symm.trans hnil
    have hsub : s.CounterSubMap = fun _ => [] := by
      funext B
      rw [hs.sub, hact]
      rfl
    have hsame : ClearCounter s = s := by
      obtain ⟨attr, id, change, map, sub, groups, disabled, active⟩ := s
      cases hnil
      cases hact
      cases hsub
      rfl
    change Good C P (ClearCounter s)
    rw [hsame]
    exact hs
  | SetAttr Name v => exact ⟨⟨hs.map, hs.sub, hs.ids, hs.groups⟩, hP.set hs.holds Name v ha⟩

end Good

omit [DecidableEq ν] [DecidableEq γ] in
/-- The account is kept. -/
theorem keptQuietly_accounts (b : Integer) : KeptQuietly C A (Accounts C A b : Obj κ ν γ → Prop) where
  regroup h _ _ := h
  set {s} h B v hB := by
    change Function.update s.attr B v A = _
    rw [Function.update_of_ne hB.symm]
    exact h
  add {n args s c s'} hs h _ hone := by
    have hid : ∀ e ∈ s.active, e.Id ≠ c.Id := by
      intro e he
      have := hs.ids e he
      rw [hone.counter]
      change e.Id ≠ s.CounterID + 1
      omega
    have hname : c.Name = n := by rw [hone.counter]
    have hold : (countersOn C A s.active).map (fun e => s'.change e.Id) = (countersOn C A s.active).map fun e =>
      s.change e.Id := by
      apply List.map_congr_left
      intro e he
      rw [hone.change, Function.update_of_ne (hid e (List.mem_of_mem_filter he))]
    unfold Accounts changesOn at h ⊢
    rw [hone.active, countersOn_append, List.map_append, List.sum_append, hold, ← add_assoc, ← h, hone.attr, hname]
    by_cases hA : A = (C n).Attr
    · subst hA
      rw [Function.update_self, if_pos rfl, List.map_singleton, List.sum_singleton, hone.change, Function.update_self]
      abel
    · rw [Function.update_of_ne hA, if_neg fun h => hA h.symm, List.map_nil, List.sum_nil, add_zero]

/-- **Counters add up**: in every state of a run of quiet actions an attribute is its first value and the sum of the
changes of its active counters. -/
theorem counter_accounting (C : ν → Info κ) (S : Sorting ν) (A : κ) (attr : κ → Integer) (as : List (Action κ ν γ))
    (h : Along (next C S) (Quiet C A) (Obj.init attr) as) :
    Throughout (next C S) (Accounts C A (attr A)) (Obj.init attr) as := by
  have hinit : Good C (Accounts C A (attr A)) (Obj.init attr : Obj κ ν γ) := ⟨Maps.init attr, (add_zero _).symm⟩
  have hkeep : ∀ (s : Obj κ ν γ) a, Good C (Accounts C A (attr A)) s → Quiet C A s a →
      Good C (Accounts C A (attr A)) (next C S s a) := fun _ a hs ha => hs.next (keptQuietly_accounts _) a ha
  exact (h.throughout hkeep hinit).mono fun _ hs => hs.holds

/-- A configuration with one counter, that adds its argument to the only attribute. -/
def boost (_ : Unit) : Info Unit where
  Formula attr args := attr () + args.headD 0
  Pri := 1
  Attr := ()

/-- A boost over others of its priority. -/
theorem quiet_boost {s : Obj Unit Unit Unit} (args : List Integer) (h : ∀ c ∈ s.CounterMap, c.Pri = 1) :
    Quiet boost () s (.AddCounter (some ()) args) := by
  refine ⟨?_, trivial⟩
  intro q hq _
  obtain ⟨c, hc, rfl⟩ := List.mem_map.1 hq
  change again 1 c.Pri = false
  rw [h c hc]
  decide +kernel

theorem counter_accounting_boost :
    Throughout (next boost .insertion) (Accounts boost () 100) (Obj.init fun _ => 100 : Obj Unit Unit Unit)
    [.AddCounter (some ()) [10], .AddCounter (some ()) [5]] := by
  apply counter_accounting boost .insertion () (fun _ => 100)
  exact ⟨quiet_boost [10] (by decide), quiet_boost [5] (by decide +kernel), trivial⟩

/-- A counter that has been added and deleted. -/
def addedAndDeleted : Obj Unit Unit Unit :=
  [Action.AddCounter (some ()) [10], .DelCounter 1].foldl (next boost .insertion) (Obj.init fun _ => 0)

/-- A counter that is added and deleted leaves its change. -/
theorem deleted_counter_stays : addedAndDeleted.active = [] ∧ addedAndDeleted.attr () = 10 ∧
    ¬Accounts boost () 0 addedAndDeleted := by
  decide +kernel

end XCore.Counters
