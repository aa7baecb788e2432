import Mathlib.Data.BitVec
import Mathlib.Data.List.Sort
import Mathlib.Data.Rat.Floor
import XCore.Lib.Run
import XCore.Lua.Str

/-!
# Counters of objects (`base/class.lua`)

A counter changes an attribute of its object: `FlushCounter` computes its `Change` from a formula, in the order of the
priorities, and `RunCounters` adds it. Attributes are 64-bit integers; what their `Set` does beside that (other
attributes and events) is left out.

The class defines `DelCounter` twice. The second definition, which takes an id, replaces the first, which takes a
counter and subtracts its `Change`; so `self:DelCounter(counter)` looks the counter up as an id and does nothing
(`DelCounterOf`).
-/

namespace XCore.Counters

open XCore.Lua

/-- An integer of Lua. -/
abbrev Integer := BitVec 64

/-- What a configuration says of a counter: the compiled formula, given the object's attributes and the arguments. -/
structure Info (κ : Type) where
  Formula : (κ → Integer) → List Integer → Integer
  Pri : ℚ
  Attr : κ

/-- A counter; its field `Change`, which is assigned to, is kept by `Id` in the object. -/
structure Counter (ν : Type) where
  Id : Nat
  Name : ν
  Var : List Integer
  Pri : ℚ
  deriving DecidableEq

/-- An object: its attributes, the counters of `InitCounter`, and the counters that have been added and not since
deleted, disabled or cleared, which no code reads. -/
structure Obj (κ ν γ : Type) where
  attr : κ → Integer
  CounterID : Nat
  change : Nat → Integer
  CounterMap : List (Counter ν)
  CounterSubMap : κ → List (Counter ν)
  CounterGroupMap : γ → Option (List Nat)
  CounterDisableMap : γ → Option (List (Option ν × List Integer))
  active : List (Counter ν)

/-- A way in which `table.sort` and `pairs` may order counters. -/
structure Sorting (ν : Type) where
  sort : List (Counter ν) → List (Counter ν)
  perm : ∀ l, (sort l).Perm l
  sorted : ∀ l, (sort l).Pairwise fun a b => a.Pri ≤ b.Pri

/-- Insertion sort by priority. -/
def Sorting.insertion {ν : Type} : Sorting ν where
  sort := List.insertionSort fun a b => a.Pri ≤ b.Pri
  perm := List.perm_insertionSort _
  sorted l := by
    have htotal : Std.Total fun a b : Counter ν => a.Pri ≤ b.Pri := ⟨fun a b => le_total a.Pri b.Pri⟩
    have htrans : IsTrans (Counter ν) fun a b => a.Pri ≤ b.Pri := ⟨fun _ _ _ => le_trans⟩
    exact List.pairwise_insertionSort _ l

variable {κ ν γ : Type} [DecidableEq κ] [DecidableEq ν] [DecidableEq γ]

/-- An object after `InitCounter`. -/
def Obj.init (attr : κ → Integer) : Obj κ ν γ :=
  { attr := attr
    CounterID := 0
    change := fun _ => 0
    CounterMap := []
    CounterSubMap := fun _ => []
    CounterGroupMap := fun _ => none
    CounterDisableMap := fun _ => none
    active := [] }

/-- The second result of `math.modf`. -/
def fracVal (p : ℚ) : ℚ := p - if 0 ≤ p then (⌊p⌋ : ℚ) else (⌈p⌉ : ℚ)

/-- `FlushCounter` for one priority runs the counters of another one again. -/
def again (CounterPri Pri : ℚ) : Bool :=
  (fracVal CounterPri = 0 && CounterPri < Pri) || (0 < fracVal CounterPri && CounterPri ≤ Pri)

theorem fracVal_intCast (k : ℤ) : fracVal k = 0 := by
  unfold fracVal
  rw [Int.floor_intCast, Int.ceil_intCast, ite_self, sub_self]

/-- A counter of an integer priority is run again for those below. -/
theorem again_intCast (k : ℤ) (q : ℚ) : again k q = decide ((k : ℚ) < q) := by
  unfold again
  rw [fracVal_intCast]
  simp

namespace Obj

/-- An assignment to an attribute. -/
def setAttr (s : Obj κ ν γ) (Name : κ) (v : Integer) : Obj κ ν γ := { s with attr := Function.update s.attr Name v }

/-- An assignment to the field `Change` of a counter. -/
def setChange (s : Obj κ ν γ) (c : Counter ν) (v : Integer) : Obj κ ν γ :=
  { s with change := Function.update s.change c.Id v }

/-- The entries of a counter in `__CounterMap` and `__CounterSubMap`. -/
def put (s : Obj κ ν γ) (Name : κ) (c : Counter ν) : Obj κ ν γ :=
  { s with
    CounterMap := if c ∈ s.CounterMap then s.CounterMap else s.CounterMap ++ [c]
    CounterSubMap := Function.update s.CounterSubMap Name
      (if c ∈ s.CounterSubMap Name then s.CounterSubMap Name else s.CounterSubMap Name ++ [c]) }

/-- `self:DelCounter(counter, noclean)`: a counter is no key of `__CounterMap`. -/
def DelCounterOf (s : Obj κ ν γ) (_counter : Counter ν) : Obj κ ν γ := s

/-- `RunCounters`. -/
def RunCounters (s : Obj κ ν γ) (Name : κ) (List : List (Counter ν)) : Obj κ ν γ :=
  let Var := List.foldl (fun v c => v + s.change c.Id) (s.attr Name)
  (List.foldl (fun s c => s.put Name c) s).setAttr Name Var

end Obj

variable (C : ν → Info κ) (S : Sorting ν)

/-- The second loop of `FlushCounter`, from a counter on, with `CurPri`, `BaseVar` and `CacheList`; `RunCounters` of the
rest. -/
def flushLoop (Name : κ) : List (Counter ν) → ℚ → Integer → List (Counter ν) → Obj κ ν γ → Obj κ ν γ
  | [], _, _, CacheList, s => s.RunCounters Name CacheList
  | c :: cs, CurPri, BaseVar, CacheList, s =>
    if c.Pri ≠ CurPri ∨ 0 < fracVal CurPri then
      let s := s.RunCounters Name CacheList
      let BaseVar := s.attr Name
      flushLoop Name cs c.Pri BaseVar [c] (s.setChange c ((C c.Name).Formula s.attr c.Var - BaseVar))
    else
      flushLoop Name cs CurPri BaseVar (CacheList ++ [c]) (s.setChange c ((C c.Name).Formula s.attr c.Var - BaseVar))

/-- `FlushCounter`. -/
def FlushCounter (Name : κ) (CounterPri : ℚ) (CounterList : List (Counter ν)) (s : Obj κ ν γ) : Obj κ ν γ :=
  let old := (s.CounterSubMap Name).filter fun c => again CounterPri c.Pri
  let s := old.foldl (fun s c => (s.DelCounterOf c).setChange c 0) s
  flushLoop C Name (S.sort (CounterList ++ old)) CounterPri (s.attr Name) [] s

/-- `AddCounter`; a name without an entry in the configuration is `none`. -/
def AddCounter (name : Option ν) (args : List Integer) (s : Obj κ ν γ) : Except LuaError Nat × Obj κ ν γ :=
  match name with
  | none => (.error .assertion, s)
  | some n =>
    let id := s.CounterID + 1
    let counter : Counter ν := ⟨id, n, args, (C n).Pri⟩
    let s := { s with CounterID := id, change := Function.update s.change id 0, active := s.active ++ [counter] }
    (.ok id, FlushCounter C S (C n).Attr (C n).Pri [counter] s)

/-- `DelCounter`, with an id. -/
def DelCounter (id : Nat) (s : Obj κ ν γ) : Obj κ ν γ :=
  match s.CounterMap.find? fun c => c.Id = id with
  | none => s
  | some counter =>
    let s := { s with active := s.active.filter fun c => c.Id ≠ id }
    FlushCounter C S (C counter.Name).Attr counter.Pri [] (s.DelCounterOf counter)

/-- `ClearCounter`. -/
def ClearCounter (s : Obj κ ν γ) : Obj κ ν γ :=
  let s := s.CounterMap.foldl (fun s c => s.DelCounterOf c) s
  { s with CounterMap := [], CounterSubMap := fun _ => [], active := [] }

/-- `DelCounterGroup`. -/
def DelCounterGroup (name : γ) (notCleanDisable : Bool) (s : Obj κ ν γ) : Obj κ ν γ :=
  if !notCleanDisable && (s.CounterDisableMap name).isSome then
    { s with CounterDisableMap := Function.update s.CounterDisableMap name none }
  else
    match s.CounterGroupMap name with
    | none => s
    | some ids =>
      let s := ids.foldl (fun s id => DelCounter C S id s) s
      { s with CounterGroupMap := Function.update s.CounterGroupMap name none }

/-- The loop of `AddCounterGroup`. -/
def addCounters : List (Option ν × List Integer) → Obj κ ν γ → Except LuaError (List Nat) × Obj κ ν γ
  | [], s => (.ok [], s)
  | (name, args) :: list, s =>
    match AddCounter C S name args s with
    | (.error e, s) => (.error e, s)
    | (.ok id, s) =>
      match addCounters list s with
      | (.error e, s) => (.error e, s)
      | (.ok ids, s) => (.ok (id :: ids), s)

/-- `AddCounterGroup`. -/
def AddCounterGroup (name : γ) (list : List (Option ν × List Integer)) (s : Obj κ ν γ) :
    Except LuaError Unit × Obj κ ν γ :=
  if (s.CounterDisableMap name).isSome then
    (.ok (), { s with CounterDisableMap := Function.update s.CounterDisableMap name (some list) })
  else
    match addCounters C S list (DelCounterGroup C S name false s) with
    | (.error e, s) => (.error e, s)
    | (.ok ids, s) => (.ok (), { s with CounterGroupMap := Function.update s.CounterGroupMap name (some ids) })

/-- What `DisableCounterByGroups` notes of the counters of a group, until one is missing, and whether one is. -/
def disabledOf (s : Obj κ ν γ) : List Nat → List (Option ν × List Integer) × Bool
  | [] => ([], false)
  | Id :: ids =>
    match s.CounterMap.find? fun c => c.Id = Id with
    | none => ([], true)
    | some Counter => ((some Counter.Name, Counter.Var) :: (disabledOf s ids).1, (disabledOf s ids).2)

/-- `DisableCounterByGroups`; the notes are added to the list of the group, which is a new one if the group has none. -/
def DisableCounterByGroups : List γ → Obj κ ν γ → Except LuaError Unit × Obj κ ν γ
  | [], s => (.ok (), s)
  | v :: names, s =>
    let notes := disabledOf s ((s.CounterGroupMap v).getD [])
    let list := (s.CounterDisableMap v).getD [] ++ notes.1
    if notes.2 then
      let kept := (s.CounterDisableMap v).map fun _ => list
      (.error .indexNil, { s with CounterDisableMap := Function.update s.CounterDisableMap v kept })
    else
      let s := { s with CounterDisableMap := Function.update s.CounterDisableMap v (some list) }
      DisableCounterByGroups names (DelCounterGroup C S v true s)

/-- `EnableCounterByGroups`. -/
def EnableCounterByGroups : List γ → Obj κ ν γ → Except LuaError Unit × Obj κ ν γ
  | [], s => (.ok (), s)
  | GroupName :: names, s =>
    match s.CounterDisableMap GroupName with
    | none => EnableCounterByGroups names s
    | some InfoList =>
      let s := { s with CounterDisableMap := Function.update s.CounterDisableMap GroupName none }
      match AddCounterGroup C S GroupName InfoList s with
      | (.error e, s) => (.error e, s)
      | (.ok _, s) => EnableCounterByGroups names s

/-- A call on an object; `SetAttr` is the method of an attribute. -/
inductive Action (κ ν γ : Type)
  | AddCounter (name : Option ν) (args : List Integer)
  | DelCounter (id : Nat)
  | AddCounterGroup (name : γ) (list : List (Option ν × List Integer))
  | DelCounterGroup (name : γ)
  | DisableCounterByGroups (names : List γ)
  | EnableCounterByGroups (names : List γ)
  | ClearCounter
  | SetAttr (Name : κ) (v : Integer)

/-- The object after a call, whether it returns or raises. -/
def next (s : Obj κ ν γ) : Action κ ν γ → Obj κ ν γ
  | .AddCounter name args => (AddCounter C S name args s).2
  | .DelCounter id => DelCounter C S id s
  | .AddCounterGroup name list => (AddCounterGroup C S name list s).2
  | .DelCounterGroup name => DelCounterGroup C S name false s
  | .DisableCounterByGroups names => (DisableCounterByGroups C S names s).2
  | .EnableCounterByGroups names => (EnableCounterByGroups C S names s).2
  | .ClearCounter => ClearCounter s
  | .SetAttr Name v => s.setAttr Name v

/-! ## What the functions do -/

section

variable {C S} {s : Obj κ ν γ} {A : κ} {c : Counter ν}

omit [DecidableEq κ] [DecidableEq ν] in
@[simp] theorem sort_singleton : S.sort [c] = [c] := List.perm_singleton.1 (S.perm [c])

omit [DecidableEq κ] [DecidableEq ν] in
@[simp] theorem sort_nil : S.sort [] = [] := List.perm_nil.1 (S.perm [])

omit [DecidableEq γ] in
theorem RunCounters_nil : s.RunCounters A [] = s := by
  unfold Obj.RunCounters Obj.setAttr
  dsimp only
  rw [List.foldl_nil, List.foldl_nil, Function.update_eq_self]

/-- The value that a counter adds when it is run alone. -/
def changeOf (C : ν → Info κ) (s : Obj κ ν γ) (A : κ) (c : Counter ν) : Integer :=
  (C c.Name).Formula s.attr c.Var - s.attr A

omit [DecidableEq γ] in
/-- A flush of one counter that runs no other again. -/
theorem FlushCounter_one {p : ℚ} (h : ∀ d ∈ s.CounterSubMap A, again p d.Pri = false) : FlushCounter C S A p [c] s =
    ((s.setChange c (changeOf C s A c)).put A c).setAttr A (s.attr A + changeOf C s A c) := by
  have hold : (s.CounterSubMap A).filter (fun d => again p d.Pri) = [] := by
    rw [List.filter_eq_nil_iff]
    intro d hd
    rw [h d hd]
    decide
  have hrun : (s.setChange c (changeOf C s A c)).RunCounters A [c] =
      ((s.setChange c (changeOf C s A c)).put A c).setAttr A (s.attr A + changeOf C s A c) := by
    unfold Obj.RunCounters
    rw [List.foldl_cons, List.foldl_nil, List.foldl_cons, List.foldl_nil]
    simp [Obj.setChange]
  unfold FlushCounter
  dsimp only
  rw [hold, List.foldl_nil, List.append_nil, sort_singleton, flushLoop]
  split
  · rw [RunCounters_nil]
    exact hrun
  · exact hrun

omit [DecidableEq γ] in
/-- A flush of no counter that runs no other again. -/
theorem FlushCounter_nil {p : ℚ} (h : ∀ d ∈ s.CounterSubMap A, again p d.Pri = false) :
    FlushCounter C S A p [] s = s := by
  have hold : (s.CounterSubMap A).filter (fun d => again p d.Pri) = [] := by
    rw [List.filter_eq_nil_iff]
    intro d hd
    rw [h d hd]
    decide
  unfold FlushCounter
  dsimp only
  rw [hold, List.foldl_nil, List.append_nil, sort_nil, flushLoop, RunCounters_nil]

omit [DecidableEq γ] in
/-- An id without a counter. -/
theorem DelCounter_missing {id : Nat} (h : ∀ c ∈ s.CounterMap, c.Id ≠ id) : DelCounter C S id s = s := by
  have hnone : s.CounterMap.find? (fun c => c.Id = id) = none := by
    rw [List.find?_eq_none]
    intro c hc
    rw [decide_eq_true_eq]
    exact h c hc
  unfold DelCounter
  rw [hnone]

end

end XCore.Counters
