import Mathlib.Data.List.AList
import XCore.Class.Attribute
import XCore.Class.Counter
import XCore.Lib.Raise

/-!
# Objects with attributes and counters (`base/class.lua`)

An object of a class whose `InitAttribute` has been called: the attributes of both stores with the flags for saving, and
the counters, which change attributes through their methods `Get` and `Set`. A formula is the function of a field
`__Counter_`; it reads and sets attributes of its object, and may raise (`Code`). Methods are computations on the
object; an error leaves it as it is when it is raised.

A table of a counter is known by its `Id`. The methods of names that replace those of the class (an attribute
`SaveData`, say) are left out, and so are formulas that call methods other than `Get` and `Set` of attributes.
-/

namespace XCore.Objects

open XCore.Lua XCore.Raise
open XCore.CObject (Value Store)
open XCore.Counters (fracVal again)

/-- What a formula does with its object. -/
inductive Code (κ α : Type)
  | ret (v : Value α)
  | raise
  | get (k : κ) (next : Value α → Code κ α)
  | set (k : κ) (v : Value α) (noclean : Bool) (next : Code κ α)

/-- A formula, given `Args`; `Get` calls those of attributes without. -/
abbrev Formula (κ β α : Type) := Option (List β) → Code κ α

/-- What a configuration says of a counter. -/
structure Info (κ β α : Type) where
  Formula : Formula κ β α
  Pri : ℚ
  Attr : κ

/-- A configuration of `InitAttribute`: the attributes of each store with their formulas, `Relation`, and the counters,
if any. -/
structure Config (κ β α : Type) where
  Save : κ → Option (Option (Formula κ β α))
  Temp : κ → Option (Option (Formula κ β α))
  Relation : κ → List κ
  Counter : Option (κ → Option (Info κ β α))

/-- A counter. -/
structure Counter (κ β α : Type) where
  Name : κ
  Var : List β
  Pri : ℚ
  Change : Value α

/-- An event of `OnEvent`, with its `Name`. -/
inductive Event (κ : Type)
  | AttrChange (k : κ)
  | CounterChange (k : κ)

/-- An entry under a key that may be there already. -/
def enter (l : List Nat) (id : Nat) : List Nat := if id ∈ l then l else l ++ [id]

theorem mem_enter {l : List Nat} {id i : Nat} : i ∈ enter l id ↔ i ∈ l ∨ i = id := by
  unfold enter
  split
  · rename_i h
    exact ⟨.inl, fun hi => hi.elim (fun h => h) fun hi => hi ▸ h⟩
  · rw [List.mem_append, List.mem_singleton]

/-- An object; `counters` are the tables that `AddCounter` has made, `SaveAttrFlag` is a set of keys. `active` are the
counters that have been added and not since deleted, disabled or cleared, which no code reads. -/
structure Obj (κ γ β α : Type) where
  TempAttr : κ → Value α
  SaveAttr : κ → Value α
  SaveAttrFlag : List κ
  events : List (Event κ)
  CounterID : Nat
  counters : Nat → Option (Counter κ β α)
  CounterMap : List Nat
  CounterSubMap : κ → List Nat
  CounterGroupMap : γ → Option (List Nat)
  CounterDisableMap : AList fun _ : γ => List (κ × List β)
  active : List Nat

/-- The arithmetic of the values, and orders in which `table.sort` and `pairs` may give counters and groups. -/
structure Machine (γ α : Type) where
  zero : Value α
  add : Value α → Value α → Except LuaError (Value α)
  sub : Value α → Value α → Except LuaError (Value α)
  sort : (Nat → ℚ) → List Nat → List Nat
  perm : ∀ pri l, (sort pri l).Perm l
  sorted : ∀ pri l, (sort pri l).Pairwise fun a b => pri a ≤ pri b
  pairs : List γ → List γ
  perm_pairs : ∀ l, (pairs l).Perm l

/-- The arithmetic of numbers, and sorting by insertion. -/
def Machine.numbers (α : Type) [Zero α] [Add α] [Sub α] : Machine Nat α where
  zero := .val 0
  add
    | .val a, .val b => .ok (.val (a + b))
    | _, _ => .error .arithNil
  sub
    | .val a, .val b => .ok (.val (a - b))
    | _, _ => .error .arithNil
  sort pri := List.insertionSort fun a b => pri a ≤ pri b
  perm _ := List.perm_insertionSort _
  sorted pri l := by
    have htotal : Std.Total fun a b : Nat => pri a ≤ pri b := ⟨fun a b => le_total (pri a) (pri b)⟩
    have htrans : IsTrans Nat fun a b => pri a ≤ pri b := ⟨fun _ _ _ => le_trans⟩
    exact List.pairwise_insertionSort _ l
  pairs := id
  perm_pairs := List.Perm.refl

/-- The arithmetic of integers. -/
abbrev Machine.integers : Machine Nat ℤ := .numbers ℤ

/-- A method of an object. -/
abbrev Method (κ γ β α ρ : Type) := Act (Obj κ γ β α) LuaError ρ

variable {κ γ β α : Type} [DecidableEq κ] [DecidableEq γ]

namespace Obj

variable (s : Obj κ γ β α)

omit [DecidableEq κ] [DecidableEq γ] in
/-- `CObject:New`. -/
def new : Obj κ γ β α :=
  { TempAttr := fun _ => .nil
    SaveAttr := fun _ => .nil
    SaveAttrFlag := []
    events := []
    CounterID := 0
    counters := fun _ => none
    CounterMap := []
    CounterSubMap := fun _ => []
    CounterGroupMap := fun _ => none
    CounterDisableMap := ∅
    active := [] }

/-- The value of an attribute in a store. -/
def kept (st : Store) (k : κ) : Value α :=
  match st with
  | .temp => s.TempAttr k
  | .save => s.SaveAttr k

/-- An assignment to `__TempAttr`. -/
def writeTemp (k : κ) (v : Value α) : Obj κ γ β α := { s with TempAttr := Function.update s.TempAttr k v }

/-- An assignment to `__SaveAttr`. -/
def writeSave (k : κ) (v : Value α) : Obj κ γ β α := { s with SaveAttr := Function.update s.SaveAttr k v }

/-- An assignment to `__SaveAttrFlag`. -/
def flag (k : κ) : Obj κ γ β α := { s with SaveAttrFlag := s.SaveAttrFlag.insert k }

/-- `OnEvent`. -/
def OnEvent (e : Event κ) : Obj κ γ β α := { s with events := s.events ++ [e] }

/-- `GetSaveData`. -/
def GetSaveData : κ → Value α := s.SaveAttr

/-- `CheckSave`. -/
def CheckSave : Bool := !s.SaveAttrFlag.isEmpty

/-- `ClearSave`. -/
def ClearSave : Obj κ γ β α := { s with SaveAttrFlag := [] }

/-- `Load`. -/
def Load (data : κ → Value α) : Obj κ γ β α := { s with SaveAttr := data, SaveAttrFlag := [] }

/-- A counter with a new id. -/
def alloc (c : Counter κ β α) : Obj κ γ β α :=
  { s with CounterID := s.CounterID + 1, counters := Function.update s.counters (s.CounterID + 1) (some c) }

/-- An assignment to the field `Change` of a counter. -/
def setChange (id : Nat) (v : Value α) : Obj κ γ β α :=
  { s with counters := Function.update s.counters id ((s.counters id).map fun c => { c with Change := v }) }

/-- The entries of a counter in `__CounterMap` and `__CounterSubMap`. -/
def put (Name : κ) (id : Nat) : Obj κ γ β α :=
  { s with
    CounterMap := enter s.CounterMap id
    CounterSubMap := Function.update s.CounterSubMap Name (enter (s.CounterSubMap Name) id) }

/-- Other counters are active. -/
def setActive (ids : List Nat) : Obj κ γ β α := { s with active := ids }

/-- The priority of a counter. -/
def pri (id : Nat) : ℚ := ((s.counters id).map Counter.Pri).getD 0

end Obj

/-- The table of a counter; whoever has an id has its table. -/
def counter (id : Nat) : Method κ γ β α (Counter κ β α) := do
  match (← get).counters id with
  | none => throw .indexNil
  | some c => pure c

namespace Config

variable (C : Config κ β α) (E : Machine γ α)

/-! ## Attributes -/

/-- The store of an attribute: the methods of `RegTempAttr` replace those of `RegSaveAttr`. -/
def store (k : κ) : Option Store :=
  if (C.Temp k).isSome then some .temp else if (C.Save k).isSome then some .save else none

/-- The field `__Counter_` of a name: `InitCounter` comes last. -/
def formula (k : κ) : Option (Formula κ β α) :=
  (C.Counter.bind fun info => (info k).map Info.Formula) <|> (C.Temp k).join <|> (C.Save k).join

/-- `Set` of a temporary attribute; the global `NoClean` that it tests is never assigned. -/
def SetTemp (k : κ) (value : Value α) (_noclean : Bool) (s : Obj κ γ β α) : Obj κ γ β α :=
  (C.Relation k).foldl (fun s d => (s.writeTemp d .nil).OnEvent (.AttrChange d))
    ((s.writeTemp k value).OnEvent (.AttrChange k))

/-- `Set` of a saved attribute. -/
def SetSave (k : κ) (value : Value α) (noclean : Bool) (s : Obj κ γ β α) : Obj κ γ β α :=
  let s := ((s.writeSave k value).flag k).OnEvent (.AttrChange k)
  if noclean then s else (C.Relation k).foldl (fun s d => (s.writeSave d .nil).OnEvent (.AttrChange d)) s

/-- `Set` of an attribute. -/
def Set (k : κ) (value : Value α) (noclean : Bool) : Method κ γ β α Unit :=
  match C.store k with
  | none => throw .callNil
  | some .temp => modify (C.SetTemp k value noclean)
  | some .save => modify (C.SetSave k value noclean)

/-- The run of a formula. -/
def run (Get : κ → Method κ γ β α (Value α)) : Code κ α → Method κ γ β α (Value α)
  | .ret v => pure v
  | .raise => throw .raised
  | .get k next => do run Get (next (← Get k))
  | .set k v noclean next => do
    C.Set k v noclean
    run Get next

/-- `Get` of an attribute, with a bound on the depth of calls. -/
def Get : Nat → κ → Method κ γ β α (Value α)
  | 0, _ => throw .stackOverflow
  | n + 1, k =>
    match C.store k with
    | none => throw .callNil
    | some st => do
      let s ← get
      let val := s.kept st k
      if val.truthy then pure val
      else
        match C.formula k with
        | none => pure .nil
        | some f => do
          let val ← C.run (Get n) (f none)
          C.Set k val false
          pure val

/-- `SetAttrs`; names without a method `Set` are skipped. -/
def SetAttrs (tbl : List (κ × Value α)) : Method κ γ β α Unit :=
  tbl.forM fun e => if (C.store e.1).isSome then C.Set e.1 e.2 false else pure ()

/-! ## Counters -/

variable (n : Nat)

/-- One turn of `RunCounters`. -/
def runCounter (Name : κ) (Var : Value α) (id : Nat) : Method κ γ β α (Value α) := do
  let Var ← ofResult (E.add Var (← counter id).Change)
  modify fun s => s.put Name id
  pure Var

/-- `RunCounters`. -/
def RunCounters (Name : κ) (List : List Nat) (NoClean : Bool) : Method κ γ β α Unit := do
  let Var ← C.Get n Name
  let Var ← List.foldlM (runCounter E Name) Var
  C.Set Name Var NoClean

/-- The call of a counter's formula; `BaseVar` is subtracted. -/
def change (id : Nat) (c : Objects.Counter κ β α) (BaseVar : Value α) : Method κ γ β α Unit :=
  match C.formula c.Name with
  | none => throw .callNil
  | some f => do
    let v ← C.run (C.Get n) (f (some c.Var))
    let Change ← ofResult (E.sub v BaseVar)
    modify fun s => s.setChange id Change

/-- The second loop of `FlushCounter`, from a counter on, with `CurPri`, `BaseVar` and `CacheList`; `RunCounters` of the
rest. -/
def flushLoop (Name : κ) : List Nat → ℚ → Value α → List Nat → Method κ γ β α Unit
  | [], _, _, CacheList => C.RunCounters E n Name CacheList false
  | id :: ids, CurPri, BaseVar, CacheList => do
    let c ← counter id
    if c.Pri ≠ CurPri ∨ 0 < fracVal CurPri then
      C.RunCounters E n Name CacheList true
      let BaseVar ← C.Get n Name
      C.change E n id c BaseVar
      flushLoop Name ids c.Pri BaseVar [id]
    else
      C.change E n id c BaseVar
      flushLoop Name ids CurPri BaseVar (CacheList ++ [id])

/-- `FlushCounter`; `self:DelCounter(counter, true)` takes the counter for an id, and does nothing. -/
def FlushCounter (Name : κ) (CounterPri : ℚ) (CounterList : List Nat) : Method κ γ β α Unit := do
  let s ← get
  let old := (s.CounterSubMap Name).filter fun id => again CounterPri (s.pri id)
  old.forM fun id => modify fun s => s.setChange id E.zero
  let BaseVar ← C.Get n Name
  C.flushLoop E n Name (E.sort s.pri (CounterList ++ old)) CounterPri BaseVar []
  modify fun s => s.OnEvent (.CounterChange Name)

variable (info : κ → Option (Info κ β α))

/-- `AddCounter` of an object with counters. -/
def AddCounter (name : κ) (args : List β) : Method κ γ β α Nat :=
  match info name with
  | none => throw .assertion
  | some i => do
    let id := (← get).CounterID + 1
    modify fun s => s.alloc ⟨name, args, i.Pri, E.zero⟩
    C.FlushCounter E n i.Attr i.Pri [id]
    modify fun s => s.setActive (s.active ++ [id])
    pure id

/-- `DelCounter`, with an id; `self:DelCounter(counter)` does nothing, so the counter stays. -/
def DelCounter (id : Nat) : Method κ γ β α Unit := do
  if id ∈ (← get).CounterMap then
    modify fun s => s.setActive (s.active.filter (· ≠ id))
    let c ← counter id
    match info c.Name with
    | none => throw .assertion
    | some i => C.FlushCounter E n i.Attr c.Pri []
  else pure ()

/-- `ClearCounter`. -/
def ClearCounter : Method κ γ β α Unit :=
  modify fun s => { s with CounterMap := [], CounterSubMap := fun _ => [], active := [] }

/-! ## Groups of counters -/

/-- `DelCounterGroup`. -/
def DelCounterGroup (name : γ) (notCleanDisable : Bool) : Method κ γ β α Unit := do
  let s ← get
  if !notCleanDisable && (s.CounterDisableMap.lookup name).isSome then
    modify fun s => { s with CounterDisableMap := s.CounterDisableMap.erase name }
  else
    match s.CounterGroupMap name with
    | none => pure ()
    | some ids => do
      ids.forM fun id => C.DelCounter E n info id
      modify fun s => { s with CounterGroupMap := Function.update s.CounterGroupMap name none }

/-- `AddCounterGroup`. -/
def AddCounterGroup (name : γ) (list : List (κ × List β)) : Method κ γ β α Unit := do
  if ((← get).CounterDisableMap.lookup name).isSome then
    modify fun s => { s with CounterDisableMap := s.CounterDisableMap.insert name list }
  else
    C.DelCounterGroup E n info name false
    let CounterList ← list.mapM fun v => C.AddCounter E n info v.1 v.2
    modify fun s => { s with CounterGroupMap := Function.update s.CounterGroupMap name (some CounterList) }

/-- What `DisableCounterByGroups` notes of a counter. -/
def noteOf (id : Nat) : Method κ γ β α (κ × List β) := do
  if id ∈ (← get).CounterMap then
    let c ← counter id
    pure (c.Name, c.Var)
  else throw .indexNil

/-- One turn of the inner loop of `DisableCounterByGroups`; a list that is in the map already grows there. -/
def noteCounter (v : γ) (isOld : Bool) (list : List (κ × List β)) (id : Nat) : Method κ γ β α (List (κ × List β)) := do
  let note ← noteOf id
  if isOld then modify fun s => { s with CounterDisableMap := s.CounterDisableMap.insert v (list ++ [note]) }
  pure (list ++ [note])

/-- One turn of `DisableCounterByGroups`. -/
def disableGroup (v : γ) : Method κ γ β α Unit := do
  let s ← get
  let old := s.CounterDisableMap.lookup v
  let DisableCounters ← ((s.CounterGroupMap v).getD []).foldlM (noteCounter v old.isSome) (old.getD [])
  modify fun s => { s with CounterDisableMap := s.CounterDisableMap.insert v DisableCounters }
  C.DelCounterGroup E n info v true

/-- `DisableCounterByGroups`. -/
def DisableCounterByGroups (names : List γ) : Method κ γ β α Unit := names.forM fun v => C.disableGroup E n info v

/-- One turn of `EnableCounterByGroups`. -/
def enableGroup (GroupName : γ) : Method κ γ β α Unit := do
  match (← get).CounterDisableMap.lookup GroupName with
  | none => pure ()
  | some InfoList => do
    modify fun s => { s with CounterDisableMap := s.CounterDisableMap.erase GroupName }
    C.AddCounterGroup E n info GroupName InfoList

/-- `EnableCounterByGroups`. -/
def EnableCounterByGroups (names : List γ) : Method κ γ β α Unit := names.forM fun g => C.enableGroup E n info g

/-- `EnableAllDisableCounter`. -/
def EnableAllDisableCounter : Method κ γ β α Unit := do
  C.EnableCounterByGroups E n info (E.pairs (← get).CounterDisableMap.keys)

/-- A method for objects with counters, which returns at once on others. -/
def withCounters (m : (κ → Option (Info κ β α)) → Method κ γ β α Unit) : Method κ γ β α Unit :=
  match C.Counter with
  | none => pure ()
  | some info => m info

end Config

/-- A call of a method. -/
inductive Call (κ γ β α : Type)
  | Get (k : κ)
  | Set (k : κ) (value : Value α) (noclean : Bool)
  | SetAttrs (tbl : List (κ × Value α))
  | Load (data : κ → Value α)
  | ClearSave
  | AddCounter (name : κ) (args : List β)
  | DelCounter (id : Nat)
  | ClearCounter
  | AddCounterGroup (name : γ) (list : List (κ × List β))
  | DelCounterGroup (name : γ)
  | DisableCounterByGroups (names : List γ)
  | EnableCounterByGroups (names : List γ)
  | EnableAllDisableCounter

variable (C : Config κ β α) (E : Machine γ α) (n : Nat)

/-- A call, with a bound on its depth. -/
def invoke : Call κ γ β α → Method κ γ β α Unit
  | .Get k => do discard (C.Get n k)
  | .Set k value noclean => C.Set k value noclean
  | .SetAttrs tbl => C.SetAttrs tbl
  | .Load data => modify fun s => s.Load data
  | .ClearSave => modify fun s => s.ClearSave
  | .AddCounter name args => C.withCounters fun info => discard (C.AddCounter E n info name args)
  | .DelCounter id => C.withCounters fun info => C.DelCounter E n info id
  | .ClearCounter => C.withCounters fun _ => Config.ClearCounter
  | .AddCounterGroup name list => C.withCounters fun info => C.AddCounterGroup E n info name list
  | .DelCounterGroup name => C.withCounters fun info => C.DelCounterGroup E n info name false
  | .DisableCounterByGroups names => C.withCounters fun info => C.DisableCounterByGroups E n info names
  | .EnableCounterByGroups names => C.withCounters fun info => C.EnableCounterByGroups E n info names
  | .EnableAllDisableCounter => C.withCounters fun info => C.EnableAllDisableCounter E n info

/-- The object after a call, whether it returns or raises. -/
def next (s : Obj κ γ β α) (c : Call κ γ β α) : Obj κ γ β α := (exec (invoke C E n c) s).2

/-- A call returns. -/
def Returns (s : Obj κ γ β α) (c : Call κ γ β α) : Prop := (exec (invoke C E n c) s).1 = .ok ()

/-! ## Frames -/

/-- A relation that goes through sequences, and relates an object to what one step of the methods of attributes and
counters makes of it. -/
structure Framed (C : Config κ β α) (R : Obj κ γ β α → Obj κ γ β α → Prop) : Prop where
  order : Order R
  temp : ∀ k v noclean s, R s (C.SetTemp k v noclean s)
  save : ∀ k v noclean s, R s (C.SetSave k v noclean s)
  event : ∀ e s, R s (s.OnEvent e)
  alloc : ∀ c s, R s (s.alloc c)
  setChange : ∀ id v s, R s (s.setChange id v)
  put : ∀ Name id s, R s (s.put Name id)
  setActive : ∀ ids s, R s (s.setActive ids)

/-- A relation that goes through sequences, and relates an object to what one step of a flush of one attribute makes of
it, if the counters that are run are some of `puts`. -/
structure Flushed (C : Config κ β α) (n : Nat) (Name : κ) (puts : Nat → Prop) (R : Obj κ γ β α → Obj κ γ β α → Prop) :
    Prop where
  order : Order R
  get : Frames R (C.Get n Name)
  set : ∀ v noclean, Frames R (C.Set Name v noclean)
  formula : ∀ k f args, C.formula k = some f → Frames R (C.run (C.Get n) (f args))
  setChange : ∀ id v s, R s (s.setChange id v)
  put : ∀ id, puts id → ∀ s, R s (s.put Name id)

omit [DecidableEq κ] [DecidableEq γ] in
theorem frames_counter {R : Obj κ γ β α → Obj κ γ β α → Prop} (hR : Order R) (id : Nat) :
    Frames R (counter id : Method κ γ β α (Counter κ β α)) := by
  refine Frames.bind hR (Frames.get hR) fun s => ?_
  split
  · exact Frames.throw hR _
  · exact Frames.pure hR _

omit [DecidableEq γ] in
/-- `Get` does what the formula does, and sets the attribute. -/
theorem frames_get {C : Config κ β α} {n : Nat} {k : κ} {R : Obj κ γ β α → Obj κ γ β α → Prop} (hR : Order R)
    (hrun : ∀ f, C.formula k = some f → Frames R (C.run (C.Get n) (f none)))
    (hset : ∀ v, Frames R (C.Set k v false)) : Frames R (C.Get (n + 1) k) := by
  unfold Config.Get
  split
  · exact Frames.throw hR _
  · refine Frames.bind hR (Frames.get hR) fun s => ?_
    dsimp only
    split
    · exact Frames.pure hR _
    · split
      · exact Frames.pure hR _
      · rename_i f hf
        exact Frames.bind hR (hrun f hf) fun v => Frames.bind hR (hset v) fun _ => Frames.pure hR v

omit [DecidableEq γ] in
theorem frames_runCounter {R : Obj κ γ β α → Obj κ γ β α → Prop} (hR : Order R) {Name : κ} {id : Nat}
    (hput : ∀ s, R s (s.put Name id)) (Var : Value α) : Frames R (Config.runCounter E Name Var id) := by
  refine Frames.bind hR (frames_counter hR id) fun c => ?_
  refine Frames.bind hR (Frames.ofResult hR _) fun _ => ?_
  exact Frames.bind hR (Frames.modify hput) fun _ => Frames.pure hR _

namespace Flushed

variable {C E n} {Name : κ} {puts : Nat → Prop} {R : Obj κ γ β α → Obj κ γ β α → Prop} (hR : Flushed C n Name puts R)
include hR

omit [DecidableEq γ] in
theorem runCounters {l : List Nat} (hl : ∀ id ∈ l, puts id) (NoClean : Bool) :
    Frames R (C.RunCounters E n Name l NoClean) := by
  refine Frames.bind hR.order hR.get fun Var => ?_
  refine Frames.bind hR.order (Frames.foldlM hR.order l (fun id hid v => ?_) Var) fun v => hR.set _ _
  exact frames_runCounter E hR.order (hR.put id (hl id hid)) v

omit [DecidableEq γ] in
theorem change (id : Nat) (c : Objects.Counter κ β α) (BaseVar : Value α) : Frames R (C.change E n id c BaseVar) := by
  unfold Config.change
  split
  · exact Frames.throw hR.order _
  · rename_i f hf
    refine Frames.bind hR.order (hR.formula _ f _ hf) fun v => ?_
    exact Frames.bind hR.order (Frames.ofResult hR.order _) fun d => Frames.modify (hR.setChange id d)

omit [DecidableEq γ] in
theorem flushLoop : ∀ {ids : List Nat} (p : ℚ) (v : Value α) {l : List Nat}, (∀ id ∈ l ++ ids, puts id) →
    Frames R (C.flushLoop E n Name ids p v l)
  | [], _, _, l, hl => hR.runCounters (fun id hid => hl id (by rwa [List.append_nil])) false
  | id :: ids, p, v, l, hl => by
    refine Frames.bind hR.order (frames_counter hR.order id) fun c => ?_
    split
    · refine Frames.bind hR.order (hR.runCounters (fun i hi => hl i (List.mem_append_left _ hi)) true) fun _ => ?_
      refine Frames.bind hR.order hR.get fun _ => ?_
      exact Frames.bind hR.order (hR.change _ _ _) fun _ => flushLoop _ _ fun i hi => hl i (List.mem_append_right _ hi)
    · refine Frames.bind hR.order (hR.change _ _ _) fun _ => flushLoop _ _ fun i hi => hl i ?_
      rwa [List.append_cons]

end Flushed

namespace Framed

variable {C E n} {R : Obj κ γ β α → Obj κ γ β α → Prop} (hR : Framed C R)
include hR

omit [DecidableEq γ] in
theorem set (k : κ) (v : Value α) (noclean : Bool) : Frames R (C.Set k v noclean) := by
  unfold Config.Set
  split
  · exact Frames.throw hR.order _
  · exact Frames.modify (hR.temp k v noclean)
  · exact Frames.modify (hR.save k v noclean)

omit [DecidableEq γ] in
theorem run {G : κ → Method κ γ β α (Value α)} (hG : ∀ k, Frames R (G k)) : ∀ c : Code κ α, Frames R (C.run G c)
  | .ret v => Frames.pure hR.order v
  | .raise => Frames.throw hR.order _
  | .get k next => Frames.bind hR.order (hG k) fun v => run hG (next v)
  | .set k v noclean next => Frames.bind hR.order (hR.set k v noclean) fun _ => run hG next

omit [DecidableEq γ] in
theorem get : ∀ n k, Frames R (C.Get n k)
  | 0, _ => Frames.throw hR.order _
  | n + 1, k => frames_get hR.order (fun f _ => hR.run (get n) (f none)) fun v => hR.set k v false

omit [DecidableEq γ] in
theorem setAttrs (tbl : List (κ × Value α)) : Frames R (C.SetAttrs tbl) := by
  refine Frames.forM hR.order tbl fun e _ => ?_
  split
  · exact hR.set _ _ _
  · exact Frames.pure hR.order _

omit [DecidableEq γ] in
/-- What is related by every step is related by every step of a flush. -/
theorem flushed (Name : κ) : Flushed C n Name (fun _ => True) R where
  order := hR.order
  get := hR.get n Name
  set v noclean := hR.set Name v noclean
  formula _ f args _ := hR.run (hR.get n) (f args)
  setChange := hR.setChange
  put id _ := hR.put Name id

omit [DecidableEq γ] in
theorem flushCounter (Name : κ) (p : ℚ) (l : List Nat) : Frames R (C.FlushCounter E n Name p l) := by
  refine Frames.bind hR.order (Frames.get hR.order) fun s => ?_
  refine Frames.bind hR.order (Frames.forM hR.order _ fun id _ => Frames.modify (hR.setChange id E.zero)) fun _ => ?_
  refine Frames.bind hR.order (hR.get n Name) fun v => ?_
  exact Frames.bind hR.order ((hR.flushed Name).flushLoop _ _ fun _ _ => trivial) fun _ => Frames.modify (hR.event _)

variable {info : κ → Option (Info κ β α)}

omit [DecidableEq γ] in
theorem addCounter (name : κ) (args : List β) : Frames R (C.AddCounter E n info name args) := by
  unfold Config.AddCounter
  split
  · exact Frames.throw hR.order _
  · refine Frames.bind hR.order (Frames.get hR.order) fun s => ?_
    refine Frames.bind hR.order (Frames.modify (hR.alloc _)) fun _ => ?_
    refine Frames.bind hR.order (hR.flushCounter _ _ _) fun _ => ?_
    exact Frames.bind hR.order (Frames.modify fun t => hR.setActive _ t) fun _ => Frames.pure hR.order _

omit [DecidableEq γ] in
theorem delCounter (id : Nat) : Frames R (C.DelCounter E n info id) := by
  refine Frames.bind hR.order (Frames.get hR.order) fun s => ?_
  split
  · refine Frames.bind hR.order (Frames.modify fun t => hR.setActive _ t) fun _ => ?_
    refine Frames.bind hR.order (frames_counter hR.order id) fun c => ?_
    split
    · exact Frames.throw hR.order _
    · exact hR.flushCounter _ _ _
  · exact Frames.pure hR.order _

omit hR [DecidableEq κ] [DecidableEq γ] in
/-- A method for objects with counters. -/
theorem withCounters (hR : Order R) {m : (κ → Option (Info κ β α)) → Method κ γ β α Unit}
    (hm : ∀ info, Frames R (m info)) :
    Frames R (C.withCounters m) := by
  unfold Config.withCounters
  split
  · exact Frames.pure hR _
  · exact hm _

end Framed

end XCore.Objects
