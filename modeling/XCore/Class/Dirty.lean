import XCore.Class.Object

/-!
# The flags for saving

`CheckSave` tells whether a saved attribute has been set since the last `ClearSave` or `Load`. As long as it does not,
the table of `GetSaveData` is the one of that time (`dirty_flag_sound`): `Set` of a saved attribute raises its own flag
before it drops the values of related ones, and every other method changes saved attributes by `Set` only.

`Clean` is what every method but these two does.
-/

namespace XCore.Objects

open XCore.Lua XCore.Raise
open XCore.CObject (Value Store)

variable {κ γ β α : Type} [DecidableEq κ] [DecidableEq γ] {C : Config κ β α} {E : Machine γ α} {n : Nat}

/-- A call takes a new state of the saved attributes. -/
def Call.clears : Call κ γ β α → Bool
  | .Load _ | .ClearSave => true
  | _ => false

/-- If nothing is to be saved afterwards, nothing was before, and the saved attributes are the same. -/
def Clean (s s' : Obj κ γ β α) : Prop := s'.CheckSave = false → s.CheckSave = false ∧ s'.GetSaveData = s.GetSaveData

omit [DecidableEq κ] [DecidableEq γ] in
theorem order_clean : Order (Clean : Obj κ γ β α → Obj κ γ β α → Prop) where
  refl _ h := ⟨h, rfl⟩
  trans hst htu h := by
    obtain ⟨ht, hsave⟩ := htu h
    obtain ⟨hs, hsave'⟩ := hst ht
    exact ⟨hs, hsave.trans hsave'⟩

omit [DecidableEq κ] [DecidableEq γ] in
/-- A change of other fields. -/
theorem clean_of_eq {s s' : Obj κ γ β α} (hflag : s'.SaveAttrFlag = s.SaveAttrFlag) (hsave : s'.SaveAttr = s.SaveAttr) :
    Clean s s' := by
  intro h
  unfold Obj.CheckSave at h ⊢
  rw [hflag] at h
  exact ⟨h, hsave⟩

omit [DecidableEq γ] in
/-- `Set` of a temporary attribute, and what it drops. -/
theorem clean_SetTemp (k : κ) (v : Value α) (noclean : Bool) (s : Obj κ γ β α) : Clean s (C.SetTemp k v noclean s) := by
  have hwrite : ∀ d v (t : Obj κ γ β α), Clean t ((t.writeTemp d v).OnEvent (.AttrChange d)) :=
    fun _ _ _ => clean_of_eq rfl rfl
  have hdrop : ∀ (l : List κ) (t : Obj κ γ β α),
      Clean t (l.foldl (fun s d => (s.writeTemp d .nil).OnEvent (.AttrChange d)) t) := by
    intro l
    induction l with
    | nil => exact order_clean.refl
    | cons d l ih => exact fun t => order_clean.trans (hwrite d .nil t) (ih _)
  exact order_clean.trans (hwrite k v s) (hdrop _ _)

omit [DecidableEq γ] in
/-- `Set` of a saved attribute leaves something to be saved. -/
theorem CheckSave_SetSave (k : κ) (v : Value α) (noclean : Bool) (s : Obj κ γ β α) :
    (C.SetSave k v noclean s).CheckSave = true := by
  have hdrop : ∀ (l : List κ) (t : Obj κ γ β α), t.CheckSave = true →
      (l.foldl (fun s d => (s.writeSave d .nil).OnEvent (.AttrChange d)) t).CheckSave = true := by
    intro l
    induction l with
    | nil => exact fun t ht => ht
    | cons d l ih => exact fun t ht => ih _ ht
  have hset : (((s.writeSave k v).flag k).OnEvent (.AttrChange k)).CheckSave = true := by
    have hmem : k ∈ s.SaveAttrFlag.insert k := List.mem_insert_self
    change (!(s.SaveAttrFlag.insert k).isEmpty) = true
    rw [Bool.not_eq_true', List.isEmpty_eq_false_iff]
    exact List.ne_nil_of_mem hmem
  unfold Config.SetSave
  dsimp only
  split
  · exact hset
  · exact hdrop _ _ hset

omit [DecidableEq γ] in
/-- The methods of attributes and counters. -/
theorem framed_clean : Framed C (Clean : Obj κ γ β α → Obj κ γ β α → Prop) where
  order := order_clean
  temp k v noclean s := clean_SetTemp k v noclean s
  save k v noclean s h := by
    rw [CheckSave_SetSave] at h
    cases h
  event _ _ := clean_of_eq rfl rfl
  alloc _ _ := clean_of_eq rfl rfl
  setChange _ _ _ := clean_of_eq rfl rfl
  put _ _ _ := clean_of_eq rfl rfl
  setActive _ _ := clean_of_eq rfl rfl

section

variable {info : κ → Option (Info κ β α)}

omit [DecidableEq κ] [DecidableEq γ] in
/-- A change of the maps of groups. -/
theorem clean_modify {g : Obj κ γ β α → Obj κ γ β α} (hflag : ∀ s, (g s).SaveAttrFlag = s.SaveAttrFlag)
    (hsave : ∀ s, (g s).SaveAttr = s.SaveAttr) : Frames Clean (modify g : Method κ γ β α PUnit) :=
  Frames.modify fun s => clean_of_eq (hflag s) (hsave s)

theorem clean_delCounterGroup (name : γ) (notCleanDisable : Bool) :
    Frames Clean (C.DelCounterGroup E n info name notCleanDisable) := by
  refine Frames.bind order_clean (Frames.get order_clean) fun s => ?_
  split
  · exact clean_modify (fun _ => rfl) fun _ => rfl
  · split
    · exact Frames.pure order_clean _
    · refine Frames.bind order_clean (Frames.forM order_clean _ fun id _ => framed_clean.delCounter id) fun _ => ?_
      exact clean_modify (fun _ => rfl) fun _ => rfl

theorem clean_addCounterGroup (name : γ) (list : List (κ × List β)) :
    Frames Clean (C.AddCounterGroup E n info name list) := by
  refine Frames.bind order_clean (Frames.get order_clean) fun s => ?_
  split
  · exact clean_modify (fun _ => rfl) fun _ => rfl
  · refine Frames.bind order_clean (clean_delCounterGroup name false) fun _ => ?_
    have hadd : Frames Clean (list.mapM fun v => C.AddCounter E n info v.1 v.2) :=
      Frames.mapM order_clean list fun v _ => framed_clean.addCounter v.1 v.2
    refine Frames.bind order_clean hadd fun _ => ?_
    exact clean_modify (fun _ => rfl) fun _ => rfl

omit [DecidableEq κ] in
theorem clean_noteCounter (v : γ) (isOld : Bool) (list : List (κ × List β)) (id : Nat) :
    Frames Clean (Config.noteCounter v isOld list id : Method κ γ β α _) := by
  refine Frames.bind order_clean ?_ fun note => ?_
  · refine Frames.bind order_clean (Frames.get order_clean) fun t => ?_
    split
    · exact Frames.bind order_clean (frames_counter order_clean id) fun c => Frames.pure order_clean _
    · exact Frames.throw order_clean _
  · dsimp only
    split
    · exact Frames.bind order_clean (clean_modify (fun _ => rfl) fun _ => rfl) fun _ => Frames.pure order_clean _
    · exact Frames.pure order_clean _

theorem clean_disableGroup (v : γ) : Frames Clean (C.disableGroup E n info v) := by
  refine Frames.bind order_clean (Frames.get order_clean) fun s => ?_
  refine Frames.bind order_clean (Frames.foldlM order_clean _ (fun id _ l => clean_noteCounter v _ l id) _) fun l => ?_
  refine Frames.bind order_clean (clean_modify (fun _ => rfl) fun _ => rfl) fun _ => ?_
  exact clean_delCounterGroup v true

theorem clean_enableGroup (g : γ) : Frames Clean (C.enableGroup E n info g) := by
  refine Frames.bind order_clean (Frames.get order_clean) fun s => ?_
  split
  · exact Frames.pure order_clean _
  · exact Frames.bind order_clean (clean_modify (fun _ => rfl) fun _ => rfl) fun _ => clean_addCounterGroup g _

end

/-- **One call** that is neither `Load` nor `ClearSave`. -/
theorem clean_invoke (c : Call κ γ β α) (hc : c.clears = false) : Frames Clean (invoke C E n c) := by
  cases c with
  | Get k => exact Frames.discard order_clean (framed_clean.get n k)
  | Set k value noclean => exact framed_clean.set k value noclean
  | SetAttrs tbl => exact framed_clean.setAttrs tbl
  | Load data => cases hc
  | ClearSave => cases hc
  | AddCounter name args =>
    refine Framed.withCounters order_clean fun info => ?_
    exact Frames.discard order_clean (framed_clean.addCounter name args)
  | DelCounter id => exact Framed.withCounters order_clean fun info => framed_clean.delCounter id
  | ClearCounter => exact Framed.withCounters order_clean fun _ => clean_modify (fun _ => rfl) fun _ => rfl
  | AddCounterGroup name list => exact Framed.withCounters order_clean fun info => clean_addCounterGroup name list
  | DelCounterGroup name => exact Framed.withCounters order_clean fun info => clean_delCounterGroup name false
  | DisableCounterByGroups names =>
    exact Framed.withCounters order_clean fun info => Frames.forM order_clean names fun v _ => clean_disableGroup v
  | EnableCounterByGroups names =>
    exact Framed.withCounters order_clean fun info => Frames.forM order_clean names fun g _ => clean_enableGroup g
  | EnableAllDisableCounter =>
    refine Framed.withCounters order_clean fun info => Frames.bind order_clean (Frames.get order_clean) fun s => ?_
    exact Frames.forM order_clean _ fun g _ => clean_enableGroup g

/-- A run without `Load` and `ClearSave`. -/
theorem clean_run : ∀ (cs : List (Call κ γ β α)) (s : Obj κ γ β α), (∀ c ∈ cs, c.clears = false) →
    Clean s (cs.foldl (next C E n) s)
  | [], s, _ => order_clean.refl s
  | c :: cs, s, h => order_clean.trans (clean_invoke c (h c List.mem_cons_self) s)
      (clean_run cs _ fun d hd => h d (List.mem_cons_of_mem c hd))

/-- **Nothing is lost by skipping a save**: if `CheckSave` is false, the saved attributes are those after any earlier
part of the run since the last `Load` or `ClearSave`, or since the object was made. -/
theorem dirty_flag_sound (C : Config κ β α) (E : Machine γ α) (n : Nat) (pre post : List (Call κ γ β α))
    (hpost : ∀ c ∈ post, c.clears = false) (h : ((pre ++ post).foldl (next C E n) .new).CheckSave = false) :
    ((pre ++ post).foldl (next C E n) .new).GetSaveData = (pre.foldl (next C E n) .new).GetSaveData := by
  rw [List.foldl_append] at h ⊢
  exact (clean_run post _ hpost h).2

/-- Two saved attributes, the second computed from the first. -/
def doubled : Config Nat ℤ ℤ where
  Save
    | 0 => some none
    | 1 => some (some fun _ => .get 0 fun v => .ret v)
    | _ => none
  Temp _ := none
  Relation k := if k = 0 then [1] else []
  Counter := none

theorem dirty_flag_sound_doubled :
    ([.Set 0 (.val 5) false, .Get 1, .ClearSave, .Get 1, .SetAttrs [(7, .val 1)]].foldl
      (next doubled .integers 3) .new).GetSaveData =
          ([(.Set 0 (.val 5) false : Call Nat Nat ℤ ℤ), .Get 1, .ClearSave].foldl
        (next doubled .integers 3) .new).GetSaveData :=
  dirty_flag_sound doubled .integers 3 [.Set 0 (.val 5) false, .Get 1, .ClearSave] [.Get 1, .SetAttrs [(7, .val 1)]]
    (by decide) (by decide)

end XCore.Objects
