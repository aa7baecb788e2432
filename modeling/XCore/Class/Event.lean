import Mathlib.Data.Finset.Basic
import XCore.Lib.Run

/-!
# Events of objects (`base/class.lua`)

An object has for each event name a table with the entries of its callbacks in order, and with a key for each callback.
A name without a table is here one whose table is empty. `none` is a call that raises.

A callback is a function or the name of a method (`callable`); when it is called it may add callbacks (`body`), for this
name or others. A dispatch calls what was registered before it in reverse order and leaves what is not once-only,
followed by what was added meanwhile (`DispatchEvent_spec`). `DelEvent` leaves the entry where it is, so the object
serves what is registered as long as nothing registered is deleted (`served_throughout`).
-/

namespace XCore.Dispatch

open XCore.Run

/-! ## Event lists -/

/-- `{callback = callback, flag = onceflag}`. -/
structure Entry (κ : Type) where
  callback : κ
  flag : Bool

/-- The table of a name: its entries, and the callbacks that are keys. -/
structure EventList (κ : Type) where
  entries : List (Entry κ)
  keys : Finset κ

/-- `__Events`. -/
abbrev Events (ν κ : Type) := ν → EventList κ

section

variable {ν κ σ : Type} [DecidableEq ν] [DecidableEq κ]

/-- No events. -/
def Events.new : Events ν κ := fun _ => ⟨[], ∅⟩

/-- `AddEvent`. -/
def AddEvent (self : Events ν κ) (name : ν) (callback : κ) (onceflag : Bool) : Events ν κ :=
  if callback ∈ (self name).keys then self
  else Function.update self name ⟨(self name).entries ++ [⟨callback, onceflag⟩], insert callback (self name).keys⟩

/-- `OnceEvent`. -/
def OnceEvent (self : Events ν κ) (name : ν) (callback : κ) : Events ν κ := AddEvent self name callback true

/-- `DelEvent`. The key has the value 1: `table.remove(list[idx])` is given the first entry, which is no list of
anything, and leaves it as it is. -/
def DelEvent (self : Events ν κ) (name : ν) (callback : κ) : Option (Events ν κ) :=
  if callback ∉ (self name).keys then some self
  else
    match (self name).entries with
    | [] => none
    | _ :: _ => some (Function.update self name ⟨(self name).entries, (self name).keys.erase callback⟩)

/-- What callbacks are and do; they have a state of their own. -/
structure Code (ν κ σ : Type) where
  callable : κ → Bool
  body : κ → Events ν κ × σ → List (ν × κ × Bool) × σ

/-- What happens in a dispatch. -/
inductive Happening (ν κ : Type)
  | call (callback : κ)
  | added (name : ν) (info : Entry κ)

/-- The calls of `AddEvent` and `OnceEvent` of a callback. -/
def adds : List (ν × κ × Bool) → Events ν κ → Events ν κ × List (Happening ν κ)
  | [], self => (self, [])
  | (name, callback, onceflag) :: as, self =>
    let new := if callback ∈ (self name).keys then [] else [Happening.added name ⟨callback, onceflag⟩]
    let (self, log) := adds as (AddEvent self name callback onceflag)
    (self, new ++ log)

/-- `table.remove(list, i)` and `list[info.callback] = nil`. -/
def remove (self : Events ν κ) (name : ν) (i : Nat) (callback : κ) : Events ν κ :=
  Function.update self name ⟨(self name).entries.eraseIdx i, (self name).keys.erase callback⟩

/-- The loop of `DispatchEvent`, from some index down. -/
def dispatchFrom (C : Code ν κ σ) (name : ν) : Nat → Events ν κ × σ → Option ((Events ν κ × σ) × List (Happening ν κ))
  | 0, s => some (s, [])
  | i + 1, (self, w) =>
    match (self name).entries[i]? with
    | none => none
    | some info =>
      let self := if info.flag then remove self name i info.callback else self
      if C.callable info.callback then
        let (as, w) := C.body info.callback (self, w)
        let (self, log) := adds as self
        (dispatchFrom C name i (self, w)).map fun r => (r.1, .call info.callback :: (log ++ r.2))
      else dispatchFrom C name i (self, w)

/-- `DispatchEvent`. -/
def DispatchEvent (C : Code ν κ σ) (name : ν) (s : Events ν κ × σ) : Option ((Events ν κ × σ) × List (Happening ν κ)) :=
  dispatchFrom C name (s.1 name).entries.length s

/-- The callbacks that are called. -/
def calls (log : List (Happening ν κ)) : List κ :=
  log.filterMap fun
    | .call callback => some callback
    | .added _ _ => none

/-- The entries that are added for a name. -/
def addedTo (name : ν) (log : List (Happening ν κ)) : List (Entry κ) :=
  log.filterMap fun
    | .call _ => none
    | .added name' info => if name' = name then some info else none

/-! ## One dispatch -/

variable {C : Code ν κ σ} {self self' : Events ν κ} {w w' : σ} {name name' : ν} {callback : κ} {onceflag : Bool}
  {as : List (ν × κ × Bool)} {log log' : List (Happening ν κ)} {i : Nat}

omit [DecidableEq ν] [DecidableEq κ] in
theorem calls_append : calls (log ++ log') = calls log ++ calls log' := List.filterMap_append

omit [DecidableEq κ] in
theorem addedTo_append : addedTo name (log ++ log') = addedTo name log ++ addedTo name log' := List.filterMap_append

omit [DecidableEq κ] in
@[simp] theorem addedTo_call : addedTo name (.call callback :: log) = addedTo name log := rfl

omit [DecidableEq ν] [DecidableEq κ] in
@[simp] theorem calls_call : calls (.call callback :: log : List (Happening ν κ)) = callback :: calls log := rfl

/-- The entries after the calls of a callback. -/
theorem adds_spec (as : List (ν × κ × Bool)) (self : Events ν κ) : calls (adds as self).2 = [] ∧
    ∀ name, ((adds as self).1 name).entries = (self name).entries ++ addedTo name (adds as self).2 := by
  induction as generalizing self with
  | nil => exact ⟨rfl, fun name => (List.append_nil _).symm⟩
  | cons a as ih =>
    obtain ⟨name₁, callback, onceflag⟩ := a
    obtain ⟨hcalls, hentries⟩ := ih (AddEvent self name₁ callback onceflag)
    unfold adds
    by_cases hkey : callback ∈ (self name₁).keys
    · have hsame : AddEvent self name₁ callback onceflag = self := if_pos hkey
      rw [hsame] at hcalls hentries
      simp only [if_pos hkey, hsame, List.nil_append]
      exact ⟨hcalls, hentries⟩
    · simp only [if_neg hkey, List.singleton_append]
      refine ⟨hcalls, fun name => ?_⟩
      rw [hentries, AddEvent, if_neg hkey]
      by_cases hname : name₁ = name
      · subst hname
        simp [addedTo]
      · simp [addedTo, hname, Function.update_of_ne (Ne.symm hname)]

/-- The loop over the entries before an index, which the callbacks have not changed. -/
theorem dispatchFrom_spec (C : Code ν κ σ) (name : ν) (pre suf : List (Entry κ)) (self : Events ν κ) (w : σ)
    (h : (self name).entries = pre ++ suf) :
    ∃ self' w' log, dispatchFrom C name pre.length (self, w) = some ((self', w'), log) ∧
      calls log = (pre.reverse.map Entry.callback).filter C.callable ∧
      (self' name).entries = pre.filter (fun e => !e.flag) ++ suf ++ addedTo name log ∧
      ∀ name', name' ≠ name → (self' name').entries = (self name').entries ++ addedTo name' log := by
  induction pre using List.reverseRecOn generalizing suf self w with
  | nil => exact ⟨self, w, [], rfl, rfl, by simpa [addedTo] using h, fun name' _ => (List.append_nil _).symm⟩
  | append_singleton pre e ih =>
    have hget : (self name).entries[pre.length]? = some e := by simp [h]
    -- the entry stays behind the others, or goes
    obtain ⟨self₁, hself₁, hentries₁, hother₁⟩ : ∃ self₁ : Events ν κ,
        (if e.flag then remove self name pre.length e.callback else self) = self₁ ∧
        (self₁ name).entries = pre ++ ([e].filter (fun e => !e.flag) ++ suf) ∧
        ∀ name', name' ≠ name → (self₁ name').entries = (self name').entries := by
      refine ⟨_, rfl, ?_, ?_⟩
      · by_cases hflag : e.flag
        · simp [hflag, remove, h, List.eraseIdx_append_of_length_le]
        · simp [hflag, h]
      · intro name' hname
        by_cases hflag : e.flag
        · simp [hflag, remove, Function.update_of_ne hname]
        · simp [hflag]
    rw [List.length_append, List.length_singleton, dispatchFrom, hget]
    dsimp only
    rw [hself₁]
    by_cases hcall : C.callable e.callback
    · rw [if_pos hcall]
      obtain ⟨hcalls₂, hentries₂⟩ := adds_spec (C.body e.callback (self₁, w)).1 self₁
      have h₂ := hentries₂ name
      rw [hentries₁, List.append_assoc] at h₂
      obtain ⟨self', w', log, hrun, hcalls, hentries, hother⟩ := ih _ _ (C.body e.callback (self₁, w)).2 h₂
      rw [hrun]
      refine ⟨self', w', _, rfl, ?_, ?_, ?_⟩
      · rw [calls_call, calls_append, hcalls₂, hcalls]
        simp [hcall]
      · rw [hentries, addedTo_call, addedTo_append]
        simp
      · intro name' hname
        rw [hother name' hname, hentries₂, hother₁ name' hname, addedTo_call, addedTo_append, List.append_assoc]
    · rw [if_neg hcall]
      obtain ⟨self', w', log, hrun, hcalls, hentries, hother⟩ := ih _ self₁ w hentries₁
      refine ⟨self', w', log, hrun, ?_, ?_, ?_⟩
      · rw [hcalls]
        simp [hcall]
      · rw [hentries]
        simp
      · intro name' hname
        rw [hother name' hname, hother₁ name' hname]

/-- No callback has two entries, and the keys are the callbacks of the entries. -/
structure EventList.Good (l : EventList κ) : Prop where
  nodup : (l.entries.map Entry.callback).Nodup
  keys : ∀ callback, callback ∈ l.keys ↔ callback ∈ l.entries.map Entry.callback

omit [DecidableEq ν] [DecidableEq κ] in
theorem new_good (name : ν) : ((Events.new : Events ν κ) name).Good :=
  ⟨List.nodup_nil, fun _ => iff_of_false (Finset.notMem_empty _) List.not_mem_nil⟩

theorem AddEvent_good (h : ∀ name, (self name).Good) (name' : ν) :
    (AddEvent self name callback onceflag name').Good := by
  unfold AddEvent
  split
  · exact h name'
  · rename_i hkey
    by_cases hname : name' = name
    · subst hname
      rw [Function.update_self]
      have hnew : callback ∉ (self name').entries.map Entry.callback := mt ((h name').keys callback).2 hkey
      constructor
      · rw [List.map_append, List.map_singleton, ← List.concat_eq_append]
        exact (h name').nodup.concat hnew
      · intro cb
        rw [Finset.mem_insert, (h name').keys, List.map_append, List.mem_append, List.map_singleton,
          List.mem_singleton, or_comm]
    · rw [Function.update_of_ne hname]
      exact h name'

theorem adds_good (as : List (ν × κ × Bool)) (h : ∀ name, (self name).Good) : ∀ name, ((adds as self).1 name).Good := by
  induction as generalizing self with
  | nil => exact h
  | cons a as ih => exact ih (AddEvent_good h)

theorem remove_good {info : Entry κ} (h : ∀ name, (self name).Good) (hget : (self name).entries[i]? = some info)
    (name' : ν) :
    (remove self name i info.callback name').Good := by
  unfold remove
  by_cases hname : name' = name
  · subst hname
    rw [Function.update_self]
    obtain ⟨hlt, hinfo⟩ := List.getElem?_eq_some_iff.1 hget
    have hsplit : (self name').entries = (self name').entries.take i ++ info :: (self name').entries.drop (i + 1) := by
      rw [← hinfo, List.getElem_cons_drop, List.take_append_drop]
    have hnodup := (h name').nodup
    rw [hsplit, List.map_append, List.map_cons] at hnodup
    constructor
    · dsimp only
      rw [List.eraseIdx_eq_take_drop_succ, List.map_append]
      exact (List.nodup_middle.1 hnodup).of_cons
    · intro cb
      have hnot := (List.nodup_cons.1 (List.nodup_middle.1 hnodup)).1
      have hkeys := (h name').keys cb
      rw [hsplit, List.map_append, List.map_cons, List.mem_append, List.mem_cons] at hkeys
      dsimp only
      rw [Finset.mem_erase, hkeys, List.eraseIdx_eq_take_drop_succ, List.map_append, List.mem_append]
      constructor
      · rintro ⟨hne, hpre | hself | hsuf⟩
        · exact Or.inl hpre
        · exact absurd hself hne
        · exact Or.inr hsuf
      · rw [← List.mem_append]
        intro hmem
        refine ⟨?_, (List.mem_append.1 hmem).imp_right Or.inr⟩
        rintro rfl
        exact hnot hmem
  · rw [Function.update_of_ne hname]
    exact h name'

theorem dispatchFrom_good {r : (Events ν κ × σ) × List (Happening ν κ)} (h : ∀ name, (self name).Good)
    (hrun : dispatchFrom C name i (self, w) = some r) : ∀ name, (r.1.1 name).Good := by
  induction i generalizing self w r with
  | zero =>
    cases hrun
    exact h
  | succ i ih =>
    unfold dispatchFrom at hrun
    split at hrun
    · cases hrun
    · rename_i info hget
      have hgone : ∀ name', ((if info.flag then remove self name i info.callback else self) name').Good := by
        split
        · exact remove_good h hget
        · exact h
      dsimp only at hrun
      split at hrun
      · obtain ⟨r', hrun', rfl⟩ := Option.map_eq_some_iff.1 hrun
        have hrest : ∀ name, (r'.1.1 name).Good := ih (adds_good _ hgone) hrun'
        exact hrest
      · exact ih hgone hrun

/-- **A dispatch** calls the callbacks that are registered before it, each once and the last first, and none that is
registered meanwhile; it leaves those that are not once-only, in order, followed by what is registered meanwhile. -/
theorem DispatchEvent_spec (C : Code ν κ σ) (name : ν) (self : Events ν κ) (w : σ) :
    ∃ self' w' log, DispatchEvent C name (self, w) = some ((self', w'), log) ∧
      calls log = ((self name).entries.reverse.map Entry.callback).filter C.callable ∧
      (self' name).entries = (self name).entries.filter (fun e => !e.flag) ++ addedTo name log ∧
      (∀ name', name' ≠ name → (self' name').entries = (self name').entries ++ addedTo name' log) ∧
      ((∀ name, (self name).Good) → (∀ name, (self' name).Good) ∧
        ∀ callback, (calls log).count callback =
          if callback ∈ (self name).keys ∧ C.callable callback then 1 else 0) := by
  obtain ⟨self', w', log, hrun, hcalls, hentries, hother⟩ :=
    dispatchFrom_spec C name (self name).entries [] self w (List.append_nil _).symm
  rw [List.append_nil] at hentries
  refine ⟨self', w', log, hrun, hcalls, hentries, hother,
    fun hgood => ⟨dispatchFrom_good hgood hrun, fun callback => ?_⟩⟩
  have hnodup : (calls log).Nodup := by
    rw [hcalls, List.map_reverse]
    exact (List.nodup_reverse.2 (hgood name).nodup).filter _
  rw [hnodup.count]
  refine if_congr ?_ rfl rfl
  rw [hcalls, List.mem_filter, List.map_reverse, List.mem_reverse, (hgood name).keys]

end

/-- A dispatch in which a once-only callback registers itself again and another one a third. -/
theorem DispatchEvent_again : ∃ self' w' log,
    DispatchEvent (⟨fun _ => true, fun cb s => (if cb = 2 then [((), 2, true), ((), 3, false)] else [], s.2)⟩ :
      Code Unit Nat Unit) ()
      (AddEvent (AddEvent Events.new () 1 false) () 2 true, ()) = some ((self', w'), log) ∧
    calls log = [2, 1] ∧ (self' ()).entries = [⟨1, false⟩, ⟨2, true⟩, ⟨3, false⟩] ∧ ∀ name, (self' name).Good := by
  obtain ⟨self', w', log, hrun, hcalls, -, -, hgood⟩ := DispatchEvent_spec
    (⟨fun _ => true, fun cb s => (if cb = 2 then [((), 2, true), ((), 3, false)] else [], s.2)⟩ : Code Unit Nat Unit) ()
    (AddEvent (AddEvent Events.new () 1 false) () 2 true) ()
  refine ⟨self', w', log, hrun, hcalls, ?_, (hgood (AddEvent_good (AddEvent_good new_good))).1⟩
  cases hrun
  rfl

/-! ## Registrations -/

section

variable {ν κ σ : Type} [DecidableEq ν] [DecidableEq κ]

/-- The callbacks that are registered for each name, in order. -/
abbrev Registry (ν κ : Type) := ν → List (Entry κ)

/-- A callback is registered. -/
def Registered (reg : Registry ν κ) (name : ν) (callback : κ) : Prop := callback ∈ (reg name).map Entry.callback

instance (reg : Registry ν κ) (name : ν) (callback : κ) : Decidable (Registered reg name callback) :=
  inferInstanceAs (Decidable (_ ∈ _))

/-- The calls on an object. -/
inductive Action (ν κ : Type)
  | AddEvent (name : ν) (callback : κ) (onceflag : Bool)
  | OnceEvent (name : ν) (callback : κ)
  | DelEvent (name : ν) (callback : κ)
  | DispatchEvent (name : ν)

/-- What is registered after a call. -/
def register (reg : Registry ν κ) : Action ν κ → Registry ν κ
  | .AddEvent name callback onceflag =>
    if Registered reg name callback then reg else Function.update reg name (reg name ++ [⟨callback, onceflag⟩])
  | .OnceEvent name callback =>
    if Registered reg name callback then reg else Function.update reg name (reg name ++ [⟨callback, true⟩])
  | .DelEvent name callback => Function.update reg name ((reg name).filter fun e => e.callback ≠ callback)
  | .DispatchEvent name => Function.update reg name ((reg name).filter fun e => !e.flag)

/-- A call on the object, if no call has raised. -/
def perform (C : Code ν κ σ) (s : Events ν κ × σ) : Action ν κ → Option (Events ν κ × σ)
  | .AddEvent name callback onceflag => some (AddEvent s.1 name callback onceflag, s.2)
  | .OnceEvent name callback => some (OnceEvent s.1 name callback, s.2)
  | .DelEvent name callback => (DelEvent s.1 name callback).map fun self => (self, s.2)
  | .DispatchEvent name => (DispatchEvent C name s).map Prod.fst

/-- The object, and what is registered. -/
abbrev State (ν κ σ : Type) := Option (Events ν κ × σ) × Registry ν κ

def step (C : Code ν κ σ) (s : State ν κ σ) (a : Action ν κ) : State ν κ σ :=
  (s.1.bind fun o => perform C o a, register s.2 a)

/-- An object without events. -/
def initial (w : σ) : State ν κ σ := (some (Events.new, w), fun _ => [])

/-- The callbacks do not change registrations. -/
def Code.Quiet (C : Code ν κ σ) : Prop := ∀ callback s, (C.body callback s).1 = []

/-- A dispatch would call what is registered, each callback once, and nothing else; and no callback has two entries. -/
def Served (C : Code ν κ σ) (s : State ν κ σ) : Prop :=
  ∃ self w, s.1 = some (self, w) ∧ ∀ name, ((self name).entries.map Entry.callback).Nodup ∧
    ∃ s' log, DispatchEvent C name (self, w) = some (s', log) ∧
      ∀ callback, (calls log).count callback = if Registered s.2 name callback ∧ C.callable callback then 1 else 0

/-- Nothing that is registered is deleted. -/
def Spares (s : State ν κ σ) (a : Action ν κ) : Prop :=
  ∀ name callback, a = .DelEvent name callback → ¬Registered s.2 name callback

/-- The entries are what is registered. -/
def Tracks (s : State ν κ σ) : Prop :=
  ∃ self w, s.1 = some (self, w) ∧ ∀ name, (self name).Good ∧ (self name).entries = s.2 name

variable {C : Code ν κ σ} {s : State ν κ σ} {a : Action ν κ} {self self' : Events ν κ} {reg : Registry ν κ}
    {w w' : σ} {name : ν}
  {callback : κ} {onceflag : Bool} {log : List (Happening ν κ)}

omit [DecidableEq ν] [DecidableEq κ] in
theorem keys_iff (h : ∀ name, (self name).Good ∧ (self name).entries = reg name) :
    callback ∈ (self name).keys ↔ Registered reg name callback := by
  rw [(h name).1.keys, (h name).2, Registered]

omit [DecidableEq ν] [DecidableEq κ] in
theorem initial_tracks (w : σ) : Tracks (initial w : State ν κ σ) :=
  ⟨Events.new, w, rfl, fun name => ⟨new_good name, rfl⟩⟩

theorem Tracks.served (h : Tracks s) : Served C s := by
  obtain ⟨self, w, hs, htracks⟩ := h
  refine ⟨self, w, hs, fun name => ⟨(htracks name).1.nodup, ?_⟩⟩
  obtain ⟨self', w', log, hrun, -, -, -, hgood⟩ := DispatchEvent_spec C name self w
  refine ⟨_, log, hrun, fun callback => ?_⟩
  rw [(hgood fun name => (htracks name).1).2]
  exact if_congr (and_congr_left fun _ => keys_iff htracks) rfl rfl

/-- Quiet callbacks add nothing in a dispatch. -/
theorem Code.Quiet.addedTo (hC : C.Quiet) {i : Nat} {r : (Events ν κ × σ) × List (Happening ν κ)} {name' : ν}
    (hrun : dispatchFrom C name i (self, w) = some r) : addedTo name' r.2 = [] := by
  induction i generalizing self w r with
  | zero =>
    cases hrun
    rfl
  | succ i ih =>
    unfold dispatchFrom at hrun
    split at hrun
    · cases hrun
    · dsimp only at hrun
      split at hrun
      · rw [hC] at hrun
        obtain ⟨r', hrun', rfl⟩ := Option.map_eq_some_iff.1 hrun
        have hrest : Dispatch.addedTo name' r'.2 = [] := ih hrun'
        exact hrest
      · exact ih hrun

theorem AddEvent_tracks (h : ∀ name, (self name).Good ∧ (self name).entries = reg name) (name' : ν) :
    (AddEvent self name callback onceflag name').Good ∧ (AddEvent self name callback onceflag name').entries =
      (if Registered reg name callback then reg else Function.update reg name
        (reg name ++ [⟨callback, onceflag⟩])) name' := by
  refine ⟨AddEvent_good (fun name => (h name).1) name', ?_⟩
  unfold AddEvent
  by_cases hreg : Registered reg name callback
  · rw [if_pos hreg, if_pos ((keys_iff h).2 hreg)]
    exact (h name').2
  · rw [if_neg hreg, if_neg (mt (keys_iff h).1 hreg)]
    by_cases hname : name' = name
    · subst hname
      rw [Function.update_self, Function.update_self, (h name').2]
    · rw [Function.update_of_ne hname, Function.update_of_ne hname]
      exact (h name').2

/-- One call keeps the entries in step with what is registered, if it spares that. -/
theorem Tracks.step (hC : C.Quiet) (h : Tracks s) (hspares : Spares s a) : Tracks (step C s a) := by
  obtain ⟨self, w, hs, htracks⟩ := h
  unfold Dispatch.step Tracks
  rw [hs, Option.bind_some]
  cases a with
  | AddEvent name callback onceflag => exact ⟨_, w, rfl, AddEvent_tracks htracks⟩
  | OnceEvent name callback => exact ⟨_, w, rfl, AddEvent_tracks htracks⟩
  | DelEvent name callback =>
    have hreg := hspares name callback rfl
    have hkey : callback ∉ (self name).keys := mt (keys_iff htracks).1 hreg
    have hdel : DelEvent self name callback = some self := if_pos hkey
    refine ⟨self, w, ?_, fun name' => ⟨(htracks name').1, ?_⟩⟩
    · rw [perform, hdel, Option.map_some]
    · rw [(htracks name').2, register]
      dsimp only
      by_cases hname : name' = name
      · subst hname
        rw [Function.update_self]
        refine (List.filter_eq_self.2 fun e he => decide_eq_true ?_).symm
        rintro rfl
        exact hreg (List.mem_map_of_mem he)
      · rw [Function.update_of_ne hname]
  | DispatchEvent name =>
    obtain ⟨self', w', log, hrun, -, hentries, hother, hgood⟩ := DispatchEvent_spec C name self w
    refine ⟨self', w', ?_, fun name' => ⟨(hgood fun name => (htracks name).1).1 name', ?_⟩⟩
    · rw [perform, hrun, Option.map_some]
    · rw [register]
      dsimp only
      have hquiet : ∀ name', addedTo name' log = [] := fun name' => hC.addedTo hrun
      by_cases hname : name' = name
      · subst hname
        rw [Function.update_self, hentries, hquiet, List.append_nil, (htracks name').2]
      · rw [Function.update_of_ne hname, hother name' hname, hquiet, List.append_nil, (htracks name').2]

/-- Deleting leaves the entries as they are. -/
theorem DelEvent_entries (h : DelEvent self name callback = some self') (name' : ν) :
    (self' name').entries = (self name').entries := by
  unfold DelEvent at h
  split at h
  · cases h
    rfl
  · split at h
    · cases h
    · cases h
      by_cases hname : name' = name
      · subst hname
        rw [Function.update_self]
      · rw [Function.update_of_ne hname]

/-- A callback that is deleted is still called. -/
theorem Tracks.not_served (h : Tracks s) (hreg : Registered s.2 name callback) (hcall : C.callable callback) :
    ¬Served C (Dispatch.step C s (.DelEvent name callback)) := by
  obtain ⟨self, w, hs, htracks⟩ := h
  rintro ⟨self', w', hs', hserved⟩
  have hdel : ∃ self₁, DelEvent self name callback = some self₁ ∧ (self₁, w) = (self', w') := by
    unfold Dispatch.step at hs'
    rw [hs] at hs'
    exact Option.map_eq_some_iff.1 hs'
  obtain ⟨self₁, hdel, heq⟩ := hdel
  cases heq
  have hentries := DelEvent_entries hdel name
  obtain ⟨-, s'', log, hrun, hcount⟩ := hserved name
  obtain ⟨_, _, log', hrun', hcalls, -⟩ := DispatchEvent_spec C name self' w
  cases hrun.symm.trans hrun'
  have hmem : callback ∈ calls log := by
    rw [hcalls, List.mem_filter, List.map_reverse, List.mem_reverse, hentries, (htracks name).2]
    exact ⟨hreg, hcall⟩
  have hgone : ¬Registered (register s.2 (.DelEvent name callback)) name callback := by
    unfold Registered
    rw [register, Function.update_self, List.mem_map]
    rintro ⟨e, he, hcb⟩
    exact of_decide_eq_true (List.mem_filter.1 he).2 hcb
  have hzero := hcount callback
  unfold Dispatch.step at hzero
  rw [if_neg fun hand => hgone hand.1] at hzero
  exact (List.count_pos_iff.2 hmem).ne' hzero

/-- **Unregistration**: in every run that deletes nothing that is registered, the object serves what is registered in
every state; and where all callbacks can be called, in no other run. -/
theorem served_throughout (C : Code ν κ σ) (hC : C.Quiet) (w : σ) (as : List (Action ν κ)) :
    (Along (step C) Spares (initial w) as → Throughout (step C) (Served C) (initial w) as) ∧
      ((∀ callback, C.callable callback) → Throughout (step C) (Served C) (initial w) as →
        Along (step C) Spares (initial w) as) := by
  have hinit : Tracks (initial w : State ν κ σ) := initial_tracks w
  constructor
  · intro halong
    exact (halong.throughout (fun s a hs ha => hs.step hC ha) hinit).mono fun s hs => hs.served
  · intro hcall
    refine (throughout_iff_along (fun s hs => hs.served) (fun s a hs ha => hs.step hC ha) ?_ hinit).1
    rintro s a hs hserved name callback rfl hreg
    exact hs.not_served hreg (hcall callback) hserved

end

/-- Callbacks that do nothing. -/
def idle : Code Unit Nat Unit := ⟨fun _ => true, fun _ s => ([], s.2)⟩

/-- A run that deletes only what is not registered any more. -/
theorem served_once : Throughout (step idle) (Served idle) (initial ())
    [.AddEvent () 1 false, .OnceEvent () 2, .DispatchEvent (), .DelEvent () 2, .DispatchEvent ()] := by
  apply (served_throughout idle (fun _ _ => rfl) () _).1
  refine ⟨?_, ?_, ?_, ?_, ?_, trivial⟩
  · rintro name callback ⟨⟩
  · rintro name callback ⟨⟩
  · rintro name callback ⟨⟩
  · rintro name callback ⟨⟩
    decide
  · rintro name callback ⟨⟩

/-- A callback that is added and deleted is called. -/
theorem not_served_deleted :
    ¬Throughout (step idle) (Served idle) (initial ()) [.AddEvent () 1 false, .DelEvent () 1] := by
  rintro ⟨-, -, hserved⟩
  have htracks : Tracks (initial () : State Unit Nat Unit) := initial_tracks ()
  have hadded : Tracks (step idle (initial ()) (.AddEvent () 1 false)) :=
    htracks.step (fun _ _ => rfl) (by rintro name callback ⟨⟩)
  exact hadded.not_served (by decide) rfl hserved

end XCore.Dispatch
