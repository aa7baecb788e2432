import XCore.Timer.Registry

/-!
# Timers of classes and of their instances

The methods `AddTimer`, `DelTimer`, `HasTimer` and `DelTimerAll` of `CObject` work on `obj.__Timer`, which is looked up
along the metatables: an object that has no table yet works on that of its class, if the class has one. `World` notes on
which object, and under which name, each timer has been added; `Isolated` says that a call does nothing to the timers of
other objects and that `HasTimer` tells those of the object.

Calls are isolated along runs in which no call finds entries in the table of another object (`timers_isolated`).
-/

namespace XCore.Timer

open XCore.Lua XCore.Run

variable {V : Type}

/-- `HasTimer` of the module: whether it returns `true`. -/
def Timers.HasTimer (I : Objects) (s : Timers V) (self : Owner) (obj : Option Owner) (func : Option Func) : Bool :=
  match func with
  | none => false
  | some func =>
    match s.find I (obj.getD self) with
    | none => false
    | some (_, t) => t.entries.any fun e => e.2 = func

/-- A call of a method of `CObject`, or a step of the loop. -/
inductive Method (V : Type)
  | AddTimer (self : Owner) (delay interval : Option Number) (func : Option Func) (args : List V)
  | DelTimer (self : Owner) (func : Option Func)
  | HasTimer (self : Owner) (func : Option Func)
  | DelTimerAll (self : Owner)
  | NextTick (self : Owner) (func : Option Func) (args : List V)
  | OnEvent (self : Owner) (name : V) (args : List V)
  | advance (ms : Nat)
  | runTimer

/-- What a method does with the module; `AddTimer` checks that the object has the method `func`. -/
def Method.action (I : Objects) : Method V → Option (Action V)
  | .AddTimer self delay interval func args =>
    if func.any (I.has self) then some (.AddTimer self self delay interval func args) else none
  | .DelTimer self func => some (.DelTimerByName self self func)
  | .HasTimer _ _ => none
  | .DelTimerAll self => some (.DelAll self self)
  | .NextTick self func args => some (.NextTick self func args)
  | .OnEvent self name args => some (.OnEvent self name args)
  | .advance ms => some (.advance ms)
  | .runTimer => some .runTimer

/-- The object on which a method is called. -/
def Method.owner : Method V → Option Owner
  | .AddTimer self _ _ _ _ => some self
  | .DelTimer self _ => some self
  | .HasTimer self _ => some self
  | .DelTimerAll self => some self
  | .NextTick self _ _ => some self
  | .OnEvent self _ _ => some self
  | .advance _ => none
  | .runTimer => none

/-- The object on which a method adds a timer, and under which name. -/
def Method.adds : Method V → Option (Owner × Func)
  | .AddTimer self _ _ func _ => func.map fun f => (self, f)
  | .NextTick self func _ => func.map fun f => (self, f)
  | .OnEvent self _ _ => some (self, Timers.dispatchEvent)
  | _ => none

/-- The module, and for each timer the object on which it has been added and the name, which no code reads. -/
structure World (V : Type) where
  timers : Timers V
  added : Nat → Option (Owner × Func)

namespace World

/-- The module before its first timer. -/
def init (time counter : Nat) : World V := ⟨.init time counter, fun _ => none⟩

/-- The module after a call. -/
def invoke (I : Objects) (w : World V) (a : Method V) : Timers V :=
  match a.action I with
  | none => w.timers
  | some a => w.timers.next I a

/-- A call; the timer that it starts is noted. -/
def next (I : Objects) (w : World V) (a : Method V) : World V where
  timers := w.invoke I a
  added :=
    if ((w.invoke I a).callbacks w.timers.created).isSome then Function.update w.added w.timers.created a.adds
    else w.added

/-- A timer has been added on an object under a name and still runs. -/
def Has (w : World V) (o : Owner) (f : Func) : Prop := ∃ k, w.added k = some (o, f) ∧ w.timers.loop.Running k

end World

/-- A call stops no timer of another object, `HasTimer` answers for the timers of its object, and would do so afterwards
on every object that has added timers. -/
structure Isolated (I : Objects) (w : World V) (a : Method V) : Prop where
  stops : ∀ o, a.owner = some o → ∀ k p f, w.added k = some (p, f) → p ≠ o → w.timers.loop.Running k →
    (w.next I a).timers.loop.Running k
  answers : ∀ o func, a = .HasTimer o func → (w.timers.HasTimer I o o func = true ↔ ∃ f, func = some f ∧ w.Has o f)
  exact : ∀ k o f, (w.next I a).added k = some (o, f) →
    ∀ g, (w.next I a).timers.HasTimer I o o (some g) = true ↔ (w.next I a).Has o g

/-- An object finds its own table, if any, or one with a property. -/
def OwnOr (I : Objects) (s : Timers V) (o : Owner) (P : Table → Prop) : Prop :=
  ∀ q t, s.find I o = some (q, t) → q = o ∨ P t

/-- `AddTimer` of the module starts a timer. -/
def Accepted (delay interval : Option Number) (func : Option Func) : Prop :=
  ∃ d i f, delay = some d ∧ interval = some i ∧ func = some f ∧ d.lt (.int 0) = false ∧ i.lt (.int 0) = false ∧
    f.callable = true ∧ d.toInteger ≠ none ∧ i.toInteger ≠ none

/-- A call finds no entries in the table of another object, and makes none there. -/
def OnOwn (I : Objects) (s : Timers V) : Method V → Prop
  | .AddTimer self delay interval func _ => func.any (I.has self) = true → Accepted delay interval func →
      OwnTable I s self
  | .DelTimer self func => ∀ f, func = some f → OwnOr I s self fun t => Timers.keysOf t f = []
  | .HasTimer self func => ∀ f, func = some f → OwnOr I s self fun t => Timers.keysOf t f = []
  | .DelTimerAll self => OwnOr I s self fun t => t = ∅
  | .NextTick self func _ => func.any (fun f => I.has self f && f.callable) = true → OwnTable I s self
  | .OnEvent self _ _ => I.has self Timers.dispatchEvent = true → OwnTable I s self
  | .advance _ => True
  | .runTimer => True

variable {I : Objects} {s : Timers V} {w : World V} {a : Method V}

/-! ## What the calls find -/

theorem HasTimer_own {o : Owner} {t : Table} {f : Func} (h : s.own o = some t) :
    s.HasTimer I o o (some f) = true ↔ ∃ k, t.lookup k = some f := by
  unfold Timers.HasTimer
  dsimp only [Option.getD_some]
  rw [Timers.find_own h]
  simp only [List.any_eq_true, decide_eq_true_eq]
  constructor
  · rintro ⟨⟨k, g⟩, hmem, rfl⟩
    exact ⟨k, AList.mem_lookup_iff.2 hmem⟩
  · rintro ⟨k, hk⟩
    exact ⟨⟨k, f⟩, AList.mem_lookup_iff.1 hk, rfl⟩

/-- `HasTimer` of an object that finds no entry of the name. -/
theorem HasTimer_other {o q : Owner} {t : Table} {f : Func} (h : s.find I o = some (q, t))
    (ht : Timers.keysOf t f = []) :
    s.HasTimer I o o (some f) = false := by
  unfold Timers.HasTimer
  dsimp only [Option.getD_some]
  rw [h]
  rw [Timers.keysOf, List.map_eq_nil_iff, List.filter_eq_nil_iff] at ht
  simpa using ht

theorem HasTimer_none {o : Owner} {f : Func} (h : s.find I o = none) : s.HasTimer I o o (some f) = false := by
  unfold Timers.HasTimer
  dsimp only [Option.getD_some]
  rw [h]

/-- `AddTimer` with arguments that it does not accept. -/
theorem AddTimer_refused {self : Owner} {obj : Option Owner} {delay interval : Option Number} {func : Option Func}
    {args : List V} (h : ¬Accepted delay interval func) :
    (s.AddTimer I self obj delay interval func args).1 = s ∨
    (s.AddTimer I self obj delay interval func args).1 = s.timerNew := by
  unfold Timers.AddTimer
  split
  · rename_i d i f
    split
    · exact Or.inl rfl
    · rename_i hlt
      split
      · exact Or.inl rfl
      · rename_i hcall
        dsimp only
        split
        · rename_i timeout period hd hi
          refine absurd ⟨d, i, f, rfl, rfl, rfl, ?_⟩ h
          simp only [Bool.or_eq_true, not_or, Bool.not_eq_true, Bool.not_eq_eq_eq_not, Bool.not_true] at hlt hcall
          rw [hd, hi]
          exact ⟨hlt.1, hlt.2, by simpa using hcall, Option.some_ne_none _, Option.some_ne_none _⟩
        · exact Or.inr rfl
  · exact Or.inl rfl

theorem setTable_same {q : Owner} {t : Table} (h : s.own q = some t) : s.setTable q t = s := by
  unfold Timers.setTable
  rw [← h, Function.update_eq_self]

/-- `DelTimerByName` of a name without entries. -/
theorem DelTimerByName_missing {o q : Owner} {t : Table} {f : Func} (h : s.find I o = some (q, t))
    (ht : Timers.keysOf t f = []) : s.DelTimerByName I o o (some f) = s := by
  unfold Timers.DelTimerByName
  dsimp only [Option.getD_some]
  rw [h]
  dsimp only
  rw [ht]
  exact setTable_same (Timers.own_of_find h)

/-- `NextTick` of a value that it does not call. -/
theorem NextTick_refused {self : Owner} {func : Option Func} {args : List V}
    (h : ¬func.any (fun f => I.has self f && f.callable) = true) : (s.NextTick I self func args).1 = s := by
  unfold Timers.NextTick
  cases func with
  | none => rfl
  | some f =>
    rw [Option.any_some, Bool.and_eq_true, not_and] at h
    dsimp only
    split
    · rename_i hhas
      have hcall := h hhas
      cases f with
      | fn id => exact absurd rfl hcall
      | method name => exact absurd rfl hcall
      | other id => rfl
    · rfl

/-- The tables after an object has got an empty one. -/
theorem own_emptied {o p : Owner} {t : Table} (h : (s.setTable o ∅).own p = some t) : s.own p = some t ∨ t = ∅ := by
  by_cases hpo : p = o
  · subst hpo
    rw [Timers.setTable_own] at h
    cases h
    exact Or.inr rfl
  · rw [Timers.setTable_own_ne hpo] at h
    exact Or.inl h

theorem Registered.emptied {o : Owner} (hs : Registered s) (ho : s.own o = none) : Registered (s.setTable o ∅) := by
  have hkeep : ∀ {p t}, s.own p = some t → (s.setTable o ∅).own p = some t := by
    intro p t hp
    rw [Timers.setTable_own_ne]
    · exact hp
    · rintro rfl
      rw [ho] at hp
      cases hp
  constructor
  · exact hs.fresh
  · intro k c hc
    obtain ⟨t, ht⟩ := Option.ne_none_iff_exists'.1 (hs.owned k c hc)
    rw [hkeep ht]
    exact Option.some_ne_none _
  · intro k hk
    obtain ⟨c, t, hc, ht, hmem⟩ := hs.running k hk
    exact ⟨c, t, hc, hkeep ht, hmem⟩
  · intro p t k hp hk
    rcases own_emptied hp with hp | rfl
    · exact hs.keyed p t k hp hk
    · exact absurd hk (AList.notMem_empty _)
  · exact hs.once

/-! ## The invariant -/

/-- The tables hold the timers under the names and on the objects that are noted. -/
structure Noted (w : World V) : Prop where
  registered : Registered w.timers
  closure : ∀ k o f, w.added k = some (o, f) → ∃ c, w.timers.callbacks k = some c ∧ c.obj = o
  entry : ∀ o t k f, w.timers.own o = some t → t.lookup k = some f → w.added k = some (o, f)

namespace Noted

theorem init (time counter : Nat) : Noted (World.init time counter : World V) where
  registered := .init time counter
  closure _ _ _ h := by cases h
  entry _ _ _ _ h := by cases h

/-- The entries of an object's own table are the timers that have been added on it and still run. -/
theorem has_iff {o : Owner} {t : Table} {f : Func} (hw : Noted w) (ho : w.timers.own o = some t) :
    w.Has o f ↔ ∃ k, t.lookup k = some f := by
  constructor
  · rintro ⟨k, hk, hrun⟩
    obtain ⟨c, hc, rfl⟩ := hw.closure k o f hk
    obtain ⟨c', t', hc', ht', hmem⟩ := hw.registered.running k hrun
    rw [hc] at hc'
    cases hc'
    rw [ho] at ht'
    cases ht'
    obtain ⟨g, hg⟩ := Option.isSome_iff_exists.1 (AList.lookup_isSome.2 hmem)
    have hadded := hw.entry c.obj t k g ho hg
    rw [hk] at hadded
    cases hadded
    exact ⟨k, hg⟩
  · rintro ⟨k, hk⟩
    have hmem : k ∈ t := AList.lookup_isSome.1 (by rw [hk]; rfl)
    exact ⟨k, hw.entry o t k f ho hk, (hw.registered.keyed o t k ho hmem).1⟩

/-- An object without a table has no timers. -/
theorem not_has {o : Owner} {f : Func} (hw : Noted w) (ho : w.timers.own o = none) : ¬w.Has o f := by
  rintro ⟨k, hk, -⟩
  obtain ⟨c, hc, rfl⟩ := hw.closure k o f hk
  exact hw.registered.owned k c hc ho

/-- `HasTimer` tells the timers of every object that has added some. -/
theorem exact_of_added {k : Nat} {o : Owner} {f : Func} (hw : Noted w) (hk : w.added k = some (o, f)) (g : Func) :
    w.timers.HasTimer I o o (some g) = true ↔ w.Has o g := by
  obtain ⟨c, hc, rfl⟩ := hw.closure k o f hk
  obtain ⟨t, ht⟩ := Option.ne_none_iff_exists'.1 (hw.registered.owned k c hc)
  rw [HasTimer_own ht, hw.has_iff ht]

/-- A call that starts no timer notes none. -/
theorem next_quiet (hw : Noted w) (h : (w.invoke I a).callbacks = w.timers.callbacks) :
    w.next I a = ⟨w.invoke I a, w.added⟩ := by
  have hnone : w.timers.callbacks w.timers.created = none := by
    cases hc : w.timers.callbacks w.timers.created with
    | none => rfl
    | some c => exact absurd (hw.registered.fresh _ c hc) (Nat.lt_irrefl _)
  unfold World.next
  rw [h, hnone]
  rfl

/-- Fewer entries under the same closures. -/
theorem kept {s' : Timers V} (hw : Noted w) (hr : Registered s') (hc : s'.callbacks = w.timers.callbacks)
    (he : ∀ o t k f, s'.own o = some t → t.lookup k = some f → ∃ u, w.timers.own o = some u ∧ u.lookup k = some f) :
    Noted ⟨s', w.added⟩ where
  registered := hr
  closure k o f hk := by
    obtain ⟨c, h, ho⟩ := hw.closure k o f hk
    exact ⟨c, by rw [← h, ← hc], ho⟩
  entry o t k f ho hk := by
    obtain ⟨u, hu, hlook⟩ := he o t k f ho hk
    exact hw.entry o u k f hu hlook

/-- A timer is added on an object with its own table. -/
theorem added {o : Owner} (hw : Noted w) (hown : OwnTable I w.timers o) (timeout period : Nat) (args : List V)
    (f : Func) :
    Noted ⟨(w.timers.timerNew.start w.timers.created timeout period ⟨o, period == 0, args⟩).put I o w.timers.created f,
      Function.update w.added w.timers.created (some (o, f))⟩ where
  registered := hw.registered.added hown timeout period args f
  closure k p g hk := by
    change ∃ c, Function.update w.timers.callbacks w.timers.created _ k = some c ∧ _
    change Function.update w.added _ _ k = some (p, g) at hk
    by_cases hnew : k = w.timers.created
    · subst hnew
      rw [Function.update_self] at hk ⊢
      cases hk
      exact ⟨_, rfl, rfl⟩
    · rw [Function.update_of_ne hnew] at hk ⊢
      exact hw.closure k p g hk
  entry p t k g hp hk := by
    change Function.update w.added _ _ k = some (p, g)
    have hentry := Registered.entry_put
      (s := w.timers.timerNew.start w.timers.created timeout period ⟨o, period == 0, args⟩) hown hp hk
    rcases hentry with ⟨rfl, rfl, rfl⟩ | ⟨u, hu, hk⟩
    · rw [Function.update_self]
    · obtain ⟨-, c, hc, -⟩ := hw.registered.keyed p u k hu (AList.lookup_isSome.1 (by rw [hk]; rfl))
      rw [Function.update_of_ne (hw.registered.fresh k c hc).ne]
      exact hw.entry p u k g hu hk

end Noted

/-! ## One call -/

/-- A call keeps the invariant and stops no timer of another object. -/
structure Goes (I : Objects) (w : World V) (a : Method V) : Prop where
  noted : Noted (w.next I a)
  stops : ∀ o, a.owner = some o → ∀ k p f, w.added k = some (p, f) → p ≠ o → w.timers.loop.Running k →
    (w.next I a).timers.loop.Running k

namespace Goes

theorem same (hw : Noted w) (h : w.invoke I a = w.timers) : Goes I w a := by
  have hnext := hw.next_quiet (I := I) (a := a) (by rw [h])
  rw [h] at hnext
  constructor
  · rw [hnext]
    exact hw
  · rw [hnext]
    exact fun _ _ _ _ _ _ _ hrun => hrun

theorem raised (hw : Noted w) (h : w.invoke I a = w.timers.timerNew) : Goes I w a := by
  have hnext := hw.next_quiet (I := I) (a := a) (by rw [h]; rfl)
  rw [h] at hnext
  constructor
  · rw [hnext]
    exact hw.kept (hw.registered.idle _ rfl _ (Nat.le_succ _) _) rfl fun o t k f ho hk => ⟨t, ho, hk⟩
  · rw [hnext]
    exact fun _ _ _ _ _ _ _ hrun => hrun

theorem added {o : Owner} {f : Func} (timeout period : Nat) {args : List V} (hw : Noted w)
    (hadds : a.adds = some (o, f)) (hown : OwnTable I w.timers o) (h : w.invoke I a =
      (w.timers.timerNew.start w.timers.created timeout period ⟨o, period == 0, args⟩).put I o w.timers.created f) :
      Goes I w a := by
  have hcall : (w.invoke I a).callbacks w.timers.created = some ⟨o, period == 0, args⟩ := by
    rw [h]
    exact Function.update_self ..
  have hnext : w.next I a = ⟨w.invoke I a, Function.update w.added w.timers.created (some (o, f))⟩ := by
    unfold World.next
    rw [hcall, hadds]
    rfl
  rw [h] at hnext
  constructor
  · rw [hnext]
    exact hw.added hown timeout period args f
  · rw [hnext]
    exact fun _ _ _ _ _ _ _ hrun => Loop.running_start.2 (Or.inl hrun)

theorem removed {o : Owner} {ks : List Nat} (hw : Noted w) (ha : a.owner = some o) (hown : OwnTable I w.timers o)
    (h : Timers.Removed I w.timers o ks (w.invoke I a)) : Goes I w a := by
  have hr := hw.registered.removed hown h
  obtain ⟨q, t, u, hf, hs', hks, -⟩ := h.found
  have hq := hown q t hf
  subst hq
  have ht := Timers.own_of_find hf
  have hcall : (w.invoke I a).callbacks = w.timers.callbacks := by
    rw [hs', Timers.stopAll_callbacks]
    rfl
  constructor
  · rw [hw.next_quiet hcall]
    exact hw.kept hr hcall fun p v k f hp hk => h.entry hp hk
  · rw [hw.next_quiet hcall]
    intro o ho k p f hk hne hrun
    rw [ha] at ho
    cases ho
    change (w.invoke I a).loop.Running k
    rw [hs', Timers.running_stopAll]
    refine ⟨hrun, fun hmem => hne ?_⟩
    -- what is stopped are keys of the table of the object
    obtain ⟨g, hg⟩ := Option.isSome_iff_exists.1 (AList.lookup_isSome.2 (hks k hmem).1)
    have hadded := hw.entry q t k g ht hg
    rw [hk] at hadded
    cases hadded
    rfl

/-- An object without a table gets an empty one. -/
theorem emptied {o : Owner} (hw : Noted w) (ho : w.timers.own o = none) (h : w.invoke I a = w.timers.setTable o ∅) :
    Goes I w a := by
  have hnext := hw.next_quiet (I := I) (a := a) (by rw [h]; rfl)
  rw [h] at hnext
  constructor
  · rw [hnext]
    refine hw.kept (hw.registered.emptied ho) rfl fun p t k f hp hk => ?_
    rcases own_emptied hp with hp | rfl
    · exact ⟨t, hp, hk⟩
    · exact absurd (AList.lookup_isSome.1 (by rw [hk]; rfl)) (AList.notMem_empty k)
  · rw [hnext]
    exact fun _ _ _ _ _ _ _ hrun => hrun

/-- A step of the loop is no call on an object. -/
theorem ran (hw : Noted w) : Goes I w .runTimer := by
  refine ⟨?_, fun _ ho => by cases ho⟩
  have hinvoke : w.invoke I .runTimer = (w.timers.runTimer I).1 := rfl
  have hr := (Kept.runTimer hw.registered I).registered
  have hkeep : (w.invoke I .runTimer).callbacks = w.timers.callbacks ∧ ∀ o t k f,
      (w.invoke I .runTimer).own o = some t → t.lookup k = some f → ∃ u, w.timers.own o = some u ∧
      u.lookup k = some f := by
    rw [hinvoke]
    rcases hw.registered.runTimer_cases I with h | ⟨b, c, t, f, -, -, hf, hfind, h⟩
    · rw [h]
      exact ⟨rfl, fun o t k f ho hk => ⟨t, ho, hk⟩⟩
    · rw [h]
      cases c.once with
      | false => exact ⟨rfl, fun o t k f ho hk => ⟨t, ho, hk⟩⟩
      | true =>
        rw [if_pos rfl]
        have hkey : b.handle ∈ t := AList.lookup_isSome.1 (by rw [hf]; rfl)
        exact ⟨Timers.stopAll_callbacks, fun o u k g ho hk => (Timers.Removed.erase hfind hkey).entry ho hk⟩
  rw [hw.next_quiet hkeep.1]
  exact hw.kept hr hkeep.1 hkeep.2

section

variable {self : Owner} {delay interval : Option Number} {func : Option Func} {args : List V}

theorem AddTimer (hw : Noted w) (h : OnOwn I w.timers (.AddTimer self delay interval func args)) :
    Goes I w (.AddTimer self delay interval func args) := by
  by_cases hhas : func.any (I.has self) = true
  · have hinvoke : w.invoke I (.AddTimer self delay interval func args) =
        (w.timers.AddTimer I self self delay interval func args).1 := by
      unfold World.invoke Method.action
      dsimp only
      rw [if_pos hhas]
      rfl
    by_cases hacc : Accepted delay interval func
    · rcases Timers.AddTimer_cases (I := I) w.timers self self delay interval func args
        with ⟨_, _, f, rfl, he⟩ | he | he
      · exact added _ _ hw rfl (h hhas hacc) (by rw [hinvoke, he]; rfl)
      · exact same hw (by rw [hinvoke, he])
      · exact raised hw (by rw [hinvoke, he])
    · have hrefused : (w.timers.AddTimer I self self delay interval func args).1 = w.timers ∨
          (w.timers.AddTimer I self self delay interval func args).1 = w.timers.timerNew := AddTimer_refused hacc
      rcases hrefused with he | he
      · exact same hw (by rw [hinvoke, he])
      · exact raised hw (by rw [hinvoke, he])
  · refine same hw ?_
    unfold World.invoke Method.action
    dsimp only
    rw [if_neg hhas]

theorem DelTimer (hw : Noted w) (h : OnOwn I w.timers (.DelTimer self func)) : Goes I w (.DelTimer self func) := by
  have hinvoke : w.invoke I (.DelTimer self func) = w.timers.DelTimerByName I self self func := rfl
  rcases Timers.DelTimerByName_cases (I := I) w.timers self self func with he | ⟨f, q, t, rfl, hf, he⟩
  · exact same hw (by rw [hinvoke, he])
  · rcases h f rfl q t hf with rfl | hnone
    · exact removed hw rfl (Registered.ownTable_of_find hf) he
    · exact same hw (by rw [hinvoke]; exact DelTimerByName_missing hf hnone)

theorem DelTimerAll (hw : Noted w) (h : OnOwn I w.timers (.DelTimerAll self)) : Goes I w (.DelTimerAll self) := by
  have hinvoke : w.invoke I (.DelTimerAll self) = w.timers.DelAll I self self := rfl
  rcases Timers.DelAll_cases (I := I) w.timers self self with he | ⟨q, t, hf, he⟩
  · exact same hw (by rw [hinvoke, he])
  · rcases h q t hf with rfl | rfl
    · have hremoved : Timers.Removed I w.timers q t.keys (w.invoke I (.DelTimerAll q)) :=
        ⟨q, t, ∅, hf, by rw [hinvoke, he]; rfl, fun k hk => ⟨hk, AList.notMem_empty _⟩,
          fun k hk => (AList.lookup_eq_none.2 hk).symm⟩
      exact removed hw rfl (Registered.ownTable_of_find hf) hremoved
    · -- the table that is found is empty: that of a class is copied, its own is set again
      cases ho : w.timers.own self with
      | none => exact emptied hw ho (by rw [hinvoke, he]; rfl)
      | some u =>
        rw [Option.getD_some, Timers.find_own ho] at hf
        cases hf
        exact same hw (by rw [hinvoke, he]; exact setTable_same ho)

theorem NextTick (hw : Noted w) (h : OnOwn I w.timers (.NextTick self func args)) :
    Goes I w (.NextTick self func args) := by
  have hinvoke : w.invoke I (.NextTick self func args) = (w.timers.NextTick I self func args).1 := rfl
  by_cases hcall : func.any (fun f => I.has self f && f.callable) = true
  · rcases Timers.NextTick_cases (I := I) w.timers self func args with ⟨f, rfl, he⟩ | he
    · exact added 0 0 hw rfl (h hcall) (by rw [hinvoke, he]; rfl)
    · exact same hw (by rw [hinvoke, he])
  · exact same hw (by rw [hinvoke]; exact NextTick_refused hcall)

theorem OnEvent {name : V} (hw : Noted w) (h : OnOwn I w.timers (.OnEvent self name args)) :
    Goes I w (.OnEvent self name args) := by
  have hinvoke : w.invoke I (.OnEvent self name args) = (w.timers.OnEvent I self name args).1 := rfl
  rcases Timers.OnEvent_cases (I := I) w.timers self name args with ⟨hhas, he⟩ | ⟨-, he⟩
  · exact added 0 0 hw rfl (h hhas) (by rw [hinvoke, he]; rfl)
  · exact same hw (by rw [hinvoke, he])

end

theorem advance (hw : Noted w) (ms : Nat) : Goes I w (.advance ms) := by
  have hnext := hw.next_quiet (I := I) (a := .advance ms) rfl
  constructor
  · rw [hnext]
    exact hw.kept (Kept.advanced hw.registered ms).registered rfl fun o t k f ho hk => ⟨t, ho, hk⟩
  · exact fun _ ho => by cases ho

/-- **One call** that finds nothing in the tables of other objects. -/
theorem of_onOwn (hw : Noted w) (h : OnOwn I w.timers a) : Goes I w a := by
  cases a with
  | AddTimer self delay interval func args => exact AddTimer hw h
  | DelTimer self func => exact DelTimer hw h
  | HasTimer self func => exact same hw rfl
  | DelTimerAll self => exact DelTimerAll hw h
  | NextTick self func args => exact NextTick hw h
  | OnEvent self name args => exact OnEvent hw h
  | advance ms => exact advance hw ms
  | runTimer => exact ran hw

end Goes

/-- The answer of `HasTimer`, if it finds nothing in the tables of other objects. -/
theorem HasTimer_of_onOwn {o : Owner} {func : Option Func} (hw : Noted w) (h : OnOwn I w.timers (.HasTimer o func)) :
    w.timers.HasTimer I o o func = true ↔ ∃ f, func = some f ∧ w.Has o f := by
  cases func with
  | none => exact iff_of_false (by simp [Timers.HasTimer]) (by simp)
  | some f =>
    have hhas : (∃ g, some f = some g ∧ w.Has o g) ↔ w.Has o f := by simp
    rw [hhas]
    cases ho : w.timers.own o with
    | some t => rw [HasTimer_own ho, hw.has_iff ho]
    | none =>
      refine iff_of_false ?_ (hw.not_has ho)
      cases hf : w.timers.find I o with
      | none => simp [HasTimer_none hf]
      | some r =>
        obtain ⟨q, t⟩ := r
        rcases h f rfl q t hf with rfl | hnone
        · rw [Timers.own_of_find hf] at ho
          cases ho
        · simp [HasTimer_other hf hnone]

/-- **Isolation of timers**: calls are isolated along runs in which no call finds entries in the table of another
object. -/
theorem timers_isolated (I : Objects) (time counter : Nat) (as : List (Method V))
    (h : Along (World.next I) (fun w a => OnOwn I w.timers a) (World.init time counter) as) :
    Along (World.next I) (Isolated I) (World.init time counter) as := by
  refine h.along (I := Noted) (fun w a hw ha => (Goes.of_onOwn hw ha).noted) (fun w a hw ha => ?_) (.init time counter)
  have hgoes := Goes.of_onOwn hw ha
  refine ⟨hgoes.stops, ?_, fun k o f hk => hgoes.noted.exact_of_added hk⟩
  rintro o func rfl
  exact HasTimer_of_onOwn hw ha

/-- A class and one instance. -/
def oneInstance : Objects where
  index o := if o = 1 then some 0 else none
  chain o := if o = 1 then [1, 0] else [o]
  chain_eq o := by
    by_cases h : o = 1
    · subst h
      rfl
    · simp [h]
  has _ _ := true

/-- The instance adds its timer first, then the class. -/
def instanceFirst : List (Method Nat) :=
  [.AddTimer 1 (some (.int 5)) (some (.int 0)) (some (.method "Tick")) [],
    .AddTimer 0 (some (.int 9)) (some (.int 0)) (some (.method "Tick")) [], .DelTimer 1 (some (.method "Tick")),
    .HasTimer 0 (some (.method "Tick")), .DelTimerAll 1, .advance 9, .runTimer]

theorem timers_isolated_instanceFirst :
    Along (World.next oneInstance) (Isolated oneInstance) (World.init 0 0) instanceFirst := by
  refine timers_isolated oneInstance 0 0 instanceFirst
    ⟨fun _ _ => ?_, fun _ _ => ?_, fun _ _ => ?_, fun _ _ => ?_, ?_, trivial, trivial, trivial⟩
  · rintro q t ⟨⟩
  · rintro q t ⟨⟩
  · rintro q t ⟨⟩
    exact Or.inl rfl
  · rintro q t ⟨⟩
    exact Or.inl rfl
  · rintro q t ⟨⟩
    exact Or.inl rfl

/-- The class has added a timer, and an instance that has none deletes it by its name. -/
theorem timer_of_class_stopped : ¬Along (World.next oneInstance) (Isolated oneInstance) (World.init 0 0)
    [(.AddTimer 0 (some (.int 5)) (some (.int 0)) (some (.method "Tick")) [] : Method Nat),
      .DelTimer 1 (some (.method "Tick"))] := by
  rintro ⟨-, h, -⟩
  obtain ⟨a, ha, -⟩ := h.stops 1 rfl 0 0 (.method "Tick") rfl (by decide) ⟨⟨0, 5, 0, 0⟩, List.mem_singleton.2 rfl, rfl⟩
  cases ha

end XCore.Timer
