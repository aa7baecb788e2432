import XCore.Require.Lifecycle

/-!
# What a failed `require` leaves

`require` puts the new module into `_MODULE` before `_CallInit`, and `_CallInit` registers one class after another. So
an error there leaves the new module behind, half initialised, and the next `require` returns it. Nothing is left
exactly if the file is not loaded, or if the body of the module raises and has left everything alone (`failed_iff`).
-/

namespace XCore.Require

open XCore.Lua XCore.Heap XCore.Effect

variable {φ χ : Type} [DecidableEq φ] {K : Code φ χ} {O : Order φ} {files : String → File χ} {name nm : String}
    {s t u : St φ}
  {c : χ} {M Old : Ref}

/-- The second name that `LoadFile` tries. -/
def luaName (name : String) : String := name.map (fun c => if c.toNat = 92 then Char.ofNat 47 else c) ++ ".lua"

/-- The modules are tables that `require` has made. -/
def Sound (s : St φ) : Prop := ∀ n Old, s.MODULE n = some Old → Old < s.heap.next ∧ Old ≠ s.ENV

/-- The same modules and classes, and the module under either name has the contents that it had. -/
structure NoTrace (name : String) (s t : St φ) : Prop where
  MODULE : t.MODULE = s.MODULE
  CLASS : t.CLASS = s.CLASS
  contents : ∀ n Old, n = name ∨ n = luaName name → s.MODULE n = some Old → t.heap.tabs Old = s.heap.tabs Old

section

variable (K O files name)

/-- `require` raises: the file is missing or no Lua, or an error is raised by the body of the module, by a class that is
registered or by `__init__`; not by `__destroy__`, the merge or `__update__`. -/
structure Fails (reload : Bool) (s : St φ) : Prop where
  raises : (require K O files name reload s).1.err ≠ none
  listed : ∀ c nm Old, LoadFile files name = .ok (c, nm) → s.MODULE nm = some Old →
    (K.exec c (fresh s) (opened s)).1 = none →
    (CallDestroy K Old (executed K c s)).err = none ∧ (merge K O Old (fresh s) (destroyed K c Old s)).err = none ∧
      (CallInit K O (fresh s) (merged K O nm c Old s)).err ≠ none

/-- The file is not loaded, or the body of the module raises and has itself left everything alone. -/
def FailsEarly (s : St φ) : Prop := (∃ e, LoadFile files name = .error e) ∨
  ∃ c nm, LoadFile files name = .ok (c, nm) ∧ (K.exec c (fresh s) (opened s)).1 ≠ none ∧ NoTrace name s (executed K c s)

/-- The functions of the modules leave the module that is being loaded in its place. -/
def LeavesPlace (s : St φ) : Prop := ∀ c nm, LoadFile files name = .ok (c, nm) → ∀ f t, t.MODULE nm = some (fresh s) →
  (K.call f (fresh s) t).2.MODULE nm = some (fresh s)

end

/-! ## Before the chunk -/

/-- Only the environment and new tables are written. -/
theorem opened_tabs {r : Ref} (hlt : r < s.heap.next) (hne : r ≠ s.ENV) : (opened s).heap.tabs r = s.heap.tabs r := by
  have hset : ∀ (t : St φ) (k v : Val φ), t.ENV = s.ENV → (t.set t.ENV k v).heap.tabs r = t.heap.tabs r := by
    intro t k v henv
    apply Function.update_of_ne
    rw [henv]
    exact hne
  have hclear : (clearHooks s).heap.tabs r = s.heap.tabs r := by
    calc (clearHooks s).heap.tabs r
        = (((s.set s.ENV Hook.init.key .nil).set s.ENV (.str "__start__") .nil).set
            s.ENV Hook.update.key .nil).heap.tabs r := hset _ _ _ rfl
      _ = ((s.set s.ENV Hook.init.key .nil).set s.ENV (.str "__start__") .nil).heap.tabs r := hset _ _ _ rfl
      _ = (s.set s.ENV Hook.init.key .nil).heap.tabs r := hset _ _ _ rfl
      _ = s.heap.tabs r := hset _ _ _ rfl
  have hnext : (clearHooks s).heap.next = s.heap.next := rfl
  unfold opened newModule
  dsimp only
  rw [Store.tabs_alloc_of_lt _ (Nat.lt_succ_of_lt (hnext ▸ hlt)), Store.tabs_alloc_of_lt _ (hnext ▸ hlt)]
  exact hclear

theorem opened_noTrace (hs : Sound s) : NoTrace name s (opened s) := by
  refine ⟨rfl, rfl, fun n Old _ hold => ?_⟩
  obtain ⟨hlt, hne⟩ := hs n Old hold
  exact opened_tabs hlt hne

/-- Where `require` can raise. -/
theorem require_raises {reload : Bool} (h : (require K O files name reload s).1.err ≠ none) :
    ((∃ e, LoadFile files name = .error e) ∧ (require K O files name reload s).1.state = opened s) ∨
    ∃ c nm, LoadFile files name = .ok (c, nm) ∧
      (require K O files name reload s).1 = loadModule K O nm c (s.MODULE nm) (fresh s) (opened s) := by
  unfold require at h ⊢
  split
  · rename_i hb
    rw [hb] at h
    exact (h rfl).elim
  · rename_i hb
    rw [hb] at h
    dsimp only at h
    split
    · rename_i hold
      rw [hold] at h
      exact (h rfl).elim
    · rename_i hnot
      split
      · rename_i e hfile
        exact Or.inl ⟨⟨e, hfile⟩, rfl⟩
      · rename_i c nm hfile
        refine Or.inr ⟨c, nm, hfile, ?_⟩
        split
        · rename_i Old hold
          split at h
          · rename_i hold' _
            exact (hnot _ hold' rfl).elim
          · rw [hfile] at h
            dsimp only at h
            rw [hold] at h
            exact (h rfl).elim
        · rfl

/-! ## After the chunk -/

/-- An error of the body is the last that happens. -/
theorem loadModule_of_raise {o : Option Ref} (h : (K.exec c (fresh s) (opened s)).1 ≠ none) :
    (loadModule K O nm c o (fresh s) (opened s)).state = executed K c s := by
  obtain ⟨e, he⟩ := Option.ne_none_iff_exists'.1 h
  unfold loadModule
  rw [Done.andThen_of_err he]
  rfl

/-- A hook is called or nothing is done. -/
theorem callHook_state_cases (K : Code φ χ) (hook : Hook) (M : Ref) (s : St φ) :
    (callHook K hook M s).state = s ∨ ∃ f, (callHook K hook M s).state = (K.call f M s).2 := by
  unfold callHook read
  split
  · exact Or.inl rfl
  · dsimp only
    split
    · split
      · exact Or.inr ⟨_, rfl⟩
      · exact Or.inl rfl
    · exact Or.inl rfl

/-- `_CallInit` leaves the new module in its place, whether it raises or not. -/
theorem callInit_module (hinit : LeavesPlace K files name s) (hfile : LoadFile files name = .ok (c, nm))
    (ht : t.MODULE nm = some (fresh s)) : (CallInit K O (fresh s) t).state.MODULE nm = some (fresh s) := by
  have hloop : (registerAll O (fresh s) t).state.MODULE nm = some (fresh s) := by
    rw [registerAll_module]
    exact ht
  unfold CallInit
  cases herr : (registerAll O (fresh s) t).err with
  | some e =>
    rw [Done.andThen_of_err herr]
    exact hloop
  | none =>
    rw [Done.andThen_of_ok herr]
    dsimp only
    rcases callHook_state_cases K .init (fresh s) (registerAll O (fresh s) t).state with hstate | ⟨f, hstate⟩
    · rw [hstate]
      exact hloop
    · rw [hstate]
      exact hinit c nm hfile f _ hloop

/-- Once the body has come to its end, an error leaves the new module behind. -/
theorem loadModule_leaves (hinit : LeavesPlace K files name s) (hfile : LoadFile files name = .ok (c, nm))
    (hexec : (K.exec c (fresh s) (opened s)).1 = none)
    (hlisted : ∀ Old, s.MODULE nm = some Old → (CallDestroy K Old (executed K c s)).err = none ∧
      (merge K O Old (fresh s) (destroyed K c Old s)).err = none ∧
      (CallInit K O (fresh s) (merged K O nm c Old s)).err ≠ none) :
    (loadModule K O nm c (s.MODULE nm) (fresh s) (opened s)).state.MODULE nm = some (fresh s) := by
  unfold loadModule
  rw [Done.andThen_of_ok hexec]
  dsimp only
  cases hold : s.MODULE nm with
  | none => exact callInit_module hinit hfile (Function.update_self ..)
  | some Old =>
    obtain ⟨hdestroy, hmerge, herr⟩ := hlisted Old hold
    obtain ⟨e, he⟩ := Option.ne_none_iff_exists'.1 herr
    have hstate : (reloadModule K O nm Old (fresh s) (executed K c s)).state =
        (CallInit K O (fresh s) (merged K O nm c Old s)).state := by
      refine (Done.state_andThen_of_ok hdestroy _).trans ?_
      refine (Done.state_andThen_of_ok hmerge _).trans ?_
      exact congrArg Done.state (Done.andThen_of_err he _)
    refine (congrFun (congrArg St.MODULE hstate) nm).trans ?_
    exact callInit_module hinit hfile (Function.update_self ..)

/-- **What a failed `require` leaves**: nothing, exactly if the file is not loaded, or the body of the module raises and
has itself left everything alone. -/
theorem failed_iff (K : Code φ χ) (O : Order φ) (files : String → File χ) (name : String) (reload : Bool) (s : St φ)
    (hs : Sound s) (hfails : Fails K O files name reload s) (hinit : LeavesPlace K files name s) :
    NoTrace name s (require K O files name reload s).1.state ↔ FailsEarly K files name s := by
  rcases require_raises hfails.raises with ⟨herr, hstate⟩ | ⟨c, nm, hfile, hcall⟩
  · rw [hstate]
    exact iff_of_true (opened_noTrace hs) (Or.inl herr)
  · rw [hcall]
    by_cases hexec : (K.exec c (fresh s) (opened s)).1 = none
    · refine iff_of_false (fun hno => ?_) ?_
      · have hleft := loadModule_leaves hinit hfile hexec fun Old hold => hfails.listed c nm Old hfile hold hexec
        rw [hno.MODULE] at hleft
        exact ne_fresh (hs nm _ hleft).1 rfl
      · rintro (⟨e, he⟩ | ⟨c', nm', hfile', hraise, -⟩)
        · cases hfile.symm.trans he
        · cases hfile.symm.trans hfile'
          exact hraise hexec
    · rw [loadModule_of_raise hexec]
      constructor
      · exact fun hno => Or.inr ⟨c, nm, hfile, hexec, hno⟩
      · rintro (⟨e, he⟩ | ⟨c', nm', hfile', -, hno⟩)
        · cases hfile.symm.trans he
        · cases hfile.symm.trans hfile'
          exact hno

/-- The functions of the modules raise an error. -/
def failCode : Code Nat (List (String × Val Nat)) where
  call _ _ s := (some .raised, s)
  newindex := plainCode.newindex
  exec := plainCode.exec
  builtin _ := none

/-- A file that is missing. -/
theorem failed_missing :
    NoTrace "bog" plain (require failCode (.first Nat) (bagFiles bag) "bog" true plain).1.state := by
  have hfile : ∃ e, LoadFile (bagFiles bag) "bog" = .error e := ⟨.assertion, by decide +kernel⟩
  apply (failed_iff failCode (.first Nat) (bagFiles bag) "bog" true plain ?_ ?_ ?_).2
  · exact Or.inl hfile
  · rintro n Old ⟨⟩
  · refine ⟨by decide +kernel, ?_⟩
    rintro c nm Old - ⟨⟩
  · intro c nm hok f t ht
    exact ht

/-- The module is left behind when its `__init__` raises, and the next `require` returns it without an error. -/
theorem init_leaves_trace : (require failCode (.first Nat) (bagFiles initBag) "bag" false plain).1.err = some .raised ∧
    (require failCode (.first Nat) (bagFiles initBag) "bag" false plain).1.out = [⟨.init, 2, 0⟩] ∧
    plain.MODULE "bag.lua" = none ∧
    (require failCode (.first Nat) (bagFiles initBag) "bag" false plain).1.state.MODULE "bag.lua" = some 2 ∧
    (require failCode (.first Nat) (bagFiles initBag) "bag" false
      (require failCode (.first Nat) (bagFiles initBag) "bag" false plain).1.state).1.err = none ∧
    (require failCode (.first Nat) (bagFiles initBag) "bag" false
      (require failCode (.first Nat) (bagFiles initBag) "bag" false plain).1.state).2 = .tab 2 ∧
    ¬NoTrace "bag" plain (require failCode (.first Nat) (bagFiles initBag) "bag" false plain).1.state := by
  have hleft : (require failCode (.first Nat) (bagFiles initBag) "bag" false plain).1.state.MODULE "bag.lua" =
      some 2 := by
    decide +kernel
  refine ⟨by decide +kernel, by decide +kernel, rfl, hleft, by decide +kernel, by decide +kernel, ?_⟩
  intro h
  rw [h.MODULE] at hleft
  cases hleft

end XCore.Require
