import XCore.Lib.Run
import XCore.Require.Reload

/-!
# The hooks of a module without classes

`__init__` is meant for the first load, `__destroy__` and `__update__` for a module that is loaded again (`Lifecycle`).
But `_CallInit` is called after every load, so the contract is kept in a run whose reloads raise no error before that
(`Calm`) exactly if no module that is loaded again has an `__init__` (`lifecycle_iff`).
-/

namespace XCore.Require

open XCore.Lua XCore.Heap XCore.Effect XCore.Run

variable {φ χ : Type} [DecidableEq φ] {K : Code φ χ} {O : Order φ} {s t : St φ} {c : χ} {k v : Val φ} {M New Old : Ref}
    {hook : Hook}

/-- A call of `require`: what the program does before it, whether the module is to be loaded again, and the files at the
time. -/
structure Request (φ χ : Type) where
  program : St φ → St φ
  reload : Bool
  files : String → File χ

/-- The calls of a hook of a module: one, if it has the hook. -/
def hookCalls (hook : Hook) (M : Ref) (s : St φ) : List (Call φ) :=
  match s.heap.index M hook.key with
  | .ok (.fn f) => [⟨hook, M, f⟩]
  | _ => []

section

variable (K O) (name nm : String)

/-- The state after a call of `require`. -/
def next (s : St φ) (a : Request φ χ) : St φ := (require K O a.files name a.reload (a.program s)).1.state

/-- After the chunk. -/
def executed (c : χ) (s : St φ) : St φ := (K.exec c (fresh s) (opened s)).2

/-- After `__destroy__` of the old module. -/
def destroyed (c : χ) (Old : Ref) (s : St φ) : St φ := (CallDestroy K Old (executed K c s)).state

/-- After the merge. -/
def merged (c : χ) (Old : Ref) (s : St φ) : St φ :=
  let t := (merge K O Old (fresh s) (destroyed K c Old s)).state
  { t with MODULE := Function.update t.MODULE nm (some (fresh s)) }

/-- Before `__update__` of the new module. -/
def started (c : χ) (Old : Ref) (s : St φ) : St φ := (CallInit K O (fresh s) (merged K O nm c Old s)).state

/-- The module `Old` is loaded again, and its file has the chunk `c`. -/
structure Reloading (s : St φ) (a : Request φ χ) (c : χ) (Old : Ref) : Prop where
  file : LoadFile a.files name = .ok (c, nm)
  loaded : s.MODULE nm = some Old
  reload : a.reload = true

/-- What the hooks are for: `__init__` is called after the first load of a module and not again; when the module is
loaded again, `__destroy__` of the old and `__update__` of the new module are called, and a field of the old module that
is no function, as `__destroy__` leaves it, keeps its value unless `__update__` changes it. -/
structure Lifecycle (s : St φ) (a : Request φ χ) : Prop where
  first : ∀ c, LoadFile a.files name = .ok (c, nm) → s.MODULE nm = none →
    (require K O a.files name a.reload s).1.out = hookCalls .init (fresh s) (executed K c s)
  again : ∀ Old, s.MODULE nm = some Old → a.reload = false → (require K O a.files name a.reload s).1.out = []
  reloaded : ∀ c Old, Reloading name nm s a c Old → (require K O a.files name a.reload s).1.out =
    hookCalls .destroy Old (executed K c s) ++ hookCalls .update (fresh s) (started K O nm c Old s)
  kept : ∀ c Old k, Reloading name nm s a c Old → (destroyed K c Old s).heap.rawget Old k ≠ .nil →
    (∀ f, (destroyed K c Old s).heap.rawget Old k ≠ .fn f) →
    (require K O a.files name a.reload s).1.state.heap.rawget (fresh s) k = (started K O nm c Old s).heap.rawget
    (fresh s) k →
    (require K O a.files name a.reload s).1.state.heap.rawget (fresh s) k = (destroyed K c Old s).heap.rawget Old k

/-- A call of `require` for a module without classes, whose file is found under one name and loads. -/
structure Usual (s : St φ) (a : Request φ χ) : Prop where
  builtin : K.builtin name = none
  named : nm = name ∨ s.MODULE name = none
  file : ∃ c, LoadFile a.files name = .ok (c, nm)
  loaded : ∀ Old, s.MODULE nm = some Old → Old < s.heap.next
  loads : ∀ c, LoadFile a.files name = .ok (c, nm) → s.MODULE nm = none ∨ a.reload = true →
    (K.exec c (fresh s) (opened s)).1 = none
  first : ∀ c, LoadFile a.files name = .ok (c, nm) → s.MODULE nm = none →
    ∀ k, (executed K c s).isClass ((executed K c s).heap.rawget (fresh s) k) = false
  classless : ∀ c Old, Reloading name nm s a c Old → Classless (destroyed K c Old s) Old (fresh s)

/-- What a module that is loaded again has under `__init__` when it is merged: what the old one has, as `__destroy__`
leaves it, but for a function that the new one has too; or else what the new one has or finds in the environment. -/
def initOf (s : St φ) (Old New : Ref) : Except LuaError (Val φ) :=
  match s.heap.rawget Old Hook.init.key with
  | .nil => s.heap.index New Hook.init.key
  | _ => .ok (kept s Old New Hook.init.key)

/-- No error is raised on the way to `_CallInit`: `__destroy__` of the old module is a function that raises none, or
missing; the old module has its metatable; the two can be merged; and `__init__` is a function or missing. -/
structure Calm (c : χ) (Old : Ref) (s : St φ) : Prop where
  destroy : fits ((executed K c s).heap.index Old Hook.destroy.key)
  returns : ∀ f, (executed K c s).heap.index Old Hook.destroy.key = .ok (.fn f) →
    (K.call f Old (executed K c s)).1 = none
  metatable : ∃ m v, (callHook K .destroy Old (executed K c s)).state.heap.getmetatable Old = some m ∧
    (callHook K .destroy Old (executed K c s)).state.heap.index m (.str "__newindex") = .ok v
  mergeable : Mergeable (destroyed K c Old s) Old (fresh s)
  init : fits (initOf (destroyed K c Old s) Old (fresh s))

/-- There is no `__init__`. -/
def NoInit (c : χ) (Old : Ref) (s : St φ) : Prop := ∀ f, initOf (destroyed K c Old s) Old (fresh s) ≠ .ok (.fn f)

/-- The reloads of a module raise no error before `_CallInit`. -/
def ReloadsCalm (s : St φ) (a : Request φ χ) : Prop := ∀ c Old, Reloading name nm s a c Old → Calm K c Old s

/-- A module that is loaded again has no `__init__`. -/
def ReloadsNoInit (s : St φ) (a : Request φ χ) : Prop := ∀ c Old, Reloading name nm s a c Old → NoInit K c Old s

end

/-! ## The calls of hooks -/

/-- A hook that is called, if the module has it. -/
theorem callHook_out : (callHook K hook M s).out = hookCalls hook M s := by
  unfold callHook hookCalls read
  cases s.heap.index M hook.key with
  | error e => rfl
  | ok v =>
    cases v with
    | bool b => cases b <;> rfl
    | _ => rfl

/-- A hook that can be called or is missing. -/
theorem callHook_fits (h : fits (s.heap.index M hook.key)) :
    (∃ f, s.heap.index M hook.key = .ok (.fn f) ∧
      callHook K hook M s = ⟨(K.call f M s).2, [⟨hook, M, f⟩], (K.call f M s).1⟩) ∨
      (∀ f, s.heap.index M hook.key ≠ .ok (.fn f)) ∧ callHook K hook M s = .skip s := by
  unfold callHook read
  cases hidx : s.heap.index M hook.key with
  | error e =>
    rw [hidx] at h
    cases h
  | ok v =>
    rw [hidx] at h
    cases v with
    | fn f => exact Or.inl ⟨f, rfl, rfl⟩
    | nil => exact Or.inr ⟨(by rintro f ⟨⟩), rfl⟩
    | bool b =>
      cases b with
      | false => exact Or.inr ⟨(by rintro f ⟨⟩), rfl⟩
      | true => cases h
    | _ => cases h

/-- Without classes `_CallInit` only calls `__init__`. -/
theorem callInit_eq (h : ∀ k, s.isClass (s.heap.rawget M k) = false) : CallInit K O M s = callHook K .init M s := by
  have hloop : registerAll O M s = .skip s := by
    refine Done.each_skip fun kv _ => ?_
    split
    · rfl
    · have hclass := h kv.1
      cases hv : s.heap.rawget M kv.1 with
      | tab r =>
        rw [hv] at hclass
        unfold register
        dsimp only
        have hnone : (s.heap.rawget r (.str "__ClassType")).truthy = false := hclass
        rw [hnone, if_neg Bool.false_ne_true]
      | _ => rfl
  unfold CallInit
  rw [hloop, Done.skip_andThen]

/-! ## A module that is loaded again -/

/-- `_CallDestroy` of a calm reload. -/
theorem callDestroy_calm (h : Calm K c Old s) : (CallDestroy K Old (executed K c s)).err = none ∧
    (CallDestroy K Old (executed K c s)).out = hookCalls .destroy Old (executed K c s) := by
  have hhook : (callHook K .destroy Old (executed K c s)).err = none := by
    rcases callHook_fits (K := K) h.destroy with ⟨f, hf, heq⟩ | ⟨-, heq⟩
    · rw [heq]
      exact h.returns f hf
    · rw [heq]
      rfl
  obtain ⟨m, v, hm, hv⟩ := h.metatable
  have hdrop : (dropNewindex Old (callHook K .destroy Old (executed K c s)).state).err = none := by
    unfold dropNewindex read
    rw [hm]
    dsimp only
    rw [hv]
    rfl
  unfold CallDestroy
  rw [Done.andThen_of_ok hhook, (dropNewindex_quiet ..).1, List.append_nil]
  exact ⟨hdrop, callHook_out⟩

/-- The merged module. -/
structure MergedModule (K : Code φ χ) (O : Order φ) (nm : String) (c : χ) (Old : Ref) (s : St φ) : Prop where
  new : ∀ k, (merged K O nm c Old s).heap.rawget (fresh s) k = kept (destroyed K c Old s) Old (fresh s) k
  init : (merged K O nm c Old s).heap.index (fresh s) Hook.init.key = initOf (destroyed K c Old s) Old (fresh s)
  classless : ∀ k, (merged K O nm c Old s).isClass ((merged K O nm c Old s).heap.rawget (fresh s) k) = false

theorem mergedModule_calm (nm : String) (hs : Classless (destroyed K c Old s) Old (fresh s)) (hne : Old ≠ fresh s)
    (h : Calm K c Old s) :
    (merge K O Old (fresh s) (destroyed K c Old s)).err = none ∧ MergedModule K O nm c Old s := by
  obtain ⟨herr, -, hnew, hindex, hclass⟩ := merge_spec (K := K) (O := O) hs h.mergeable hne
  refine ⟨herr, hnew, ?_, fun k => ?_⟩
  · unfold initOf
    cases hold : (destroyed K c Old s).heap.rawget Old Hook.init.key with
    | nil => exact hindex _ hold
    | _ =>
      have hk : (destroyed K c Old s).heap.rawget Old Hook.init.key ≠ .nil := by
        rw [hold]
        rintro ⟨⟩
      have hk' : kept (destroyed K c Old s) Old (fresh s) Hook.init.key ≠ .nil := kept_ne_nil hk
      rw [← hnew] at hk'
      exact (Store.index_of_rawget hk').trans (congrArg Except.ok (hnew _))
  · exact (hclass _).trans ((congrArg _ (hnew k)).trans (hs.fields k))

/-- **A calm reload**: `__destroy__` is called, and then `_CallInit` and `_CallUpdate` with the merged module. -/
theorem reload_calm (nm : String) (hexec : (K.exec c (fresh s) (opened s)).1 = none)
    (hmerge : (merge K O Old (fresh s) (destroyed K c Old s)).err = none) (h : Calm K c Old s) :
    (loadModule K O nm c (some Old) (fresh s) (opened s)).out = hookCalls .destroy Old (executed K c s) ++
      ((CallInit K O (fresh s) (merged K O nm c Old s)).andThen (CallUpdate K (fresh s))).out ∧
    (loadModule K O nm c (some Old) (fresh s) (opened s)).state =
      ((CallInit K O (fresh s) (merged K O nm c Old s)).andThen (CallUpdate K (fresh s))).state := by
  obtain ⟨hdestroy, hout⟩ := callDestroy_calm h
  have hreload : reloadModule K O nm Old (fresh s) (executed K c s) =
      ⟨((CallInit K O (fresh s) (merged K O nm c Old s)).andThen (CallUpdate K (fresh s))).state,
        hookCalls .destroy Old (executed K c s) ++
          ((CallInit K O (fresh s) (merged K O nm c Old s)).andThen (CallUpdate K (fresh s))).out,
        ((CallInit K O (fresh s) (merged K O nm c Old s)).andThen (CallUpdate K (fresh s))).err⟩ := by
    unfold reloadModule
    rw [Done.andThen_of_ok hdestroy, hout, show (CallDestroy K Old (executed K c s)).state =
      destroyed K c Old s from rfl, Done.andThen_of_ok hmerge, merge_out]
    rfl
  have hload : loadModule K O nm c (some Old) (fresh s) (opened s) =
      ⟨(reloadModule K O nm Old (fresh s) (executed K c s)).state,
        [] ++ (reloadModule K O nm Old (fresh s) (executed K c s)).out,
        (reloadModule K O nm Old (fresh s) (executed K c s)).err⟩ := Done.andThen_of_ok hexec _
  rw [hload, hreload]
  exact ⟨rfl, rfl⟩

/-- **One call of `require`**: the contract is kept exactly if no module that is loaded again has an `__init__`. -/
theorem lifecycle_step {name nm : String} {a : Request φ χ} (h : Usual K name nm s a)
    (hcalm : ReloadsCalm K name nm s a) :
    Lifecycle K O name nm s a ↔ ReloadsNoInit K name nm s a := by
  have hreload : ∀ c Old, Reloading name nm s a c Old → MergedModule K O nm c Old s ∧
      (require K O a.files name a.reload s).1.out = hookCalls .destroy Old (executed K c s) ++
        ((callHook K .init (fresh s) (merged K O nm c Old s)).andThen (CallUpdate K (fresh s))).out ∧
      (require K O a.files name a.reload s).1.state =
        ((callHook K .init (fresh s) (merged K O nm c Old s)).andThen (CallUpdate K (fresh s))).state ∧
      started K O nm c Old s = (callHook K .init (fresh s) (merged K O nm c Old s)).state := by
    intro c Old hr
    have hc := hcalm c Old hr
    obtain ⟨hmerge, hmodule⟩ :=
      mergedModule_calm (O := O) nm (h.classless c Old hr) (ne_fresh (h.loaded Old hr.loaded)) hc
    have hcall := require_reload (O := O) h.builtin hr.file hr.loaded
    obtain ⟨hout, hstate⟩ := reload_calm nm (h.loads c hr.file (Or.inr hr.reload)) hmerge hc
    have hinit := callInit_eq (K := K) (O := O) hmodule.classless
    rw [hinit] at hout hstate
    rw [hr.reload, hcall]
    exact ⟨hmodule, hout, hstate, congrArg Done.state hinit⟩
  constructor
  · intro hlife c Old hr f hf
    obtain ⟨hmodule, hout, -, -⟩ := hreload c Old hr
    have hout := hout.symm.trans (hlife.reloaded c Old hr)
    rw [List.append_cancel_left_eq] at hout
    -- the call of `__init__` comes first
    have hmem :
        ⟨.init, fresh s,
          f⟩ ∈ ((callHook K .init (fresh s) (merged K O nm c Old s)).andThen (CallUpdate K (fresh s))).out := by
      apply Done.mem_andThen_left
      rw [callHook_out, hookCalls, hmodule.init, hf]
      exact List.mem_cons_self
    rw [hout] at hmem
    unfold hookCalls at hmem
    split at hmem
    · cases List.mem_singleton.1 hmem
    · cases hmem
  · intro hno
    refine ⟨fun c hfile hnone => ?_, fun Old hold hr => ?_, fun c Old hr => ?_, fun c Old k hr hk hf hsame => ?_⟩
    · have hcall : require K O a.files name a.reload s = (loadModule K O nm c none (fresh s)
          (opened s), .tab (fresh s)) :=
        require_first h.builtin hfile h.named hnone
      have hexec : (K.exec c (fresh s) (opened s)).1 = none := h.loads c hfile (Or.inl hnone)
      have hload : (loadModule K O nm c none (fresh s) (opened s)).out = [] ++
          (CallInit K O (fresh s)
            { executed K c s with MODULE := Function.update (executed K c s).MODULE nm (some (fresh s)) }).out :=
        congrArg Done.out (Done.andThen_of_ok hexec _)
      rw [hcall, hload, List.nil_append]
      refine (congrArg Done.out (callInit_eq ?_)).trans callHook_out
      exact h.first c hfile hnone
    · obtain ⟨c, hfile⟩ := h.file
      rw [hr]
      exact (require_again h.builtin hfile h.named hold).1
    all_goals
      obtain ⟨hmodule, hout, hstate, hstarted⟩ := hreload c Old hr
      have hinit : callHook K .init (fresh s) (merged K O nm c Old s) = .skip (merged K O nm c Old s) := by
        have hfits := (hcalm c Old hr).init
        rw [← hmodule.init] at hfits
        rcases callHook_fits (K := K) hfits with ⟨f, hf, -⟩ | ⟨-, hskip⟩
        · exact (hno c Old hr f (hmodule.init.symm.trans hf)).elim
        · exact hskip
      rw [hinit] at hout hstate hstarted
    · rw [hout, hstarted, Done.skip_andThen]
      exact congrArg _ callHook_out
    · rw [hsame, hstarted]
      exact (hmodule.new k).trans (kept_value hk hf)

/-- A table without classes in its fields. -/
theorem isClass_of_fields (h : (s.heap.tabs M).fields.all fun kv => !s.isClass kv.2) (k : Val φ) :
    s.isClass (s.heap.rawget M k) = false := by
  unfold Store.rawget
  generalize (s.heap.tabs M).fields = fields at h
  induction fields with
  | nil => rfl
  | cons kv fields ih =>
    rw [List.all_cons, Bool.and_eq_true, Bool.not_eq_true'] at h
    unfold getField
    split
    · exact h.1
    · exact ih h.2

/-- A table without tables in its fields. -/
theorem ne_tab_of_fields (h : (s.heap.tabs M).fields.all fun kv => !kv.2.isTab) {r : Ref} :
    s.heap.rawget M k ≠ .tab r := by
  unfold Store.rawget
  generalize (s.heap.tabs M).fields = fields at h
  induction fields with
  | nil => rintro ⟨⟩
  | cons kv fields ih =>
    rw [List.all_cons, Bool.and_eq_true, Bool.not_eq_true'] at h
    unfold getField
    split
    · intro hv
      have := h.1
      rw [hv] at this
      cases this
    · exact ih h.2

/-- A load of the module `bag` with some fields. -/
def load (fields : List (String × Val Nat)) : Request Nat (List (String × Val Nat)) := ⟨id, false, bagFiles fields⟩

/-- The program sets the field `count` of the table to 5 and loads the module `bag` again. -/
def reload (M : Ref) (fields : List (String × Val Nat)) : Request Nat (List (String × Val Nat)) :=
  ⟨fun s => s.set M (.str "count") (.num 5), true, bagFiles fields⟩

/-- A module with a field and `__destroy__`, which sets it to 9. -/
def bag : List (String × Val Nat) := [("count", .num 0), ("__destroy__", .fn 9)]

/-- The state after the module is loaded. -/
def bagStart : St Nat := next plainCode (.first Nat) "bag" plain (load bag)

theorem bagStart_loaded : ((reload 2 bag).program bagStart).MODULE "bag.lua" = some 2 := by decide +kernel

theorem bag_fresh : fresh ((reload 2 bag).program bagStart) = 4 := by decide +kernel

/-- The state before the two versions of the module are merged. -/
def bagMerge : St Nat := destroyed plainCode bag 2 ((reload 2 bag).program bagStart)

/-- The modules have no tables in their fields, so that no metatable is changed. -/
theorem bagMerge_wears {r m : Ref} (h : Wears bagMerge 2 4 r m) : bagMerge.heap.getmetatable r = some m := by
  cases h with
  | own h => exact h
  | new hold _ _ => exact (ne_tab_of_fields (by decide +kernel) hold).elim

/-- The new module looks into the environment, which has no metatable. -/
theorem bagMerge_reaches {r : Ref} (h : Reaches bagMerge 2 4 r) :
    r = 4 ∧ bagMerge.heap.getmetatable r = some 3 ∨ r = 0 ∧ bagMerge.heap.getmetatable r = none := by
  induction h with
  | new => exact Or.inl ⟨rfl, by decide +kernel⟩
  | field hold => exact (ne_tab_of_fields (by decide +kernel) hold).elim
  | up _ hw hp ih =>
    have hm := bagMerge_wears hw
    rcases ih with ⟨-, h⟩ | ⟨-, h⟩
    · cases h.symm.trans hm
      have hindex : bagMerge.heap.rawget 3 (.str "__index") = .tab 0 := by decide +kernel
      cases hindex.symm.trans hp
      exact Or.inr ⟨rfl, by decide +kernel⟩
    · cases h.symm.trans hm

theorem bag_mergeable : Mergeable bagMerge 2 4 where
  ranked := by
    refine ⟨id, fun r hr => ?_⟩
    rcases bagMerge_reaches hr with ⟨rfl, h⟩ | ⟨rfl, h⟩
    · refine ⟨by decide, fun m p hw hp => ?_⟩
      cases h.symm.trans (bagMerge_wears hw)
      have hindex : bagMerge.heap.rawget 3 (.str "__index") = .tab 0 := by decide +kernel
      cases hindex.symm.trans hp
      decide
    · refine ⟨by decide, fun m p hw _ => ?_⟩
      cases h.symm.trans (bagMerge_wears hw)
  ne_new r m hr hw := by
    rcases bagMerge_reaches hr with ⟨-, h⟩ | ⟨-, h⟩
    · cases h.symm.trans (bagMerge_wears hw)
      decide
    · cases h.symm.trans (bagMerge_wears hw)
  chain x k n m _ hold _ _ := ne_tab_of_fields (by decide +kernel) hold
  newindex m hm := by
    have hmeta : bagMerge.heap.getmetatable 4 = some 3 := by decide +kernel
    cases hmeta.symm.trans hm
    decide +kernel

theorem bag_classless : Classless bagMerge 2 4 where
  fields k := by
    by_cases hk : bagMerge.heap.rawget 2 k = .nil
    · rw [kept_nil hk]
      exact isClass_of_fields (by decide +kernel) k
    · have hkeys : ∀ k ∈ (bagMerge.heap.tabs 2).fields.map Prod.fst, bagMerge.isClass (kept bagMerge 2 4 k) = false :=
        by decide +kernel
      exact hkeys k (getField_ne_nil hk)
  oldSelf := by decide +kernel
  newSelf := by decide +kernel

/-- A module with a field and `__init__`, which sets it to 0. -/
def initBag : List (String × Val Nat) := [("count", .num 0), ("__init__", .fn 0)]

/-- The state after this module is loaded. -/
def initStart : St Nat := next plainCode (.first Nat) "bag" plain (load initBag)

end XCore.Require
