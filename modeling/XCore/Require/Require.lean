import XCore.Lib.Effect
import XCore.Lua.Heap

/-!
# `require` and hot reload (`base/require.lua`)

`require` loads a module once; `require(name, true)` loads it again and merges the old module into the new one. The code
of the modules is a parameter (`Code`): what a chunk does with its module, and what a function does when it is called as
a hook of a module or as `__newindex`. The calls of hooks that `require` makes itself are the effects.

The assignments to the new module in the merge obey `__newindex` (`assign`); those to other tables are raw.

`v:GetType()` of a class is its `__ClassType`, as in `CObject`; tables have no `__pairs` and no `__metatable`.
-/

namespace XCore.Require

open XCore.Lua XCore.Heap XCore.Effect

/-- The tables, the environment, the modules by name and the classes by type. -/
structure St (φ : Type) where
  heap : Store φ
  ENV : Ref
  MODULE : String → Option Ref
  CLASS : Val φ → Option Ref

/-- The functions of a module that `require` calls. -/
inductive Hook
  | init
  | destroy
  | update
  deriving DecidableEq

/-- The key of a hook. -/
def Hook.key {φ : Type} : Hook → Val φ
  | .init => .str "__init__"
  | .destroy => .str "__destroy__"
  | .update => .str "__update__"

/-- A call of a hook. -/
structure Call (φ : Type) where
  hook : Hook
  module : Ref
  f : φ
  deriving DecidableEq

/-- The code of the modules: a function that is called with a module, or as `__newindex` with a table, a key and a
value; a chunk that is run with a module as its environment; and the modules that are built in. -/
structure Code (φ χ : Type) where
  call : φ → Ref → St φ → Option LuaError × St φ
  newindex : φ → Ref → Val φ → Val φ → St φ → Option LuaError × St φ
  exec : χ → Ref → St φ → Option LuaError × St φ
  builtin : String → Option (Val φ)

/-- What `loadfile` makes of a file: a chunk, or an error that has the word `cannot` in it, or another. -/
inductive File (χ : Type)
  | chunk (c : χ)
  | error (cannot : Bool)

/-- What a part of `require` does. -/
abbrev Act (φ : Type) := Done (St φ) (Call φ) LuaError

variable {φ χ : Type} [DecidableEq φ] (K : Code φ χ) (O : Order φ)

/-- An error is raised. -/
def raise (e : LuaError) (s : St φ) : Act φ := ⟨s, [], some e⟩

/-- The rest, given a value that is read. -/
def read (r : Except LuaError (Val φ)) (s : St φ) (k : Val φ → Act φ) : Act φ :=
  match r with
  | .error e => raise e s
  | .ok v => k v

namespace St

/-- An assignment to a field. -/
def set (s : St φ) (r : Ref) (k v : Val φ) : St φ := { s with heap := s.heap.rawset r k v }

/-- A class: `rawget(v, "__ClassType")` of a table. -/
def isClass (s : St φ) : Val φ → Bool
  | .tab r => (s.heap.rawget r (.str "__ClassType")).truthy
  | _ => false

end St

/-- `for k, v in pairs(t)`. -/
def forPairs (r : Ref) (body : Val φ → Val φ → St φ → Act φ) (s : St φ) : Act φ :=
  Done.each (fun kv s => if s.heap.rawget r kv.1 = .nil then .skip s else body kv.1 (s.heap.rawget r kv.1) s)
    (s.heap.pairs O r) s

/-- A call of a hook, if the module has it. -/
def callHook (hook : Hook) (Module : Ref) (s : St φ) : Act φ :=
  read (s.heap.index Module hook.key) s fun v =>
    if v.truthy then
      match v with
      | .fn f => ⟨(K.call f Module s).2, [⟨hook, Module, f⟩], (K.call f Module s).1⟩
      | _ => raise .callValue s
    else .skip s

/-- A hook that can be called, or none. -/
def fits {φ : Type} : Except LuaError (Val φ) → Bool
  | .ok (.fn _) => true
  | .ok v => !v.truthy
  | .error _ => false

/-- A turn of the loop of `_CallInit`: a class is registered under its type. -/
def register (v : Val φ) (s : St φ) : Act φ :=
  match v with
  | .tab r =>
    let ClassType := s.heap.rawget r (.str "__ClassType")
    if ClassType.truthy then
      if (s.CLASS ClassType).isSome then raise .assertion s
      else .skip { s with CLASS := Function.update s.CLASS ClassType (some r) }
    else .skip s
  | _ => .skip s

/-- The loop of `_CallInit`. -/
def registerAll (Module : Ref) (s : St φ) : Act φ := forPairs O Module (fun _ v s => register v s) s

/-- `_CallInit`. -/
def CallInit (Module : Ref) (s : St φ) : Act φ := (registerAll O Module s).andThen (callHook K .init Module)

/-- The end of `_CallDestroy`: assignments to the module are guarded no longer. -/
def dropNewindex (Module : Ref) (s : St φ) : Act φ :=
  match s.heap.getmetatable Module with
  | none => raise .indexNil s
  | some metatable =>
    read (s.heap.index metatable (.str "__newindex")) s fun v =>
      .skip (if v.truthy then s.set metatable (.str "__newindex") .nil else s)

/-- `_CallDestroy`. -/
def CallDestroy (Module : Ref) (s : St φ) : Act φ := (callHook K .destroy Module s).andThen (dropNewindex Module)

/-- `_CallUpdate`. -/
def CallUpdate (Module : Ref) (s : St φ) : Act φ := callHook K .update Module s

/-- `RealFun` of `_ReplaceTable`, with the depth that is left. -/
def RealFun : Nat → Ref → Ref → St φ → Act φ
  | 0, _, _, s => raise .raised s
  | depth + 1, Dest, Src, s =>
    (forPairs O Dest (fun k v s =>
      read (s.heap.index Src k) s fun new =>
        match v, new with
        | .tab d, .tab n => if k = .str "__index" then .skip (s.set Dest k new) else RealFun depth d n s
        | _, _ => .skip (s.set Dest k new)) s).andThen fun s =>
    (forPairs O Src (fun k v s => .skip (if s.heap.rawget Dest k = .nil then s.set Dest k v else s)) s).andThen fun s =>
    .skip { s with heap := s.heap.setmetatable Dest (s.heap.getmetatable Src) }

/-- `_ReplaceTable`. -/
def ReplaceTable (Dest Src : Ref) (s : St φ) : Act φ := RealFun O 20 Dest Src s

/-- A class of the old module gets the fields of the new one; its `mt` stays as it is. -/
def replaceClass (v TmpNewData : Ref) (s : St φ) : Act φ :=
  read (s.heap.index v (.str "mt")) s fun old_mt =>
    match old_mt with
    | .tab m =>
      read (s.heap.index m (.str "__index")) s fun index =>
        (ReplaceTable O v TmpNewData s).andThen fun s =>
          .skip ((s.set v (.str "mt") old_mt).set m (.str "__index") index)
    | _ => raise .indexNil s

/-- `r[k] = v`, within some number of tables (`MAXTAGLOOP`). -/
def assignWithin (k v : Val φ) (s : St φ) : Nat → Ref → Act φ
  | 0, _ => raise .indexLoop s
  | n + 1, r =>
    if s.heap.rawget r k ≠ .nil then .skip (s.set r k v)
    else
      match s.heap.getmetatable r with
      | none => .skip (s.set r k v)
      | some m =>
        match s.heap.rawget m (.str "__newindex") with
        | .nil => .skip (s.set r k v)
        | .fn f => ⟨(K.newindex f r k v s).2, [], (K.newindex f r k v s).1⟩
        | .tab p => assignWithin k v s n p
        | _ => raise .indexNumber s

/-- `r[k] = v`. -/
def assign (r : Ref) (k v : Val φ) (s : St φ) : Act φ := assignWithin K k v s 2000 r

/-- The loop over the old module: a field of it is kept, but for functions that the new module has too. -/
def mergeField (New : Ref) (k v : Val φ) (s : St φ) : Act φ :=
  read (s.heap.index New k) s fun TmpNewData => (assign K New k v s).andThen fun s =>
    if TmpNewData.truthy then
      match v, TmpNewData with
      | .tab r, .tab n =>
        read (s.heap.index r (.str "__ClassType")) s fun ClassType =>
          (if ClassType.truthy && (s.heap.rawget r (.str "__ClassType")).truthy then replaceClass O r n s
            else .skip s).andThen fun s =>
              match s.heap.getmetatable n with
              | none => .skip s
              | some mt => .skip { s with heap := s.heap.setmetatable r (some mt) }
      | .fn _, _ => assign K New k TmpNewData s
      | _, _ => .skip s
    else .skip s

/-- `TmpNewClass`: the name of a class of the new module. -/
def newClass (s : St φ) (New : Ref) (c : Val φ) : Option (Val φ) :=
  ((s.heap.pairs O New).reverse.find? fun kv => kv.2 = c && s.isClass c).map Prod.fst

/-- The loop over the new module: the parent of a class is a class of the old module, if it was one. -/
def relink (TmpNewClass : Val φ → Option (Val φ)) (Old : Ref) (v : Val φ) (s : St φ) : Act φ :=
  match v with
  | .tab r =>
    if s.isClass v then
      match s.heap.getmetatable r with
      | none => .skip s
      | some ParentMt =>
        read (s.heap.index ParentMt (.str "__index")) s fun parent =>
          match TmpNewClass parent with
          | none => .skip s
          | some name =>
            read (s.heap.index Old name) s fun old =>
              .skip (if parent.truthy && old.truthy then s.set ParentMt (.str "__index") old else s)
    else .skip s
  | _ => .skip s

/-- The old module is merged into the new one. -/
def merge (Old New : Ref) (s : St φ) : Act φ :=
  (forPairs O Old (mergeField K O New) s).andThen (forPairs O New (fun _ v s' => relink (newClass O s New) Old v s'))

/-- What `require` does with a module that is loaded again. -/
def reloadModule (name : String) (Old New : Ref) (s : St φ) : Act φ :=
  (CallDestroy K Old s).andThen fun s =>
  (merge K O Old New s).andThen fun s =>
  (CallInit K O New { s with MODULE := Function.update s.MODULE name (some New) }).andThen (CallUpdate K New)

/-- `LoadFile`: the chunk and the name it is found under. -/
def LoadFile (files : String → File χ) (name : String) : Except LuaError (χ × String) :=
  match files name with
  | .chunk c => .ok (c, name)
  | .error false => .error .assertion
  | .error true =>
    let name2 := name.map (fun c => if c.toNat = 92 then Char.ofNat 47 else c) ++ ".lua"
    match files name2 with
    | .chunk c => .ok (c, name2)
    | .error _ => .error .assertion

/-- The environment without hooks. -/
def clearHooks (s : St φ) : St φ :=
  (((s.set s.ENV Hook.init.key .nil).set s.ENV (.str "__start__") .nil).set s.ENV Hook.update.key .nil).set
    s.ENV Hook.destroy.key .nil

/-- A new module, which sees the environment. -/
def newModule (s : St φ) : Ref × St φ :=
  (s.heap.next + 1, { s with
    heap := (s.heap.alloc ⟨[(.str "__index", .tab s.ENV)], none⟩).alloc ⟨[], some s.heap.next⟩ })

/-- The identity of the module that `require` makes. -/
def fresh (s : St φ) : Ref := (newModule (clearHooks s)).1

/-- The state in which `require` runs a chunk. -/
def opened (s : St φ) : St φ := (newModule (clearHooks s)).2

/-- What `require` does with the chunk of a module, given the module as it is loaded before. -/
def loadModule (name : String) (c : χ) (Old : Option Ref) (New : Ref) (s : St φ) : Act φ :=
  (⟨(K.exec c New s).2, [], (K.exec c New s).1⟩ : Act φ).andThen fun s =>
    match Old with
    | none => CallInit K O New { s with MODULE := Function.update s.MODULE name (some New) }
    | some Old => reloadModule K O name Old New s

/-- `require`, and what it returns if it raises no error. -/
def require (files : String → File χ) (name : String) (reload : Bool) (s : St φ) : Act φ × Val φ :=
  match K.builtin name with
  | some v => (.skip s, v)
  | none =>
    match s.MODULE name, reload with
    | some Old, false => (.skip s, .tab Old)
    | _, _ =>
      match LoadFile files name with
      | .error e => (raise e (opened s), .nil)
      | .ok (c, name2) =>
        match s.MODULE name2, reload with
        | some Old, false => (.skip (opened s), .tab Old)
        | Old, _ => (loadModule K O name2 c Old (fresh s) (opened s), .tab (fresh s))

/-! ## What the functions do -/

/-- A relation of states that changes of tables respect. -/
structure OfTables (R : St φ → St φ → Prop) : Prop where
  refl : ∀ s, R s s
  trans : ∀ s t u, R s t → R t u → R s u
  heap : ∀ s h, R s { s with heap := h }

/-- No hook is called, and the state that is left is related to the first one. -/
def Quiet (R : St φ → St φ → Prop) (s : St φ) (x : Act φ) : Prop := x.out = [] ∧ R s x.state

section

variable {K O} {s t : St φ} {r r' New Old : Ref} {k k' v : Val φ} {R : St φ → St φ → Prop}

@[simp] theorem rawget_set_self : (s.set r k v).heap.rawget r k = v := Store.rawget_rawset_self

@[simp] theorem rawget_set_of_ne (hk : k' ≠ k) : (s.set r k v).heap.rawget r' k' = s.heap.rawget r' k' :=
  Store.rawget_rawset_of_ne hk

@[simp] theorem rawget_set_other (hr : r' ≠ r) : (s.set r k v).heap.rawget r' k' = s.heap.rawget r' k' :=
  Store.rawget_rawset_other hr

@[simp] theorem getmetatable_set : (s.set r k v).heap.getmetatable r' = s.heap.getmetatable r' :=
  Store.getmetatable_rawset

omit [DecidableEq φ] in
theorem read_ok {x : Except LuaError (Val φ)} {f : Val φ → Act φ} (h : (read x s f).err = none) :
    ∃ v, x = .ok v ∧ read x s f = f v := by
  cases x with
  | error e => cases h
  | ok v => exact ⟨v, rfl, rfl⟩

/-- The classes, the modules and the environment are the same. -/
def Alike (s t : St φ) : Prop := t.CLASS = s.CLASS ∧ t.MODULE = s.MODULE ∧ t.ENV = s.ENV

omit [DecidableEq φ] in
theorem alike_ofTables : OfTables (Alike (φ := φ)) where
  refl _ := ⟨rfl, rfl, rfl⟩
  trans _ _ _ h h' := ⟨h'.1.trans h.1, h'.2.1.trans h.2.1, h'.2.2.trans h.2.2⟩
  heap _ _ := ⟨rfl, rfl, rfl⟩

namespace Quiet

omit [DecidableEq φ] in
theorem raise (hR : OfTables R) (e : LuaError) : Quiet R s (raise e s) := ⟨rfl, hR.refl s⟩

omit [DecidableEq φ] in
theorem skip (hR : OfTables R) (s : St φ) : Quiet R s (.skip s) := ⟨rfl, hR.refl s⟩

theorem set (hR : OfTables R) : Quiet R s (.skip (s.set r k v)) := ⟨rfl, hR.heap ..⟩

omit [DecidableEq φ] in
theorem andThen (hR : OfTables R) {x : Act φ} {f : St φ → Act φ} (h : Quiet R s x) (hf : ∀ t, Quiet R t (f t)) :
    Quiet R s (x.andThen f) :=
  Done.andThen_quiet hR.trans h (hf x.state)

omit [DecidableEq φ] in
theorem read (hR : OfTables R) {x : Except LuaError (Val φ)} {f : Val φ → Act φ} (h : ∀ v, Quiet R s (f v)) :
    Quiet R s (Require.read x s f) := by
  cases x with
  | error e => exact raise hR e
  | ok v => exact h v

theorem forPairs (hR : OfTables R) {body : Val φ → Val φ → St φ → Act φ} (h : ∀ k v t, Quiet R t (body k v t))
    (s : St φ) :
    Quiet R s (forPairs O r body s) := by
  refine Done.each_quiet hR.trans hR.refl (fun kv t => ?_) _ s
  split
  · exact skip hR t
  · exact h ..

end Quiet

theorem RealFun_quiet (hR : OfTables R) :
    ∀ (depth : Nat) (Dest Src : Ref) (s : St φ), Quiet R s (RealFun O depth Dest Src s)
  | 0, _, _, _ => .raise hR _
  | depth + 1, Dest, Src, s => by
    unfold RealFun
    refine Quiet.andThen hR (Quiet.forPairs hR ?_ s) ?_
    · intro k v t
      apply Quiet.read hR
      intro new
      split
      · split
        · exact .set hR
        · exact RealFun_quiet hR depth ..
      · exact .set hR
    · intro t
      refine Quiet.andThen hR (Quiet.forPairs hR ?_ t) fun _ => ⟨rfl, hR.heap ..⟩
      intro k v t
      split
      · exact .set hR
      · exact .skip hR t

/-- An assignment changes a table or calls a function of the modules. -/
theorem assign_quiet (hR : OfTables R) (hK : ∀ f r k v s, R s (K.newindex f r k v s).2) :
    Quiet R s (assign K r k v s) := by
  have hwithin : ∀ (n : Nat) (r : Ref), Quiet R s (assignWithin K k v s n r) := by
    intro n
    induction n with
    | zero => exact fun _ => .raise hR _
    | succ n ih =>
      intro r
      unfold assignWithin
      split
      · exact .set hR
      · split
        · exact .set hR
        · split
          · exact .set hR
          · exact ⟨rfl, hK ..⟩
          · exact ih _
          · exact .raise hR _
  exact hwithin 2000 r

theorem mergeField_quiet (hR : OfTables R) (hK : ∀ f r k v s, R s (K.newindex f r k v s).2) :
    Quiet R s (mergeField K O New k v s) := by
  unfold mergeField
  apply Quiet.read hR
  intro new
  refine Quiet.andThen hR (assign_quiet hR hK) fun t => ?_
  split
  · split
    · rename_i r n
      apply Quiet.read hR
      intro ClassType
      refine Quiet.andThen hR ?_ ?_
      · split
        · unfold replaceClass
          apply Quiet.read hR
          intro old_mt
          split
          · apply Quiet.read hR
            intro index
            exact Quiet.andThen hR (RealFun_quiet hR ..) fun _ => ⟨rfl, hR.heap ..⟩
          · exact .raise hR _
        · exact .skip hR t
      · intro u
        split
        · exact .skip hR u
        · exact ⟨rfl, hR.heap ..⟩
    · exact assign_quiet hR hK
    · exact .skip hR t
  · exact .skip hR t

theorem relink_quiet (hR : OfTables R) {TmpNewClass : Val φ → Option (Val φ)} :
    Quiet R s (relink TmpNewClass Old v s) := by
  unfold relink
  split
  · split
    · split
      · exact .skip hR s
      · apply Quiet.read hR
        intro parent
        split
        · exact .skip hR s
        · apply Quiet.read hR
          intro old
          split
          · exact .set hR
          · exact .skip hR s
    · exact .skip hR s
  · exact .skip hR s

/-- **The merge** calls no hook. -/
theorem merge_quiet (hR : OfTables R) (hK : ∀ f r k v s, R s (K.newindex f r k v s).2) :
    Quiet R s (merge K O Old New s) :=
  Quiet.andThen hR (Quiet.forPairs hR (fun _ _ _ => mergeField_quiet hR hK) s)
    (Quiet.forPairs hR fun _ _ _ => relink_quiet hR)

theorem merge_out : (merge K O Old New s).out = [] :=
  (merge_quiet (R := fun _ _ => True) ⟨fun _ => trivial, fun _ _ _ _ _ => trivial, fun _ _ => trivial⟩
    fun _ _ _ _ _ => trivial).1

theorem dropNewindex_quiet (M : Ref) (s : St φ) : Quiet Alike s (dropNewindex M s) := by
  unfold dropNewindex
  split
  · exact .raise alike_ofTables _
  · apply Quiet.read alike_ofTables
    intro v
    split
    · exact .set alike_ofTables
    · exact .skip alike_ofTables s

/-- Classes are registered and nothing else. -/
theorem register_spec (v : Val φ) (s : St φ) : (register v s).out = [] ∧ (register v s).state.heap = s.heap := by
  unfold register
  split
  · dsimp only
    split
    · split
      · exact ⟨rfl, rfl⟩
      · exact ⟨rfl, rfl⟩
    · exact ⟨rfl, rfl⟩
  · exact ⟨rfl, rfl⟩

/-- A registered type stays registered. -/
theorem register_isSome {T : Val φ} (h : (s.CLASS T).isSome) : ((register v s).state.CLASS T).isSome := by
  unfold register
  split
  · dsimp only
    split
    · split
      · exact h
      · change (Function.update s.CLASS _ _ T).isSome
        rw [Function.update_apply]
        split
        · rfl
        · exact h
    · exact h
  · exact h

theorem registerAll_spec {M : Ref} : (registerAll O M s).out = [] ∧ (registerAll O M s).state.heap = s.heap := by
  let R : St φ → St φ → Prop := fun s t => t.heap = s.heap
  have hR : ∀ a b c, R a b → R b c → R a c := fun _ _ _ h h' => h'.trans h
  refine Done.each_quiet hR (fun _ => rfl) (fun kv t => ?_) _ s
  split
  · exact ⟨rfl, rfl⟩
  · exact register_spec _ t

theorem register_module : (register v s).state.MODULE = s.MODULE := by
  unfold register
  split
  · dsimp only
    split
    · split
      · rfl
      · rfl
    · rfl
  · rfl

theorem registerAll_module {M : Ref} : (registerAll O M s).state.MODULE = s.MODULE := by
  have hR : ∀ a b c : St φ, b.MODULE = a.MODULE → c.MODULE = b.MODULE → c.MODULE = a.MODULE :=
    fun _ _ _ h h' => h'.trans h
  refine (Done.each_quiet hR (fun _ => rfl) (fun kv t => ?_) _ s).2
  split
  · exact ⟨rfl, rfl⟩
  · exact ⟨(register_spec _ t).1, register_module⟩

/-- A hook is called with the module, or there is none. -/
theorem callHook_cases {hook : Hook} {M : Ref} (h : (callHook K hook M s).err = none) :
    (∃ f, s.heap.index M hook.key = .ok (.fn f) ∧ (callHook K hook M s).state = (K.call f M s).2 ∧
      (callHook K hook M s).out = [⟨hook, M, f⟩]) ∨
    (∃ v, s.heap.index M hook.key = .ok v ∧ (∀ f, v ≠ .fn f) ∧ (callHook K hook M s).state = s ∧
      (callHook K hook M s).out = []) := by
  obtain ⟨v, hv, hread⟩ := read_ok h
  unfold callHook at h ⊢
  rw [hread] at h ⊢
  by_cases htrue : v.truthy
  · rw [if_pos htrue] at h ⊢
    cases v with
    | fn f => exact Or.inl ⟨f, hv, rfl, rfl⟩
    | _ => cases h
  · rw [if_neg htrue]
    refine Or.inr ⟨v, hv, ?_, rfl, rfl⟩
    rintro f rfl
    exact htrue rfl

/-! ### `require` by cases -/

variable {files : String → File χ} {name nm : String} {c : χ}

/-- A module that is loaded again. -/
theorem require_reload (hb : K.builtin name = none) (hfile : LoadFile files name = .ok (c, nm))
    (hold : s.MODULE nm = some Old) :
    require K O files name true s = (loadModule K O nm c (some Old) (fresh s) (opened s), .tab (fresh s)) := by
  unfold require
  rw [hb, hfile]
  cases s.MODULE name with
  | none =>
    dsimp only
    rw [hold]
  | some M =>
    dsimp only
    rw [hold]

/-- A module that is not loaded. -/
theorem require_first {reload : Bool} (hb : K.builtin name = none) (hfile : LoadFile files name = .ok (c, nm))
    (hname : nm = name ∨ s.MODULE name = none) (hold : s.MODULE nm = none) :
    require K O files name reload s = (loadModule K O nm c none (fresh s) (opened s), .tab (fresh s)) := by
  have hnone : s.MODULE name = none := by
    rcases hname with rfl | h
    · exact hold
    · exact h
  unfold require
  rw [hb, hfile, hnone]
  dsimp only
  rw [hold]

/-- A module that is loaded and not loaded again. -/
theorem require_again (hb : K.builtin name = none) (hfile : LoadFile files name = .ok (c, nm))
    (hname : nm = name ∨ s.MODULE name = none) (hold : s.MODULE nm = some Old) :
    (require K O files name false s).1.out = [] ∧ (require K O files name false s).1.err = none ∧
      (require K O files name false s).2 = .tab Old := by
  unfold require
  rw [hb]
  rcases hname with rfl | h
  · rw [hold]
    exact ⟨rfl, rfl, rfl⟩
  · rw [h, hfile]
    dsimp only
    rw [hold]
    exact ⟨rfl, rfl, rfl⟩

end

end XCore.Require
