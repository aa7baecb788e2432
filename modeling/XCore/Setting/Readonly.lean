import XCore.Lib.Run
import XCore.Lua.Heap
import XCore.Setting.Load

/-!
# Read-only configuration tables (`table.readonly` of `base/utils.lua`)

`LoadSetting` gives the table that a file returns a metatable whose `__newindex` raises, but not the tables in it; and
Lua calls `__newindex` only for keys that the table does not have.

So the assignments of a run all raise, and `Query` returns what was loaded, exactly if each is to a new key of a table
that a file has returned (`readonly_exact`). Metatables that files make themselves are left out.
-/

namespace XCore.Setting

open XCore.Lua XCore.Run XCore.Heap

variable {φ : Type} [DecidableEq φ]

/-- The functions: the `__newindex` of `table.readonly`, and others. -/
inductive Fn (φ : Type)
  | readonly
  | other (f : φ)
  deriving DecidableEq

/-- What the model takes from outside: other functions as `__newindex`, and the functions `string[key]`. -/
structure Env (φ : Type) where
  call : φ → Store (Fn φ) → Ref → Val (Fn φ) → Val (Fn φ) → Option LuaError × Store (Fn φ)
  string : Val (Fn φ) → Option (Fn φ)

/-! ## Assignments -/

/-- `t[k] = v`, within some number of tables (`MAXTAGLOOP`). -/
def setindexWithin (E : Env φ) (h : Store (Fn φ)) (k v : Val (Fn φ)) : Nat → Ref → Option LuaError × Store (Fn φ)
  | 0, _ => (some .indexLoop, h)
  | n + 1, r =>
    if h.rawget r k ≠ .nil then (none, h.rawset r k v)
    else
      match h.getmetatable r with
      | none => if k = .nil then (some .indexNil, h) else (none, h.rawset r k v)
      | some m =>
        match h.rawget m (.str "__newindex") with
        | .nil => if k = .nil then (some .indexNil, h) else (none, h.rawset r k v)
        | .fn .readonly => (some .raised, h)
        | .fn (.other f) => E.call f h r k v
        | .tab p => setindexWithin E h k v n p
        | _ => (some .indexValue, h)

/-- `t[k] = v`. -/
def setindex (E : Env φ) (h : Store (Fn φ)) (t : Ref) (k v : Val (Fn φ)) : Option LuaError × Store (Fn φ) :=
  setindexWithin E h k v 2000 t

/-- `table.readonly`. -/
def readonly (h : Store (Fn φ)) (self : Ref) : Store (Fn φ) :=
  match h.getmetatable self with
  | some mt => (h.rawset mt (.str "__newindex") (.fn .readonly)).setmetatable self (some mt)
  | none => ((h.alloc .empty).rawset h.next (.str "__newindex") (.fn .readonly)).setmetatable self (some h.next)

/-! ## The configuration -/

/-- All tables, and the data of the module. -/
structure Config (φ : Type) where
  store : Store (Fn φ)
  m_Data : AList fun _ : Bytes => Val (Fn φ)

/-- A file that `LoadSetting` loads, with the value that it returns. -/
def loadFile (s : Config φ) (e : Bytes × Val (Fn φ)) : Config φ where
  store := match e.2 with
    | .tab r => readonly s.store r
    | _ => s.store
  m_Data := s.m_Data.insert e.1 e.2

/-- The files of a configuration with the tables that they return, which have no metatables and no key nil. -/
structure Files (φ : Type) [DecidableEq φ] where
  store : Store (Fn φ)
  values : List (Bytes × Val (Fn φ))
  plain : ∀ r, store.getmetatable r = none
  keys : ∀ r, store.rawget r .nil = .nil
  allocated : ∀ e ∈ values, ∀ r, e.2 = .tab r → r < store.next
  closed : ∀ r k p, r < store.next → store.rawget r k = .tab p → p < store.next

/-- The configuration as the files return it. -/
def Files.returned (F : Files φ) : Config φ := ⟨F.store, load ∅ F.values⟩

/-- The configuration after it has been loaded. -/
def Files.loaded (F : Files φ) : Config φ := F.values.foldl loadFile ⟨F.store, ∅⟩

/-- `ret[key]`. -/
def field (E : Env φ) (h : Store (Fn φ)) (ret key : Val (Fn φ)) : Except LuaError (Val (Fn φ)) :=
  match ret with
  | .tab r => h.index r key
  | .str _ => .ok ((E.string key).elim .nil .fn)
  | .num _ => .error .indexNumber
  | _ => .error .indexValue

/-- The loop of `Query`. -/
def follow (E : Env φ) (h : Store (Fn φ)) : List (Val (Fn φ)) → Val (Fn φ) → Except LuaError (Val (Fn φ))
  | [], ret => .ok ret
  | key :: keys, ret => do
    let ret ← field E h ret key
    if !ret.truthy then .ok .nil else follow E h keys ret

/-- `Query`: `ipairs` goes up to the first key that is nil. -/
def Config.Query (E : Env φ) (s : Config φ) (file : Bytes) (keys : List (Val (Fn φ))) : Except LuaError (Val (Fn φ)) :=
  match s.m_Data.lookup file with
  | none => .ok .nil
  | some result => if !result.truthy then .ok .nil else follow E s.store (keys.takeWhile (· ≠ .nil)) result

/-! ## Runs -/

/-- What code does with the configuration. -/
inductive Access (φ : Type)
  | Query (file : Bytes) (keys : List (Val (Fn φ)))
  | assign (t : Ref) (k v : Val (Fn φ))

/-- The configuration, and the tables that `Query` has returned. -/
structure World (φ : Type) where
  config : Config φ
  held : List Ref

namespace World

def next (E : Env φ) (w : World φ) : Access φ → World φ
  | .Query file keys => match w.config.Query E file keys with
    | .ok (.tab r) => { w with held := r :: w.held }
    | _ => w
  | .assign t k v => { w with config := { w.config with store := (setindex E w.config.store t k v).2 } }

/-- Code has obtained the table that it assigns to. -/
def Obtained (w : World φ) : Access φ → Prop
  | .Query _ _ => True
  | .assign t _ _ => t ∈ w.held

/-- An assignment raises. -/
def Raises (E : Env φ) (w : World φ) : Access φ → Prop
  | .Query _ _ => True
  | .assign t k v => (setindex E w.config.store t k v).1 ≠ none

end World

/-- All assignments raise, and `Query` returns what the files returned. -/
def Protected (E : Env φ) (F : Files φ) (run : List (Access φ)) : Prop :=
  Along (World.next E) (World.Raises E) ⟨F.loaded, []⟩ run ∧
    Throughout (World.next E) (fun w => ∀ file keys, w.config.Query E file keys = F.returned.Query E file keys)
    ⟨F.loaded, []⟩ run

/-- An assignment is to a key that a table returned by a file does not have, or to the key nil. -/
def Files.New (F : Files φ) : Access φ → Prop
  | .Query _ _ => True
  | .assign t k _ => k = .nil ∨ (.tab t ∈ F.values.map Prod.snd ∧ F.store.rawget t k = .nil)

/-! ## What `table.readonly` does -/

variable {E : Env φ} {F : Files φ} {h : Store (Fn φ)} {vs : List (Val (Fn φ))} {r : Ref} {k v : Val (Fn φ)}

/-- The metatable of a read-only table. -/
def guard : Tab (Fn φ) := ⟨[(.str "__newindex", .fn .readonly)], none⟩

/-- Some values have been made read-only. -/
structure Guards (F : Files φ) (vs : List (Val (Fn φ))) (h : Store (Fn φ)) : Prop where
  values : ∀ r, .tab r ∈ vs → r < F.store.next
  next : F.store.next ≤ h.next
  fields : ∀ r, r < F.store.next → (h.tabs r).fields = (F.store.tabs r).fields
  metatable : ∀ r m, h.getmetatable r = some m → F.store.next ≤ m ∧ m < h.next ∧ h.tabs m = guard
  guarded : ∀ r, h.getmetatable r ≠ none ↔ .tab r ∈ vs
  keys : ∀ r, h.rawget r .nil = .nil

theorem Files.guards (F : Files φ) : Guards F [] F.store where
  values _ h := absurd h List.not_mem_nil
  next := le_rfl
  fields _ _ := rfl
  metatable r m h := by rw [F.plain r] at h; cases h
  guarded r := by simp [F.plain r]
  keys := F.keys

/-- Values with the same tables. -/
theorem Guards.congr {ws : List (Val (Fn φ))} (hg : Guards F vs h) (hw : ∀ r, .tab r ∈ ws ↔ .tab r ∈ vs) :
    Guards F ws h :=
  ⟨fun r hr => hg.values r ((hw r).1 hr), hg.next, hg.fields, hg.metatable,
    fun r => (hg.guarded r).trans (hw r).symm, hg.keys⟩

theorem tabs_readonly (hm : h.getmetatable r = none) (hr : r ≠ h.next) (p : Ref) : (readonly h r).tabs p =
    if p = r then ⟨(h.tabs r).fields, some h.next⟩ else if p = h.next then guard else h.tabs p := by
  unfold readonly
  rw [hm]
  dsimp only [Store.setmetatable, Store.rawset, Store.alloc]
  by_cases hp : p = r
  · subst hp
    rw [Function.update_self, Function.update_of_ne hr, Function.update_of_ne hr, if_pos rfl]
  · rw [Function.update_of_ne hp, if_neg hp]
    by_cases hn : p = h.next
    · subst hn
      rw [Function.update_self, Function.update_self, if_pos rfl]
      rfl
    · rw [Function.update_of_ne hn, Function.update_of_ne hn, if_neg hn]

/-- A table that is read-only already. -/
theorem Guards.readonly_again (hg : Guards F vs h) (hm : h.getmetatable r ≠ none) :
    readonly h r = h := by
  obtain ⟨m, hm⟩ := Option.ne_none_iff_exists'.1 hm
  obtain ⟨hle, -, hguard⟩ := hg.metatable r m hm
  unfold readonly
  rw [hm]
  have hset : h.rawset m (.str "__newindex") (.fn .readonly) = h := by
    unfold Store.rawset
    rw [hguard]
    have hself : (⟨setField (guard (φ := φ)).fields (.str "__newindex") (.fn .readonly), none⟩ : Tab (Fn φ)) =
      h.tabs m := by
      rw [hguard]
      simp [guard, setField]
    exact congrArg (fun tabs => (⟨tabs, h.next⟩ : Store (Fn φ)))
      ((congrArg _ hself).trans (Function.update_eq_self m h.tabs))
  dsimp only
  rw [hset]
  unfold Store.setmetatable
  rw [← hm]
  exact congrArg (fun tabs => (⟨tabs, h.next⟩ : Store (Fn φ))) (Function.update_eq_self r h.tabs)

omit [DecidableEq φ] in
theorem mem_append_tab {p : Ref} : (.tab p : Val (Fn φ)) ∈ vs ++ [.tab r] ↔ .tab p ∈ vs ∨ p = r := by
  rw [List.mem_append, List.mem_singleton, Val.tab.injEq]

/-- A metatable after a table without one has been made read-only. -/
theorem getmetatable_readonly (hm : h.getmetatable r = none) (hr : r ≠ h.next) (p : Ref) :
    (readonly h r).getmetatable p =
    if p = r then some h.next else if p = h.next then none else h.getmetatable p := by
  unfold Store.getmetatable
  rw [tabs_readonly hm hr]
  split_ifs <;> rfl

theorem fields_readonly (hm : h.getmetatable r = none) (hr : r ≠ h.next) {p : Ref} (hp : p ≠ h.next) :
    ((readonly h r).tabs p).fields = (h.tabs p).fields := by
  rw [tabs_readonly hm hr]
  split_ifs with hpr
  · rw [hpr]
  · rfl

/-- A table without a metatable is made read-only. -/
theorem Guards.fresh (hg : Guards F vs h) (hr : r < F.store.next) (hm : h.getmetatable r = none) :
    Guards F (vs ++ [.tab r]) (readonly h r) := by
  have hne : r ≠ h.next := Nat.ne_of_lt (Nat.lt_of_lt_of_le hr hg.next)
  have hmeta := getmetatable_readonly hm hne
  have htabs := tabs_readonly hm hne
  have hnext : (XCore.Setting.readonly h r).next = h.next + 1 := by
    unfold XCore.Setting.readonly
    rw [hm]
    rfl
  refine ⟨fun p hp => ?_, ?_, fun p hp => ?_, fun p m hpm => ?_, fun p => ?_, fun p => ?_⟩
  · rcases mem_append_tab.1 hp with hp | rfl
    · exact hg.values p hp
    · exact hr
  · rw [hnext]
    exact Nat.le_succ_of_le hg.next
  · rw [fields_readonly hm hne (Nat.ne_of_lt (Nat.lt_of_lt_of_le hp hg.next))]
    exact hg.fields p hp
  · rw [hnext]
    rw [hmeta] at hpm
    split_ifs at hpm
    · obtain rfl := Option.some.inj hpm
      rw [htabs, if_neg hne.symm, if_pos rfl]
      exact ⟨hg.next, Nat.lt_succ_self _, rfl⟩
    · obtain ⟨hle, hlt, hguard⟩ := hg.metatable p m hpm
      rw [htabs, if_neg (Nat.ne_of_gt (Nat.lt_of_lt_of_le hr hle)), if_neg (Nat.ne_of_lt hlt)]
      exact ⟨hle, Nat.lt_succ_of_lt hlt, hguard⟩
  · rw [mem_append_tab, hmeta]
    split_ifs with hpr hpn
    · exact iff_of_true (Option.some_ne_none _) (Or.inr hpr)
    · refine iff_of_false (fun hn => hn rfl) ?_
      rintro (hp | hp)
      · exact absurd (hg.values p hp) (Nat.not_lt.2 (hpn ▸ hg.next))
      · exact hpr hp
    · exact (hg.guarded p).trans (or_iff_left hpr).symm
  · unfold Store.rawget
    by_cases hpn : p = h.next
    · rw [htabs, if_neg fun hpr => hne (hpr.symm.trans hpn), if_pos hpn]
      simp [guard, getField]
    · rw [fields_readonly hm hne hpn]
      exact hg.keys p

/-- **One value** is made read-only. -/
theorem Guards.readonly (hg : Guards F vs h) (hr : r < F.store.next) : Guards F (vs ++ [.tab r]) (readonly h r) := by
  cases hm : h.getmetatable r with
  | some m =>
    have hne : h.getmetatable r ≠ none := by simp [hm]
    have hin : .tab r ∈ vs := (hg.guarded r).1 hne
    have hmem : ∀ p, .tab p ∈ vs ++ [.tab r] ↔ .tab p ∈ vs := by
      intro p
      rw [mem_append_tab]
      refine ⟨fun hp => hp.elim id ?_, Or.inl⟩
      rintro rfl
      exact hin
    rw [hg.readonly_again hne]
    exact hg.congr hmem
  | none => exact hg.fresh hr hm

theorem Guards.atom (hg : Guards F vs h) (hv : ∀ r, v ≠ .tab r) : Guards F (vs ++ [v]) h := by
  refine hg.congr fun r => ?_
  rw [List.mem_append, List.mem_singleton]
  exact or_iff_left fun h => hv r h.symm

theorem Guards.loadFile {s : Config φ} {e : Bytes × Val (Fn φ)} (hg : Guards F vs s.store) (he : e ∈ F.values) :
    Guards F (vs ++ [e.2]) (loadFile s e).store := by
  have hr := F.allocated e he
  obtain ⟨name, v⟩ := e
  cases v with
  | tab r => exact hg.readonly (hr r rfl)
  | nil => exact hg.atom fun _ h => nomatch h
  | bool b => exact hg.atom fun _ h => nomatch h
  | num n => exact hg.atom fun _ h => nomatch h
  | str s => exact hg.atom fun _ h => nomatch h
  | fn f => exact hg.atom fun _ h => nomatch h

theorem Guards.foldl : ∀ (es : List (Bytes × Val (Fn φ))) {vs : List (Val (Fn φ))} (s : Config φ), Guards F vs s.store →
    (∀ e ∈ es, e ∈ F.values) → Guards F (vs ++ es.map Prod.snd) (es.foldl XCore.Setting.loadFile s).store
  | [], vs, s, hg, _ => by simpa using hg
  | e :: es, vs, s, hg, hes => by
    have hnext := Guards.foldl es _ (hg.loadFile (hes e List.mem_cons_self)) fun e he =>
      hes e (List.mem_cons_of_mem _ he)
    simpa using hnext

/-- **The configuration after it has been loaded**: exactly the tables that files return are read-only. -/
theorem Files.loaded_guards (F : Files φ) : Guards F (F.values.map Prod.snd) F.loaded.store :=
  Guards.foldl F.values ⟨F.store, ∅⟩ F.guards fun _ he => he

theorem data_foldl : ∀ (es : List (Bytes × Val (Fn φ))) (s : Config φ), (es.foldl loadFile s).m_Data = load s.m_Data es
  | [], _ => rfl
  | e :: es, s => data_foldl es (loadFile s e)

theorem Files.loaded_data (F : Files φ) : F.loaded.m_Data = F.returned.m_Data := data_foldl F.values ⟨F.store, ∅⟩

/-! ## Assignments to the tables of the configuration -/

theorem Guards.rawget (hg : Guards F vs h) (hr : r < F.store.next) : h.rawget r k = F.store.rawget r k := by
  unfold Store.rawget
  rw [hg.fields r hr]

/-- **An assignment raises** if the key is new and the table has a metatable, or if there is no key. -/
theorem Guards.setindex_raises (hg : Guards F vs h) : (setindex E h r k v).1 ≠ none ↔
    h.rawget r k = .nil ∧ (.tab r ∈ vs ∨ k = .nil) := by
  unfold setindex setindexWithin
  by_cases hk : h.rawget r k = .nil
  · rw [if_neg (not_not.2 hk), and_iff_right hk]
    cases hm : h.getmetatable r with
    | none =>
      have hout : .tab r ∉ vs := fun hr => (hg.guarded r).2 hr hm
      by_cases hnil : k = .nil <;> simp [hnil, hout]
    | some m =>
      have hin : .tab r ∈ vs := (hg.guarded r).1 (by simp [hm])
      have hguard : h.rawget m (.str "__newindex") = .fn .readonly := by
        unfold Store.rawget
        rw [(hg.metatable r m hm).2.2]
        simp [guard, getField]
      simp [hguard, hin]
  · simp [hk]

/-- An assignment that raises changes nothing. -/
theorem Guards.setindex_unchanged (hg : Guards F vs h) (hr : (setindex E h r k v).1 ≠ none) :
    (setindex E h r k v).2 = h := by
  obtain ⟨hk, hor⟩ := hg.setindex_raises.1 hr
  unfold setindex setindexWithin
  rw [if_neg (not_not.2 hk)]
  cases hm : h.getmetatable r with
  | none =>
    have hnil : k = .nil := hor.resolve_left fun hr => (hg.guarded r).2 hr hm
    simp [hnil]
  | some m =>
    have hguard : h.rawget m (.str "__newindex") = .fn .readonly := by
      unfold Store.rawget
      rw [(hg.metatable r m hm).2.2]
      simp [guard, getField]
    simp [hguard]

theorem Files.new_iff (F : Files φ) : F.New (.assign r k v) ↔
    F.loaded.store.rawget r k = .nil ∧ (.tab r ∈ F.values.map Prod.snd ∨ k = .nil) := by
  have hg := F.loaded_guards
  constructor
  · rintro (rfl | ⟨hr, hk⟩)
    · exact ⟨hg.keys r, Or.inr rfl⟩
    · rw [← hg.rawget (hg.values r hr)] at hk
      exact ⟨hk, Or.inl hr⟩
  · rintro ⟨hk, hr | hnil⟩
    · rw [hg.rawget (hg.values r hr)] at hk
      exact Or.inr ⟨hr, hk⟩
    · exact Or.inl hnil

/-! ## Queries -/

theorem Guards.index (hg : Guards F vs h) (hr : r < F.store.next) : h.index r k = F.store.index r k := by
  have hraw := hg.rawget (k := k) hr
  unfold Store.index Store.indexWithin
  rw [hraw, F.plain r]
  by_cases hk : F.store.rawget r k = .nil
  · rw [if_neg (not_not.2 hk), if_neg (not_not.2 hk)]
    cases hm : h.getmetatable r with
    | none => rfl
    | some m =>
      have hguard : h.rawget m (.str "__index") = .nil := by
        unfold Store.rawget
        rw [(hg.metatable r m hm).2.2]
        simp [guard, getField]
      simp [hguard]
  · rw [if_pos hk, if_pos hk]

/-- What a field of a value is, if it is a table, a file has returned too. -/
theorem Files.field_closed (F : Files φ) {ret value : Val (Fn φ)} (hret : ∀ r, ret = .tab r → r < F.store.next)
    (hv : field E F.store ret k = .ok value) :
    ∀ p, value = .tab p → p < F.store.next := by
  rintro p rfl
  cases ret with
  | tab r =>
    have hindex : F.store.index r k = .ok (F.store.rawget r k) := by
      unfold Store.index Store.indexWithin
      rw [F.plain r]
      by_cases hk : F.store.rawget r k = .nil
      · rw [if_neg (not_not.2 hk), hk]
      · rw [if_pos hk]
    rw [field, hindex] at hv
    exact F.closed r k p (hret r rfl) (Except.ok.inj hv)
  | str s =>
    have hfn := Except.ok.inj hv
    cases hs : E.string k <;> simp [hs] at hfn
  | nil => cases hv
  | bool b => cases hv
  | num n => cases hv
  | fn f => cases hv

theorem Guards.field (hg : Guards F vs h) {ret : Val (Fn φ)} (hret : ∀ r, ret = .tab r → r < F.store.next) :
    field E h ret k = field E F.store ret k := by
  cases ret with
  | tab r => exact hg.index (hret r rfl)
  | _ => simp only [XCore.Setting.field]

theorem Guards.follow (hg : Guards F vs h) : ∀ {keys : List (Val (Fn φ))} {ret : Val (Fn φ)},
    (∀ r, ret = .tab r → r < F.store.next) → follow E h keys ret = follow E F.store keys ret
  | [], _, _ => by simp only [XCore.Setting.follow]
  | key :: keys, ret, hret => by
    simp only [XCore.Setting.follow]
    rw [hg.field hret]
    cases hv : XCore.Setting.field E F.store ret key with
    | error e => simp only [bind, Except.bind]
    | ok value =>
      have hrest : XCore.Setting.follow E h keys value = XCore.Setting.follow E F.store keys value :=
        hg.follow (F.field_closed hret hv)
      simp only [bind, Except.bind, hrest]

theorem lookup_load_mem {V : Type} {b : Bytes} {v : V} : ∀ {l : List (Bytes × V)} {data : AList fun _ : Bytes => V},
    (load data l).lookup b = some v → (b, v) ∈ l ∨ data.lookup b = some v
  | [], _, h => Or.inr h
  | e :: l, data, h => by
    have hrest : (b, v) ∈ l ∨ (data.insert e.1 e.2).lookup b = some v := lookup_load_mem h
    rcases hrest with h | h
    · exact Or.inl (List.mem_cons_of_mem _ h)
    · by_cases hb : b = e.1
      · subst hb
        rw [AList.lookup_insert] at h
        cases h
        exact Or.inl List.mem_cons_self
      · rw [AList.lookup_insert_ne hb] at h
        exact Or.inr h

/-- **What is loaded can be queried**. -/
theorem Files.query (F : Files φ) (file : Bytes) (keys : List (Val (Fn φ))) :
    F.loaded.Query E file keys = F.returned.Query E file keys := by
  unfold Config.Query
  rw [F.loaded_data]
  cases hl : F.returned.m_Data.lookup file with
  | none => rfl
  | some result =>
    have hret : ∀ r, result = .tab r → r < F.store.next := by
      rcases lookup_load_mem hl with hmem | hmem
      · exact F.allocated _ hmem
      · rw [AList.lookup_empty] at hmem
        cases hmem
    have hfollow : follow E F.loaded.store (keys.takeWhile (· ≠ .nil)) result =
        follow E F.store (keys.takeWhile (· ≠ .nil)) result := F.loaded_guards.follow hret
    dsimp only
    rw [hfollow]
    rfl

/-! ## Runs -/

theorem World.raises_iff {w : World φ} (hw : w.config = F.loaded) (a : Access φ) : w.Raises E a ↔ F.New a := by
  cases a with
  | Query file keys => exact Iff.rfl
  | assign t k v =>
    rw [F.new_iff, ← F.loaded_guards.setindex_raises (E := E) (v := v), ← hw]
    rfl

theorem World.next_config {w : World φ} (hw : w.config = F.loaded) {a : Access φ} (ha : w.Raises E a) :
    (w.next E a).config = F.loaded := by
  cases a with
  | Query file keys =>
    dsimp only [World.next]
    split <;> exact hw
  | assign t k v =>
    have hr : (setindex E F.loaded.store t k v).1 ≠ none := by
      rw [← hw]
      exact ha
    have hsame := F.loaded_guards.setindex_unchanged hr
    change (⟨(setindex E w.config.store t k v).2, w.config.m_Data⟩ : Config φ) = F.loaded
    rw [hw, hsame]

/-- **Configuration tables are read-only** exactly for assignments to new keys of the tables that files return. -/
theorem readonly_exact (E : Env φ) (F : Files φ) (run : List (Access φ)) : Protected E F run ↔ ∀ a ∈ run, F.New a := by
  constructor
  · rintro ⟨hraises, -⟩
    have hnew : Along (World.next E) (fun _ a => F.New a) ⟨F.loaded, []⟩ run :=
      hraises.along (I := fun w => w.config = F.loaded) (fun w a hw ha => w.next_config hw ha)
        (fun w a hw ha => (w.raises_iff hw a).1 ha) rfl
    exact along_forall.1 hnew
  · intro h
    have hnew : Along (World.next E) (fun _ a => F.New a) ⟨F.loaded, []⟩ run := along_forall.2 h
    have hkept : ∀ (w : World φ) (a : Access φ), w.config = F.loaded → F.New a → (w.next E a).config = F.loaded :=
      fun w a hw ha => w.next_config hw ((w.raises_iff hw a).2 ha)
    refine ⟨hnew.along hkept (fun w a hw ha => (w.raises_iff hw a).2 ha) rfl, ?_⟩
    refine (hnew.throughout hkept rfl).mono fun w hw file keys => ?_
    rw [hw]
    exact F.query file keys

/-- A file with a table in its table. -/
def nested : Files Unit where
  store := ⟨fun r => if r = 0 then ⟨[(.num 100, .tab 1)], none⟩
    else if r = 1 then ⟨[(.str "ID", .num 100)], none⟩ else .empty, 2⟩
  values := [([115], .tab 0)]
  plain r := by
    unfold Store.getmetatable
    dsimp only
    split_ifs <;> rfl
  keys r := by
    unfold Store.rawget
    dsimp only
    split_ifs <;> simp [getField, Tab.empty]
  allocated e he r hr := by
    obtain rfl := List.mem_singleton.1 he
    cases hr
    decide
  closed r k p hr hp := by
    unfold Store.rawget at hp
    dsimp only at hp
    split_ifs at hp
    · unfold getField at hp
      split_ifs at hp
      · cases hp
        decide
      · cases hp
    · unfold getField at hp
      split_ifs at hp
      cases hp
    · cases hp

theorem nested_query (E : Env Unit) : nested.loaded.Query E [115] [.num 100] = .ok (.tab 1) := by
  have hraw : nested.store.rawget 0 (.num 100) = .tab 1 := by decide
  have hindex : nested.store.index 0 (.num 100) = .ok (.tab 1) := by
    rw [Store.index_of_rawget (by rw [hraw]; simp), hraw]
  have hdata : nested.returned.m_Data.lookup [115] = some (.tab 0) := by decide
  rw [nested.query]
  unfold Config.Query
  rw [hdata]
  change follow E nested.store [.num 100] (.tab 0) = .ok (.tab 1)
  simp only [follow, field, hindex, bind, Except.bind]
  rfl

/-- Functions that do nothing. -/
def bare : Env Unit := ⟨fun _ h _ _ _ => (none, h), fun _ => none⟩

/-- An assignment to a table in the table of a file. -/
theorem nested_assigned : ¬∀ (F : Files Unit) (run : List (Access Unit)),
    Along (World.next bare) World.Obtained ⟨F.loaded, []⟩ run → Protected bare F run := by
  intro h
  have hrun := h nested [.Query [115] [.num 100], .assign 1 (.str "ID") (.num 5)] ⟨trivial, ?_, trivial⟩
  · have hconfig : ((⟨nested.loaded, []⟩ : World Unit).next bare (.Query [115] [.num 100])).config = nested.loaded :=
      World.next_config rfl trivial
    obtain hnil | ⟨htab, -⟩ := (World.raises_iff hconfig _).1 hrun.1.2.1
    · cases hnil
    · exact absurd htab (by decide)
  · change (1 : Ref) ∈ (World.next bare ⟨nested.loaded, []⟩ (.Query [115] [.num 100])).held
    dsimp only [World.next]
    rw [nested_query]
    exact List.mem_cons_self

end XCore.Setting
