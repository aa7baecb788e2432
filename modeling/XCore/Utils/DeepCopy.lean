import Mathlib.Logic.Relation
import XCore.Lua.Heap

/-!
# `table.deepcopy` (`utils.lua`)

A table is copied field by field, and the tables in its fields before it; what has been copied is remembered in `cache`,
so that a table which stands in two places is copied once. The depth of the recursion is limited to 20.

`getmetatable` gives the field `__metatable` of a metatable if it has one, and `pairs` calls its `__pairs`; the copy is
made with both.

- `clone_table`, `deepcopy`: the functions;
- `IsCopy`: a graph of tables that is isomorphic to the source, made of new tables;
- `Inv`: what holds of `cache` and the tables between the steps;
- `clone_spec`: the copy of one table, and `deepcopy_copies`: the whole copy.
-/

namespace XCore.Utils.DeepCopy

open XCore.Lua XCore.Heap Relation

variable {φ : Type} [DecidableEq φ]

/-! ## The function -/

/-- What is taken from outside: the order of `pairs` in each table, and what `pairs` goes through if there is a
`__pairs`. -/
structure Iter (φ : Type) where
  order : Ref → Order φ
  custom : Val φ → Ref → Except LuaError (List (Val φ × Val φ))

/-- A field of the metatable (`luaL_getmetafield`). -/
def getmetafield (h : Store φ) (t : Ref) (event : String) : Val φ :=
  match h.getmetatable t with
  | none => .nil
  | some m => h.rawget m (.str event)

/-- `getmetatable(t)`. -/
def getmetatable (h : Store φ) (t : Ref) : Val φ :=
  match h.getmetatable t with
  | none => .nil
  | some m => if h.rawget m (.str "__metatable") = .nil then .tab m else h.rawget m (.str "__metatable")

/-- `setmetatable(t, mt)`. -/
def setmetatable (h : Store φ) (t : Ref) (mt : Val φ) : Except LuaError (Store φ) :=
  match mt with
  | .nil => if getmetafield h t "__metatable" = .nil then .ok (h.setmetatable t none) else .error .raised
  | .tab m => if getmetafield h t "__metatable" = .nil then .ok (h.setmetatable t (some m)) else .error .raised
  | _ => .error .badArgument

/-- `pairs(t)`. -/
def pairs (I : Iter φ) (h : Store φ) (t : Ref) : Except LuaError (List (Val φ × Val φ)) :=
  if getmetafield h t "__pairs" = .nil then .ok (h.pairs (I.order t) t) else I.custom (getmetafield h t "__pairs") t

/-- The tables, and the local table `cache`. -/
structure Cloning (φ : Type) where
  store : Store φ
  cache : Ref → Option Ref

namespace Cloning

/-- `rel[k] = v`. -/
def set (s : Cloning φ) (rel : Ref) (k v : Val φ) : Cloning φ := { s with store := s.store.rawset rel k v }

/-- `cache[v] = c`. -/
def remember (s : Cloning φ) (v c : Ref) : Cloning φ := { s with cache := Function.update s.cache v (some c) }

end Cloning

/-- The loop over the fields. -/
def cloneFields (clone : Ref → Cloning φ → Except LuaError (Ref × Cloning φ)) (rel : Ref) :
    List (Val φ × Val φ) → Cloning φ → Except LuaError (Cloning φ)
  | [], s => .ok s
  | (k, .tab v) :: rest, s =>
    match s.cache v with
    | some c => cloneFields clone rel rest (s.set rel k (.tab c))
    | none => do
      let (c, s) ← clone v s
      cloneFields clone rel rest ((s.set rel k (.tab c)).remember v c)
  | (k, v) :: rest, s => cloneFields clone rel rest (s.set rel k v)

/-- `clone_table`, by how many levels are left: at none the level is above 20. -/
def clone_table (I : Iter φ) (quiet : Bool) : Nat → Ref → Cloning φ → Except LuaError (Ref × Cloning φ)
  | 0, t, s => if quiet then .ok (t, s) else .error .raised
  | n + 1, t, s => do
    let rel := s.store.next
    let s : Cloning φ := { s with store := s.store.alloc .empty }
    let fields ← pairs I s.store t
    let s ← cloneFields (clone_table I quiet n) rel fields s
    let store ← setmetatable s.store rel (getmetatable s.store t)
    .ok (rel, { s with store := store })

/-- `table.deepcopy`. -/
def deepcopy (I : Iter φ) (quiet : Bool) (self : Val φ) (h : Store φ) : Except LuaError (Val φ × Store φ) :=
  match self with
  | .tab t => do
    let (c, s) ← clone_table I quiet 21 t ⟨h, fun _ => none⟩
    .ok (.tab c, s.store)
  | v => .ok (v, h)

/-! ## Graphs of tables -/

/-- A table is the value of a field. -/
def Child (h : Store φ) (r s : Ref) : Prop := ∃ k, h.rawget r k = .tab s

/-- There is a path from one table to another. -/
abbrev Reach (h : Store φ) : Ref → Ref → Prop := ReflTransGen (Child h)

/-- Every path from a table has at most so many edges. -/
def Within (h : Store φ) : Nat → Ref → Prop
  | 0, r => ∀ s, ¬Child h r s
  | n + 1, r => ∀ s, Child h r s → Within h n s

/-- The metatable of a table has neither `__metatable` nor `__pairs`. -/
def Plain (h : Store φ) (r : Ref) : Prop :=
  ∀ m, h.getmetatable r = some m → h.rawget m (.str "__metatable") = .nil ∧ h.rawget m (.str "__pairs") = .nil

/-- A value with another table for each. -/
def image (f : Ref → Ref) : Val φ → Val φ
  | .tab r => .tab (f r)
  | v => v

/-- **A copy**: a table of the copy for each table that can be reached, all new, with the same keys and metatable, the
values that are no tables, and the tables for the tables; and the source as it was. -/
structure IsCopy (h h' : Store φ) (f : Ref → Ref) (t c : Ref) : Prop where
  root : f t = c
  inj : ∀ r s, Reach h t r → Reach h t s → f r = f s → r = s
  fields : ∀ r, Reach h t r → ∀ k, h'.rawget (f r) k = image f (h.rawget r k)
  metatable : ∀ r, Reach h t r → h'.getmetatable (f r) = h.getmetatable r
  tables : ∀ x, Reach h' c x → ∃ r, Reach h t r ∧ f r = x
  fresh : ∀ x, Reach h' c x → h.next ≤ x
  source : ∀ r, r < h.next → h'.tabs r = h.tabs r

/-- Tables that exist refer to tables that exist. -/
structure Source (φ : Type) [DecidableEq φ] where
  store : Store φ
  closed : ∀ {r k s}, r < store.next → store.rawget r k = .tab s → s < store.next
  metatables : ∀ {r m}, r < store.next → store.getmetatable r = some m → m < store.next

section Graphs

variable {h : Store φ} {n : Nat} {r s : Ref}

theorem Within.child (hr : Within h (n + 1) r) (hs : Child h r s) : Within h n s := hr s hs

/-- Further down the paths are shorter. -/
theorem Within.below (hr : Within h n r) (hs : TransGen (Child h) r s) : ∃ m, m < n ∧ Within h m s := by
  induction hs with
  | single hs =>
    cases n with
    | zero => exact absurd hs (hr _)
    | succ n => exact ⟨n, Nat.lt_succ_self n, hr _ hs⟩
  | tail _ hs ih =>
    obtain ⟨m, hm, hw⟩ := ih
    cases m with
    | zero => exact absurd hs (hw _)
    | succ m => exact ⟨m, by omega, hw _ hs⟩

/-- There is no cycle. -/
theorem Within.acyclic (hr : Within h n r) : ¬TransGen (Child h) r r := by
  intro hcycle
  induction n using Nat.strongRecOn with
  | _ n ih =>
    obtain ⟨m, hm, hw⟩ := hr.below hcycle
    exact ih m hm hw

end Graphs

/-! ## The invariant -/

/-- A value of the copy for a value of the source. -/
def Img (cache : Ref → Option Ref) : Val φ → Val φ → Prop
  | .tab r, w => ∃ c, cache r = some c ∧ w = .tab c
  | v, w => w = v

/-- A table of the copy: its fields and its metatable. -/
def Copied (G : Source φ) (s : Cloning φ) (r c : Ref) : Prop :=
  (∀ k, Img s.cache (G.store.rawget r k) (s.store.rawget c k)) ∧ s.store.getmetatable c = G.store.getmetatable r

/-- The source is as it was, and `cache` has a new table of its own for each table in it, which is copied. -/
structure Inv (G : Source φ) (s : Cloning φ) : Prop where
  next : G.store.next ≤ s.store.next
  old : ∀ r, r < G.store.next → s.store.tabs r = G.store.tabs r
  fresh : ∀ {r c}, s.cache r = some c → G.store.next ≤ c ∧ c < s.store.next
  copied : ∀ {r c}, s.cache r = some c → Copied G s r c
  inj : ∀ {r r' c}, s.cache r = some c → s.cache r' = some c → r = r'

/-- What copying tables below `t` adds: tables from `n` on, and these to `cache`. -/
structure Grows (G : Source φ) (t n : Ref) (s s' : Cloning φ) : Prop where
  next : s.store.next ≤ s'.store.next
  cache : ∀ {r c}, s.cache r = some c → s'.cache r = some c
  added : ∀ {r c}, s'.cache r = some c → s.cache r = some c ∨ n ≤ c ∧ TransGen (Child G.store) t r

section Invariant

variable {G : Source φ} {s s' s'' : Cloning φ} {cache cache' : Ref → Option Ref} {r c t n : Ref} {k v w : Val φ}

omit [DecidableEq φ] in
theorem Img.mono (hcache : ∀ {r c}, cache r = some c → cache' r = some c) (h : Img cache v w) : Img cache' v w := by
  cases v with
  | tab r =>
    obtain ⟨c, hc, hw⟩ := h
    exact ⟨c, hcache hc, hw⟩
  | _ => exact h

theorem Grows.refl : Grows G t n s s := ⟨le_rfl, fun h => h, fun h => .inl h⟩

theorem Grows.trans (h : Grows G t n s s') (h' : Grows G t n s' s'') : Grows G t n s s'' where
  next := h.next.trans h'.next
  cache := fun hc => h'.cache (h.cache hc)
  added := fun hc => by
    rcases h'.added hc with hc | hc
    · exact h.added hc
    · exact .inr hc

/-- The tables of the source. -/
theorem Inv.rawget (h : Inv G s) (hr : r < G.store.next) (k : Val φ) : s.store.rawget r k = G.store.rawget r k := by
  rw [Store.rawget, Store.rawget, h.old r hr]

theorem Inv.getmetatable (h : Inv G s) (hr : r < G.store.next) : s.store.getmetatable r = G.store.getmetatable r := by
  rw [Store.getmetatable, Store.getmetatable, h.old r hr]

theorem getmetatable_set {rel : Ref} : (s.set rel k v).store.getmetatable r = s.store.getmetatable r := by
  show (Function.update s.store.tabs rel _ r).metatable = (s.store.tabs r).metatable
  by_cases hr : r = rel
  · subst hr
    rw [Function.update_self]
  · rw [Function.update_of_ne hr]

theorem tabs_set {rel : Ref} (hr : r ≠ rel) : (s.set rel k v).store.tabs r = s.store.tabs r :=
  Function.update_of_ne hr ..

/-- An assignment to the table that is being made. -/
theorem Inv.set {rel : Ref} (h : Inv G s) (hrel : G.store.next ≤ rel) (hnot : ∀ r, s.cache r ≠ some rel) :
    Inv G (s.set rel k v) where
  next := h.next
  old := fun r hr => (tabs_set (Nat.ne_of_lt (Nat.lt_of_lt_of_le hr hrel))).trans (h.old r hr)
  fresh := h.fresh
  copied := fun {r c} hc => by
    have hne : c ≠ rel := fun heq => hnot r (heq ▸ hc)
    obtain ⟨hf, hm⟩ := h.copied hc
    refine ⟨fun k' => ?_, getmetatable_set.trans hm⟩
    have hget : (s.set rel k v).store.rawget c k' = s.store.rawget c k' := Store.rawget_rawset_other hne
    rw [hget]
    exact hf k'
  inj := h.inj

omit [DecidableEq φ] in
theorem cache_remember_self : (s.remember r c).cache r = some c := Function.update_self ..

omit [DecidableEq φ] in
theorem cache_remember_of_ne {x : Ref} (hx : x ≠ r) : (s.remember r c).cache x = s.cache x :=
  Function.update_of_ne hx ..

omit [DecidableEq φ] in
theorem cache_remember (hnone : s.cache r = none) {x y : Ref} (hc : s.cache x = some y) :
    (s.remember r c).cache x = some y := by
  have hne : x ≠ r := fun heq => by
    rw [heq, hnone] at hc
    cases hc
  rw [cache_remember_of_ne hne]
  exact hc

/-- A table that has been copied. -/
theorem Inv.remember (h : Inv G s) (hnone : s.cache r = none) (hfresh : G.store.next ≤ c ∧ c < s.store.next)
    (hcopied : Copied G s r c) (hnot : ∀ r, s.cache r ≠ some c) : Inv G (s.remember r c) := by
  have hcases : ∀ {x y : Ref}, (s.remember r c).cache x = some y → x = r ∧ y = c ∨ x ≠ r ∧ s.cache x = some y := by
    intro x y hxy
    by_cases hx : x = r
    · subst hx
      rw [cache_remember_self] at hxy
      exact .inl ⟨rfl, (Option.some.inj hxy).symm⟩
    · rw [cache_remember_of_ne hx] at hxy
      exact .inr ⟨hx, hxy⟩
  have hmono : ∀ {x y : Ref}, s.cache x = some y → (s.remember r c).cache x = some y := cache_remember hnone
  refine ⟨h.next, h.old, fun hxy => ?_, fun hxy => ?_, fun {x x' y} hx hx' => ?_⟩
  · rcases hcases hxy with ⟨rfl, rfl⟩ | ⟨-, hxy⟩
    · exact hfresh
    · exact h.fresh hxy
  · rcases hcases hxy with ⟨rfl, rfl⟩ | ⟨-, hxy⟩
    · exact ⟨fun k => (hcopied.1 k).mono hmono, hcopied.2⟩
    · exact ⟨fun k => ((h.copied hxy).1 k).mono hmono, (h.copied hxy).2⟩
  · rcases hcases hx with ⟨rfl, rfl⟩ | ⟨-, hx₁⟩
    · rcases hcases hx' with ⟨rfl, -⟩ | ⟨-, hx₂⟩
      · rfl
      · exact absurd hx₂ (hnot x')
    · rcases hcases hx' with ⟨rfl, rfl⟩ | ⟨-, hx₂⟩
      · exact absurd hx₁ (hnot x)
      · exact h.inj hx₁ hx₂

end Invariant

/-! ## The steps -/

section Steps

variable {I : Iter φ} {quiet : Bool} {G : Source φ} {n : Nat} {t rel : Ref}

/-- What the copy of one table is: a new table, made after those that exist and before those in it. -/
def Clones (G : Source φ) (t : Ref) (s : Cloning φ) (r : Except LuaError (Ref × Cloning φ)) : Prop :=
  ∃ s', r = .ok (s.store.next, s') ∧ Inv G s' ∧ Grows G t (s.store.next + 1) s s' ∧ s.store.next < s'.store.next ∧
    (∀ x, x < s.store.next → s'.store.tabs x = s.store.tabs x) ∧ Copied G s' t s.store.next

/-- The state of the loop: `rel` is a table that is not in `cache`. -/
structure Making (G : Source φ) (rel : Ref) (s : Cloning φ) : Prop where
  inv : Inv G s
  new : G.store.next ≤ rel
  made : rel < s.store.next
  not_cached : ∀ r, s.cache r ≠ some rel

theorem Making.set {s : Cloning φ} (h : Making G rel s) (k v : Val φ) : Making G rel (s.set rel k v) :=
  ⟨h.inv.set h.new h.not_cached, h.new, h.made, h.not_cached⟩

/-- **The table of a field** that is not in `cache` yet. -/
theorem Making.clone {s s' : Cloning φ} {v : Ref} (h : Making G rel s) (hv : Child G.store t v)
    (hw : Within G.store n v)
    (hnone : s.cache v = none) (k : Val φ) (hinv : Inv G s') (hgrows : Grows G v (s.store.next + 1) s s')
    (hnext : s.store.next < s'.store.next) (hcopied : Copied G s' v s.store.next) :
    Making G rel ((s'.set rel k (.tab s.store.next)).remember v s.store.next) ∧
    Grows G t s.store.next s ((s'.set rel k (.tab s.store.next)).remember v s.store.next) := by
  have hmade := h.made
  have hnot : ∀ r, s'.cache r ≠ some rel := fun r hr => by
    rcases hgrows.added hr with hr | ⟨hle, -⟩
    · exact h.not_cached r hr
    · exact Nat.lt_asymm hle hmade
  have hnone' : s'.cache v = none := by
    cases hc : s'.cache v with
    | none => rfl
    | some c =>
      rcases hgrows.added hc with hc | ⟨-, hcycle⟩
      · rw [hnone] at hc
        cases hc
      · exact absurd hcycle hw.acyclic
  have hnew : ∀ r, s'.cache r ≠ some s.store.next := fun r hr => by
    rcases hgrows.added hr with hr | ⟨hle, -⟩
    · exact Nat.lt_irrefl _ (h.inv.fresh hr).2
    · exact Nat.lt_irrefl _ hle
  have hset := hinv.set (k := k) (v := .tab s.store.next) h.new hnot
  have hcopied' : Copied G (s'.set rel k (.tab s.store.next)) v s.store.next := by
    refine ⟨fun k' => ?_, getmetatable_set.trans hcopied.2⟩
    have hget : (s'.set rel k (.tab s.store.next)).store.rawget s.store.next k' = s'.store.rawget s.store.next k' :=
      Store.rawget_rawset_other (Nat.ne_of_gt hmade)
    rw [hget]
    exact hcopied.1 k'
  have hfresh : G.store.next ≤ s.store.next ∧ s.store.next < (s'.set rel k (.tab s.store.next)).store.next :=
    ⟨h.inv.next, hnext⟩
  refine ⟨⟨hset.remember hnone' hfresh hcopied' hnew, h.new, hmade.trans hnext, fun r hr => ?_⟩, hgrows.next,
    fun hc => ?_, fun {r c} hc => ?_⟩
  · by_cases hrv : r = v
    · subst hrv
      rw [cache_remember_self] at hr
      exact absurd (Option.some.inj hr) (Nat.ne_of_gt hmade)
    · rw [cache_remember_of_ne hrv] at hr
      exact hnot r hr
  · exact cache_remember (s := s'.set rel k (.tab s.store.next)) hnone' (hgrows.cache hc)
  · by_cases hrv : r = v
    · subst hrv
      rw [cache_remember_self] at hc
      exact .inr ⟨(Option.some.inj hc).le, .single hv⟩
    · rw [cache_remember_of_ne hrv] at hc
      rcases hgrows.added hc with hc | ⟨hle, hr⟩
      · exact .inl hc
      · exact .inr ⟨Nat.le_of_succ_le hle, TransGen.head hv hr⟩

/-- What a part of the loop does: the fields with keys in `ks` are copied into `rel`, the others stay as they are. -/
structure Fills (G : Source φ) (t rel : Ref) (ks : List (Val φ)) (s s' : Cloning φ) : Prop where
  making : Making G rel s'
  grows : Grows G t s.store.next s s'
  kept : ∀ x, x < s.store.next → x ≠ rel → s'.store.tabs x = s.store.tabs x
  metatable : s'.store.getmetatable rel = s.store.getmetatable rel
  filled : ∀ k, k ∈ ks → Img s'.cache (G.store.rawget t k) (s'.store.rawget rel k)
  others : ∀ k, k ∉ ks → s'.store.rawget rel k = s.store.rawget rel k

theorem Fills.nil {s : Cloning φ} (h : Making G rel s) : Fills G t rel [] s s :=
  ⟨h, .refl, fun _ _ _ => rfl, rfl, fun _ hk => absurd hk List.not_mem_nil, fun _ _ => rfl⟩

theorem Fills.cons {s s₁ s' : Cloning φ} {k : Val φ} {ks : List (Val φ)} (hk : k ∉ ks) (h : Fills G t rel [k] s s₁)
    (h' : Fills G t rel ks s₁ s') : Fills G t rel (k :: ks) s s' where
  making := h'.making
  grows := h.grows.trans ⟨h'.grows.next, h'.grows.cache, fun hc => (h'.grows.added hc).imp_right
    fun ⟨hle, hr⟩ => ⟨h.grows.next.trans hle, hr⟩⟩
  kept := fun x hx hne => (h'.kept x (hx.trans_le h.grows.next) hne).trans (h.kept x hx hne)
  metatable := h'.metatable.trans h.metatable
  filled := fun k' hk' => by
    rcases List.mem_cons.1 hk' with rfl | hk'
    · rw [h'.others k' hk]
      exact (h.filled k' List.mem_cons_self).mono h'.grows.cache
    · exact h'.filled k' hk'
  others := fun k' hk' => by
    obtain ⟨hne, hnot⟩ := not_or.1 fun h => hk' (List.mem_cons.2 h)
    exact (h'.others k' hnot).trans (h.others k' fun h => hne (List.mem_singleton.1 h))

/-- One assignment to `rel`. -/
theorem Fills.set {s : Cloning φ} {k w : Val φ} (h : Making G rel s) (himg : Img s.cache (G.store.rawget t k) w) :
    Fills G t rel [k] s (s.set rel k w) where
  making := h.set k w
  grows := ⟨le_rfl, fun h => h, fun h => .inl h⟩
  kept := fun x _ hne => tabs_set hne
  metatable := getmetatable_set
  filled := fun k' hk' => by
    obtain rfl := List.mem_singleton.1 hk'
    have hget : (s.set rel k' w).store.rawget rel k' = w := Store.rawget_rawset_self
    rw [hget]
    exact himg
  others := fun k' hk' => Store.rawget_rawset_of_ne fun h => hk' (List.mem_singleton.2 h)

/-- A table that is copied first. -/
theorem Fills.clone {s s' : Cloning φ} {k : Val φ} {v : Ref} (h : Making G rel s) (hget : G.store.rawget t k = .tab v)
    (hw : Within G.store n v) (hnone : s.cache v = none) (hinv : Inv G s') (hgrows : Grows G v (s.store.next + 1) s s')
    (hnext : s.store.next < s'.store.next) (hkept : ∀ x, x < s.store.next → s'.store.tabs x = s.store.tabs x)
    (hcopied : Copied G s' v s.store.next) :
    Fills G t rel [k] s ((s'.set rel k (.tab s.store.next)).remember v s.store.next) := by
  obtain ⟨hmaking, hgrows'⟩ := h.clone ⟨k, hget⟩ hw hnone k hinv hgrows hnext hcopied
  have hrel := hkept rel h.made
  refine ⟨hmaking, hgrows', fun x hx hne => (tabs_set hne).trans (hkept x hx), ?_, fun k' hk' => ?_, fun k' hk' => ?_⟩
  · refine (getmetatable_set (s := s')).trans ?_
    rw [Store.getmetatable, Store.getmetatable, hrel]
  · obtain rfl := List.mem_singleton.1 hk'
    rw [hget]
    exact ⟨_, cache_remember_self, Store.rawget_rawset_self⟩
  · refine (Store.rawget_rawset_of_ne fun h => hk' (List.mem_singleton.2 h)).trans ?_
    rw [Store.rawget, Store.rawget, hrel]

/-- **The loop** over fields of the table `t`. -/
theorem cloneFields_spec (hclone : ∀ v, Child G.store t v → ∀ s, Inv G s → Clones G v s (clone_table I quiet n v s))
    (hwithin : ∀ v, Child G.store t v → ∃ m, Within G.store m v) :
    ∀ (fields : List (Val φ × Val φ)) (s : Cloning φ), (fields.map Prod.fst).Nodup →
    (∀ k v, (k, v) ∈ fields → G.store.rawget t k = v) → Making G rel s →
    ∃ s', cloneFields (clone_table I quiet n) rel fields s = .ok s' ∧ Fills G t rel (fields.map Prod.fst) s s'
  | [], s, _, _, hs => ⟨s, rfl, .nil hs⟩
  | (k, v) :: fields, s, hnodup, hget, hs => by
    obtain ⟨hk, hnodup⟩ := List.nodup_cons.1 hnodup
    have hv := hget k v List.mem_cons_self
    have hrest (s₁ : Cloning φ) (h : Fills G t rel [k] s s₁) :
        ∃ s', cloneFields (clone_table I quiet n) rel fields s₁ = .ok s' ∧
        Fills G t rel (k :: fields.map Prod.fst) s s' := by
      obtain ⟨s', hs', hfills⟩ := cloneFields_spec hclone hwithin fields s₁ hnodup
        (fun k v hmem => hget k v (List.mem_cons_of_mem _ hmem)) h.making
      exact ⟨s', hs', h.cons hk hfills⟩
    cases v with
    | tab v =>
      unfold cloneFields
      split
      · next c hc => exact hrest _ (.set hs (by rw [hv]; exact ⟨c, hc, rfl⟩))
      · next hnone =>
        obtain ⟨m, hm⟩ := hwithin v ⟨k, hv⟩
        obtain ⟨s', hs', hinv, hgrows, hnext, hkept, hcopied⟩ := hclone v ⟨k, hv⟩ s hs.inv
        rw [hs']
        exact hrest _ (.clone hs hv hm hnone hinv hgrows hnext hkept hcopied)
    | nil | bool | num | str | fn =>
      refine hrest _ (.set hs ?_)
      rw [hv]
      rfl

/-- The metatable is that of the source. -/
theorem getmetatable_plain {h : Store φ} {r : Ref} (hr : Plain h r) :
    getmetatable h r = match h.getmetatable r with
      | none => .nil
      | some m => .tab m := by
  unfold getmetatable
  cases hm : h.getmetatable r with
  | none => rfl
  | some m => exact if_pos (hr m hm).1

theorem pairs_plain {h : Store φ} {r : Ref} (hr : Plain h r) : pairs I h r = .ok (h.pairs (I.order r) r) := by
  have hfield : getmetafield h r "__pairs" = .nil := by
    unfold getmetafield
    cases hm : h.getmetatable r with
    | none => rfl
    | some m => exact (hr m hm).2
  rw [pairs, if_pos hfield]

/-- A table without a metatable gets that of another. -/
theorem setmetatable_plain {h : Store φ} {r : Ref} (hr : h.getmetatable r = none) (mt : Option Ref) :
    setmetatable h r (match mt with | none => .nil | some m => .tab m) = .ok (h.setmetatable r mt) := by
  have hfield : getmetafield h r "__metatable" = .nil := by
    rw [getmetafield, hr]
  cases mt with
  | none => exact if_pos hfield
  | some m => exact if_pos hfield

/-- The metatables of the source are as they were. -/
theorem Inv.plain {s : Cloning φ} {r : Ref} (h : Inv G s) (hr : r < G.store.next) (hp : Plain G.store r) :
    Plain s.store r := by
  intro m hm
  rw [h.getmetatable hr] at hm
  have hlt := G.metatables hr hm
  rw [h.rawget hlt, h.rawget hlt]
  exact hp m hm

/-- A new table in which to copy. -/
theorem Inv.alloc {s : Cloning φ} (h : Inv G s) :
    Making G s.store.next { s with store := s.store.alloc .empty } := by
  have hlt : s.store.next < (s.store.alloc .empty : Store φ).next := Nat.lt_succ_self _
  have htabs : ∀ {x}, x < s.store.next → (s.store.alloc .empty).tabs x = s.store.tabs x := Store.tabs_alloc_of_lt _
  refine ⟨⟨h.next.trans hlt.le, fun r hr => (htabs (hr.trans_le h.next)).trans (h.old r hr), fun hc => ?_,
    fun {r c} hc => ?_, h.inj⟩, h.next, hlt, fun r hr => Nat.lt_irrefl _ (h.fresh hr).2⟩
  · exact ⟨(h.fresh hc).1, (h.fresh hc).2.trans hlt⟩
  · have hsame := htabs (h.fresh hc).2
    obtain ⟨hf, hm⟩ := h.copied hc
    refine ⟨fun k => ?_, ?_⟩
    · have hget : (s.store.alloc .empty).rawget c k = s.store.rawget c k := by rw [Store.rawget, Store.rawget, hsame]
      show Img s.cache _ ((s.store.alloc .empty).rawget c k)
      rw [hget]
      exact hf k
    · show (s.store.alloc .empty).getmetatable c = _
      rw [Store.getmetatable, hsame]
      exact hm

/-- The metatable does not change what has been copied. -/
theorem Making.setmetatable {s : Cloning φ} (h : Making G rel s) (mt : Option Ref) :
    Inv G { s with store := s.store.setmetatable rel mt } := by
  have htabs : ∀ {x}, x ≠ rel → (s.store.setmetatable rel mt).tabs x = s.store.tabs x :=
    fun hx => Function.update_of_ne hx ..
  refine ⟨h.inv.next, fun r hr => (htabs (Nat.ne_of_lt (hr.trans_le h.new))).trans (h.inv.old r hr), h.inv.fresh,
    fun {r c} hc => ?_, h.inv.inj⟩
  have hne : c ≠ rel := fun heq => h.not_cached r (heq ▸ hc)
  obtain ⟨hf, hm⟩ := h.inv.copied hc
  refine ⟨fun k => ?_, ?_⟩
  · show Img s.cache _ ((s.store.setmetatable rel mt).rawget c k)
    rw [Store.rawget_setmetatable]
    exact hf k
  · show (s.store.setmetatable rel mt).getmetatable c = _
    rw [Store.getmetatable, htabs hne]
    exact hm

/-- **The copy of a table** whose paths are not longer than the levels that are left. -/
theorem clone_spec : ∀ (n : Nat) {t : Ref} (s : Cloning φ), t < G.store.next → Within G.store n t →
    (∀ r, Reach G.store t r → Plain G.store r) → Inv G s → Clones G t s (clone_table I quiet (n + 1) t s)
  | n, t, s, ht, hw, hplain, hs => by
    have hmaking := hs.alloc
    have hclosed : ∀ v, Child G.store t v → v < G.store.next := fun v ⟨k, hk⟩ => G.closed ht hk
    -- what the tables of the fields need
    have hclone : ∀ v, Child G.store t v → ∀ s, Inv G s → Clones G v s (clone_table I quiet n v s) := by
      intro v hv s hs
      cases n with
      | zero => exact absurd hv (hw v)
      | succ n => exact clone_spec n s (hclosed v hv) (hw v hv) (fun r hr => hplain r (.head hv hr)) hs
    have hwithin : ∀ v, Child G.store t v → ∃ m, Within G.store m v := fun v hv => by
      cases n with
      | zero => exact absurd hv (hw v)
      | succ n => exact ⟨n, hw v hv⟩
    -- the loop
    have hpairs := pairs_plain (I := I) (hmaking.inv.plain ht (hplain t .refl))
    have hmem : ∀ {k v}, (k, v) ∈ (s.store.alloc .empty).pairs (I.order t) t ↔ G.store.rawget t k = v ∧ v ≠ .nil := by
      intro k v
      rw [Store.mem_pairs, ← hmaking.inv.rawget ht k]
    obtain ⟨s', hs', hfills⟩ := cloneFields_spec hclone hwithin
      ((s.store.alloc .empty).pairs (I.order t) t) _ Store.nodup_pairs (fun k v h => (hmem.1 h).1) hmaking
    -- the metatable
    have hgetmt : getmetatable s'.store t = _ := getmetatable_plain (hfills.making.inv.plain ht (hplain t .refl))
    rw [hfills.making.inv.getmetatable ht] at hgetmt
    have hnew : s'.store.getmetatable s.store.next = none := by
      rw [hfills.metatable]
      show (Function.update s.store.tabs s.store.next Tab.empty s.store.next).metatable = none
      rw [Function.update_self]
      rfl
    have hsetmt := setmetatable_plain hnew (G.store.getmetatable t)
    have hresult : clone_table I quiet (n + 1) t s =
        .ok (s.store.next, { s' with store := s'.store.setmetatable s.store.next (G.store.getmetatable t) }) := by
      unfold clone_table
      dsimp only
      rw [hpairs]
      show (cloneFields _ _ _ _ >>= _) = _
      rw [hs']
      show (setmetatable s'.store s.store.next (getmetatable s'.store t) >>= _) = _
      rw [hgetmt, hsetmt]
      rfl
    have hnext : s.store.next < (s.store.alloc .empty : Store φ).next := Nat.lt_succ_self _
    refine ⟨_, hresult, hfills.making.setmetatable _,
      ⟨hnext.le.trans hfills.grows.next, hfills.grows.cache, hfills.grows.added⟩,
      hnext.trans_le hfills.grows.next, fun x hx => ?_, fun k => ?_, ?_⟩
    · have hne : x ≠ s.store.next := Nat.ne_of_lt hx
      refine (Function.update_of_ne hne ..).trans ((hfills.kept x (hx.trans hnext) hne).trans ?_)
      exact Store.tabs_alloc_of_lt _ hx
    · show Img s'.cache _ ((s'.store.setmetatable s.store.next _).rawget s.store.next k)
      rw [Store.rawget_setmetatable]
      by_cases hk : k ∈ ((s.store.alloc .empty).pairs (I.order t) t).map Prod.fst
      · exact hfills.filled k hk
      · -- a key without a value
        have hnil : G.store.rawget t k = .nil := by
          by_contra hv
          exact hk (List.mem_map.2 ⟨(k, G.store.rawget t k), hmem.2 ⟨rfl, hv⟩, rfl⟩)
        have hempty : (s.store.alloc .empty).rawget s.store.next k = .nil := by
          show getField (Function.update s.store.tabs s.store.next Tab.empty s.store.next).fields k = .nil
          rw [Function.update_self]
          rfl
        rw [hnil]
        exact (hfills.others k hk).trans hempty
    · show (Function.update s'.store.tabs s.store.next _ s.store.next).metatable = _
      rw [Function.update_self]

end Steps

/-! ## The whole copy -/

section Whole

variable {G : Source φ} {t : Ref} {s : Cloning φ}

/-- The table of the copy for each table. -/
def counterpart (t c : Ref) (cache : Ref → Option Ref) (r : Ref) : Ref := if r = t then c else (cache r).getD c

/-- Every table but the first is in `cache`. -/
theorem cached_of_reach (hs : Inv G s) {c : Ref} (hc : Copied G s t c) {r : Ref} (hr : Reach G.store t r) :
    r = t ∨ ∃ x, s.cache r = some x := by
  induction hr with
  | refl => exact .inl rfl
  | @tail r v _ hv ih =>
    obtain ⟨k, hk⟩ := hv
    have hcopied : ∃ x, Copied G s r x := by
      rcases ih with rfl | ⟨x, hx⟩
      · exact ⟨c, hc⟩
      · exact ⟨x, hs.copied hx⟩
    obtain ⟨x, hx, -⟩ := hcopied
    have himg := hx k
    rw [hk] at himg
    obtain ⟨y, hy, -⟩ := himg
    exact .inr ⟨y, hy⟩

/-- **What has been copied is a copy**: when `cache` has new tables for the tables below `t`, behind that for `t`
itself. -/
theorem isCopy_of_inv {c : Ref} (hs : Inv G s) (hnext : G.store.next ≤ c) (hcopied : Copied G s t c)
    (hadded : ∀ {r x}, s.cache r = some x → c < x ∧ TransGen (Child G.store) t r)
    (hacyclic : ¬TransGen (Child G.store) t t) :
    IsCopy G.store s.store (counterpart t c s.cache) t c := by
  have hself : counterpart t c s.cache t = c := if_pos rfl
  have hof : ∀ {r x}, s.cache r = some x → counterpart t c s.cache r = x := fun {r x} hx => by
    have hne : r ≠ t := fun heq => hacyclic (heq ▸ (hadded hx).2)
    rw [counterpart, if_neg hne, hx]
    rfl
  have heach : ∀ r, Reach G.store t r → Copied G s r (counterpart t c s.cache r) ∧ c ≤ counterpart t c s.cache r :=
    fun r hr => by
    rcases cached_of_reach hs hcopied hr with rfl | ⟨x, hx⟩
    · rw [hself]
      exact ⟨hcopied, le_rfl⟩
    · rw [hof hx]
      exact ⟨hs.copied hx, (hadded hx).1.le⟩
  have hfields : ∀ r, Reach G.store t r → ∀ k,
      s.store.rawget (counterpart t c s.cache r) k = image (counterpart t c s.cache) (G.store.rawget r k) :=
    fun r hr k => by
    have himg := (heach r hr).1.1 k
    cases hv : G.store.rawget r k with
    | tab v =>
      rw [hv] at himg
      obtain ⟨x, hx, hw⟩ := himg
      rw [hw, image, hof hx]
    | _ =>
      rw [hv] at himg
      exact himg
  have htables : ∀ x, Reach s.store c x → ∃ r, Reach G.store t r ∧ counterpart t c s.cache r = x := fun x hx => by
    induction hx with
    | refl => exact ⟨t, .refl, hself⟩
    | @tail y z _ hz ih =>
      obtain ⟨r, hr, rfl⟩ := ih
      obtain ⟨k, hk⟩ := hz
      rw [hfields r hr] at hk
      cases hv : G.store.rawget r k with
      | tab v =>
        rw [hv, image, Val.tab.injEq] at hk
        exact ⟨v, hr.tail ⟨k, hv⟩, hk⟩
      | _ =>
        rw [hv] at hk
        cases hk
  refine ⟨hself, fun r r' hr hr' heq => ?_, hfields, fun r hr => (heach r hr).1.2, htables, fun x hx => ?_, hs.old⟩
  · rcases cached_of_reach hs hcopied hr with rfl | ⟨x, hx⟩
    · rcases cached_of_reach hs hcopied hr' with rfl | ⟨x', hx'⟩
      · rfl
      · rw [hself, hof hx'] at heq
        exact absurd heq (Nat.ne_of_lt (hadded hx').1)
    · rcases cached_of_reach hs hcopied hr' with rfl | ⟨x', hx'⟩
      · rw [hself, hof hx] at heq
        exact absurd heq (Nat.ne_of_gt (hadded hx).1)
      · rw [hof hx, hof hx'] at heq
        exact hs.inj hx (heq ▸ hx')
  · obtain ⟨r, hr, rfl⟩ := htables x hx
    exact hnext.trans (heach r hr).2

end Whole

/-- **`table.deepcopy` returns a copy**, if no path from the table has more than 20 edges and the metatables have
neither `__metatable` nor `__pairs`. -/
theorem deepcopy_copies (I : Iter φ) (quiet : Bool) (G : Source φ) (t : Ref) (ht : t < G.store.next)
    (hdeep : Within G.store 20 t) (hplain : ∀ r, Reach G.store t r → Plain G.store r) :
    ∃ f c h', deepcopy I quiet (.tab t) G.store = .ok (.tab c, h') ∧ IsCopy G.store h' f t c := by
  have hstart : Inv G ⟨G.store, fun _ => none⟩ :=
    ⟨le_rfl, fun _ _ => rfl, fun h => (by cases h), fun h => (by cases h), fun h => (by cases h)⟩
  obtain ⟨s, hs, hinv, hgrows, -, -, hcopied⟩ := clone_spec (I := I) 20 _ ht hdeep hplain hstart
  refine ⟨_, G.store.next, s.store, ?_, isCopy_of_inv hinv le_rfl hcopied (fun hx => ?_) hdeep.acyclic⟩
  · unfold deepcopy
    dsimp only
    rw [hs]
    rfl
  · rcases hgrows.added hx with hx | hx
    · cases hx
    · exact hx

/-! ## Small graphs -/

theorem mem_of_getField : ∀ {fs : List (Val φ × Val φ)} {k : Val φ} {r : Ref}, getField fs k = .tab r →
    .tab r ∈ fs.map Prod.snd
  | [], _, _, h => by cases h
  | (k', v') :: fs, k, r, h => by
    unfold getField at h
    split at h
    · rw [← h]
      exact List.mem_cons_self
    · exact List.mem_cons_of_mem _ (mem_of_getField h)

/-- A table `{a = s, b = s}` with a metatable, where `s` is `{x = 7}`. -/
def shared : Source Unit where
  store := ⟨fun r => match r with
    | 0 => ⟨[(.str "a", .tab 1), (.str "b", .tab 1)], some 2⟩
    | 1 => ⟨[(.str "x", .num 7)], none⟩
    | _ => .empty, 3⟩
  closed {r k s} _ h := by
    have hmem := mem_of_getField h
    match r with
    | 0 =>
      simp only [List.map_cons, List.map_nil, List.mem_cons, Val.tab.injEq, List.not_mem_nil, or_false, or_self] at hmem
      rw [hmem]
      show 1 < 3
      decide
    | 1 => simp at hmem
    | _ + 2 => simp [Tab.empty] at hmem
  metatables {r m} _ h := by
    match r with
    | 0 =>
      obtain rfl := Option.some.inj h
      show 2 < 3
      decide
    | 1 => cases h
    | _ + 2 => cases h

theorem shared_child {r s : Ref} (h : Child shared.store r s) : r = 0 ∧ s = 1 := by
  obtain ⟨k, h⟩ := h
  have hmem := mem_of_getField h
  match r with
  | 0 =>
    simp only [shared, List.map_cons, List.map_nil, List.mem_cons, Val.tab.injEq, List.not_mem_nil, or_false,
      or_self] at hmem
    exact ⟨rfl, hmem⟩
  | 1 => simp [shared] at hmem
  | _ + 2 => simp [shared, Tab.empty] at hmem

/-- `pairs` in the order of the fields, with a `__pairs` that goes through nothing. -/
def firstOrder : Iter Unit := ⟨fun _ => Order.first Unit, fun _ _ => .ok []⟩

/-- The copy has one table for `s`. -/
theorem deepcopy_shared : ∃ f c h', deepcopy firstOrder false (.tab 0) shared.store = .ok (.tab c, h') ∧
    IsCopy shared.store h' f 0 c := by
  refine deepcopy_copies firstOrder false shared 0 (by decide) (fun s hs t ht => ?_) fun r _ m hm => ?_
  · rw [(shared_child hs).2] at ht
    exact absurd (shared_child ht).1 (by decide)
  · match r with
    | 0 =>
      obtain rfl := Option.some.inj hm
      exact ⟨rfl, rfl⟩
    | 1 => cases hm
    | _ + 2 => cases hm

/-- A table `{a = 1}` with a metatable that has one field. -/
def guarded (event : String) : Source Unit where
  store := ⟨fun r => match r with
    | 0 => ⟨[(.str "a", .num 1)], some 1⟩
    | 1 => ⟨[(.str event, .fn ())], none⟩
    | _ => .empty, 2⟩
  closed {r k s} _ h := by
    have hmem := mem_of_getField h
    match r with
    | 0 => simp at hmem
    | 1 => simp at hmem
    | _ + 2 => simp [Tab.empty] at hmem
  metatables {r m} _ h := by
    match r with
    | 0 =>
      obtain rfl := Option.some.inj h
      show 1 < 2
      decide
    | 1 => cases h
    | _ + 2 => cases h

theorem guarded_metatable {event : String} {r m : Ref} (h : (guarded event).store.getmetatable r = some m) : m = 1 := by
  match r with
  | 0 => exact (Option.some.inj h).symm
  | 1 => cases h
  | _ + 2 => cases h

theorem guarded_within (event : String) (n : Nat) : Within (guarded event).store n 0 := by
  have hno : ∀ s, ¬Child (guarded event).store 0 s := fun s ⟨k, h⟩ => by
    have hmem := mem_of_getField h
    simp [guarded] at hmem
  cases n with
  | zero => exact hno
  | succ n => exact fun s hs => absurd hs (hno s)

/-- A `__metatable` that is a function makes `setmetatable` raise, and with a `__pairs` that goes through nothing the
copy is empty. -/
theorem deepcopy_guarded : ¬(∀ (I : Iter Unit) (G : Source Unit) (t : Ref), t < G.store.next → Within G.store 20 t →
      (∀ r m, G.store.getmetatable r = some m → G.store.rawget m (.str "__pairs") = .nil) →
      ∃ f c h', deepcopy I false (.tab t) G.store = .ok (.tab c, h') ∧ IsCopy G.store h' f t c) ∧
    ¬(∀ (I : Iter Unit) (G : Source Unit) (t : Ref), t < G.store.next → Within G.store 20 t →
      (∀ r m, G.store.getmetatable r = some m → G.store.rawget m (.str "__metatable") = .nil) →
      ∃ f c h', deepcopy I false (.tab t) G.store = .ok (.tab c, h') ∧ IsCopy G.store h' f t c) := by
  constructor
  · intro h
    obtain ⟨f, c, h', hret, -⟩ := h firstOrder (guarded "__metatable") 0 (by decide)
      (guarded_within _ 20) fun r m hm => by
      rw [guarded_metatable hm]
      rfl
    have hraise : deepcopy firstOrder false (.tab 0) (guarded "__metatable").store = .error .badArgument := rfl
    rw [hraise] at hret
    cases hret
  · intro h
    obtain ⟨f, c, h', hret, hcopy⟩ := h firstOrder (guarded "__pairs") 0 (by decide)
      (guarded_within _ 20) fun r m hm => by
      rw [guarded_metatable hm]
      rfl
    have hfield := hcopy.fields 0 .refl (.str "a")
    rw [hcopy.root] at hfield
    cases hret
    cases hfield

end XCore.Utils.DeepCopy
