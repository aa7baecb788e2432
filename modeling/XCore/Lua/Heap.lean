import Mathlib.Data.List.Dedup
import Mathlib.Data.List.Perm.Basic
import XCore.Lua.Str

/-!
# Tables of Lua 5.3

Tables have an identity (`Ref`); a store has the fields and the metatable of each. `rawget` and `rawset` are the
primitive accesses, `index` follows `__index` where it is a table. Functions as metamethods are left to what uses the
store.

`pairs` goes through the fields that are not nil, in an order that is a parameter (`Order`).
-/

namespace XCore.Heap

open XCore.Lua

/-- The identity of a table. -/
abbrev Ref := Nat

/-- A value; functions are of some type. -/
inductive Val (φ : Type)
  | nil
  | bool (b : Bool)
  | num (n : Int)
  | str (s : String)
  | fn (f : φ)
  | tab (r : Ref)
  deriving DecidableEq

/-- A value other than `nil` and `false`. -/
def Val.truthy {φ : Type} : Val φ → Bool
  | .nil => false
  | .bool b => b
  | _ => true

/-- A table. -/
def Val.isTab {φ : Type} : Val φ → Bool
  | .tab _ => true
  | _ => false

/-- The fields of a table, where a field may be nil, and its metatable. -/
structure Tab (φ : Type) where
  fields : List (Val φ × Val φ)
  metatable : Option Ref

/-- All tables, and the identity of the next. -/
structure Store (φ : Type) where
  tabs : Ref → Tab φ
  next : Ref

/-- The table without fields. -/
def Tab.empty {φ : Type} : Tab φ := ⟨[], none⟩

variable {φ : Type} [DecidableEq φ]

/-! ## Fields -/

/-- The value of a key in some fields. -/
def getField : List (Val φ × Val φ) → Val φ → Val φ
  | [], _ => .nil
  | (k, v) :: fs, k' => if k = k' then v else getField fs k'

/-- The fields after an assignment. -/
def setField : List (Val φ × Val φ) → Val φ → Val φ → List (Val φ × Val φ)
  | [], k, v => [(k, v)]
  | (k', v') :: fs, k, v => if k' = k then (k, v) :: fs else (k', v') :: setField fs k v

@[simp] theorem getField_setField_self : ∀ (fs : List (Val φ × Val φ)) (k v : Val φ), getField (setField fs k v) k = v
  | [], k, v => if_pos rfl
  | (k', v') :: fs, k, v => by
    unfold setField
    split
    · exact if_pos rfl
    · rename_i h
      rw [getField, if_neg h]
      exact getField_setField_self fs k v

@[simp] theorem getField_setField_of_ne : ∀ (fs : List (Val φ × Val φ)) {k k' : Val φ} (v : Val φ), k' ≠ k →
    getField (setField fs k v) k' = getField fs k'
  | [], k, k', v, h => if_neg fun hk => h hk.symm
  | (k₀, v₀) :: fs, k, k', v, h => by
    unfold setField
    split
    · rename_i hk
      rw [getField, getField, hk, if_neg fun hk => h hk.symm, if_neg fun hk => h hk.symm]
    · rw [getField, getField, getField_setField_of_ne fs v h]

theorem getField_ne_nil : ∀ {fs : List (Val φ × Val φ)} {k : Val φ}, getField fs k ≠ .nil → k ∈ fs.map Prod.fst
  | [], _, h => (h rfl).elim
  | (k', v') :: fs, k, h => by
    unfold getField at h
    split at h
    · rename_i hk
      rw [← hk]
      exact List.mem_cons_self
    · exact List.mem_cons_of_mem _ (getField_ne_nil h)

/-- The fields of a table that are not nil, each once. -/
def Tab.live (t : Tab φ) : List (Val φ × Val φ) :=
  (((t.fields.map Prod.fst).dedup.map fun k => (k, getField t.fields k)).filter fun kv => kv.2 ≠ .nil)

theorem Tab.mem_live {t : Tab φ} {k v : Val φ} : (k, v) ∈ t.live ↔ getField t.fields k = v ∧ v ≠ .nil := by
  unfold Tab.live
  rw [List.mem_filter, List.mem_map, decide_eq_true_eq]
  constructor
  · rintro ⟨⟨k', -, h⟩, hv⟩
    cases h
    exact ⟨rfl, hv⟩
  · rintro ⟨rfl, hv⟩
    exact ⟨⟨k, List.mem_dedup.2 (getField_ne_nil hv), rfl⟩, hv⟩

theorem Tab.nodup_live (t : Tab φ) : (t.live.map Prod.fst).Nodup := by
  have hkeys : ((t.fields.map Prod.fst).dedup.map fun k => (k, getField t.fields k)).map Prod.fst =
      (t.fields.map Prod.fst).dedup := by
    rw [List.map_map]
    exact List.map_id _
  unfold Tab.live
  apply List.Nodup.sublist (List.filter_sublist.map _)
  rw [hkeys]
  exact List.nodup_dedup _

/-- An order in which `pairs` may go through a table. -/
structure Order (φ : Type) where
  order : List (Val φ × Val φ) → List (Val φ × Val φ)
  perm : ∀ l, (order l).Perm l

/-- The order in which the fields were assigned first. -/
def Order.first (φ : Type) : Order φ := ⟨id, fun _ => .refl _⟩

namespace Store

/-- `rawget`. -/
def rawget (h : Store φ) (r : Ref) (k : Val φ) : Val φ := getField (h.tabs r).fields k

/-- `rawset`. -/
def rawset (h : Store φ) (r : Ref) (k v : Val φ) : Store φ :=
  { h with tabs := Function.update h.tabs r ⟨setField (h.tabs r).fields k v, (h.tabs r).metatable⟩ }

/-- `getmetatable`. -/
def getmetatable (h : Store φ) (r : Ref) : Option Ref := (h.tabs r).metatable

/-- `setmetatable`. -/
def setmetatable (h : Store φ) (r : Ref) (m : Option Ref) : Store φ :=
  { h with tabs := Function.update h.tabs r ⟨(h.tabs r).fields, m⟩ }

/-- A new table. -/
def alloc (h : Store φ) (t : Tab φ) : Store φ := { tabs := Function.update h.tabs h.next t, next := h.next + 1 }

/-- `pairs`. -/
def pairs (O : Order φ) (h : Store φ) (r : Ref) : List (Val φ × Val φ) := O.order (h.tabs r).live

/-- `t[k]`, within some number of tables (`MAXTAGLOOP`). -/
def indexWithin (h : Store φ) (k : Val φ) : Nat → Ref → Except LuaError (Val φ)
  | 0, _ => .error .indexLoop
  | n + 1, r =>
    if h.rawget r k ≠ .nil then .ok (h.rawget r k)
    else
      match h.getmetatable r with
      | none => .ok .nil
      | some m =>
        match h.rawget m (.str "__index") with
        | .tab p => indexWithin h k n p
        | _ => .ok .nil

/-- `t[k]`. -/
def index (h : Store φ) (r : Ref) (k : Val φ) : Except LuaError (Val φ) := h.indexWithin k 2000 r

variable {h : Store φ} {r r' : Ref} {k k' v : Val φ}

@[simp] theorem rawget_rawset_self : (h.rawset r k v).rawget r k = v := by
  unfold rawget rawset
  dsimp only
  rw [Function.update_self]
  exact getField_setField_self ..

@[simp] theorem rawget_rawset_of_ne (hk : k' ≠ k) : (h.rawset r k v).rawget r' k' = h.rawget r' k' := by
  unfold rawget rawset
  dsimp only
  by_cases hr : r' = r
  · subst hr
    rw [Function.update_self]
    exact getField_setField_of_ne _ _ hk
  · rw [Function.update_of_ne hr]

@[simp] theorem rawget_rawset_other (hr : r' ≠ r) : (h.rawset r k v).rawget r' k' = h.rawget r' k' := by
  unfold rawget rawset
  dsimp only
  rw [Function.update_of_ne hr]

@[simp] theorem rawget_setmetatable (m : Option Ref) : (h.setmetatable r m).rawget r' k = h.rawget r' k := by
  unfold rawget setmetatable
  dsimp only
  by_cases hr : r' = r
  · subst hr
    rw [Function.update_self]
  · rw [Function.update_of_ne hr]

/-- A second assignment to a field. -/
theorem rawset_rawset (v' : Val φ) : (h.rawset r k v).rawset r k v' = h.rawset r k v' := by
  have hset : ∀ fs : List (Val φ × Val φ), setField (setField fs k v) k v' = setField fs k v' := by
    intro fs
    induction fs with
    | nil => exact if_pos rfl
    | cons kv fs ih =>
      obtain ⟨k₀, v₀⟩ := kv
      by_cases hk : k₀ = k
      · simp only [setField, hk, if_true]
      · simp only [setField, if_neg hk, ih]
  unfold rawset
  dsimp only
  rw [Function.update_self, Function.update_idem, hset]

theorem getmetatable_rawset : (h.rawset r k v).getmetatable r' = h.getmetatable r' := by
  unfold getmetatable rawset
  dsimp only
  by_cases hr : r' = r
  · subst hr
    rw [Function.update_self]
  · rw [Function.update_of_ne hr]

omit [DecidableEq φ] in
theorem getmetatable_setmetatable_self (m : Option Ref) : (h.setmetatable r m).getmetatable r = m := by
  unfold getmetatable setmetatable
  dsimp only
  rw [Function.update_self]

omit [DecidableEq φ] in
theorem getmetatable_setmetatable_of_ne {m : Option Ref} (hr : r' ≠ r) :
    (h.setmetatable r m).getmetatable r' = h.getmetatable r' := by
  unfold getmetatable setmetatable
  dsimp only
  rw [Function.update_of_ne hr]

omit [DecidableEq φ] in
theorem tabs_alloc_of_lt (t : Tab φ) (hr : r < h.next) : (h.alloc t).tabs r = h.tabs r :=
  Function.update_of_ne (Nat.ne_of_lt hr) ..

/-- A field of the table itself. -/
theorem index_of_rawget (hv : h.rawget r k ≠ .nil) : h.index r k = .ok (h.rawget r k) := by
  unfold index indexWithin
  rw [if_pos hv]

theorem mem_pairs {O : Order φ} : (k, v) ∈ h.pairs O r ↔ h.rawget r k = v ∧ v ≠ .nil := by
  unfold pairs
  rw [(O.perm _).mem_iff, Tab.mem_live]
  rfl

theorem nodup_pairs {O : Order φ} : ((h.pairs O r).map Prod.fst).Nodup := by
  unfold pairs
  rw [((O.perm _).map _).nodup_iff]
  exact Tab.nodup_live _

end Store

end XCore.Heap
