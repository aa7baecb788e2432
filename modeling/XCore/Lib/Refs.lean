import Mathlib.Algebra.Order.Group.Multiset
import Mathlib.Algebra.BigOperators.Group.List.Basic
import Mathlib.Logic.Function.Basic

/-!
# Stores that hand out references

A store gives a reference for a value and takes it back; `Lawful` says that the references that are held are different
and resolve to their values. The values themselves are references too, to a store with nothing in it (`ideal`).

A client keeps references in its records. `Backs val s m`: the store holds the references `m`, and `val` says what they
resolve to, so that the records with the values in place of the references are those of a client of the ideal store. A
new reference changes `val` there only (`Backs.ref`), and records that do not have it stay what they are (`map_congr`,
`map_set`).
-/

namespace XCore.Refs

variable {S R V E E' : Type*}

/-- The operations. -/
structure Ops (S R V : Type*) where
  ref : S → V → R × S
  unref : S → R → S
  get : S → R → Option V

/-- Values for references. -/
def ideal (V : Type*) : Ops Unit V V := ⟨fun s v => (v, s), fun s _ => s, fun _ v => some v⟩

/-- What a store keeps to. -/
structure Lawful (ops : Ops S R V) (Holds : S → Multiset (R × V) → Prop) : Prop where
  nodup {s : S} {live : Multiset (R × V)} : Holds s live → (live.map Prod.fst).Nodup
  get {s : S} {live : Multiset (R × V)} {r : R} {v : V} : Holds s live → (r, v) ∈ live → ops.get s r = some v
  ref {s : S} {live : Multiset (R × V)} (v : V) : Holds s live → Holds (ops.ref s v).2 (((ops.ref s v).1, v) ::ₘ live)
  unref {s : S} {live : Multiset (R × V)} {r : R} {v : V} : Holds s ((r, v) ::ₘ live) → Holds (ops.unref s r) live

/-- The store holds the references `m`, beside `base`. -/
def Backs (Holds : S → Multiset (R × V) → Prop) (base : Multiset (R × V)) (val : R → V) (s : S) (m : Multiset R) :
    Prop :=
  Holds s (base + m.map fun r => (r, val r))

section Backs

variable {ops : Ops S R V} {Holds : S → Multiset (R × V) → Prop} {base : Multiset (R × V)} {val val' : R → V} {s : S}
  {m : Multiset R} (hops : Lawful ops Holds)

include hops

theorem Backs.get (h : Backs Holds base val s m) {r : R} (hr : r ∈ m) : ops.get s r = some (val r) :=
  hops.get h (Multiset.mem_add.2 (.inr (Multiset.mem_map_of_mem _ hr)))

/-- A new reference. -/
theorem Backs.ref (h : Backs Holds base val s m) (v : V) :
    ∃ val', Backs Holds base val' (ops.ref s v).2 ((ops.ref s v).1 ::ₘ m) ∧
    (∀ r ∈ m, val' r = val r) ∧ val' (ops.ref s v).1 = v := by
  classical
  have hnew := hops.ref v h
  have hnodup := hops.nodup hnew
  rw [Multiset.map_cons, Multiset.nodup_cons, Multiset.map_add, Multiset.map_map] at hnodup
  have hnot : ∀ r ∈ m, r ≠ (ops.ref s v).1 := by
    rintro r hm rfl
    exact hnodup.1 (Multiset.mem_add.2 (.inr (Multiset.mem_map_of_mem _ hm)))
  have hsame : ∀ r ∈ m, Function.update val (ops.ref s v).1 v r = val r :=
    fun r hr => Function.update_of_ne (hnot r hr) ..
  refine ⟨Function.update val (ops.ref s v).1 v, ?_, hsame, Function.update_self ..⟩
  have hmap : m.map (fun r => (r, Function.update val (ops.ref s v).1 v r)) = m.map fun r => (r, val r) :=
    Multiset.map_congr rfl fun r hr => by rw [hsame r hr]
  unfold Backs
  rwa [Multiset.map_cons, Function.update_self, Multiset.add_cons, hmap]

/-- A reference is given back. -/
theorem Backs.unref {r : R} (h : Backs Holds base val s (r ::ₘ m)) : Backs Holds base val (ops.unref s r) m := by
  unfold Backs at h
  rw [Multiset.map_cons, Multiset.add_cons] at h
  exact hops.unref h

end Backs

/-! ## References that may be absent -/

/-- `LUA_NOREF` is none. -/
def Ops.unref? (ops : Ops S R V) (s : S) : Option R → S
  | none => s
  | some r => ops.unref s r

/-- The references of an optional one. -/
def held (c : Option R) : Multiset R := c.toList

@[simp] theorem held_none : held (none : Option R) = 0 := rfl

@[simp] theorem held_some (r : R) : held (some r) = {r} := rfl

theorem Backs.unref? {ops : Ops S R V} {Holds : S → Multiset (R × V) → Prop} {base : Multiset (R × V)}
    {val : R → V} {s : S}
    {m : Multiset R} (hops : Lawful ops Holds) {c : Option R} (h : Backs Holds base val s (held c + m)) :
    Backs Holds base val (ops.unref? s c) m := by
  cases c with
  | none => rwa [held_none, zero_add] at h
  | some r =>
    rw [held_some, Multiset.singleton_add] at h
    exact h.unref hops

/-! ## Tables of records -/

variable {refs : E → Multiset R} {map : (R → V) → E → E'} {l : List E} {i : Nat} {x y : E} {val val' : R → V}

/-- The references of a table. -/
def total (refs : E → Multiset R) (l : List E) : Multiset R := (l.map refs).sum

@[simp] theorem total_append : total refs (l ++ [x]) = refs x + total refs l := by
  unfold total
  rw [List.map_append, List.sum_append, List.map_singleton, List.sum_singleton, add_comm]

theorem total_eq (h : l[i]? = some x) : total refs l = refs x + total refs (l.eraseIdx i) := by
  obtain ⟨hi, rfl⟩ := List.getElem?_eq_some_iff.1 h
  unfold total
  rw [← ((List.getElem_cons_eraseIdx_perm hi).map refs).sum_eq, List.map_cons, List.sum_cons]

theorem total_set (h : l[i]? = some x) : total refs (l.set i y) = refs y + total refs (l.eraseIdx i) := by
  obtain ⟨hi, -⟩ := List.getElem?_eq_some_iff.1 h
  unfold total
  rw [((List.set_perm_cons_eraseIdx hi y).map refs).sum_eq, List.map_cons, List.sum_cons]

theorem refs_le_total (h : x ∈ l) {r : R} (hr : r ∈ refs x) : r ∈ total refs l := by
  obtain ⟨i, hi⟩ := List.getElem?_of_mem h
  rw [total_eq hi]
  exact Multiset.mem_add.2 (.inl hr)

/-- A record is determined by what its references resolve to. -/
def Natural (refs : E → Multiset R) (map : (R → V) → E → E') : Prop :=
  ∀ val val' x, (∀ r ∈ refs x, val' r = val r) → map val' x = map val x

theorem map_congr (hmap : Natural refs map) (h : ∀ r ∈ total refs l, val' r = val r) :
    l.map (map val') = l.map (map val) :=
  List.map_congr_left fun x hx => hmap val val' x fun r hr => h r (refs_le_total hx hr)

/-- One record changes. -/
theorem map_set (hmap : Natural refs map) (h : ∀ r ∈ total refs (l.eraseIdx i), val' r = val r) :
    (l.set i y).map (map val') = (l.map (map val)).set i (map val' y) := by
  rw [List.map_set]
  refine List.ext_getElem? fun j => ?_
  by_cases hj : i = j
  · subst hj
    simp [List.getElem?_set]
  · rw [List.getElem?_set_ne hj, List.getElem?_set_ne hj, List.getElem?_map, List.getElem?_map]
    cases hx : l[j]? with
    | none => rfl
    | some x =>
      have hmem : x ∈ l.eraseIdx i := List.mem_eraseIdx_iff_getElem?.2 ⟨j, fun heq => hj heq.symm, hx⟩
      exact congrArg some (hmap val val' x fun r hr => h r (refs_le_total hmem hr))

end XCore.Refs
