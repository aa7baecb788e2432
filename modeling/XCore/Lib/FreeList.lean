import Mathlib.Algebra.Order.Group.Multiset
import Mathlib.Data.List.Range

/-!
# Slots with a free list

An array of slots, numbered from one, each of which has a value or is free; the free slots are a linked list in the
array itself, and zero is its end.

`Chain slots first free`: the list that begins at `first` is `free`. `Holds slots first live`: the slots that are not on
the list have the values of `live`, so that every slot is free or live, and none is both. It is kept by taking a slot
off the list (`Holds.reuse`), by a new slot at the end (`Holds.extend`) and by putting a slot back on the list
(`Holds.release`).
-/

namespace XCore.FreeList

/-- A slot: a value, or the number of the next slot that is free. -/
inductive Slot (α : Type*)
  | value (a : α)
  | next (n : Nat)

variable {α : Type*} {slots : List (Slot α)} {first r : Nat} {free : List Nat} {live : Multiset (Nat × α)} {a : α}

/-- The free list that begins at `first`. -/
inductive Chain (slots : List (Slot α)) : Nat → List Nat → Prop
  | nil : Chain slots 0 []
  | cons {r n : Nat} {free : List Nat} : slots[r]? = some (.next n) → Chain slots n free →
      Chain slots (r + 1) ((r + 1) :: free)

/-- A slot that is not on the list may be changed. -/
theorem Chain.set (h : Chain slots first free) (s : Slot α) (hr : r + 1 ∉ free) : Chain (slots.set r s) first free := by
  induction h with
  | nil => exact .nil
  | @cons r' n free hget _ ih =>
    obtain ⟨hne, hfree⟩ := not_or.1 fun h => hr (List.mem_cons.2 h)
    have hne : r ≠ r' := fun h => hne (congrArg (· + 1) h)
    exact .cons (by rw [List.getElem?_set_ne hne]; exact hget) (ih hfree)

theorem Chain.append (h : Chain slots first free) (s : Slot α) : Chain (slots ++ [s]) first free := by
  induction h with
  | nil => exact .nil
  | cons hget _ ih => exact .cons (List.getElem?_append_left (List.getElem?_eq_some_iff.1 hget).1 ▸ hget) ih

/-- What is free and what is live. -/
structure Holds (slots : List (Slot α)) (first : Nat) (free : List Nat) (live : Multiset (Nat × α)) : Prop where
  chain : Chain slots first free
  cover : (free : Multiset Nat) + live.map Prod.fst = (List.range' 1 slots.length : List Nat)
  value : ∀ p ∈ live, ∃ r, p.1 = r + 1 ∧ slots[r]? = some (.value p.2)

namespace Holds

variable (h : Holds slots first free live)

include h

/-- Every slot is counted once. -/
theorem nodup : ((free : Multiset Nat) + live.map Prod.fst).Nodup := by
  rw [h.cover]
  exact Multiset.coe_nodup.2 List.nodup_range'

theorem card : free.length + Multiset.card live = slots.length := by
  have := congrArg Multiset.card h.cover
  rwa [Multiset.card_add, Multiset.coe_card, Multiset.card_map, Multiset.coe_card, List.length_range'] at this

/-- The first free slot is taken. -/
theorem reuse {n : Nat} (hfirst : first = r + 1) (hnext : slots[r]? = some (.next n)) (a : α) :
    ∃ free', free = (r + 1) :: free' ∧ Holds (slots.set r (.value a)) n free' ((r + 1, a) ::ₘ live) := by
  obtain ⟨hchain, hcover, hvalue⟩ := h
  cases hchain with
  | nil => cases hfirst
  | @cons r' n' free' hget hrest =>
    obtain rfl : r' = r := Nat.succ.inj hfirst
    obtain rfl : n' = n := by
      rw [hget] at hnext
      exact Slot.next.inj (Option.some.inj hnext)
    have hnodup := (Holds.mk (.cons hget hrest) hcover hvalue).nodup
    rw [← Multiset.cons_coe, Multiset.cons_add, Multiset.nodup_cons, Multiset.mem_add] at hnodup
    obtain ⟨hfree, hlive⟩ := not_or.1 hnodup.1
    refine ⟨free', rfl, hrest.set _ hfree, ?_, fun p hp => ?_⟩
    · rw [Multiset.map_cons, Multiset.add_cons, List.length_set, ← hcover, ← Multiset.cons_coe, Multiset.cons_add]
    · rcases Multiset.mem_cons.1 hp with rfl | hp
      · exact ⟨r', rfl, List.getElem?_set_self (List.getElem?_eq_some_iff.1 hget).1⟩
      · obtain ⟨i, hi, hslot⟩ := hvalue p hp
        have hne : r' ≠ i := by
          rintro rfl
          exact hlive (Multiset.mem_map.2 ⟨p, hp, hi⟩)
        exact ⟨i, hi, by rw [List.getElem?_set_ne hne]; exact hslot⟩

/-- A new slot. -/
theorem extend (a : α) : Holds (slots ++ [.value a]) first free ((slots.length + 1, a) ::ₘ live) := by
  refine ⟨h.chain.append _, ?_, fun p hp => ?_⟩
  · have hrange : List.range' 1 (slots ++ [Slot.value a]).length = List.range' 1 slots.length ++
        [slots.length + 1] := by
      rw [List.length_append, List.length_singleton, List.range'_concat, Nat.one_mul, Nat.add_comm 1]
    rw [hrange, Multiset.map_cons, Multiset.add_cons, h.cover, ← Multiset.coe_add, Multiset.coe_singleton,
      ← Multiset.singleton_add]
    exact add_comm ..
  · rcases Multiset.mem_cons.1 hp with rfl | hp
    · exact ⟨slots.length, rfl, List.getElem?_concat_length ..⟩
    · obtain ⟨i, hi, hslot⟩ := h.value p hp
      exact ⟨i, hi, List.getElem?_append_left (List.getElem?_eq_some_iff.1 hslot).1 ▸ hslot⟩

omit h in
/-- A live slot is put back. -/
theorem release (h : Holds slots first free ((r + 1, a) ::ₘ live)) :
    Holds (slots.set r (.next first)) (r + 1) ((r + 1) :: free) live := by
  have hnodup := h.nodup
  rw [Multiset.map_cons, Multiset.add_cons, Multiset.nodup_cons, Multiset.mem_add] at hnodup
  obtain ⟨hfree, hlive⟩ := not_or.1 hnodup.1
  obtain ⟨i, hi, hslot⟩ := h.value (r + 1, a) (Multiset.mem_cons_self ..)
  obtain rfl : r = i := Nat.succ.inj hi
  have hself : (slots.set r (.next first))[r]? = some (.next first) :=
    List.getElem?_set_self (List.getElem?_eq_some_iff.1 hslot).1
  refine ⟨.cons hself (h.chain.set _ hfree), ?_, fun p hp => ?_⟩
  · rw [List.length_set, ← h.cover, Multiset.map_cons, Multiset.add_cons, ← Multiset.cons_coe, Multiset.cons_add]
  · obtain ⟨j, hj, hslot'⟩ := h.value p (Multiset.mem_cons_of_mem hp)
    have hne : r ≠ j := by
      rintro rfl
      exact hlive (Multiset.mem_map.2 ⟨p, hp, hj⟩)
    exact ⟨j, hj, by rw [List.getElem?_set_ne hne]; exact hslot'⟩

end Holds

end XCore.FreeList
