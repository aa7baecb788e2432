import XCore.Lib.FreeList
import XCore.Lib.Run

/-!
# References into the registry (`lauxlib.c`)

`luaL_ref` stores a value under an integer, `luaL_unref` gives the integer back. The integers that are free are a linked
list in the registry, whose first element is under the key 0.

A program that releases only what it holds finds every value under its own reference, and the registry grows only where
more references are held than ever before (`references_resolve`).
-/

namespace XCore.Lua

open XCore.FreeList

/-- The registry: the element of the key 0, and those from 1 on. What is stored is no number; nil counts as 0, which
ends the list. -/
structure Registry (α : Type) where
  freelist : Slot α
  slots : List (Slot α)

namespace Registry

variable {α : Type}

/-- `lua_tointeger`, which is 0 for what is no number. -/
def tointeger : Slot α → Nat
  | .next n => n
  | .value _ => 0

/-- `lua_rawgeti`, of a reference. -/
def rawgeti (t : Registry α) (ref : Nat) : Option α :=
  match t.slots[ref - 1]? with
  | some (.value a) => some a
  | _ => none

/-- `luaL_ref`, of a value that is not nil. -/
def luaL_ref (t : Registry α) (a : α) : Nat × Registry α :=
  let ref := tointeger t.freelist
  if ref ≠ 0 then (ref, ⟨t.slots.getD (ref - 1) (.next 0), t.slots.set (ref - 1) (.value a)⟩)
  else (t.slots.length + 1, { t with slots := t.slots ++ [.value a] })

/-- `luaL_unref`, of a reference that is not negative. -/
def luaL_unref (t : Registry α) (ref : Nat) : Registry α := ⟨.next ref, t.slots.set (ref - 1) t.freelist⟩

/-- The references that are held, with their values. -/
def Holds (t : Registry α) (live : Multiset (Nat × α)) : Prop :=
  ∃ first free, t.freelist = .next first ∧ FreeList.Holds t.slots first free live

variable {t : Registry α} {live : Multiset (Nat × α)} {a : α} {i : Nat}

/-- A registry with nothing in it. -/
theorem holds_nil : (⟨.next 0, []⟩ : Registry α).Holds 0 := ⟨0, [], rfl, .nil, rfl, nofun⟩

/-- A reference is found again. -/
theorem Holds.get (h : t.Holds live) (hmem : (i, a) ∈ live) : t.rawgeti i = some a := by
  obtain ⟨first, free, -, h⟩ := h
  obtain ⟨r, hr, hslot⟩ := h.value _ hmem
  obtain rfl : i = r + 1 := hr
  unfold rawgeti
  rw [Nat.add_sub_cancel, hslot]

theorem Holds.nodup (h : t.Holds live) : (live.map Prod.fst).Nodup := by
  obtain ⟨first, free, -, h⟩ := h
  exact (Multiset.nodup_add.1 h.nodup).2.1

/-- **`luaL_ref`** gives a reference that is not held, to its value. -/
theorem Holds.ref (h : t.Holds live) (a : α) : (t.luaL_ref a).2.Holds (((t.luaL_ref a).1, a) ::ₘ live) ∧
    (t.luaL_ref a).2.slots.length = max t.slots.length (Multiset.card live + 1) := by
  obtain ⟨first, free, hfirst, h⟩ := h
  have hcard := h.card
  unfold luaL_ref
  rw [hfirst]
  dsimp only [tointeger]
  cases first with
  | zero =>
    rw [if_neg (not_not.2 rfl)]
    have hfree : free = [] := by
      cases h.chain
      rfl
    rw [hfree, List.length_nil, Nat.zero_add] at hcard
    refine ⟨⟨0, free, rfl, h.extend a⟩, ?_⟩
    rw [List.length_append, List.length_singleton, hcard]
    omega
  | succ r =>
    rw [if_pos (Nat.succ_ne_zero r), Nat.add_sub_cancel]
    obtain ⟨n, hnext⟩ : ∃ n, t.slots[r]? = some (.next n) := by
      cases h.chain with
      | cons hget _ => exact ⟨_, hget⟩
    obtain ⟨free', hfree, h'⟩ := h.reuse rfl hnext a
    refine ⟨⟨n, free', ?_, h'⟩, ?_⟩
    · rw [List.getD_eq_getElem?_getD, hnext]
      rfl
    · rw [hfree, List.length_cons] at hcard
      rw [List.length_set]
      omega

/-- **`luaL_unref`** gives a reference back. -/
theorem Holds.unref (h : t.Holds ((i, a) ::ₘ live)) :
    (t.luaL_unref i).Holds live ∧ (t.luaL_unref i).slots.length = t.slots.length := by
  obtain ⟨first, free, hfirst, h⟩ := h
  obtain ⟨r, hr, -⟩ := h.value _ (Multiset.mem_cons_self ..)
  obtain rfl : i = r + 1 := hr
  refine ⟨⟨r + 1, (r + 1) :: free, rfl, ?_⟩, List.length_set ..⟩
  unfold luaL_unref
  rw [hfirst]
  exact h.release

end Registry

/-! ## Runs -/

/-- A call of `luaL_ref` or `luaL_unref`. -/
inductive RefCall (α : Type)
  | ref (a : α)
  | unref (ref : Nat)

/-- The registry, the references that are held, and the most that have been held at a time. -/
structure Ledger (α : Type) where
  registry : Registry α
  live : Multiset (Nat × α)
  peak : Nat

namespace Ledger

variable {α : Type}

/-- A call. -/
def call (s : Ledger α) : RefCall α → Ledger α
  | .ref a =>
    let r := s.registry.luaL_ref a
    ⟨r.2, (r.1, a) ::ₘ s.live, max s.peak (Multiset.card s.live + 1)⟩
  | .unref ref => { s with registry := s.registry.luaL_unref ref, live := s.live.filter fun p => p.1 ≠ ref }

/-- A reference that is given back is held. -/
def Legal (s : Ledger α) : RefCall α → Prop
  | .ref _ => True
  | .unref ref => ref ∈ s.live.map Prod.fst

/-- The references are those of the registry. -/
structure Sound (s : Ledger α) : Prop where
  holds : s.registry.Holds s.live
  size : s.registry.slots.length = s.peak

theorem Sound.call {s : Ledger α} (hs : s.Sound) {c : RefCall α} (hc : s.Legal c) : (s.call c).Sound := by
  cases c with
  | ref a =>
    obtain ⟨h, hlen⟩ := hs.holds.ref a
    exact ⟨h, hlen.trans (congrArg (max · _) hs.size)⟩
  | unref ref =>
    obtain ⟨p, hp, rfl⟩ := Multiset.mem_map.1 hc
    obtain ⟨rest, hrest⟩ := Multiset.exists_cons_of_mem hp
    have hholds := hs.holds
    rw [hrest] at hholds
    obtain ⟨h, hlen⟩ := hholds.unref
    have hnodup := hholds.nodup
    rw [Multiset.map_cons, Multiset.nodup_cons] at hnodup
    have hfilter : s.live.filter (fun q => q.1 ≠ p.1) = rest := by
      rw [hrest, Multiset.filter_cons_of_neg rest (show ¬(p.1 ≠ p.1) from not_not.2 rfl)]
      refine Multiset.filter_eq_self.2 fun q hq heq => hnodup.1 ?_
      exact Multiset.mem_map.2 ⟨q, hq, heq⟩
    refine ⟨?_, hlen.trans hs.size⟩
    change (s.registry.luaL_unref p.1).Holds (s.live.filter fun q => q.1 ≠ p.1)
    rw [hfilter]
    exact h

end Ledger

open XCore.Run in
/-- **References resolve**: in every run of calls that gives back only what is held, the references that are held are
different, each is that of its value, and the registry has as many slots as were held at most. -/
theorem references_resolve {α : Type} (calls : List (RefCall α)) (s : Ledger α) (hs : s.Sound)
    (hlegal : Along Ledger.call Ledger.Legal s calls) :
    Throughout Ledger.call (fun s => (s.live.map Prod.fst).Nodup ∧ (∀ p ∈ s.live, s.registry.rawgeti p.1 = some p.2) ∧
      s.registry.slots.length = s.peak) s calls := by
  refine Throughout.mono (fun s hs => ?_) (Along.throughout (fun s c hs hc => hs.call hc) hs hlegal)
  exact ⟨hs.holds.nodup, fun p hp => hs.holds.get hp, hs.size⟩

/-- Two values are stored, the first is given back, and its reference is used again. -/
theorem references_resolve_reused :
    XCore.Run.Throughout Ledger.call (fun s : Ledger Nat => (s.live.map Prod.fst).Nodup ∧
    (∀ p ∈ s.live, s.registry.rawgeti p.1 = some p.2) ∧ s.registry.slots.length = s.peak) ⟨⟨.next 0, []⟩, 0, 0⟩
    [.ref 7, .ref 8, .unref 1, .ref 9] :=
  references_resolve _ _ ⟨Registry.holds_nil, rfl⟩
    ⟨trivial, trivial, by simp [Ledger.Legal, Ledger.call, Registry.luaL_ref, Registry.tointeger], trivial, trivial⟩

end XCore.Lua
