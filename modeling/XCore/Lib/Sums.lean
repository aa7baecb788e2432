import Mathlib.Algebra.BigOperators.Group.List.Basic
import Mathlib.Algebra.GroupWithZero.Nat
import Mathlib.Data.List.AList

/-!
# Sums over association lists

What an inserted, a replaced and an erased entry do to a sum over the entries.
-/

namespace XCore.Sums

variable {α : Type*} {β : α → Type*} [DecidableEq α] (g : Sigma β → Nat)

theorem sum_kerase {a : α} {v : β a} {l : List (Sigma β)} (h : l.dlookup a = some v) :
    (l.map g).sum = g ⟨a, v⟩ + ((l.kerase a).map g).sum := by
  induction l with
  | nil => simp at h
  | cons e l ih =>
    obtain ⟨key, w⟩ := e
    by_cases hk : a = key
    · subst hk
      rw [List.dlookup_cons_eq, Option.some.injEq] at h
      subst h
      have herase : List.kerase a (⟨a, w⟩ :: l) = l := List.kerase_cons_eq rfl
      rw [herase, List.map_cons, List.sum_cons]
    · rw [List.dlookup_cons_ne _ _ hk] at h
      rw [List.kerase_cons_ne hk, List.map_cons, List.map_cons, List.sum_cons, List.sum_cons, ih h]
      omega

variable {a : α} {v w : β a} {s : AList β}

theorem sum_insert : ((s.insert a v).entries.map g).sum = g ⟨a, v⟩ + ((s.erase a).entries.map g).sum := by
  simp only [AList.entries_insert, List.map_cons, List.sum_cons]
  rfl

/-- An entry that is replaced. -/
theorem sum_insert_of_lookup (h : s.lookup a = some w) :
    ((s.insert a v).entries.map g).sum + g ⟨a, w⟩ = (s.entries.map g).sum + g ⟨a, v⟩ := by
  have hs : (s.entries.map g).sum = g ⟨a, w⟩ + ((s.erase a).entries.map g).sum := sum_kerase g h
  rw [sum_insert, hs]
  omega

/-- An entry that is new. -/
theorem sum_insert_of_none (h : s.lookup a = none) :
    ((s.insert a v).entries.map g).sum = g ⟨a, v⟩ + (s.entries.map g).sum := by
  have herase : (s.erase a).entries = s.entries := List.kerase_of_notMem_keys (AList.lookup_eq_none.1 h)
  rw [sum_insert, herase]

end XCore.Sums
