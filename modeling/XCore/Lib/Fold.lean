import Mathlib.Data.List.Perm.Basic
import Mathlib.Order.Basic

/-!
# Folds over sorted lists

Two lists with the same elements, both in the order of a key, fold to the same value if elements of one key may be
swapped.
-/

namespace XCore.Fold

variable {α β ι : Type*} {f : β → α → β} {key : α → ι}

/-- Elements that may be swapped if they have one key. -/
def Swaps (f : β → α → β) (key : α → ι) (l : List α) : Prop :=
  ∀ a ∈ l, ∀ b ∈ l, key a = key b → ∀ v, f (f v a) b = f (f v b) a

theorem Swaps.mono {l l' : List α} (h : Swaps f key l) (hl : ∀ a ∈ l', a ∈ l) : Swaps f key l' :=
  fun a ha b hb => h a (hl a ha) b (hl b hb)

/-- An element is moved to the front of elements of its key. -/
theorem Swaps.foldl_front {a : α} {l l' : List α} (h : Swaps f key (l ++ a :: l'))
    (hl : ∀ b ∈ l, key b = key a) (v : β) :
    (l ++ a :: l').foldl f v = (a :: (l ++ l')).foldl f v := by
  have hone : ∀ b ∈ a :: l, b ∈ l ++ a :: l' ∧ key b = key a := by
    intro b hb
    rcases List.mem_cons.1 hb with rfl | hb
    · exact ⟨List.mem_append_right _ List.mem_cons_self, rfl⟩
    · exact ⟨List.mem_append_left _ hb, hl b hb⟩
  have hfront : (a :: l).foldl f v = (l ++ [a]).foldl f v := by
    apply (List.perm_append_singleton a l).symm.foldl_eq'
    intro b hb c hc w
    obtain ⟨hb, hkb⟩ := hone b hb
    obtain ⟨hc, hkc⟩ := hone c hc
    exact h b hb c hc (hkb.trans hkc.symm) w
  rw [List.append_cons, List.foldl_append, ← hfront, ← List.foldl_append, List.cons_append]

/-- **Sorted lists with the same elements** fold to the same value. -/
theorem Swaps.foldl_eq [PartialOrder ι] :
    ∀ {l l' : List α}, Swaps f key l → l.Perm l' → l.Pairwise (fun a b => key a ≤ key b) →
    l'.Pairwise (fun a b => key a ≤ key b) → ∀ v, l.foldl f v = l'.foldl f v
  | [], l', _, hp, _, _, v => by rw [List.nil_perm.1 hp]
  | a :: l, l', h, hp, hl, hl', v => by
    obtain ⟨hmin, hl⟩ := List.pairwise_cons.1 hl
    -- In the other list everything before `a` has its key.
    obtain ⟨p, q, rfl⟩ := List.append_of_mem (hp.subset List.mem_cons_self)
    obtain ⟨hpp, haq, hbefore⟩ := List.pairwise_append.1 hl'
    have hrest : l.Perm (p ++ q) := (hp.trans List.perm_middle).cons_inv
    have hkey : ∀ b ∈ p, key b = key a := by
      intro b hb
      have hle : key b ≤ key a := hbefore b hb a List.mem_cons_self
      have hge : key a ≤ key b := hmin b (hrest.symm.subset (List.mem_append_left _ hb))
      exact le_antisymm hle hge
    have hsorted : (p ++ q).Pairwise fun a b => key a ≤ key b := by
      apply List.pairwise_append.2
      exact ⟨hpp, (List.pairwise_cons.1 haq).2, fun b hb c hc => hbefore b hb c (List.mem_cons_of_mem _ hc)⟩
    have hswaps : Swaps f key (p ++ a :: q) := h.mono fun b hb => hp.symm.subset hb
    rw [hswaps.foldl_front hkey]
    exact Swaps.foldl_eq (h.mono fun b => List.mem_cons_of_mem a) hrest hl hsorted (f v a)

end XCore.Fold
