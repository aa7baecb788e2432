import Mathlib.Logic.Equiv.Basic
import Mathlib.Order.Lattice
import Mathlib.Tactic.Common

/-!
# Binary heaps by position

The nodes of a heap stand at the positions `1 … n`, the children of `i` at `2 * i` and `2 * i + 1`. `f` says which node
stands at a position, `key` what nodes are compared by.

- `Ordered`: no node comes before its parent, so none comes before the root (`Ordered.root_le`);
- `OrderedExcept`: the same except at one position, where a node is new (`Ordered.append`, `Ordered.replace`);
- a swap with the parent, or with the least child, moves the exception there (`OrderedExcept.up`, `OrderedExcept.down`),
  and where the node fits there is none left (`OrderedExcept.close`).
-/

namespace XCore.BinaryHeap

variable {α K : Type*} [LinearOrder K] {key : α → K} {f g : ℕ → α} {n i c : ℕ}

/-- No node comes before its parent. -/
def Ordered (key : α → K) (f : ℕ → α) (n : ℕ) : Prop := ∀ j, 2 ≤ j → j ≤ n → key (f (j / 2)) ≤ key (f j)

/-- The children of `i` do not come before it. -/
def Below (key : α → K) (f : ℕ → α) (n i : ℕ) : Prop := ∀ j, j ≤ n → j / 2 = i → key (f i) ≤ key (f j)

/-- The pairs without `i` are in order, and so are the children of `i` with its parent. -/
structure OrderedExcept (key : α → K) (f : ℕ → α) (n i : ℕ) : Prop where
  others : ∀ j, 2 ≤ j → j ≤ n → j ≠ i → j / 2 ≠ i → key (f (j / 2)) ≤ key (f j)
  grand : 2 ≤ i → ∀ j, j ≤ n → j / 2 = i → key (f (i / 2)) ≤ key (f j)

/-- **The root** comes first. -/
theorem Ordered.root_le (h : Ordered key f n) : ∀ i, 1 ≤ i → i ≤ n → key (f 1) ≤ key (f i) := by
  intro i
  induction i using Nat.strongRecOn with
  | _ i ih =>
    intro hi hn
    obtain rfl | hlt := Nat.eq_or_lt_of_le hi
    · exact le_rfl
    · exact (ih (i / 2) (by omega) (by omega) (by omega)).trans (h i hlt hn)

/-- A node behind the last. -/
theorem Ordered.append (h : Ordered key f n) (hg : ∀ j, 1 ≤ j → j ≤ n → g j = f j) :
    OrderedExcept key g (n + 1) (n + 1) ∧ Below key g (n + 1) (n + 1) := by
  refine ⟨⟨fun j hj hn hne _ => ?_, fun _ j hn hj => by omega⟩, fun j hn hj => by omega⟩
  rw [hg j (by omega) (by omega), hg (j / 2) (by omega) (by omega)]
  exact h j hj (by omega)

/-- The last node is taken away, and another node is put in at `i`. -/
theorem Ordered.replace (h : Ordered key f (n + 1)) (hin : i ≤ n) (hg : ∀ j, 1 ≤ j → j ≤ n → j ≠ i → g j = f j) :
    OrderedExcept key g n i := by
  refine ⟨fun j hj hn hne hpne => ?_, fun htwo j hn hj => ?_⟩
  · rw [hg j (by omega) hn hne, hg (j / 2) (by omega) (by omega) hpne]
    exact h j hj (by omega)
  · rw [hg j (by omega) hn (by omega), hg (i / 2) (by omega) (by omega) (by omega)]
    have hpar : key (f (i / 2)) ≤ key (f i) := h i htwo (by omega)
    have hchild : key (f i) ≤ key (f j) := hj ▸ h j (by omega) (by omega)
    exact hpar.trans hchild

/-! ## Swaps -/

theorem comp_swap_left : (f ∘ Equiv.swap i c) i = f c := by simp

theorem comp_swap_right : (f ∘ Equiv.swap i c) c = f i := by simp

theorem comp_swap_of_ne {j : ℕ} (hi : j ≠ i) (hc : j ≠ c) : (f ∘ Equiv.swap i c) j = f j := by
  rw [Function.comp_apply, Equiv.swap_apply_of_ne_of_ne hi hc]

/-- A swap with the parent. -/
theorem OrderedExcept.up (h : OrderedExcept key f n i) (hb : Below key f n i) (hi : 2 ≤ i) (hin : i ≤ n)
    (hlt : key (f i) < key (f (i / 2))) :
    OrderedExcept key (f ∘ Equiv.swap i (i / 2)) n (i / 2) ∧ Below key (f ∘ Equiv.swap i (i / 2)) n (i / 2) := by
  refine ⟨⟨fun j hj hn hne hpne => ?_, fun htwo j hn hj => ?_⟩, fun j hn hj => ?_⟩
  · rw [comp_swap_of_ne (i := i) (c := i / 2) (j := j) (by rintro rfl; exact hpne rfl) hne]
    by_cases hji : j / 2 = i
    · rw [hji, comp_swap_left]
      exact h.grand hi j hn hji
    · rw [comp_swap_of_ne hji hpne]
      exact h.others j hj hn (by rintro rfl; exact hpne rfl) hji
  · have hpar : key (f (i / 2 / 2)) ≤ key (f (i / 2)) := h.others (i / 2) htwo (by omega) (by omega) (by omega)
    rw [comp_swap_of_ne (by omega) (by omega)]
    by_cases hji : j = i
    · rw [hji, comp_swap_left]
      exact hpar
    · rw [comp_swap_of_ne hji (by omega)]
      exact hpar.trans (hj ▸ h.others j (by omega) hn hji (by omega))
  · rw [comp_swap_right]
    by_cases hji : j = i
    · rw [hji, comp_swap_left]
      exact hlt.le
    · rw [comp_swap_of_ne hji (by omega)]
      exact hlt.le.trans (hj ▸ h.others j (by omega) hn hji (by omega))

/-- A swap with the child that comes first. -/
theorem OrderedExcept.down (h : OrderedExcept key f n (c / 2)) (hc : 2 ≤ c) (hcn : c ≤ n)
    (hmin : ∀ j, j ≤ n → j / 2 = c / 2 → key (f c) ≤ key (f j)) : OrderedExcept key (f ∘ Equiv.swap c (c / 2)) n c := by
  refine ⟨fun j hj hn hne hpne => ?_, fun _ j hn hj => ?_⟩
  · by_cases hjc : j = c / 2
    · rw [hjc, comp_swap_right, comp_swap_of_ne (by omega) (by omega)]
      exact h.grand (hjc ▸ hj) c hcn rfl
    · rw [comp_swap_of_ne hne hjc]
      by_cases hpc : j / 2 = c / 2
      · rw [hpc, comp_swap_right]
        exact hmin j hn hpc
      · rw [comp_swap_of_ne hpne hpc]
        exact h.others j hj hn hjc hpc
  · rw [comp_swap_right, comp_swap_of_ne (by omega) (by omega), ← hj]
    exact h.others j (by omega) hn (by omega) (by omega)

/-- A node that fits. -/
theorem OrderedExcept.close (h : OrderedExcept key f n i) (hb : Below key f n i)
    (hup : 2 ≤ i → key (f (i / 2)) ≤ key (f i)) : Ordered key f n := by
  intro j hj hn
  by_cases hji : j = i
  · subst hji
    exact hup hj
  · by_cases hpi : j / 2 = i
    · rw [hpi]
      exact hb j hn hpi
    · exact h.others j hj hn hji hpi

end XCore.BinaryHeap
