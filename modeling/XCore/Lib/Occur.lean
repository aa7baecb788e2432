import Mathlib.Data.List.Infix
import Mathlib.Data.List.Basic
import Mathlib.Data.Nat.Find

/-!
# Occurrences of a list in a list

`OccursAt p s k`: the list `p` stands in `s` at the offset `k`; `FirstAt` and `LastAt` are the first and the last such
offset. Reversing both lists turns one into the other (`lastAt_reverse`).

`Pieces sep limit s ps`: `ps` are the pieces of `s` between the successive occurrences of `sep` that do not overlap, of
which only `limit` count if there is a limit. They are unique (`Pieces.unique`), and with the separators between them
they make up the list (`Pieces.intercalate`).
-/

namespace XCore.Occur

variable {α : Type*} {p s t : List α} {k m : Nat}

/-- `p` stands in `s` behind `k` elements. -/
def OccursAt (p s : List α) (k : Nat) : Prop := ∃ a b, s = a ++ (p ++ b) ∧ a.length = k

/-- The first occurrence. -/
def FirstAt (p s : List α) (k : Nat) : Prop := OccursAt p s k ∧ ∀ m, OccursAt p s m → k ≤ m

/-- The last occurrence. -/
def LastAt (p s : List α) (k : Nat) : Prop := OccursAt p s k ∧ ∀ m, OccursAt p s m → m ≤ k

theorem occursAt_zero : OccursAt p s 0 ↔ p <+: s := by
  constructor
  · rintro ⟨a, b, rfl, ha⟩
    rw [List.eq_nil_of_length_eq_zero ha]
    exact ⟨b, rfl⟩
  · rintro ⟨b, rfl⟩
    exact ⟨[], b, rfl, rfl⟩

theorem occursAt_cons {c : α} : OccursAt p (c :: s) (k + 1) ↔ OccursAt p s k := by
  constructor
  · rintro ⟨a, b, h, ha⟩
    obtain ⟨d, a, rfl⟩ := List.exists_cons_of_length_eq_add_one ha
    obtain ⟨-, rfl⟩ := List.cons.inj h
    exact ⟨a, b, rfl, Nat.succ.inj ha⟩
  · rintro ⟨a, b, rfl, rfl⟩
    exact ⟨c :: a, b, rfl, rfl⟩

theorem OccursAt.le (h : OccursAt p s k) : k + p.length ≤ s.length := by
  obtain ⟨a, b, rfl, rfl⟩ := h
  rw [List.length_append, List.length_append]
  omega

theorem OccursAt.reverse (h : OccursAt p s k) : OccursAt p.reverse s.reverse (s.length - (k + p.length)) := by
  obtain ⟨a, b, rfl, rfl⟩ := h
  refine ⟨b.reverse, a.reverse, by simp only [List.reverse_append, List.append_assoc], ?_⟩
  simp only [List.length_reverse, List.length_append]
  omega

/-- An occurrence in the reversed list. -/
theorem OccursAt.of_reverse (h : OccursAt p s.reverse k) : OccursAt p.reverse s (s.length - (k + p.length)) := by
  have h' := h.reverse
  rwa [List.reverse_reverse, List.length_reverse] at h'

theorem FirstAt.unique (h : FirstAt p s k) (h' : FirstAt p s m) : k = m := le_antisymm (h.2 m h'.1) (h'.2 k h.1)

theorem LastAt.unique (h : LastAt p s k) (h' : LastAt p s m) : k = m := le_antisymm (h'.2 k h.1) (h.2 m h'.1)

/-- **The first occurrence in the reversed list** is the last one of the reversed pattern. -/
theorem lastAt_reverse (h : FirstAt p s.reverse k) : LastAt p.reverse s (s.length - (k + p.length)) := by
  refine ⟨h.1.of_reverse, fun m hm => ?_⟩
  have hr := hm.reverse
  have hle := hm.le
  rw [List.reverse_reverse, List.length_reverse] at hr
  rw [List.length_reverse] at hle
  have hk := h.2 _ hr
  omega

/-- What occurs has a last occurrence. -/
theorem exists_lastAt (h : OccursAt p s k) : ∃ m, LastAt p s m := by
  classical
  have hb : ∀ m, OccursAt p s m → m ≤ s.length := fun m hm => by have := hm.le; omega
  exact ⟨_, Nat.findGreatest_spec (hb k h) h, fun m hm => Nat.le_findGreatest (hb m hm) hm⟩

/-! ## Pieces -/

/-- The pieces between the separators, of which at most `limit` are cut at. -/
inductive Pieces (sep : List α) : Option Nat → List α → List (List α) → Prop
  | full {s : List α} : Pieces sep (some 0) s [s]
  | rest {limit : Option Nat} {s : List α} (h : ∀ k, ¬OccursAt sep s k) : Pieces sep limit s [s]
  | cut {limit : Option Nat} {a b : List α} {ps : List (List α)} (hlimit : limit ≠ some 0)
    (h : FirstAt sep (a ++ (sep ++ b)) a.length) (hps : Pieces sep (limit.map Nat.pred) b ps) :
    Pieces sep limit (a ++ (sep ++ b)) (a :: ps)

namespace Pieces

variable {sep : List α} {limit : Option Nat} {ps qs : List (List α)}

theorem unique (h : Pieces sep limit s ps) : ∀ {qs}, Pieces sep limit s qs → ps = qs := by
  induction h with
  | full =>
    intro qs h'
    cases h' with
    | full => rfl
    | rest => rfl
    | cut hl => exact absurd rfl hl
  | rest hno =>
    intro qs h'
    cases h' with
    | full => rfl
    | rest => rfl
    | cut _ h => exact absurd h.1 (hno _)
  | @cut limit a b ps hl h _ ih =>
    intro qs h'
    generalize hs : a ++ (sep ++ b) = s at h h'
    cases h' with
    | full => exact absurd rfl hl
    | rest hno => exact absurd h.1 (hno _)
    | @cut _ a' b' _ _ h' hqs =>
      obtain ⟨rfl, htail⟩ := List.append_inj hs (h.unique h')
      rw [ih (List.append_cancel_left htail ▸ hqs)]

/-- There is a last piece. -/
theorem eq_concat (h : Pieces sep limit s ps) : ∃ qs q, ps = qs ++ [q] := by
  induction h with
  | @full s => exact ⟨[], s, rfl⟩
  | @rest _ s _ => exact ⟨[], s, rfl⟩
  | @cut _ a _ _ _ _ _ ih =>
    obtain ⟨qs, q, rfl⟩ := ih
    exact ⟨a :: qs, q, rfl⟩

/-- **Nothing is lost**: the pieces with the separators between them. -/
theorem intercalate (h : Pieces sep limit s ps) : sep.intercalate ps = s := by
  induction h with
  | full => exact List.append_nil _
  | rest => exact List.append_nil _
  | @cut _ a b ps _ _ hps ih =>
    obtain ⟨qs, q, rfl⟩ := hps.eq_concat
    rw [← ih]
    cases qs with
    | nil => simp [List.intercalate]
    | cons => simp [List.intercalate]

end Pieces

end XCore.Occur
