import Mathlib.Tactic.Common

/-!
# Encodings that tell where they end

An encoding delimits itself if what follows it does not matter: two texts that start with encodings and are equal start
with the same one (`Delimits`). Such an encoding is injective, none is a prefix of another, and a text of several is one
of a single list of values (`Delimits.flatMap_injective`).

Encodings of this kind are lines (`delimits_line`), a length with as many symbols (`Delimits.sized`), and a count with
as many elements (`Delimits.counted`).
-/

namespace XCore.Delimit

variable {α β : Type*}

/-- Equal texts that start with encodings start with the same one. -/
def Delimits (f : α → List β) : Prop := ∀ ⦃a b : α⦄ ⦃u v : List β⦄, f a ++ u = f b ++ v → a = b ∧ u = v

variable {f : α → List β}

/-- A symbol that no encoding has ends a line. -/
theorem delimits_line {t : β} (hf : Function.Injective f) (ht : ∀ a, t ∉ f a) (c : List β) :
    Delimits fun a => f a ++ t :: c := by
  have hsplit : ∀ {x y u v : List β}, t ∉ x → t ∉ y → x ++ t :: u = y ++ t :: v → x = y ∧ u = v := by
    intro x
    induction x with
    | nil =>
      intro y u v _ hy h
      cases y with
      | nil => exact ⟨rfl, (List.cons.inj h).2⟩
      | cons b y => exact absurd ((List.cons.inj h).1 ▸ List.mem_cons_self) hy
    | cons a x ih =>
      intro y u v hx hy h
      cases y with
      | nil => exact absurd ((List.cons.inj h).1 ▸ List.mem_cons_self) hx
      | cons b y =>
        obtain ⟨rfl, hrest⟩ := List.cons.inj h
        obtain ⟨rfl, hu⟩ := ih (fun hm => hx (List.mem_cons_of_mem a hm))
          (fun hm => hy (List.mem_cons_of_mem a hm)) hrest
        exact ⟨rfl, hu⟩
  intro a b u v h
  simp only [List.append_assoc, List.cons_append] at h
  obtain ⟨hab, huv⟩ := hsplit (ht a) (ht b) h
  exact ⟨hf hab, List.append_cancel_left huv⟩

namespace Delimits

theorem injective (hf : Delimits f) : Function.Injective f := fun a b h => (hf (u := []) (v := []) (by rw [h])).1

/-- No encoding is a proper prefix of another. -/
theorem eq_of_prefix (hf : Delimits f) {a b : α} (h : f a <+: f b) : a = b := by
  obtain ⟨u, hu⟩ := h
  exact (hf (u := u) (v := []) (by rw [hu, List.append_nil])).1

/-- A constant in front. -/
theorem const_append (hf : Delimits f) (c : List β) : Delimits fun a => c ++ f a := by
  intro a b u v h
  rw [List.append_assoc, List.append_assoc] at h
  exact hf (List.append_cancel_left h)

/-- A constant at the end. -/
theorem append_const (hf : Delimits f) (c : List β) : Delimits fun a => f a ++ c := by
  intro a b u v h
  rw [List.append_assoc, List.append_assoc] at h
  obtain ⟨rfl, huv⟩ := hf h
  exact ⟨rfl, List.append_cancel_left huv⟩

/-- A length, and as many symbols. -/
theorem sized {head : Nat → List β} (hh : Delimits head) : Delimits fun b : List β => head b.length ++ b := by
  intro a b u v h
  dsimp only at h
  rw [List.append_assoc, List.append_assoc] at h
  obtain ⟨hlen, h⟩ := hh h
  exact List.append_inj h hlen

/-- As many elements each. -/
theorem flatMap (hf : Delimits f) : ∀ {l m : List α} {u v : List β}, l.length = m.length →
    l.flatMap f ++ u = m.flatMap f ++ v → l = m ∧ u = v
  | [], [], _, _, _, h => ⟨rfl, h⟩
  | a :: l, b :: m, u, v, hlen, h => by
    rw [List.flatMap_cons, List.flatMap_cons, List.append_assoc, List.append_assoc] at h
    obtain ⟨rfl, hrest⟩ := hf h
    obtain ⟨rfl, huv⟩ := flatMap hf (Nat.succ.inj hlen) hrest
    exact ⟨rfl, huv⟩

/-- A count, and as many elements. -/
theorem counted {head : Nat → List β} (hh : Delimits head) (hf : Delimits f) :
    Delimits fun l : List α => head l.length ++ l.flatMap f := by
  intro l m u v h
  dsimp only at h
  rw [List.append_assoc, List.append_assoc] at h
  obtain ⟨hlen, h⟩ := hh h
  exact hf.flatMap hlen h

/-- A text of encodings that are not empty is one of a single list. -/
theorem flatMap_injective (hf : Delimits f) (hne : ∀ a, f a ≠ []) : ∀ {l m : List α}, l.flatMap f = m.flatMap f → l = m
  | [], [], _ => rfl
  | [], b :: m, h => absurd (List.append_eq_nil_iff.1 h.symm).1 (hne b)
  | a :: l, [], h => absurd (List.append_eq_nil_iff.1 h).1 (hne a)
  | a :: l, b :: m, h => by
    rw [List.flatMap_cons, List.flatMap_cons] at h
    obtain ⟨rfl, hrest⟩ := hf h
    rw [flatMap_injective hf hne hrest]

end Delimits

end XCore.Delimit
