import Mathlib.Data.List.TakeWhile
import Mathlib.Tactic.Common

/-!
# Strings in a C buffer

A buffer of `cap` bytes (`Buff`), and what `strlen`, `strcpy` and `sprintf` do to it: a text is stored with a zero
behind it, or the bytes would not all be in the buffer, and then the store has no result.

`Stores n k r`: a program that starts with a string of length `n` in the buffer makes it longer by `k`, if that is in
the bounds, and otherwise runs out of them. It is a rule for one call (`stores_sprintf`) and for sequences
(`Stores.bind`).
-/

namespace XCore.CString

/-- A buffer of `cap` bytes. -/
structure Buff (cap : Nat) where
  bytes : List UInt8
  size : bytes.length = cap

/-- What a C string has of a text: the bytes in front of the first zero. -/
def cstr (s : List UInt8) : List UInt8 := s.takeWhile (· ≠ 0)

theorem zero_not_mem_cstr (s : List UInt8) : 0 ∉ cstr s := fun h => by
  have h0 := List.mem_takeWhile_imp h
  exact absurd rfl (of_decide_eq_true h0)

theorem cstr_append {s t : List UInt8} (hs : 0 ∉ s) : cstr (s ++ 0 :: t) = s := by
  have hall : ∀ c ∈ s, decide (c ≠ 0) = true := fun c hc => decide_eq_true fun h => hs (h ▸ hc)
  rw [cstr, List.takeWhile_append_of_pos hall, List.takeWhile_cons_of_neg (by decide), List.append_nil]

namespace Buff

variable {cap : Nat}

/-- `strlen(buf)`. -/
def strlen (b : Buff cap) : Nat := (cstr b.bytes).length

/-- The stores of `s` and a zero from `pos` on; no result if one of them is outside of the buffer. -/
def store (b : Buff cap) (pos : Nat) (s : List UInt8) : Option (Buff cap) :=
  if h : pos + s.length + 1 ≤ cap then
    some ⟨b.bytes.take pos ++ (s ++ 0 :: b.bytes.drop (pos + s.length + 1)), by
      have hsize := b.size
      simp only [List.length_append, List.length_take, List.length_cons, List.length_drop]
      omega⟩
  else none

/-- `strcpy(buf, s)`. -/
def strcpy (b : Buff cap) (s : List UInt8) : Option (Buff cap) := b.store 0 s

/-- `sprintf(buf + strlen(buf), ..)`, by the text that is formatted. -/
def sprintf (b : Buff cap) (s : List UInt8) : Option (Buff cap) := b.store b.strlen s

theorem store_eq_none {b : Buff cap} {pos : Nat} {s : List UInt8} :
    b.store pos s = none ↔ cap < pos + s.length + 1 := by
  unfold store
  split
  · exact iff_of_false (fun h => by cases h) (by omega)
  · exact iff_of_true rfl (by omega)

/-- A text is stored behind the string. -/
theorem strlen_store {b b' : Buff cap} {pos : Nat} {s : List UInt8} (hpos : pos ≤ b.strlen) (hs : 0 ∉ s)
    (h : b.store pos s = some b') : b'.strlen = pos + s.length := by
  unfold store at h
  split at h
  · next hle =>
    cases h
    have hfront : b.bytes.take pos = (cstr b.bytes).take pos := by
      have htake := List.takeWhile_append_dropWhile (p := fun c : UInt8 => decide (c ≠ 0)) (l := b.bytes)
      conv_lhs => rw [← htake]
      exact List.take_append_of_le_length hpos
    have hfree : 0 ∉ b.bytes.take pos ++ s := by
      rw [hfront, List.mem_append, not_or]
      exact ⟨fun h => zero_not_mem_cstr _ (List.mem_of_mem_take h), hs⟩
    have hlen : (b.bytes.take pos).length = pos := by
      rw [List.length_take, b.size]
      omega
    show (cstr (b.bytes.take pos ++ (s ++ 0 :: _))).length = _
    rw [← List.append_assoc, cstr_append hfree, List.length_append, hlen]
  · cases h

end Buff

/-! ## Programs -/

section Stores

variable {cap n k l : Nat} {σ τ : Type*} {b : Buff cap}

/-- The string in the buffer, of length `n`, is made longer by `k` and `x` is returned, or the bounds do not allow
it. -/
inductive Stores (n k : Nat) (x : σ) : Option (Buff cap × σ) → Prop
  | inside {b : Buff cap} (hlen : b.strlen = n + k) (hle : n + k + 1 ≤ cap) : Stores n k x (some (b, x))
  | outside (hgt : cap < n + k + 1) : Stores n k x none

/-- **When the bounds are kept.** -/
theorem Stores.isSome_iff {x : σ} {r : Option (Buff cap × σ)} (h : Stores n k x r) :
    (∃ y, r = some y) ↔ n + k + 1 ≤ cap := by
  cases h with
  | inside _ hle => exact iff_of_true ⟨_, rfl⟩ hle
  | outside hgt =>
    refine iff_of_false ?_ (by omega)
    rintro ⟨y, hy⟩
    cases hy

/-- Nothing is stored. -/
theorem stores_zero {x : σ} (hb : b.strlen = n) (hn : n + 1 ≤ cap) : Stores n 0 x (some (b, x)) := .inside hb hn

/-- One call. -/
theorem stores_sprintf {x : σ} {s : List UInt8} (hb : b.strlen = n) (hs : 0 ∉ s) :
    Stores n s.length x ((b.sprintf s).map fun b' => (b', x)) := by
  subst hb
  cases hr : b.sprintf s with
  | none => exact .outside (Buff.store_eq_none.1 hr)
  | some b' =>
    refine .inside (Buff.strlen_store le_rfl hs hr) ?_
    by_contra hgt
    rw [Buff.sprintf, Buff.store_eq_none.2 (by omega)] at hr
    cases hr

/-- **One after the other.** -/
theorem Stores.bind {x : σ} {y : τ} {r : Option (Buff cap × σ)} {f : Buff cap × σ → Option (Buff cap × τ)}
    (h : Stores n k x r) (hf : ∀ b : Buff cap, b.strlen = n + k → n + k + 1 ≤ cap → Stores (n + k) l y (f (b, x))) :
    Stores n (k + l) y (r.bind f) := by
  cases h with
  | @inside b hlen hle =>
    have h' := hf b hlen hle
    show Stores n (k + l) y (f (b, x))
    cases hr : f (b, x) with
    | none =>
      rw [hr] at h'
      cases h' with
      | outside hgt => exact .outside (by omega)
    | some z =>
      rw [hr] at h'
      cases h' with
      | inside hlen' hle' => exact .inside (by omega) (by omega)
  | outside hgt => exact .outside (by omega)

end Stores

end XCore.CString
