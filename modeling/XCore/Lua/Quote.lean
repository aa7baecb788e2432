import Mathlib.Data.Nat.Digits.Lemmas
import XCore.Lib.CString
import XCore.Lua.Source

/-!
# The formats `%s` and `%q` of Lua 5.3

`string.format` copies a string of less than 100 bytes with `sprintf`, so that `%s` cuts it at a zero (`fmtS`), and a
longer one as it is. A string is `Whole` if it is not cut; what `%s` writes is whole, and whole strings together are.

`%q` writes a string so that Lua's parser reads it back (`read_string_addquoted`), which holds for all bytes.
-/

namespace XCore.Lua

open XCore.CString (cstr zero_not_mem_cstr)

/-! ## `%s` -/

/-- The format `%s`. -/
def fmtS (s : Bytes) : Bytes := if 100 ≤ s.length then s else cstr s

/-- A string that `%s` does not cut. -/
def Whole (s : Bytes) : Prop := 0 ∈ s → 100 ≤ s.length

instance (s : Bytes) : Decidable (Whole s) := inferInstanceAs (Decidable (0 ∈ s → 100 ≤ s.length))

theorem Whole.of_not_mem {s : Bytes} (h : 0 ∉ s) : Whole s := fun h0 => (h h0).elim

theorem Whole.append {s t : Bytes} (hs : Whole s) (ht : Whole t) : Whole (s ++ t) := by
  intro h
  rw [List.length_append]
  rcases List.mem_append.1 h with h | h
  · exact Nat.le_add_right_of_le (hs h)
  · exact Nat.le_add_left_of_le (ht h)

theorem whole_fmtS (s : Bytes) : Whole (fmtS s) := by
  unfold fmtS
  split
  · rename_i h
    exact fun _ => h
  · exact Whole.of_not_mem (zero_not_mem_cstr s)

theorem fmtS_eq_self {s : Bytes} : fmtS s = s ↔ Whole s := by
  constructor
  · intro h
    rw [← h]
    exact whole_fmtS s
  · intro h
    unfold fmtS
    split
    · rfl
    · rename_i hlen
      refine List.takeWhile_eq_self_iff.2 fun c hc => decide_eq_true ?_
      rintro rfl
      exact hlen (h hc)

theorem mem_of_mem_fmtS {c : UInt8} {s : Bytes} (h : c ∈ fmtS s) : c ∈ s := by
  unfold fmtS at h
  split at h
  · exact h
  · exact List.takeWhile_subset _ h

/-! ## `%q` -/

/-- `iscntrl`, of ASCII. -/
def iscntrl (c : UInt8) : Bool := c < 32 || c == 127

/-- The digits of the format `%03d`. -/
def decDigits3 (n : Nat) : List Nat := List.replicate (3 - (decDigits n).length) 0 ++ decDigits n

/-- The digits of a decimal sequence, before `s`. -/
def sequence (c : UInt8) (s : Bytes) : List Nat :=
  if s.head?.any (fun d => (digit d).isSome) then decDigits3 c.toNat else decDigits c.toNat

/-- `addquoted`, between the quotation marks. -/
def addquoted : Bytes → Bytes
  | [] => []
  | c :: s =>
    if c = 34 ∨ c = 92 ∨ c = LF then 92 :: c :: addquoted s
    else if iscntrl c then 92 :: ((sequence c s).map digitByte ++ addquoted s)
    else c :: addquoted s

theorem decDigits_length {n : Nat} (h : n < 256) : (decDigits n).length ≤ 3 := by
  unfold decDigits
  split
  · decide
  · rw [List.length_reverse, Nat.digits_length_le_iff (by decide)]
    exact h.trans (by decide)

theorem value_decDigits3 (n : Nat) : value 10 (decDigits3 n) = n := by
  have hzeros : ∀ k, (List.replicate k 0).foldl (fun a d => a * 10 + d) 0 = 0 := by
    intro k
    induction k with
    | zero => rfl
    | succ k ih => exact ih
  have hdigits := value_decDigits n
  unfold value at hdigits ⊢
  rw [decDigits3, List.foldl_append, hzeros, hdigits]

/-- A decimal sequence has the value of its byte, and three digits if another digit follows. -/
theorem sequence_spec (c : UInt8) (s : Bytes) :
    (∀ d ∈ sequence c s, d < 10) ∧ (sequence c s).length ≤ 3 ∧ sequence c s ≠ [] ∧
    value 10 (sequence c s) = c.toNat ∧ ((sequence c s).length = 3 ∨ ∀ d ∈ s.head?, digit d = none) := by
  have hlen := decDigits_length c.toNat_lt
  have hne := decDigits_ne_nil c.toNat
  unfold sequence
  split
  · have hlen3 : (decDigits3 c.toNat).length = 3 := by
      rw [decDigits3, List.length_append, List.length_replicate]
      omega
    refine ⟨fun d hd => ?_, Nat.le_of_eq hlen3, fun h => ?_, value_decDigits3 _, Or.inl hlen3⟩
    · rcases List.mem_append.1 hd with hd | hd
      · rw [List.eq_of_mem_replicate hd]
        decide
      · exact decDigits_lt hd
    · exact hne (List.append_eq_nil_iff.1 h).2
  · rename_i hnone
    refine ⟨fun d => decDigits_lt, hlen, hne, value_decDigits _, Or.inr fun d hd => ?_⟩
    rw [hd] at hnone
    simpa using hnone

/-- What a quoted string begins with: a quotation mark, a backslash, or its own first byte. -/
theorem addquoted_head (s t : Bytes) : ∀ c ∈ (addquoted s ++ 34 :: t).head?, c = 34 ∨ c = 92 ∨ c ∈ s.head? ∧
    iscntrl c = false := by
  intro c hc
  cases s with
  | nil =>
    cases hc
    exact Or.inl rfl
  | cons b s =>
    unfold addquoted at hc
    split at hc
    · cases hc
      exact Or.inr (Or.inl rfl)
    · split at hc
      · cases hc
        exact Or.inr (Or.inl rfl)
      · rename_i hb
        cases hc
        exact Or.inr (Or.inr ⟨rfl, Bool.eq_false_of_not_eq_true hb⟩)

theorem digitByte_ne_zero : ∀ d < 10, digitByte d ≠ 0 := by decide

/-- What `%q` writes has no zero. -/
theorem zero_not_mem_addquoted : ∀ s : Bytes, 0 ∉ addquoted s
  | [] => List.not_mem_nil
  | c :: s => by
    have ih := zero_not_mem_addquoted s
    unfold addquoted
    split
    · rename_i hc
      rw [List.mem_cons, List.mem_cons, not_or, not_or]
      refine ⟨by decide, ?_, ih⟩
      rcases hc with rfl | rfl | rfl <;> decide
    · split
      · rw [List.mem_cons, List.mem_append, List.mem_map, not_or, not_or]
        refine ⟨by decide, ?_, ih⟩
        rintro ⟨d, hd, h0⟩
        exact digitByte_ne_zero d ((sequence_spec c s).1 d hd) h0
      · rename_i hcntrl
        rw [List.mem_cons, not_or]
        refine ⟨?_, ih⟩
        rintro rfl
        exact hcntrl rfl

end XCore.Lua

namespace XCore.Lua.Source

/-- A line break after a backslash is read as one, before a byte that is no second part of it. -/
theorem read_string_newline {del old : UInt8} {u : Bytes} (hu : ∀ c ∈ u.head?, ¬(c = LF ∨ c = CR)) :
    read_string del (.newline old) u = read_string del .text u := by
  cases u with
  | nil => rfl
  | cons c u =>
    rw [read_string, read_string, if_neg fun h => hu c rfl h.1]

/-- **What `%q` writes is read back**, for all bytes. -/
theorem read_string_addquoted : ∀ s t : Bytes, read_string 34 .text (addquoted s ++ 34 :: t) = .ok (s, t)
  | [], t => by rw [addquoted, List.nil_append, read_string, if_pos rfl]
  | c :: s, t => by
    have ih := read_string_addquoted s t
    have hhead := addquoted_head s t
    have hslash : ∀ u, read_string 34 .text (92 :: u) = read_string 34 .escape u := fun u => by
      rw [read_string, if_neg (by decide), if_neg (by decide), if_pos rfl]
    unfold addquoted
    split
    · rename_i hc
      rw [List.cons_append, List.cons_append, hslash, read_string]
      rcases hc with rfl | rfl | rfl
      · rw [if_neg (by decide), ih]
        rfl
      · rw [if_neg (by decide), ih]
        rfl
      · rw [if_pos (Or.inl rfl), read_string_newline, ih]
        · rfl
        · intro c hc
          rcases hhead c hc with rfl | rfl | ⟨-, hcntrl⟩
          · decide
          · decide
          · rintro (rfl | rfl) <;> cases hcntrl
    · rename_i hspecial
      have hspecial := not_or.1 hspecial
      have hslashLF := not_or.1 hspecial.2
      split
      · obtain ⟨hlt, hlen, hne, hvalue, hend⟩ := sequence_spec c s
        have hnext : (sequence c s).length = 3 ∨ ∀ d ∈ (addquoted s ++ 34 :: t).head?, digit d = none := by
          refine hend.imp_right fun hnone d hd => ?_
          rcases hhead d hd with rfl | rfl | ⟨hs, -⟩
          · rfl
          · rfl
          · exact hnone d hs
        have hbyte : value 10 (sequence c s) ≤ 255 := by
          rw [hvalue]
          exact Nat.le_of_lt_succ c.toNat_lt
        rw [List.cons_append, List.append_assoc, hslash, read_string_decimal hne hlt hlen hbyte hnext, ih, hvalue,
          UInt8.ofNat_toNat]
        rfl
      · rename_i hcntrl
        have hline : ¬(c = LF ∨ c = CR) := by
          rintro (rfl | rfl)
          · exact hslashLF.2 rfl
          · exact hcntrl rfl
        rw [List.cons_append, read_string_cons hspecial.1 hline hslashLF.1, ih]
        rfl

end XCore.Lua.Source
