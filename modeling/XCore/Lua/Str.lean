import Mathlib.Data.List.Infix
import Mathlib.Tactic.Common

/-!
# Byte strings of Lua 5.3

The errors the library functions and operators raise are `LuaError`. A Lua string is a list of bytes. Positions are
1-based and may be negative (counted from the end), as in `lstrlib.c`:

- `sub` is `string.sub` with both ends (`str_sub`), `subFrom` the form with the end left out;
- `find` is the plain search of `string.find` (`str_find_aux` on a pattern without special characters).

For positions at least 1 the first is `drop` and `take` (`sub_eq`, `subFrom_eq`). A match found in a prefix is the match
found in the whole string (`idxOf_append`), and a line ended by CR LF is found whole or not at all (`crlf_cut`).
-/

namespace XCore.Lua

/-- The run-time errors of operators and library functions. -/
inductive LuaError
  /-- attempt to perform arithmetic on a nil value -/
  | arithNil
  /-- number has no integer representation -/
  | noInteger
  /-- data string too short -/
  | dataTooShort
  /-- initial position out of string -/
  | posOutOfString
  /-- unsigned overflow, integer overflow -/
  | packOverflow
  /-- attempt to get length of a nil value -/
  | lenNil
  /-- attempt to call a nil value -/
  | callNil
  /-- 'for' limit must be a number -/
  | forLimit
  /-- index is nil -/
  | indexNil
  /-- attempt to get length of a number value -/
  | lenNumber
  /-- attempt to index a number value -/
  | indexNumber
  /-- attempt to index a nil, boolean or function value -/
  | indexValue
  /-- bad argument -/
  | badArgument
  /-- stack overflow -/
  | stackOverflow
  /-- assertion failed -/
  | assertion
  /-- attempt to compare two values that have no order -/
  | compare
  /-- invalid value (nil) in table for 'concat' -/
  | concatNil
  /-- attempt to call a value that is no function -/
  | callValue
  /-- '__index' chain too long; possibly a loop -/
  | indexLoop
  /-- an error that `error` raises -/
  | raised
  deriving DecidableEq, Repr

/-! ## Results -/

/-- A sequence of two computations returns. -/
theorem bind_eq_ok {ε α β : Type} {x : Except ε α} {f : α → Except ε β} {r : β} :
    (x >>= f) = .ok r ↔ ∃ a, x = .ok a ∧ f a = .ok r := by
  cases x with
  | error e => simp [bind, Except.bind]
  | ok a => simp [bind, Except.bind]

theorem map_eq_ok {ε α β : Type} {x : Except ε α} {f : α → β} {b : β} :
    x.map f = .ok b ↔ ∃ a, x = .ok a ∧ f a = b := by
  cases x <;> simp [Except.map]

/-! ## Strings -/

/-- A Lua string. -/
abbrev Bytes := List UInt8

/-- Carriage return. -/
def CR : UInt8 := 13

/-- Line feed. -/
def LF : UInt8 := 10

/-- The line terminator `"\r\n"`. -/
def crlf : Bytes := [CR, LF]

/-! ## Substrings -/

/-- `posrelat`: a relative string position, negative means back from the end. -/
def posrelat (pos : Int) (len : Nat) : Int :=
  if 0 ≤ pos then pos else if (len : Int) < -pos then 0 else len + pos + 1

/-- `string.sub(s, i, j)`. -/
def sub (s : Bytes) (i j : Int) : Bytes :=
  let start := max 1 (posrelat i s.length)
  let stop := min (s.length : Int) (posrelat j s.length)
  if start ≤ stop then (s.drop (start - 1).toNat).take (stop - start + 1).toNat else []

/-- `string.sub(s, i)`: the end defaults to `-1`. -/
def subFrom (s : Bytes) (i : Int) : Bytes := sub s i (-1)

theorem posrelat_nat (n len : Nat) : posrelat n len = n := by simp [posrelat]

theorem sub_eq (s : Bytes) {i : Nat} (hi : 1 ≤ i) (j : Nat) : sub s i j = (s.drop (i - 1)).take (j + 1 - i) := by
  simp only [sub, posrelat_nat]
  have hstart : max (1 : Int) i = i := by omega
  rw [hstart]
  split
  · rename_i h
    have hd : ((i : Int) - 1).toNat = i - 1 := by omega
    rw [hd]
    by_cases hj : j ≤ s.length
    · congr 1; omega
    · rw [List.take_of_length_le (by simp; omega), List.take_of_length_le (by simp; omega)]
  · rename_i h
    by_cases hj : j + 1 ≤ i
    · rw [show j + 1 - i = 0 by omega, List.take_zero]
    · rw [List.drop_eq_nil_of_le (by omega), List.take_nil]

/-- The default end is the last byte. -/
theorem min_posrelat_last (len : Nat) : min (len : Int) (posrelat (-1) len) = len := by
  simp only [posrelat]; split <;> omega

theorem subFrom_eq (s : Bytes) {i : Nat} (hi : 1 ≤ i) : subFrom s i = s.drop (i - 1) := by
  have hstart : max (1 : Int) i = i := by omega
  simp only [subFrom, sub, min_posrelat_last, posrelat_nat, hstart]
  split
  · rw [show ((i : Int) - 1).toNat = i - 1 by omega]
    exact List.take_of_length_le (by simp; omega)
  · rw [List.drop_eq_nil_of_le (by omega)]

/-- What `string.sub(s, i)` leaves, for any position. -/
theorem length_subFrom (s : Bytes) (i : Int) :
    (subFrom s i).length = (s.length + 1 - max 1 (posrelat i s.length)).toNat := by
  simp only [subFrom, sub, min_posrelat_last]
  split
  · simp only [List.length_take, List.length_drop]; omega
  · simp only [List.length_nil]; omega

/-- **A suffix is shorter** than a non-empty string exactly when its position is not `0` or `1` and is not at or
before the first byte counted from the end. -/
theorem length_subFrom_lt (s : Bytes) (hs : s ≠ []) (i : Int) :
    (subFrom s i).length < s.length ↔ ¬(i = 0 ∨ i = 1 ∨ i ≤ -s.length) := by
  have hpos : 0 < s.length := List.length_pos_of_ne_nil hs
  rw [length_subFrom]
  simp only [posrelat]
  split
  · omega
  · split <;> omega

/-! ## Plain search -/

/-- The first offset at which the pattern occurs. -/
def idxOf (p : Bytes) : Bytes → Option Nat
  | [] => if p = [] then some 0 else none
  | c :: s => if p <+: c :: s then some 0 else (idxOf p s).map (· + 1)

/-- `string.find(s, p, init)` for a pattern without special characters: first and last position of the match. -/
def find (s p : Bytes) (init : Int) : Option (Int × Int) :=
  let start := max 1 (posrelat init s.length)
  if (s.length : Int) + 1 < start then none
  else (idxOf p (s.drop (start - 1).toNat)).map fun k : Nat => (start + k, start + k + p.length - 1)

/-- From an offset of `idxOf` to a split of the string. -/
theorem idxOf_split {p : Bytes} : ∀ {s : Bytes} {k : Nat}, idxOf p s = some k →
    ∃ b, s = s.take k ++ p ++ b ∧ k + p.length ≤ s.length
  | [], k, h => by
    simp only [idxOf] at h
    split at h
    · rename_i hp; cases h; exact ⟨[], by simp [hp], by simp [hp]⟩
    · cases h
  | c :: s, k, h => by
    simp only [idxOf] at h
    split at h
    · rename_i hp
      cases h
      obtain ⟨b, hb⟩ := hp
      refine ⟨b, by simp [hb], ?_⟩
      have := congrArg List.length hb
      simp only [List.length_append] at this
      omega
    · obtain ⟨k', hk, rfl⟩ := Option.map_eq_some_iff.1 h
      obtain ⟨b, hb, hl⟩ := idxOf_split hk
      exact ⟨b, by simpa using hb, by simp only [List.length_cons]; omega⟩

/-- **A match in a prefix** is the match in the whole. -/
theorem idxOf_append {p : Bytes} (d : Bytes) : ∀ {s : Bytes} {k : Nat}, p ≠ [] → idxOf p s = some k →
    idxOf p (s ++ d) = some k
  | [], _, hp, h => by simp [idxOf, hp] at h
  | c :: s, k, hp, h => by
    have hlen := (idxOf_split h).choose_spec.2
    simp only [idxOf] at h
    simp only [List.cons_append, idxOf]
    split at h
    · rename_i hpre
      cases h
      have : p <+: c :: (s ++ d) := hpre.trans (by simp)
      simp [this]
    · rename_i hpre
      obtain ⟨k', hk, rfl⟩ := Option.map_eq_some_iff.1 h
      have hno : ¬p <+: c :: (s ++ d) := fun hc => hpre
        (List.prefix_of_prefix_length_le hc (by simp : c :: s <+: c :: (s ++ d)) (by omega))
      simp [hno, idxOf_append d hp hk]

/-! ## Lines -/

/-- The text of a line: no carriage return and no line feed. -/
def Plain (t : Bytes) : Prop := ∀ c ∈ t, c ≠ CR ∧ c ≠ LF

instance (t : Bytes) : Decidable (Plain t) := List.decidableBAll (fun c => c ≠ CR ∧ c ≠ LF) t

theorem Plain.cons {c : UInt8} {t : Bytes} (hc : c ≠ CR ∧ c ≠ LF) (ht : Plain t) : Plain (c :: t) := by
  intro x hx
  rcases List.mem_cons.1 hx with rfl | hx
  · exact hc
  · exact ht x hx

theorem Plain.append {t u : Bytes} (ht : Plain t) (hu : Plain u) : Plain (t ++ u) := by
  intro x hx
  rcases List.mem_append.1 hx with hx | hx
  · exact ht x hx
  · exact hu x hx

/-- The terminator of a plain line is found at its end. -/
theorem idxOf_line : ∀ {t : Bytes} (s : Bytes), Plain t → idxOf crlf (t ++ crlf ++ s) = some t.length
  | [], s, _ => by simp [crlf, idxOf]
  | c :: t, s, h => by
    have hc : CR ≠ c := (h c (by simp)).1.symm
    have hno : ¬crlf <+: c :: (t ++ crlf ++ s) := by simp [crlf, hc]
    have ih := idxOf_line s (fun x hx => h x (by simp [hx]) : Plain t)
    simp only [List.cons_append, idxOf, hno, ↓reduceIte, ih, Option.map_some, List.length_cons]

/-- A string that begins `m` or goes on after it is a prefix of `m` when it is not longer. -/
theorem prefix_of_append {m d t s : Bytes} (hm : m ++ d = t ++ s) (hle : t.length ≤ m.length) : t <+: m :=
  List.prefix_of_prefix_length_le (hm ▸ List.prefix_append t s) (List.prefix_append m d) hle

/-- **A line is found whole or not at all**: in a string `m` that a plain line and more may follow, the terminator is
either not found, or the whole line is in `m`. -/
theorem crlf_cut {m d t s : Bytes} (ht : Plain t) (hm : m ++ d = t ++ crlf ++ s) :
    idxOf crlf m = none ∨ ∃ m', m = t ++ crlf ++ m' ∧ m' ++ d = s := by
  cases hi : idxOf crlf m with
  | none => exact Or.inl rfl
  | some k =>
    right
    have hk : k = t.length := by
      have h1 := idxOf_append d (by simp [crlf]) hi
      rw [hm, idxOf_line s ht] at h1
      exact (Option.some.inj h1).symm
    obtain ⟨b, hb, hl⟩ := idxOf_split hi
    have hlen : (m.take k ++ crlf).length = (t ++ crlf).length := by
      simp only [List.length_append, List.length_take]; omega
    have happ : (m.take k ++ crlf) ++ (b ++ d) = (t ++ crlf) ++ s := by
      rw [← hm]; conv_rhs => rw [hb]
      simp
    obtain ⟨h1, h2⟩ := List.append_inj happ hlen
    exact ⟨b, by rw [← h1]; exact hb, h2⟩

end XCore.Lua
