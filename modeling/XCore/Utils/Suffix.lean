import XCore.Utils.Split

/-!
# `string.rfind` and `string.endwith` (`utils.lua`)

`string.rfind` searches the reversed string for the flag as it is, not for the reversed flag, and takes the position of
the match for that of its last byte. So what it finds is the last occurrence of the reversed flag, and what it returns
is where that ends. `string.endwith` compares the length with a second result of `string.rfind`, which has none.

- `rfind_some`, `rfind_none`: what `string.rfind` returns for a flag without special characters;
- `suffix_exact`: when the functions are right.
-/

namespace XCore.Utils

open XCore.Lua XCore.Occur

/-- The special characters `^$*+?.([%-` of a pattern. -/
def specials : Bytes := [94, 36, 42, 43, 63, 46, 40, 91, 37, 45]

/-- A pattern without special characters (`nospecials`). -/
def nospecials (p : Bytes) : Bool := p.all fun c => !specials.contains c

/-- `str:find(p)`: a pattern without special characters is searched for as it is; others are matched (`pattern`). -/
def strFind (pattern : Bytes → Bytes → Option (Int × Int)) (str p : Bytes) : Option (Int × Int) :=
  if nospecials p then find str p 1 else pattern str p

/-- `string.rfind`. -/
def rfind (pattern : Bytes → Bytes → Option (Int × Int)) (str flag : Bytes) : Option Int :=
  match strFind pattern str.reverse flag with
  | none => none
  | some (ret, _) => some (str.length - ret + 1)

/-- `string.endwith`: nil, or what the comparison of `j` with the length gives; `j` is nil. -/
def endwith (pattern : Bytes → Bytes → Option (Int × Int)) (str flag : Bytes) : Option Bool :=
  let i := rfind pattern str flag
  let j : Option Int := none
  if i.isSome then some (j = some (str.length : Int)) else none

section Plain

variable {pattern : Bytes → Bytes → Option (Int × Int)} {str flag : Bytes}

theorem rfind_eq (hflag : nospecials flag = true) :
    rfind pattern str flag = (idxOf flag str.reverse).map fun k : Nat => (str.length : Int) - k := by
  have hfind : find str.reverse flag 1 = _ := find_from (p := flag) (Nat.zero_le str.reverse.length)
  rw [rfind, strFind, if_pos hflag, hfind, List.drop_zero]
  cases idxOf flag str.reverse with
  | none => rfl
  | some k =>
    simp only [Option.map_some, Option.some.injEq]
    omega

/-- **What is returned**: where the last occurrence of the reversed flag ends. -/
theorem rfind_some (hflag : nospecials flag = true) {m : Nat} (h : LastAt flag.reverse str m) :
    rfind pattern str flag = some ((m + flag.length : Nat) : Int) := by
  rw [rfind_eq hflag]
  cases hi : idxOf flag str.reverse with
  | none =>
    have hr := h.1.reverse
    rw [List.reverse_reverse] at hr
    exact absurd hr (idxOf_eq_none.1 hi _)
  | some k =>
    have hfirst := idxOf_eq_some.1 hi
    have hlast := lastAt_reverse hfirst
    have hle := hfirst.1.le
    rw [List.length_reverse] at hle
    rw [h.unique hlast, Option.map_some, Option.some.injEq]
    omega

theorem rfind_none (hflag : nospecials flag = true) :
    rfind pattern str flag = none ↔ ∀ k, ¬OccursAt flag.reverse str k := by
  rw [rfind_eq hflag, Option.map_eq_none_iff, idxOf_eq_none]
  constructor
  · intro h k hk
    have hr := hk.reverse
    rw [List.reverse_reverse] at hr
    exact h _ hr
  · exact fun h k hk => h _ hk.of_reverse

theorem endwith_ne_true : endwith pattern str flag ≠ some true := by
  unfold endwith
  dsimp only
  split
  · exact fun h => by cases h
  · exact fun h => by cases h

end Plain

/-! ## When they are right -/

/-- `string.rfind` returns where the last occurrence of the flag begins, nil if there is none. -/
def RfindRight (pattern : Bytes → Bytes → Option (Int × Int)) (str flag : Bytes) : Prop :=
  (∀ k, LastAt flag str k → rfind pattern str flag = some ((k + 1 : Nat) : Int)) ∧
  ((∀ k, ¬OccursAt flag str k) → rfind pattern str flag = none)

/-- `string.endwith` is true iff the string ends in the flag. -/
def EndwithRight (pattern : Bytes → Bytes → Option (Int × Int)) (str flag : Bytes) : Prop :=
  endwith pattern str flag = some true ↔ flag <:+ str

/-- Neither the flag nor the reversed flag occurs, or the last occurrence of the flag begins with the last byte of that
of the reversed flag. -/
def Mirrored (str flag : Bytes) : Prop :=
  ((∀ k, ¬OccursAt flag str k) ∧ ∀ k, ¬OccursAt flag.reverse str k) ∨
  ∃ k m, LastAt flag str k ∧ LastAt flag.reverse str m ∧ k + 1 = m + flag.length

theorem rfind_right {pattern : Bytes → Bytes → Option (Int × Int)} {str flag : Bytes} (hflag : nospecials flag = true) :
    RfindRight pattern str flag ↔ Mirrored str flag := by
  by_cases ho : ∃ k, OccursAt flag str k
  · obtain ⟨k₀, hk₀⟩ := ho
    obtain ⟨k, hk⟩ := exists_lastAt hk₀
    constructor
    · rintro ⟨h, -⟩
      have hret := h k hk
      by_cases hr : ∃ m, OccursAt flag.reverse str m
      · obtain ⟨m₀, hm₀⟩ := hr
        obtain ⟨m, hm⟩ := exists_lastAt hm₀
        rw [rfind_some hflag hm] at hret
        exact .inr ⟨k, m, hk, hm, (Int.ofNat.inj (Option.some.inj hret)).symm⟩
      · rw [(rfind_none hflag).2 (not_exists.1 hr)] at hret
        cases hret
    · rintro (⟨hno, -⟩ | ⟨k', m, hk', hm, heq⟩)
      · exact absurd hk₀ (hno k₀)
      · refine ⟨fun j hj => ?_, fun hno => absurd hk₀ (hno k₀)⟩
        rw [rfind_some hflag hm, hj.unique hk', heq]
  · have hno := not_exists.1 ho
    constructor
    · exact fun h => .inl ⟨hno, (rfind_none hflag).1 (h.2 hno)⟩
    · rintro (⟨-, hr⟩ | ⟨k, m, hk, -⟩)
      · exact ⟨fun k hk => absurd hk.1 (hno k), fun _ => (rfind_none hflag).2 hr⟩
      · exact absurd hk.1 (hno k)

/-- A flag of one byte is its own reverse. -/
theorem mirrored_byte (str : Bytes) (c : UInt8) : Mirrored str [c] := by
  by_cases ho : ∃ k, OccursAt [c] str k
  · obtain ⟨k₀, hk₀⟩ := ho
    obtain ⟨k, hk⟩ := exists_lastAt hk₀
    exact .inr ⟨k, k, hk, hk, rfl⟩
  · exact .inl ⟨not_exists.1 ho, not_exists.1 ho⟩

/-- **When the functions are right**: `string.rfind` if the flag and its reverse occur as `Mirrored` says, as for a flag
of one byte; `string.endwith` if the string does not end in the flag. -/
theorem suffix_exact (pattern : Bytes → Bytes → Option (Int × Int)) (str flag : Bytes)
    (hflag : nospecials flag = true) :
    (RfindRight pattern str flag ↔ Mirrored str flag) ∧ (EndwithRight pattern str flag ↔ ¬flag <:+ str) := by
  refine ⟨rfind_right hflag, ?_⟩
  unfold EndwithRight
  exact (iff_congr (iff_false_intro endwith_ne_true) Iff.rfl).trans (iff_of_eq (false_iff _))

/-- `"a/b"` and the flag `"/"`. -/
theorem suffix_exact_slash :
    (RfindRight (fun _ _ => none) [97, 47, 98] [47] ↔ Mirrored [97, 47, 98] [47]) ∧
    (EndwithRight (fun _ _ => none) [97, 47, 98] [47] ↔ ¬[47] <:+ ([97, 47, 98] : Bytes)) :=
  suffix_exact _ _ _ rfl

/-- `string.endwith("ab", "b")` is not true. -/
theorem endwith_byte : ¬∀ (pattern : Bytes → Bytes → Option (Int × Int)) (str flag : Bytes), flag ≠ [] →
    nospecials flag → RfindRight pattern str flag ∧ EndwithRight pattern str flag := by
  intro h
  have hend := (h (fun _ _ => none) [97, 98] [98] (List.cons_ne_nil _ _) rfl).2.2 ⟨[97], rfl⟩
  exact endwith_ne_true hend

end XCore.Utils
