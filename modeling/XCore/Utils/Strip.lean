import Mathlib.Data.List.DropRight
import XCore.Utils.Split

/-!
# `string.strip` (`utils.lua`)

`string.lstrip` looks for the first byte that is not to be stripped and returns nothing if there is none. The loop of
`string.rstrip` counts from the length of the string to 1 but with the step 1, so that it goes round for strings of one
byte only (and, with the empty substring, for the empty string).

- `forRange`: a numeric `for` with the step 1;
- `lstrip_chars`, `rstrip_chars`, `strip_chars`: what the functions return;
- `strip_exact`: when they are right.
-/

namespace XCore.Utils

open XCore.Lua XCore.Occur

/-! ## The functions -/

/-- The rounds of `for k=a,b`. -/
def forRange (a b : Int) : List Int := (List.range (b + 1 - a).toNat).map fun i : Nat => a + i

/-- `%s`. -/
def isspace (c : UInt8) : Bool := c = 32 ∨ 9 ≤ c ∧ c ≤ 13

/-- `string.lstrip`; without `chars` it is `string.gsub(str, "^%s*", "")`. -/
def lstrip (str : Bytes) : Option Bytes → Option Bytes
  | some chars => (forRange 1 str.length).findSome? fun k =>
    if find chars (sub str k k) 1 = none then some (subFrom str k) else none
  | none => some (str.dropWhile isspace)

/-- `string.rstrip`; without `chars` it is `string.gsub(str, "%s*$", "")`. -/
def rstrip (str : Bytes) : Option Bytes → Option Bytes
  | some chars => (forRange str.length 1).findSome? fun k =>
    if find chars (sub str k k) 1 = none then some (sub str 1 k) else none
  | none => some (str.rdropWhile isspace)

/-- `string.strip`: `#str` of nil raises. -/
def strip (str : Bytes) (chars : Option Bytes) : Except LuaError (Option Bytes) :=
  match lstrip str chars with
  | none => .error .lenNil
  | some str => .ok (rstrip str chars)

/-! ## What they return -/

section Chars

variable {str chars : Bytes}

/-- A byte of a set of bytes. -/
def among (chars : Bytes) (c : UInt8) : Bool := c ∈ chars

theorem find_first (p : Bytes) : find chars p 1 = none ↔ ∀ k, ¬OccursAt p chars k := by
  have h := find_from (p := p) (Nat.zero_le chars.length)
  have h1 : find chars p 1 = _ := h
  rw [h1, Option.map_eq_none_iff, List.drop_zero, idxOf_eq_none]

theorem find_byte (c : UInt8) : find chars [c] 1 = none ↔ c ∉ chars := by
  rw [find_first, ← not_exists, not_iff_not]
  constructor
  · rintro ⟨k, a, b, rfl, -⟩
    exact List.mem_append_right a (List.mem_append_left b (List.mem_singleton_self c))
  · intro h
    obtain ⟨a, b, rfl⟩ := List.append_of_mem h
    exact ⟨a.length, a, b, rfl, rfl⟩

theorem find_empty : find chars [] 1 ≠ none := by
  rw [ne_eq, find_first]
  exact fun h => h 0 (occursAt_zero.2 List.nil_prefix)

/-- The loop of `string.lstrip`, in terms of what is left of the string. -/
theorem findSome_drop : ∀ s : Bytes, ((List.range s.length).findSome? fun i =>
    if find chars ((s.drop i).take 1) 1 = none then some (s.drop i) else none) =
      if s.dropWhile (among chars) = [] then none else some (s.dropWhile (among chars))
  | [] => rfl
  | c :: s => by
    rw [List.length_cons, List.range_succ_eq_map, List.findSome?_cons, List.findSome?_map]
    by_cases hc : c ∈ chars
    · have hno : ¬find chars (((c :: s).drop 0).take 1) 1 = none := fun h => (find_byte c).1 h hc
      have hpos : among chars c = true := decide_eq_true hc
      rw [if_neg hno, List.dropWhile_cons_of_pos hpos]
      exact findSome_drop s
    · have hyes : find chars (((c :: s).drop 0).take 1) 1 = none := (find_byte c).2 hc
      have hneg : ¬among chars c = true := fun h => hc (of_decide_eq_true h)
      rw [if_pos hyes, List.dropWhile_cons_of_neg hneg, if_neg (List.cons_ne_nil c s)]
      rfl

/-- **`string.lstrip`** returns what is left, or nothing when nothing is left. -/
theorem lstrip_chars : lstrip str (some chars) =
    if str.dropWhile (among chars) = [] then none else some (str.dropWhile (among chars)) := by
  rw [← findSome_drop, lstrip, forRange, List.findSome?_map,
    show ((str.length : Int) + 1 - 1).toNat = str.length by omega]
  congr 1
  funext i
  have hk : (1 : Int) + i = (i + 1 : Nat) := by omega
  rw [Function.comp_apply, hk, sub_eq str (by omega), subFrom_eq str (by omega), Nat.add_sub_cancel,
    Nat.add_sub_cancel_left]

/-- **`string.rstrip`** returns a string of one byte that is not stripped, and nothing else. -/
theorem rstrip_chars : ∀ str : Bytes, rstrip str (some chars) = match str with
    | [c] => if c ∈ chars then none else some [c]
    | _ => none
  | [] => by
    have h0 : sub [] 0 0 = [] := rfl
    have h1 : sub [] 1 1 = [] := rfl
    rw [rstrip, show forRange (([] : Bytes).length : Nat) 1 = [0, 1] from rfl]
    simp only [List.findSome?_cons, List.findSome?_nil, h0, h1, if_neg find_empty]
  | [c] => by
    have h1 : sub [c] 1 1 = [c] := rfl
    rw [rstrip, show forRange ([c].length : Nat) 1 = [1] from rfl, List.findSome?_singleton, h1]
    by_cases hc : c ∈ chars
    · exact (if_neg fun h => (find_byte c).1 h hc).trans (if_pos hc).symm
    · exact (if_pos ((find_byte c).2 hc)).trans (if_neg hc).symm
  | c :: d :: s => by
    have hrange : ((1 : Int) + 1 - ((c :: d :: s).length : Nat)).toNat = 0 := by
      rw [List.length_cons, List.length_cons]
      omega
    rw [rstrip, forRange, hrange]
    rfl

theorem strip_chars : strip str (some chars) = if str.dropWhile (among chars) = [] then .error .lenNil
    else .ok (rstrip (str.dropWhile (among chars)) (some chars)) := by
  rw [strip, lstrip_chars]
  split
  · next h =>
    split at h
    · rw [if_pos ‹_›]
    · cases h
  · next h =>
    split at h
    · cases h
    · cases h
      rw [if_neg ‹_›]

/-! ## When they are right -/

/-- `string.lstrip` removes the longest prefix of bytes in `chars`. -/
def LstripRight (str chars : Bytes) : Prop := lstrip str (some chars) = some (str.dropWhile (among chars))

/-- `string.rstrip` removes the longest such suffix. -/
def RstripRight (str chars : Bytes) : Prop := rstrip str (some chars) = some (str.rdropWhile (among chars))

/-- `string.strip` removes both. -/
def StripRight (str chars : Bytes) : Prop :=
  strip str (some chars) = .ok (some ((str.dropWhile (among chars)).rdropWhile (among chars)))

theorem lstrip_right : LstripRight str chars ↔ ∃ c ∈ str, c ∉ chars := by
  have hnil : str.dropWhile (among chars) = [] ↔ ∀ c ∈ str, c ∈ chars := by
    rw [List.dropWhile_eq_nil_iff]
    exact forall₂_congr fun c _ => decide_eq_true_iff
  unfold LstripRight
  rw [lstrip_chars]
  split
  · next h =>
    refine iff_of_false (fun h => by cases h) ?_
    rintro ⟨c, hc, hno⟩
    exact hno (hnil.1 h c hc)
  · next h =>
    refine iff_of_true rfl ?_
    by_contra hno
    exact h (hnil.2 fun c hc => by_contra fun hc' => hno ⟨c, hc, hc'⟩)

theorem rstrip_right : RstripRight str chars ↔ ∃ c, str = [c] ∧ c ∉ chars := by
  unfold RstripRight
  rw [rstrip_chars]
  split
  · next c =>
    by_cases hc : c ∈ chars
    · rw [if_pos hc]
      refine iff_of_false (fun h => by cases h) ?_
      rintro ⟨d, heq, hd⟩
      cases heq
      exact hd hc
    · have hneg : ¬among chars c = true := fun h => hc (of_decide_eq_true h)
      rw [if_neg hc, List.rdropWhile_singleton, if_neg hneg]
      exact iff_of_true rfl ⟨c, rfl, hc⟩
  · next hno =>
    refine iff_of_false (fun h => by cases h) ?_
    rintro ⟨c, rfl, -⟩
    exact hno c rfl

theorem strip_right : StripRight str chars ↔ ∃ c, str.dropWhile (among chars) = [c] := by
  have hiff : StripRight str chars ↔ ∃ c, str.dropWhile (among chars) = [c] ∧ c ∉ chars := by
    unfold StripRight
    rw [strip_chars]
    split
    · next h =>
      refine iff_of_false (fun h => by cases h) ?_
      rintro ⟨c, hc, -⟩
      rw [h] at hc
      cases hc
    · rw [← rstrip_right, RstripRight]
      exact ⟨fun h => Except.ok.inj h, congrArg _⟩
  rw [hiff]
  refine exists_congr fun c => and_iff_left_of_imp fun h hc => ?_
  -- what is left does not begin with a byte that is stripped
  have hhead := List.head?_dropWhile_not (among chars) str
  rw [h] at hhead
  exact absurd (decide_eq_true hc) (by simpa [among] using hhead)

end Chars

/-- **When the functions are right**: `string.lstrip` if something is left; `string.rstrip` for a string of one byte
that is not stripped; `string.strip` if one byte is left of the end of the prefix; and so all three for one byte that is
not stripped. -/
theorem strip_exact (str chars : Bytes) :
    (LstripRight str chars ↔ ∃ c ∈ str, c ∉ chars) ∧
    (RstripRight str chars ↔ ∃ c, str = [c] ∧ c ∉ chars) ∧
    (StripRight str chars ↔ ∃ c, str.dropWhile (among chars) = [c]) ∧
    (LstripRight str chars ∧ RstripRight str chars ∧ StripRight str chars ↔ ∃ c, str = [c] ∧ c ∉ chars) := by
  refine ⟨lstrip_right, rstrip_right, strip_right, ?_⟩
  rw [lstrip_right, rstrip_right, strip_right]
  constructor
  · exact fun h => h.2.1
  · rintro ⟨c, rfl, hc⟩
    refine ⟨⟨c, List.mem_singleton_self c, hc⟩, ⟨c, rfl, hc⟩, c, ?_⟩
    exact List.dropWhile_cons_of_neg fun h => hc (of_decide_eq_true h)

/-- Nothing is left of `"ab"` without the spaces at its end, and `string.strip` raises for a string of spaces. -/
theorem strip_spaces : ¬∀ str chars : Bytes, LstripRight str chars ∧ RstripRight str chars ∧ StripRight str chars := by
  intro h
  have hr := (h [97, 98, 32] [32]).2.1
  cases hr

end XCore.Utils
