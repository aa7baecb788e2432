import Mathlib.Tactic.Ring

/-!
# Single and double precision

The conversions between `float` and `double` that `string.pack("f", x)` and `string.unpack("f", s)` make, on IEEE 754
bits given as natural numbers. A `float` becomes a `double` exactly (`widen`), and a `double` becomes a `float` by
rounding to nearest, ties to even (`narrow`); both make a NaN quiet. So a `float` that is no signalling NaN comes back
(`narrow_widen`).
-/

namespace XCore.Lua

/-- A significand of a NaN with `n` bits, made quiet. -/
def quiet (n m : Nat) : Nat := if m < 2 ^ (n - 1) then m + 2 ^ (n - 1) else m

/-- The exponent and the significand of a `float` as those of a `double`. -/
def widenAbs (e m : Nat) : Nat :=
  if e = 255 then 2047 * 2 ^ 52 + (if m = 0 then 0 else quiet 23 m) * 2 ^ 29
  else if e = 0 then
    if m = 0 then 0 else (m.log2 + 874) * 2 ^ 52 + (m * 2 ^ (52 - m.log2) - 2 ^ 52)
  else (e + 896) * 2 ^ 52 + m * 2 ^ 29

/-- The bits of a `float` as the bits of a `double`. -/
def widen (b : Nat) : Nat := b / 2 ^ 31 * 2 ^ 63 + widenAbs (b / 2 ^ 23 % 2 ^ 8) (b % 2 ^ 23)

/-- `n` divided by `2 ^ k`, rounded to nearest, ties to even. -/
def roundShift (n k : Nat) : Nat :=
  let q := n / 2 ^ k
  let r := n % 2 ^ k
  if 2 ^ k < 2 * r ∨ (2 * r = 2 ^ k ∧ q % 2 = 1) then q + 1 else q

/-- The exponent and the significand of a `double` as those of a `float`. -/
def narrowAbs (e m : Nat) : Nat :=
  if e = 2047 then 255 * 2 ^ 23 + (if m = 0 then 0 else quiet 23 (m / 2 ^ 29))
  else
    let sig := if e = 0 then m else 2 ^ 52 + m
    let exp := max e 1
    -- below the least normal exponent the bits of a subnormal number are left
    let b := (exp - 897) * 2 ^ 23 + roundShift sig (29 + (897 - exp))
    min b (255 * 2 ^ 23)

/-- The bits of a `double` as the bits of a `float`. -/
def narrow (b : Nat) : Nat := b / 2 ^ 63 * 2 ^ 31 + narrowAbs (b / 2 ^ 52 % 2 ^ 11) (b % 2 ^ 52)

/-- The bits of a `float` that is no signalling NaN. -/
def Quiet (b : Nat) : Prop := b < 2 ^ 32 ∧ (b / 2 ^ 23 % 2 ^ 8 = 255 → b % 2 ^ 23 = 0 ∨ 2 ^ 22 ≤ b % 2 ^ 23)

theorem roundShift_mul (q k : Nat) : roundShift (q * 2 ^ k) k = q := by
  have hpos : 0 < 2 ^ k := Nat.two_pow_pos k
  have hmod : q * 2 ^ k % 2 ^ k = 0 := Nat.mul_mod_left q (2 ^ k)
  simp only [roundShift, Nat.mul_div_cancel q hpos, hmod]
  rw [if_neg (by omega)]

theorem quiet_of_le {n m : Nat} (h : 2 ^ (n - 1) ≤ m) : quiet n m = m := if_neg (Nat.not_lt.2 h)

/-- A finite `double` is rounded. -/
theorem narrowAbs_finite {e m : Nat} (he : e ≠ 2047) : narrowAbs e m = min ((max e 1 - 897) * 2 ^ 23 +
    roundShift (if e = 0 then m else 2 ^ 52 + m) (29 + (897 - max e 1))) (255 * 2 ^ 23) := by
  rw [narrowAbs, if_neg he]

/-- The leading bit of a subnormal significand. -/
theorem log2_bounds {m : Nat} (h0 : m ≠ 0) (h : m < 2 ^ 23) :
    m.log2 ≤ 22 ∧ 2 ^ 52 ≤ m * 2 ^ (52 - m.log2) ∧ m * 2 ^ (52 - m.log2) < 2 ^ 53 := by
  have hlt : m.log2 < 23 := (Nat.log2_lt h0).2 h
  have hle : 2 ^ m.log2 ≤ m := Nat.log2_self_le h0
  have hgt : m < 2 ^ (m.log2 + 1) := Nat.lt_log2_self
  have hsplit : (2 : Nat) ^ 52 = 2 ^ m.log2 * 2 ^ (52 - m.log2) := by
    rw [← Nat.pow_add]
    congr 1
    omega
  refine ⟨by omega, ?_, ?_⟩
  · rw [hsplit]
    exact Nat.mul_le_mul_right _ hle
  · calc m * 2 ^ (52 - m.log2) < 2 ^ (m.log2 + 1) * 2 ^ (52 - m.log2) :=
          Nat.mul_lt_mul_of_pos_right hgt (Nat.two_pow_pos _)
      _ = 2 ^ 53 := by
        rw [← Nat.pow_add]
        congr 1
        omega

/-- The exponent and the significand of the `double`. -/
theorem widenAbs_eq {e m : Nat} (he : e < 2 ^ 8) (hm : m < 2 ^ 23) : ∃ e' m', widenAbs e m = e' * 2 ^ 52 + m' ∧
    e' < 2 ^ 11 ∧ m' < 2 ^ 52 ∧ ((e = 255 → m = 0 ∨ 2 ^ 22 ≤ m) → narrowAbs e' m' = e * 2 ^ 23 + m) := by
  unfold widenAbs
  by_cases hnan : e = 255
  · rw [if_pos hnan]
    refine ⟨2047, _, rfl, by decide, ?_, fun hq => ?_⟩
    · unfold quiet
      split
      · decide
      · split <;> omega
    · rw [narrowAbs, if_pos rfl, hnan]
      rcases hq hnan with rfl | hq
      · simp
      · rw [if_neg (by omega : m ≠ 0), quiet_of_le hq, if_neg (by omega), Nat.mul_div_cancel m (by decide),
          quiet_of_le hq]
  rw [if_neg hnan]
  by_cases hzero : e = 0
  · rw [if_pos hzero]
    by_cases hm0 : m = 0
    · refine ⟨0, 0, by simp [hm0], by decide, by decide, fun _ => ?_⟩
      have hround : roundShift 0 (29 + (897 - max 0 1)) = 0 := by
        simpa only [Nat.zero_mul] using roundShift_mul 0 (29 + (897 - max 0 1))
      rw [narrowAbs_finite (by decide), if_pos rfl, hround, hzero, hm0]
      rfl
    · obtain ⟨hk, h1, h2⟩ := log2_bounds hm0 hm
      refine ⟨m.log2 + 874, m * 2 ^ (52 - m.log2) - 2 ^ 52, by rw [if_neg hm0], by omega, by omega, fun _ => ?_⟩
      have hsig : 2 ^ 52 + (m * 2 ^ (52 - m.log2) - 2 ^ 52) = m * 2 ^ (52 - m.log2) := by omega
      have hshift : 29 + (897 - max (m.log2 + 874) 1) = 52 - m.log2 := by omega
      rw [narrowAbs_finite (by omega), if_neg (by omega), hsig, hshift, roundShift_mul, hzero]
      omega
  · rw [if_neg hzero]
    refine ⟨e + 896, m * 2 ^ 29, rfl, by omega, by omega, fun _ => ?_⟩
    have hsig : 2 ^ 52 + m * 2 ^ 29 = (2 ^ 23 + m) * 2 ^ 29 := by omega
    have hshift : 29 + (897 - max (e + 896) 1) = 29 := by omega
    rw [narrowAbs_finite (by omega), if_neg (by omega), hsig, hshift, roundShift_mul]
    omega

/-- **A `float` comes back.** -/
theorem narrow_widen {b : Nat} (h : Quiet b) : narrow (widen b) = b := by
  obtain ⟨hb, hq⟩ := h
  obtain ⟨e', m', hw, he', hm', hn⟩ := widenAbs_eq (e := b / 2 ^ 23 % 2 ^ 8) (m := b % 2 ^ 23) (by omega) (by omega)
  have hsign : b / 2 ^ 31 < 2 := by omega
  have hexp : widen b / 2 ^ 52 % 2 ^ 11 = e' := by rw [widen, hw]; omega
  have hsig : widen b % 2 ^ 52 = m' := by rw [widen, hw]; omega
  have hsgn : widen b / 2 ^ 63 = b / 2 ^ 31 := by rw [widen, hw]; omega
  rw [narrow, hexp, hsig, hsgn, hn hq]
  omega

theorem widen_lt {b : Nat} (hb : b < 2 ^ 32) : widen b < 2 ^ 64 := by
  obtain ⟨e', m', hw, he', hm', -⟩ := widenAbs_eq (e := b / 2 ^ 23 % 2 ^ 8) (m := b % 2 ^ 23) (by omega) (by omega)
  rw [widen, hw]
  omega

/-- `1.5`, and a third in double precision. -/
example : widen 0x3fc00000 = 0x3ff8000000000000 ∧ narrow 0x3fd5555555555555 = 0x3eaaaaab := by decide

end XCore.Lua
