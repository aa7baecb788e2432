import XCore.Lua.Number
import XCore.Lua.Pack
import XCore.Lua.Single

/-!
# `string.pack` and `string.unpack` of numbers

The format letters for numbers of fixed width. `packFmt` is `string.pack(fmt, x)` and `unpackFmt` is `string.unpack(fmt,
s, pos)`. `Fmt.Holds` are the numbers that a format has, and these are packed in as many bytes as the format takes
(`packFmt_holds`) and read back from them (`unpackFmt_eq`).
-/

namespace XCore.Lua

/-- A format letter: upper case is unsigned. -/
inductive Fmt
  | B
  | H
  | I
  | J
  | b
  | h
  | i
  | j
  | f
  | d
  deriving DecidableEq

namespace Fmt

/-- The number of bytes. -/
def size : Fmt → Nat
  | B | b => 1
  | H | h => 2
  | I | i | f => 4
  | J | j | d => 8

/-- The number that bytes with a value stand for. -/
def value : Fmt → Nat → Number
  | B, n | H, n | I, n => .int n
  | J, n | j, n => .int (wrap n)
  | b, n => .int ((n : Int).bmod (2 ^ 8))
  | h, n => .int ((n : Int).bmod (2 ^ 16))
  | i, n => .int ((n : Int).bmod (2 ^ 32))
  | f, n => .flt (UInt64.ofNat (widen n))
  | d, n => .flt (UInt64.ofNat n)

end Fmt

/-- The bits of a number as a `double`. -/
def Number.bits : Number → Nat
  | int n => (Float.ofInt n).toBits.toNat
  | flt b => b.toNat

/-- `string.unpack(fmt, s, pos)`: the number and the next position. -/
def unpackFmt (fmt : Fmt) (s : Bytes) (pos : Int) : Except LuaError (Number × Int) :=
  (unpackU fmt.size s pos).map fun r => (fmt.value r.1, r.2)

/-- The bytes of an integer of `n` bytes, in two's complement. -/
def intBytes (n : Nat) (x : Int) : Bytes := leBytes n (x % 256 ^ n).toNat

/-- An integer of `n` bytes (`luaL_checkinteger`). -/
def packInteger (n : Nat) (x : Number) : Except LuaError Bytes :=
  match x.toInteger with
  | none => .error .noInteger
  | some x => .ok (intBytes n x)

/-- An integer between bounds (`luaL_argcheck`). -/
def packInt (n : Nat) (lo hi : Int) (x : Number) : Except LuaError Bytes :=
  match x.toInteger with
  | none => .error .noInteger
  | some x => if lo ≤ x ∧ x < hi then .ok (intBytes n x) else .error .packOverflow

/-- `string.pack(fmt, x)`. Integers of eight bytes have no bounds. -/
def packFmt : Fmt → Number → Except LuaError Bytes
  | .B, x => packInt 1 0 (2 ^ 8) x
  | .H, x => packInt 2 0 (2 ^ 16) x
  | .I, x => packInt 4 0 (2 ^ 32) x
  | .b, x => packInt 1 (-2 ^ 7) (2 ^ 7) x
  | .h, x => packInt 2 (-2 ^ 15) (2 ^ 15) x
  | .i, x => packInt 4 (-2 ^ 31) (2 ^ 31) x
  | .J, x | .j, x => packInteger 8 x
  | .f, x => .ok (leBytes 4 (narrow x.bits))
  | .d, x => .ok (leBytes 8 x.bits)

/-- The numbers of a format: integers in its range, and floats that it has exactly. -/
def Fmt.Holds : Fmt → Number → Prop
  | .B, .int x => 0 ≤ x ∧ x < 2 ^ 8
  | .H, .int x => 0 ≤ x ∧ x < 2 ^ 16
  | .I, .int x => 0 ≤ x ∧ x < 2 ^ 32
  | .b, .int x => -2 ^ 7 ≤ x ∧ x < 2 ^ 7
  | .h, .int x => -2 ^ 15 ≤ x ∧ x < 2 ^ 15
  | .i, .int x => -2 ^ 31 ≤ x ∧ x < 2 ^ 31
  | .J, .int x | .j, .int x => Fits x
  | .f, .flt x => ∃ b, Quiet b ∧ x = UInt64.ofNat (widen b)
  | .d, .flt _ => True
  | _, _ => False

@[simp] theorem length_intBytes (n : Nat) (x : Int) : (intBytes n x).length = n := length_leBytes n _

theorem leNat_intBytes (n : Nat) (x : Int) : (leNat (intBytes n x) : Int) = x % 256 ^ n := by
  have hpos : (0 : Int) < 256 ^ n := by positivity
  have h1 := Int.emod_nonneg x hpos.ne'
  have h2 := Int.emod_lt_of_pos x hpos
  have hlt : (x % 256 ^ n).toNat < 256 ^ n := by zify; rwa [Int.toNat_of_nonneg h1]
  rw [intBytes, leNat_leBytes, Nat.mod_eq_of_lt hlt, Int.toNat_of_nonneg h1]

theorem packInt_int {n : Nat} {lo hi x : Int} (h : lo ≤ x ∧ x < hi) :
    packInt n lo hi (.int x) = .ok (intBytes n x) := by
  simp only [packInt, Number.toInteger_int, if_pos h]

/-- The residue in two's complement is the number itself. -/
theorem bmod_intBytes {n m : Nat} {x : Int} (hm : (m : Int) = 256 ^ n) (h1 : -(m : Int) ≤ 2 * x) (h2 : 2 * x < m) :
    (leNat (intBytes n x) : Int).bmod m = x := by
  rw [leNat_intBytes, ← hm, Int.emod_bmod, Int.bmod_eq_of_le_mul_two]
  · omega
  · omega

/-- **What is packed is read back**, from as many bytes as the format takes. -/
theorem packFmt_holds {fmt : Fmt} {x : Number} (h : fmt.Holds x) :
    ∃ s, packFmt fmt x = .ok s ∧ s.length = fmt.size ∧ fmt.value (leNat s) = x := by
  have hunsigned : ∀ {n : Nat} {x : Int}, 0 ≤ x → x < 256 ^ n → Number.int (leNat (intBytes n x)) = .int x := by
    intro n x h1 h2
    rw [leNat_intBytes, Int.emod_eq_of_lt h1 h2]
  have hsigned : ∀ {n m : Nat} {x : Int}, (m : Int) = 256 ^ n → -(m : Int) ≤ 2 * x → 2 * x < m →
      Number.int ((leNat (intBytes n x) : Int).bmod m) = .int x := by
    intro n m x hm h1 h2
    rw [bmod_intBytes hm h1 h2]
  match fmt, x, h with
  | .B, .int x, h => exact ⟨_, packInt_int h, length_intBytes 1 x, hunsigned h.1 h.2⟩
  | .H, .int x, h => exact ⟨_, packInt_int h, length_intBytes 2 x, hunsigned h.1 h.2⟩
  | .I, .int x, h => exact ⟨_, packInt_int h, length_intBytes 4 x, hunsigned h.1 h.2⟩
  | .b, .int x, ⟨h1, h2⟩ =>
    exact ⟨_, packInt_int ⟨h1, h2⟩, length_intBytes 1 x, hsigned (by norm_num) (by omega) (by omega)⟩
  | .h, .int x, ⟨h1, h2⟩ =>
    exact ⟨_, packInt_int ⟨h1, h2⟩, length_intBytes 2 x, hsigned (by norm_num) (by omega) (by omega)⟩
  | .i, .int x, ⟨h1, h2⟩ =>
    exact ⟨_, packInt_int ⟨h1, h2⟩, length_intBytes 4 x, hsigned (by norm_num) (by omega) (by omega)⟩
  | .J, .int x, ⟨h1, h2⟩ | .j, .int x, ⟨h1, h2⟩ =>
    exact ⟨_, rfl, length_intBytes 8 x, hsigned (by norm_num) (by omega) (by omega)⟩
  | .f, .flt _, ⟨b, hb, rfl⟩ =>
    have hwiden := widen_lt hb.1
    have hbits : (UInt64.ofNat (widen b)).toNat = widen b := by
      rw [UInt64.toNat_ofNat']
      omega
    have hmod : b % 256 ^ 4 = b := by
      have := hb.1
      omega
    refine ⟨_, rfl, length_leBytes 4 _, ?_⟩
    rw [Number.bits, hbits, narrow_widen hb, leNat_leBytes, hmod]
    rfl
  | .d, .flt x, _ =>
    have hmod : x.toNat % 256 ^ 8 = x.toNat := by
      have := x.toNat_lt
      omega
    refine ⟨_, rfl, length_leBytes 8 _, ?_⟩
    rw [Number.bits, leNat_leBytes, hmod]
    simp [Fmt.value]

/-- A number is read where its bytes stand. -/
theorem unpackFmt_eq {fmt : Fmt} {s t : Bytes} {p : Nat} (ht : t.length = fmt.size) (h : t <+: s.drop p) :
    unpackFmt fmt s (p + 1) = .ok (fmt.value (leNat t), p + fmt.size + 1) := by
  obtain ⟨u, hu⟩ := h
  have hlen := congrArg List.length hu
  simp only [List.length_append, List.length_drop, ht] at hlen
  have hsize : 0 < fmt.size := by cases fmt <;> decide
  rw [unpackFmt, unpackU_eq (by omega), ← hu, List.take_left' ht]
  rfl

end XCore.Lua
