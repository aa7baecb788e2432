import Mathlib.Tactic.Ring
import XCore.Lua.Str

/-!
# `string.pack` and `string.unpack` on fixed-width integers

Little-endian, without alignment. `unpackU` is `string.unpack` of one unsigned item at a position (`str_unpack`), with
its two errors; `packU` is `string.pack` of one unsigned item (`str_pack`), with its overflow check. A packed value is
read back by `unpackU` wherever it stands (`unpackU_packU`).
-/

namespace XCore.Lua

/-- The value of a little-endian byte string. -/
def leNat : Bytes → Nat
  | [] => 0
  | b :: s => b.toNat + 256 * leNat s

/-- The `n` low bytes of a value, little-endian. -/
def leBytes : Nat → Nat → Bytes
  | 0, _ => []
  | n + 1, v => UInt8.ofNat (v % 256) :: leBytes n (v / 256)

/-- `string.unpack` of an unsigned item of `n` bytes at position `pos`: the value and the next position. -/
def unpackU (n : Nat) (s : Bytes) (pos : Int) : Except LuaError (Nat × Int) :=
  let p := posrelat pos s.length - 1
  if p < 0 ∨ (s.length : Int) < p then .error .posOutOfString
  else if (s.length : Int) < p + n then .error .dataTooShort
  else .ok (leNat ((s.drop p.toNat).take n), p + n + 1)

/-- `string.pack` of an unsigned item of `n` bytes. -/
def packU (n : Nat) (v : Nat) : Except LuaError Bytes :=
  if v < 256 ^ n then .ok (leBytes n v) else .error .packOverflow

@[simp] theorem length_leBytes (n v : Nat) : (leBytes n v).length = n := by
  induction n generalizing v with
  | zero => rfl
  | succ n ih => simp [leBytes, ih]

theorem leNat_leBytes : ∀ (n v : Nat), leNat (leBytes n v) = v % 256 ^ n
  | 0, v => by simp [leBytes, leNat, Nat.mod_one]
  | n + 1, v => by
    have hb : (UInt8.ofNat (v % 256)).toNat = v % 256 := by simp
    rw [leBytes, leNat, leNat_leBytes n, hb, Nat.pow_succ, Nat.mul_comm (256 ^ n), Nat.mod_mul]

theorem leNat_lt : ∀ s : Bytes, leNat s < 256 ^ s.length
  | [] => by simp [leNat]
  | b :: s => by
    have ih := leNat_lt s
    have hb := b.toNat_lt
    rw [leNat, List.length_cons, Nat.pow_succ]
    omega

theorem leBytes_leNat : ∀ s : Bytes, leBytes s.length (leNat s) = s
  | [] => rfl
  | b :: s => by
    have hb := b.toNat_lt
    have hmod : (b.toNat + 256 * leNat s) % 256 = b.toNat := by omega
    have hdiv : (b.toNat + 256 * leNat s) / 256 = leNat s := by omega
    simp only [List.length_cons, leNat, leBytes, hmod, hdiv, leBytes_leNat s, UInt8.ofNat_toNat]

theorem unpackU_eq {n : Nat} {s : Bytes} {p : Nat} (h : p + n ≤ s.length) :
    unpackU n s (p + 1) = .ok (leNat ((s.drop p).take n), p + n + 1) := by
  have hp : posrelat ((p : Int) + 1) s.length - 1 = p := by simp only [posrelat]; split <;> omega
  simp only [unpackU, hp]
  rw [if_neg (by omega), if_neg (by omega)]
  simp

theorem unpackU_short {n : Nat} {s : Bytes} {p : Nat} (h : s.length < p + n) :
    ∃ e, unpackU n s (p + 1) = .error e := by
  have hp : posrelat ((p : Int) + 1) s.length - 1 = p := by simp only [posrelat]; split <;> omega
  simp only [unpackU, hp]
  split
  · exact ⟨_, rfl⟩
  · rw [if_pos (by omega)]; exact ⟨_, rfl⟩

/-- A packed value is read back where it stands. -/
theorem unpackU_packU {n v : Nat} (hv : v < 256 ^ n) (pre post : Bytes) :
    unpackU n (pre ++ leBytes n v ++ post) (pre.length + 1) = .ok (v, pre.length + n + 1) := by
  rw [unpackU_eq (by simp)]
  have hd : ((pre ++ leBytes n v ++ post).drop pre.length).take n = leBytes n v := by
    simp
  rw [hd, leNat_leBytes, Nat.mod_eq_of_lt hv]

end XCore.Lua
