import Mathlib.Data.List.TakeWhile
import Mathlib.Data.Nat.Digits.Defs
import XCore.Lua.Str

/-!
# Numbers of Lua 5.3

A number is a 64-bit integer or a float (`Number`). Integer arithmetic wraps (`wrap`), an operation with a float operand
is done in floats, and comparisons between the two are exact (`lvm.c`). Floats are kept as their IEEE 754 bits, so that
numbers have decidable equality, and computed with Lean's `Float`.

`tonumber` follows `luaO_str2num`: first an integer (`l_str2int`, decimal or hexadecimal, wrapping), then a float
(`l_str2d`, the C function `strtod` without `inf` and `nan`). `dec` is the format `%d`; reading it back is exact
(`tonumber_dec`), also before trailing blanks.
-/

namespace XCore.Lua

/-! ## Integers -/

/-- An integer in two's complement. -/
def wrap (n : Int) : Int := n.bmod (2 ^ 64)

/-- Representable as `lua_Integer`. -/
def Fits (n : Int) : Prop := -2 ^ 63 ≤ n ∧ n < 2 ^ 63

instance (n : Int) : Decidable (Fits n) := inferInstanceAs (Decidable (_ ∧ _))

theorem wrap_of_fits {n : Int} (h : Fits n) : wrap n = n := by
  obtain ⟨h1, h2⟩ := h
  rw [wrap, Int.bmod_def]
  split <;> omega

theorem Fits.of_small {n : Int} {b : Int} (hb : b ≤ 2 ^ 62) (h1 : -b ≤ n) (h2 : n ≤ b) : Fits n :=
  ⟨by omega, by omega⟩

/-! ## Numbers -/

/-- A Lua number. -/
inductive Number
  | int (n : Int)
  | flt (bits : UInt64)
  deriving DecidableEq

namespace Number

/-- `cast_num`. -/
def toFloat : Number → Float
  | int n => Float.ofInt n
  | flt b => Float.ofBits b

/-- A float result. -/
def ofFloat (x : Float) : Number := flt x.toBits

/-- `a + b`. -/
def add : Number → Number → Number
  | int a, int b => int (wrap (a + b))
  | a, b => ofFloat (a.toFloat + b.toFloat)

/-- `a - b`. -/
def sub : Number → Number → Number
  | int a, int b => int (wrap (a - b))
  | a, b => ofFloat (a.toFloat - b.toFloat)

/-- `a * b`. -/
def mul : Number → Number → Number
  | int a, int b => int (wrap (a * b))
  | a, b => ofFloat (a.toFloat * b.toFloat)

/-- The float `-2^63`, the least integer as a float. -/
def minFloat : Float := Float.ofInt (-2 ^ 63)

/-- `l_intfitsf`: integers with an exact float. -/
def intFitsFloat (n : Int) : Bool := -2 ^ 53 ≤ n && n ≤ 2 ^ 53

/-- `LTintfloat`. -/
def ltIntFloat (i : Int) (f : Float) : Bool :=
  if intFitsFloat i then Float.ofInt i < f
  else if f ≥ -minFloat then true
  else if f > minFloat then i < f.toInt64.toInt
  else false

/-- `LEintfloat`. -/
def leIntFloat (i : Int) (f : Float) : Bool :=
  if intFitsFloat i then Float.ofInt i ≤ f
  else if f ≥ -minFloat then true
  else if f ≥ minFloat then i ≤ f.toInt64.toInt
  else false

/-- `LTnum`. -/
def lt : Number → Number → Bool
  | int a, int b => a < b
  | int a, flt b => ltIntFloat a (Float.ofBits b)
  | flt a, flt b => Float.ofBits a < Float.ofBits b
  | flt a, int b => if (Float.ofBits a).isNaN then false else !leIntFloat b (Float.ofBits a)

/-- `LEnum`. -/
def le : Number → Number → Bool
  | int a, int b => a ≤ b
  | int a, flt b => leIntFloat a (Float.ofBits b)
  | flt a, flt b => Float.ofBits a ≤ Float.ofBits b
  | flt a, int b => if (Float.ofBits a).isNaN then false else !ltIntFloat b (Float.ofBits a)

/-- `-a`. -/
def neg : Number → Number
  | int a => int (wrap (-a))
  | flt a => ofFloat (-Float.ofBits a)

/-- `lua_numbertointeger`. -/
def floatToInteger (f : Float) : Option Int :=
  if f ≥ minFloat && f < -minFloat then some f.toInt64.toInt else none

/-- An integer argument (`luaL_checkinteger`): a float must have an integral value. -/
def toInteger : Number → Option Int
  | int n => some n
  | flt b =>
    let x := Float.ofBits b
    if x == x.floor then floatToInteger x.floor else none

/-- The number of rounds of `for i = 1, limit` (`forlimit`): a float limit is floored and clipped. -/
def forCount : Number → Nat
  | int n => n.toNat
  | flt b =>
    let x := Float.ofBits b
    match floatToInteger x.floor with
    | some n => n.toNat
    | none => if 0 < x then 2 ^ 63 - 1 else 0

@[simp] theorem add_int (a b : Int) : add (int a) (int b) = int (wrap (a + b)) := rfl

@[simp] theorem sub_int (a b : Int) : sub (int a) (int b) = int (wrap (a - b)) := rfl

@[simp] theorem mul_int (a b : Int) : mul (int a) (int b) = int (wrap (a * b)) := rfl

@[simp] theorem lt_int (a b : Int) : lt (int a) (int b) = decide (a < b) := rfl

@[simp] theorem toInteger_int (n : Int) : toInteger (int n) = some n := rfl

@[simp] theorem forCount_int (n : Int) : forCount (int n) = n.toNat := rfl

end Number

/-! ## Reading a number -/

/-- `lisspace`. -/
def isSpace (c : UInt8) : Bool := c == 32 || (9 ≤ c && c ≤ 13)

/-- `isneg`: an optional sign. -/
def sign : Bytes → Bool × Bytes
  | 45 :: s => (true, s)
  | 43 :: s => (false, s)
  | s => (false, s)

/-- A decimal digit. -/
def digit (c : UInt8) : Option Nat := if 48 ≤ c && c ≤ 57 then some (c.toNat - 48) else none

/-- A hexadecimal digit. -/
def xdigit (c : UInt8) : Option Nat :=
  if 48 ≤ c && c ≤ 57 then some (c.toNat - 48)
  else if 65 ≤ c && c ≤ 70 then some (c.toNat - 55)
  else if 97 ≤ c && c ≤ 102 then some (c.toNat - 87)
  else none

/-- The longest run of digits, and what follows it. -/
def digits (f : UInt8 → Option Nat) : Bytes → List Nat × Bytes
  | [] => ([], [])
  | c :: s => match f c with
    | some d => (d :: (digits f s).1, (digits f s).2)
    | none => ([], c :: s)

/-- The value of a run of digits. -/
def value (base : Nat) (ds : List Nat) : Nat := ds.foldl (fun a d => a * base + d) 0

/-- The base and what follows an optional `0x`. -/
def radix : Bytes → Bool × Bytes
  | 48 :: c :: s => if c == 120 || c == 88 then (true, s) else (false, 48 :: c :: s)
  | s => (false, s)

/-- `l_str2int`. -/
def str2int (s : Bytes) : Option Int :=
  let (neg, s) := sign (s.dropWhile isSpace)
  let (hex, s) := radix s
  let (ds, s) := digits (if hex then xdigit else digit) s
  let a : Int := value (if hex then 16 else 10) ds
  if ds.isEmpty || !(s.dropWhile isSpace).isEmpty then none else some (wrap (if neg then -a else a))

/-- The exponent part of a float numeral, `0` when there is none: a letter, a sign, and at least one digit. -/
def exponent (lower upper : UInt8) : Bytes → Int × Bytes
  | c :: s =>
    if c == lower || c == upper then
      let (neg, t) := sign s
      let (ds, t) := digits digit t
      if ds.isEmpty then (0, c :: s) else (if neg then -(value 10 ds : Int) else value 10 ds, t)
    else (0, c :: s)
  | [] => (0, [])

/-- The digits of a float numeral around an optional point: all digits, how many are after the point, and the rest. -/
def mantissa (f : UInt8 → Option Nat) (s : Bytes) : List Nat × Nat × Bytes :=
  match digits f s with
  | (ds, 46 :: t) => (ds ++ (digits f t).1, (digits f t).1.length, (digits f t).2)
  | (ds, t) => (ds, 0, t)

/-- `m * 10 ^ e`. -/
def decFloat (m : Nat) (e : Int) : Float := Float.ofScientific m (e < 0) e.natAbs

/-- `m * 2 ^ e`. -/
def binFloat (m : Nat) (e : Int) : Float :=
  if e < 0 then Float.ofScientific (m * 5 ^ e.natAbs) true e.natAbs else Float.ofScientific (m * 2 ^ e.natAbs) false 0

/-- `strtod`, without `inf` and `nan`: the value and what follows the numeral. -/
def strtod (s : Bytes) : Option (Float × Bytes) :=
  let (neg, s) := sign (s.dropWhile isSpace)
  let (hex, x) := radix s
  let (hs, hfrac, t) := mantissa xdigit x
  if hex && !hs.isEmpty then
    let (e, t) := exponent 112 80 t
    let v := binFloat (value 16 hs) (e - 4 * hfrac)
    some (if neg then -v else v, t)
  else
    let (ds, frac, t) := mantissa digit s
    if ds.isEmpty then none
    else
      let (e, t) := exponent 101 69 t
      let v := decFloat (value 10 ds) (e - frac)
      some (if neg then -v else v, t)

/-- `l_str2d`: `inf` and `nan` are rejected by their letter `n`. -/
def str2d (s : Bytes) : Option Float :=
  if s.any (fun c => c == 110 || c == 78) then none
  else match strtod s with
    | some (v, t) => if (t.dropWhile isSpace).isEmpty then some v else none
    | none => none

/-- `tonumber` on a string. -/
def tonumber (s : Bytes) : Option Number :=
  match str2int s with
  | some n => some (.int n)
  | none => (str2d s).map Number.ofFloat

/-! ## Writing a number -/

/-- The byte of a decimal digit. -/
def digitByte (d : Nat) : UInt8 := UInt8.ofNat (48 + d)

/-- The decimal digits of a natural number, at least one. -/
def decDigits (n : Nat) : List Nat := if n = 0 then [0] else (Nat.digits 10 n).reverse

/-- A natural number in decimal. -/
def decNat (n : Nat) : Bytes := (decDigits n).map digitByte

/-- The format `%d`. -/
def dec (n : Int) : Bytes := if n < 0 then 45 :: decNat n.natAbs else decNat n.natAbs

theorem decDigits_ne_nil (n : Nat) : decDigits n ≠ [] := by
  unfold decDigits
  split
  · simp
  · rename_i h; simpa using Nat.digits_ne_nil_iff_ne_zero.2 h

theorem decDigits_lt {n d : Nat} (h : d ∈ decDigits n) : d < 10 := by
  unfold decDigits at h
  split at h
  · simp at h; omega
  · exact Nat.digits_lt_base (by omega) (List.mem_reverse.1 h)

theorem value_decDigits (n : Nat) : value 10 (decDigits n) = n := by
  unfold decDigits value
  split
  · simp_all
  · have h := Nat.ofDigits_digits 10 n
    rw [Nat.ofDigits_eq_foldr] at h
    conv_rhs => rw [← h]
    rw [List.foldl_reverse]
    simp only [Nat.cast_id, Nat.mul_comm, Nat.add_comm]

/-- Digit bytes are digits: they are no blanks, no signs, and not the `x` of a hexadecimal numeral. -/
theorem digitByte_spec : ∀ d < 10, digit (digitByte d) = some d ∧ isSpace (digitByte d) = false ∧
    digitByte d ≠ 45 ∧ digitByte d ≠ 43 ∧ digitByte d ≠ 120 ∧ digitByte d ≠ 88 ∧ digitByte d ≠ CR ∧
    digitByte d ≠ LF := by decide

theorem isSpace_spec {c : UInt8} (h : isSpace c = true) : digit c = none ∧ c ≠ 120 ∧ c ≠ 88 := by
  simp only [isSpace, Bool.or_eq_true, beq_iff_eq, Bool.and_eq_true, decide_eq_true_eq] at h
  rcases h with rfl | ⟨h1, h2⟩
  · decide
  · rw [UInt8.le_iff_toNat_le] at h1 h2
    have h48 : ¬(48 : UInt8) ≤ c := by rw [UInt8.le_iff_toNat_le]; simp at h1 h2 ⊢; omega
    refine ⟨by simp [digit, h48], ?_, ?_⟩ <;> rintro rfl <;> simp at h2

/-- Digits are read up to a byte that is none. -/
theorem digits_append {ds : List Nat} {t : Bytes} (ht : ∀ c ∈ t.head?, digit c = none) (h : ∀ d ∈ ds, d < 10) :
    digits digit (ds.map digitByte ++ t) = (ds, t) := by
  induction ds with
  | nil =>
    cases t with
    | nil => rfl
    | cons c t => simp [digits, ht c rfl]
  | cons d ds ih =>
    have hd := (digitByte_spec d (h d (by simp))).1
    have := ih (fun x hx => h x (by simp [hx]))
    simp [digits, hd, this]

theorem digits_map {ds : List Nat} {sp : Bytes} (hsp : ∀ c ∈ sp, isSpace c = true) (h : ∀ d ∈ ds, d < 10) :
    digits digit (ds.map digitByte ++ sp) = (ds, sp) :=
  digits_append (fun c hc => (isSpace_spec (hsp c (List.mem_of_mem_head? hc))).1) h

theorem sign_of_ne {c : UInt8} (s : Bytes) (h1 : c ≠ 45) (h2 : c ≠ 43) : sign (c :: s) = (false, c :: s) := by
  unfold sign
  split <;> simp_all

theorem radix_of_ne {c : UInt8} {s : Bytes} (h : ∀ x ∈ s, x ≠ 120 ∧ x ≠ 88) : radix (c :: s) = (false, c :: s) := by
  unfold radix
  split
  · rename_i x t heq
    obtain ⟨rfl, rfl⟩ := List.cons.inj heq
    have := h x (by simp)
    simp [this]
  · rfl

theorem str2int_digits {ds : List Nat} {sp : Bytes} (neg : Bool) (hne : ds ≠ []) (h : ∀ d ∈ ds, d < 10)
    (hsp : ∀ c ∈ sp, isSpace c = true) :
    str2int ((if neg then [45] else []) ++ ds.map digitByte ++ sp) =
      some (wrap (if neg then -(value 10 ds : Int) else value 10 ds)) := by
  obtain ⟨d, ds', rfl⟩ := List.exists_cons_of_ne_nil hne
  have hd := digitByte_spec d (h d (by simp))
  have hx : ∀ x ∈ ds'.map digitByte ++ sp, x ≠ 120 ∧ x ≠ 88 := by
    intro x hx
    rcases List.mem_append.1 hx with hx | hx
    · obtain ⟨e, he, rfl⟩ := List.mem_map.1 hx
      have := digitByte_spec e (h e (by simp [he]))
      exact ⟨this.2.2.2.2.1, this.2.2.2.2.2.1⟩
    · exact (isSpace_spec (hsp x hx)).2
  have hsign : sign (((if neg then [45] else []) ++ (d :: ds').map digitByte ++ sp).dropWhile isSpace) =
      (neg, (d :: ds').map digitByte ++ sp) := by
    cases neg with
    | true => simp [isSpace, sign]
    | false => simpa [hd.2.1] using sign_of_ne (ds'.map digitByte ++ sp) hd.2.2.1 hd.2.2.2.1
  have hradix : radix ((d :: ds').map digitByte ++ sp) = (false, (d :: ds').map digitByte ++ sp) := by
    simpa using radix_of_ne (c := digitByte d) hx
  have hend : sp.dropWhile isSpace = [] := List.dropWhile_eq_nil_iff.2 hsp
  unfold str2int
  simp only [hsign, hradix, Bool.false_eq_true, ↓reduceIte, digits_map hsp h, hend]
  simp

/-- **Reading back `%d`**, also before trailing blanks. -/
theorem tonumber_dec {n : Int} (hn : Fits n) {sp : Bytes} (hsp : ∀ c ∈ sp, isSpace c = true) :
    tonumber (dec n ++ sp) = some (.int n) := by
  have key := str2int_digits (decide (n < 0)) (decDigits_ne_nil n.natAbs) (fun d => decDigits_lt) hsp
  rw [value_decDigits] at key
  have hstr : dec n ++ sp = (if decide (n < 0) then [45] else []) ++ (decDigits n.natAbs).map digitByte ++ sp := by
    unfold dec decNat
    split <;> simp_all
  have hval : (if decide (n < 0) then -(n.natAbs : Int) else n.natAbs) = n := by
    split <;> rename_i h <;> simp only [decide_eq_true_eq] at h <;> omega
  unfold tonumber
  rw [hstr, key, hval, wrap_of_fits hn]

theorem tonumber_dec_nil {n : Int} (hn : Fits n) : tonumber (dec n) = some (.int n) := by
  have h := tonumber_dec hn (fun c hc => absurd hc List.not_mem_nil)
  rwa [List.append_nil] at h

theorem plain_dec (n : Int) : Plain (dec n) := by
  have h : Plain (decNat n.natAbs) := by
    intro c hc
    obtain ⟨d, hd, rfl⟩ := List.mem_map.1 hc
    have := digitByte_spec d (decDigits_lt hd)
    exact ⟨this.2.2.2.2.2.2.1, this.2.2.2.2.2.2.2⟩
  unfold dec
  split
  · exact h.cons (by decide)
  · exact h

/-- A string that starts with none of the bytes a numeral can start with is no number. -/
theorem tonumber_none {c : UInt8} (s : Bytes) (hsp : isSpace c = false) (h1 : c ≠ 45) (h2 : c ≠ 43) (h3 : c ≠ 46)
    (hd : digit c = none) : tonumber (c :: s) = none := by
  have hdrop : (c :: s).dropWhile isSpace = c :: s := by simp [hsp]
  have hradix : radix (c :: s) = (false, c :: s) := by
    unfold radix
    split
    · rename_i x t heq
      obtain ⟨rfl, rfl⟩ := List.cons.inj heq
      simp [digit] at hd
    · rfl
  have hdig : digits digit (c :: s) = ([], c :: s) := by simp [digits, hd]
  have hint : str2int (c :: s) = none := by
    unfold str2int
    simp only [hdrop, sign_of_ne s h1 h2, hradix]
    simp [hdig]
  have hmant : mantissa digit (c :: s) = ([], 0, c :: s) := by
    unfold mantissa
    rw [hdig]
    split
    · rename_i heq; simp_all
    · rename_i heq; simp_all
  have hflt : strtod (c :: s) = none := by
    unfold strtod
    simp only [hdrop, sign_of_ne s h1 h2, hradix]
    simp [hmant]
  simp [tonumber, hint, str2d, hflt]

end XCore.Lua
