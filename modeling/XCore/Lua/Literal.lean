import Mathlib.Data.BitVec
import XCore.Lua.Number

/-!
# Data as text of Lua 5.3

`load` compiles a text and here calls the function, for a text `return e` whose expression is made of strings, integers,
booleans and table constructors (`llex.c`, `lparser.c`, `lcode.c`). The rest of the grammar is beyond this module, also
blanks.

- `subexpr` parses an expression, within the number of C levels that are left;
- `Exp.compile` counts its constants and registers, of which there are limits too;
- `Exp.eval` is its value.
-/

namespace XCore.Lua

/-! ## Data -/

/-- A key of a table. -/
inductive Key
  | str (s : Bytes)
  | int (n : BitVec 64)
  deriving DecidableEq

mutual
/-- A value that is made of strings, integers, booleans and tables. -/
inductive Datum
  | str (s : Bytes)
  | int (n : BitVec 64)
  | bool (b : Bool)
  | table (t : Table)
/-- The entries of a table, in some order. -/
inductive Table
  | nil
  | cons (k : Key) (v : Datum) (t : Table)
end

/-- The value of a key. -/
def Table.get : Table → Key → Option Datum
  | .nil, _ => none
  | .cons k v t, k' => if k = k' then some v else t.get k'

/-! ## Expressions -/

/-- A literal that may be a key: a string, or a numeral without or with a minus. -/
inductive Leaf
  | str (s : Bytes)
  | num (n : BitVec 64)
  | neg (n : BitVec 64)

mutual
/-- An expression. -/
inductive Exp
  | leaf (a : Leaf)
  | bool (b : Bool)
  | table (fs : Fields)
/-- The fields of a constructor: `[key]=val`, or `key=val` with a name. -/
inductive Fields
  | nil
  | cons (bracketed : Bool) (key : Leaf) (val : Exp) (fs : Fields)
end

/-- The key of a literal. -/
def Leaf.key : Leaf → Key
  | .str s => .str s
  | .num n => .int n
  | .neg n => .int (-n)

/-- The value of a literal. -/
def Leaf.eval : Leaf → Datum
  | .str s => .str s
  | .num n => .int n
  | .neg n => .int (-n)

mutual
/-- The value of an expression. -/
def Exp.eval : Exp → Datum
  | .leaf a => a.eval
  | .bool b => .bool b
  | .table fs => .table fs.eval
/-- The table of some fields: of those of one key the last counts. -/
def Fields.eval : Fields → Table
  | .nil => .nil
  | .cons _ key val fs => if (fs.eval.get key.key).isNone then .cons key.key val.eval fs.eval else fs.eval
end

/-! ## Constants and registers -/

/-- A constant of a function. -/
inductive Const
  | str (s : Bytes)
  | int (n : BitVec 64)
  | bool (b : Bool)
  deriving DecidableEq

/-- The constant of a literal. -/
def Leaf.const : Leaf → Const
  | .str s => .str s
  | .num n => .int n
  | .neg n => .int (-n)

/-- `addk`: the index of a constant. -/
def addk (k : List Const) (c : Const) : Option (Nat × List Const) :=
  if c ∈ k then some (k.idxOf c, k) else if k.length < 2 ^ 26 - 1 then some (k.length, k ++ [c]) else none

/-- `luaK_reserveregs` for one register: the next that is free. -/
def reserve (freereg : Nat) : Option Nat := if freereg + 1 < 255 then some (freereg + 1) else none

/-- `luaK_exp2RK`: a constant that is no operand gets a register. -/
def exp2RK (freereg : Nat) (k : List Const) (c : Const) : Option (Nat × List Const) := do
  let (info, k) ← addk k c
  let freereg ← if info ≤ 255 then some freereg else reserve freereg
  return (freereg, k)

mutual
/-- The constants after an expression has been compiled as an operand. -/
def Exp.compile (freereg : Nat) (k : List Const) : Exp → Option (List Const)
  | .leaf a => (exp2RK freereg k a.const).map (·.2)
  | .bool b => if k.length ≤ 255 then (addk k (.bool b)).map (·.2) else (reserve freereg).map fun _ => k
  | .table fs => (reserve freereg).bind fun freereg => fs.compile freereg k
/-- The constants after the fields of a constructor. -/
def Fields.compile (freereg : Nat) (k : List Const) : Fields → Option (List Const)
  | .nil => some k
  | .cons _ key val fs => do
    let (reg, k) ← exp2RK freereg k key.const
    let k ← val.compile reg k
    fs.compile freereg k
end

/-! ## The parser -/

/-- Why no expression is read. -/
inductive Failure
  /-- an error that `load` returns -/
  | syntactic
  /-- text beyond this part of the grammar -/
  | beyond
  deriving DecidableEq

/-- A letter, a digit or an underscore: `lislalnum`. -/
def isName (c : UInt8) : Bool := (48 ≤ c && c ≤ 57) || (65 ≤ c && c ≤ 90) || (97 ≤ c && c ≤ 122) || c == 95

/-- The byte that an escape sequence stands for; the sequences `\x`, `\u`, `\z`, `\ddd` and line breaks are left out. -/
def escape (c : UInt8) : Option UInt8 :=
  if c = 97 then some 7 else if c = 98 then some 8 else if c = 102 then some 12 else if c = 110 then some LF
  else if c = 114 then some CR else if c = 116 then some 9 else if c = 118 then some 11
  else if c = 92 ∨ c = 34 ∨ c = 39 then some c else none

/-- `read_string`, after the quotation mark, or after a backslash. -/
def readString (escaped : Bool) : Bytes → Except Failure (Bytes × Bytes)
  | [] => .error .syntactic
  | c :: s =>
    if escaped then
      match escape c with
      | none => .error .beyond
      | some b => (readString false s).map fun r => (b :: r.1, r.2)
    else if c = 34 then .ok ([], s)
    else if c = LF ∨ c = CR then .error .syntactic
    else if c = 92 then readString true s
    else (readString false s).map fun r => (c :: r.1, r.2)

/-- `read_numeral`, for a decimal integer. -/
def readNumeral (s : Bytes) : Except Failure (BitVec 64 × Bytes) :=
  let (ds, t) := digits digit s
  if ds = [] ∨ t.head?.any (fun c => isName c || c == 46) then .error .beyond
  else .ok (BitVec.ofNat 64 (value 10 ds), t)

/-- A literal that may be a key. -/
def readLeaf : Bytes → Except Failure (Leaf × Bytes)
  | [] => .error .syntactic
  | c :: s =>
    if c = 34 then (readString false s).map fun r => (.str r.1, r.2)
    else if c = 45 then (readNumeral s).map fun r => (.neg r.1, r.2)
    else (readNumeral (c :: s)).map fun r => (.num r.1, r.2)

/-- The C levels of a literal: an operand of a minus is one further down. -/
def Leaf.levels : Leaf → Nat
  | .neg _ => 2
  | _ => 1

mutual
/-- The C levels of an expression. -/
def Exp.levels : Exp → Nat
  | .leaf a => a.levels
  | .bool _ => 1
  | .table fs => fs.levels + 1
/-- The C levels of fields. -/
def Fields.levels : Fields → Nat
  | .nil => 0
  | .cons bracketed key val fs => max (max (if bracketed then key.levels else 0) val.levels) fs.levels
end

/-- `enterlevel`. -/
def enter (levels : Nat) (needed : Nat) : Except Failure Unit := if needed ≤ levels then .ok () else .error .syntactic

/-- The sign `=`, which is not a part of `==`. -/
def readEquals : Bytes → Except Failure Bytes
  | 61 :: 61 :: _ => .error .syntactic
  | 61 :: s => .ok s
  | _ => .error .beyond

/-- The words `true` and `false`. -/
def word (b : Bool) : Bytes := if b then [116, 114, 117, 101] else [102, 97, 108, 115, 101]

/-- The key of a field in brackets, or a name that begins with an underscore, and the sign `=`. -/
def readKey (levels : Nat) : Bytes → Except Failure ((Bool × Leaf) × Bytes)
  | 91 :: s => do
    let (a, s) ← readLeaf s
    enter levels a.levels
    match s with
    | 93 :: s =>
      let s ← readEquals s
      return ((true, a), s)
    | _ => .error .beyond
  | 95 :: s => do
    let t ← readEquals (s.dropWhile isName)
    return ((false, .str (95 :: s.takeWhile isName)), t)
  | _ => .error .beyond

/-- The loop of `constructor`, after `{` or a separator. -/
def readFields (levels : Nat) (subexpr : Bytes → Except Failure (Exp × Bytes)) :
    Nat → Bytes → Except Failure (Fields × Bytes)
  | 0, _ => .error .beyond
  | _ + 1, 125 :: s => .ok (.nil, s)
  | n + 1, s => do
    let ((bracketed, key), s) ← readKey levels s
    let (val, s) ← subexpr s
    match s with
    | [] => .error .syntactic
    | c :: s =>
      if c = 125 then return (.cons bracketed key val .nil, s)
      else if c = 44 ∨ c = 59 then
        let (fs, s) ← readFields levels subexpr n s
        return (.cons bracketed key val fs, s)
      else .error .beyond

/-- `subexpr`, with the C levels that are left; a constructor has no more fields than the text has bytes. -/
def subexpr : Nat → Bytes → Except Failure (Exp × Bytes)
  | 0, _ => .error .syntactic
  | levels + 1, 123 :: s => do
    let (fs, s) ← readFields levels (fun s => subexpr levels s) (s.length + 1) s
    return (.table fs, s)
  | levels + 1, s =>
    if s.takeWhile isName = word true then .ok (.bool true, s.dropWhile isName)
    else if s.takeWhile isName = word false then .ok (.bool false, s.dropWhile isName)
    else do
      let (a, s) ← readLeaf s
      enter (levels + 1) a.levels
      return (.leaf a, s)

/-- The value that the function of an expression returns, if it compiles. -/
def Exp.call (e : Exp) : Except Failure Datum := if (e.compile 0 []).isSome then .ok e.eval else .error .syntactic

/-- `load("return "..s)`, and the value that the function returns. -/
def load (levels : Nat) (s : Bytes) : Except Failure Datum := do
  let (e, s) ← subexpr levels s
  if s ≠ [] then .error .beyond
  e.call

/-! ## What is read -/

section

variable {α β : Type} {p q : Prop} {r : Except Failure α} {x : α} {y : β}

/-- A result is read if the text is good, and a syntax error otherwise. -/
def Parsed (good : Prop) (r : Except Failure α) (x : α) : Prop := (good ∧ r = .ok x) ∨ (¬good ∧ r = .error .syntactic)

theorem Parsed.of (h : r = .ok x) : Parsed True r x := Or.inl ⟨trivial, h⟩

theorem Parsed.congr (h : Parsed p r x) (hpq : p ↔ q) : Parsed q r x := by
  rw [← propext hpq]
  exact h

theorem Parsed.bind {f : α → Except Failure β} (h : Parsed p r x) (h' : Parsed q (f x) y) :
    Parsed (p ∧ q) (r >>= f) y := by
  rcases h with ⟨hp, rfl⟩ | ⟨hp, rfl⟩
  · rcases h' with ⟨hq, h'⟩ | ⟨hq, h'⟩
    · exact Or.inl ⟨⟨hp, hq⟩, h'⟩
    · exact Or.inr ⟨fun h => hq h.2, h'⟩
  · exact Or.inr ⟨fun h => hp h.1, rfl⟩

/-- What follows cannot fail. -/
theorem Parsed.ret {f : α → Except Failure β} (h : Parsed p r x) (h' : f x = .ok y) : Parsed p (r >>= f) y := by
  rcases h with ⟨hp, rfl⟩ | ⟨hp, rfl⟩
  · exact Or.inl ⟨hp, h'⟩
  · exact Or.inr ⟨hp, rfl⟩

theorem Parsed.map (h : Parsed p r x) (f : α → β) : Parsed p (r.map f) (f x) := by
  rcases h with ⟨hp, rfl⟩ | ⟨hp, rfl⟩
  · exact Or.inl ⟨hp, rfl⟩
  · exact Or.inr ⟨hp, rfl⟩

theorem parsed_enter (levels needed : Nat) : Parsed (needed ≤ levels) (enter levels needed) () := by
  unfold enter
  by_cases h : needed ≤ levels
  · exact Or.inl ⟨h, if_pos h⟩
  · exact Or.inr ⟨h, if_neg h⟩

end

/-- A string without quotation marks and backslashes. -/
def Quotable (s : Bytes) : Prop := ∀ c ∈ s, c ≠ 34 ∧ c ≠ 92

instance (s : Bytes) : Decidable (Quotable s) := List.decidableBAll (fun c => c ≠ 34 ∧ c ≠ 92) s

/-- What follows an expression ends it. -/
def Ends (t : Bytes) : Prop := ∀ c ∈ t.head?, c = 44 ∨ c = 93 ∨ c = 125

theorem Ends.cons {c : UInt8} (hc : c = 44 ∨ c = 93 ∨ c = 125) (t : Bytes) : Ends (c :: t) := by
  intro d hd
  cases hd
  exact hc

theorem Ends.spec {t : Bytes} (h : Ends t) : ∀ c ∈ t.head?, digit c = none ∧ isName c = false ∧ c ≠ 46 := by
  intro c hc
  rcases h c hc with rfl | rfl | rfl <;> decide

/-- **A string in quotation marks** is read back if it is one line. -/
theorem readString_quotable : ∀ {s : Bytes}, Quotable s → ∀ t, Parsed (Plain s) (readString false (s ++ 34 :: t)) (s, t)
  | [], _, _ => Or.inl ⟨fun _ h => (List.not_mem_nil h).elim, rfl⟩
  | c :: s, hs, t => by
    obtain ⟨hquote, hslash⟩ := hs c List.mem_cons_self
    rw [List.cons_append, readString, if_neg Bool.false_ne_true, if_neg hquote]
    by_cases hc : c = LF ∨ c = CR
    · rw [if_pos hc]
      refine Or.inr ⟨fun h => ?_, rfl⟩
      obtain ⟨hCR, hLF⟩ := h c List.mem_cons_self
      exact hc.elim hLF hCR
    · rw [if_neg hc, if_neg hslash]
      have ih := readString_quotable (fun b hb => hs b (List.mem_cons_of_mem c hb) : Quotable s) t
      apply (ih.map _).congr
      constructor
      · exact fun h => Plain.cons ⟨fun h => hc (Or.inr h), fun h => hc (Or.inl h)⟩ h
      · exact fun h b hb => h b (List.mem_cons_of_mem c hb)

/-- A decimal numeral is read back. -/
theorem readNumeral_decNat (n : Nat) {t : Bytes} (ht : Ends t) :
    readNumeral (decNat n ++ t) = .ok (BitVec.ofNat 64 n, t) := by
  have hdigits : digits digit (decNat n ++ t) = (decDigits n, t) :=
    digits_append (fun c hc => (ht.spec c hc).1) fun _ => decDigits_lt
  have hend : ¬(decDigits n = [] ∨ t.head?.any (fun c => isName c || c == 46) = true) := by
    rintro (h | h)
    · exact decDigits_ne_nil n h
    · obtain ⟨c, hc, h⟩ := Option.any_eq_true _ _ |>.1 h
      obtain ⟨-, hname, hdot⟩ := ht.spec c hc
      simp [hname, hdot] at h
  unfold readNumeral
  rw [hdigits]
  dsimp only
  rw [if_neg hend, value_decDigits]

theorem Leaf.levels_pos (a : Leaf) : 0 < a.levels := by
  cases a
  · exact Nat.one_pos
  · exact Nat.one_pos
  · exact Nat.two_pos

theorem readEquals_of_ne {s : Bytes} (hs : s.head? ≠ some 61) : readEquals (61 :: s) = .ok s := by
  unfold readEquals
  split
  · rename_i h
    cases h
    exact (hs rfl).elim
  · rename_i h
    cases h
    rfl
  · rename_i h
    exact (h s rfl).elim

/-- A word is read up to a byte that is no part of a name. -/
theorem takeWhile_word (b : Bool) {t : Bytes} (ht : ∀ c ∈ t.head?, isName c = false) :
    (word b ++ t).takeWhile isName = word b ∧ (word b ++ t).dropWhile isName = t := by
  have hall : (word b).all isName = true := by
    cases b
    · rfl
    · rfl
  have hword := List.all_eq_true.1 hall
  have htake : t.takeWhile isName = [] ∧ t.dropWhile isName = t := by
    cases t with
    | nil => exact ⟨rfl, rfl⟩
    | cons c t =>
      have hname := ht c rfl
      simp [hname]
  rw [List.takeWhile_append_of_pos hword, List.dropWhile_append_of_pos hword, htake.1, htake.2, List.append_nil]
  exact ⟨rfl, rfl⟩

/-- The words begin with a `t` and an `f`. -/
theorem takeWhile_ne_word {c : UInt8} (h1 : c ≠ 116) (h2 : c ≠ 102) (s : Bytes) (b : Bool) :
    (c :: s).takeWhile isName ≠ word b := by
  intro h
  rw [List.takeWhile_cons] at h
  split at h
  · cases b
    · exact h2 (List.cons.inj h).1
    · exact h1 (List.cons.inj h).1
  · cases b <;> cases h

end XCore.Lua
