import XCore.Lua.Literal

/-!
# Saved data (`base/class.lua`)

`Serialize` writes a value as an expression of Lua and `UnSerialize` loads it again (`serialize_round_trip`). Strings
are written as they are, without escapes, and `UnSerialize` looks a class up in the global `CLASS`, which nothing
defines (the classes are in `_CLASS`), so it raises for a table with a class; further down than one level it does not
look for classes.

The entries of a table are in the order in which `pairs` gives them. `levels` are the C levels of Lua that are left when
`UnSerialize` is called, less one for the statement.
-/

namespace XCore.Saved

open XCore.Lua

/-! ## Values -/

mutual
/-- A value: a table, or an object with the type of its class and its saved attributes. -/
inductive Value
  | str (s : Bytes)
  | int (n : BitVec 64)
  | bool (b : Bool)
  | table (es : Entries)
  | object (ClassType : Bytes) (SaveAttr : Entries)
/-- The entries of a table. -/
inductive Entries
  | nil
  | cons (k : Key) (v : Value) (es : Entries)
end

/-- The value of a key. -/
def Entries.get : Entries → Key → Option Value
  | .nil, _ => none
  | .cons k v es, k' => if k = k' then some v else es.get k'

mutual
/-- Every key has one value. -/
def Value.Distinct : Value → Prop
  | .table es => es.Distinct
  | .object _ es => es.Distinct
  | _ => True
/-- Every key has one value. -/
def Entries.Distinct : Entries → Prop
  | .nil => True
  | .cons k v es => es.get k = none ∧ v.Distinct ∧ es.Distinct
end

/-- Data of a program. -/
def Data := { v : Value // v.Distinct }

/-- `"__class__"`. -/
def classKey : Bytes := [95, 95, 99, 108, 97, 115, 115, 95, 95]

/-- `"__save__"`. -/
def saveKey : Bytes := [95, 95, 115, 97, 118, 101, 95, 95]

/-! ## `Serialize` -/

/-- The text of a key. -/
def keyText : Key → Bytes
  | .str k => [91, 34] ++ k ++ [34, 93]
  | .int k => 91 :: dec k.toInt ++ [93]

mutual
/-- `Serialize`; that of an object is `ToString`. -/
def Serialize : Value → Bytes
  | .str s => 34 :: s ++ [34]
  | .int n => dec n.toInt
  | .bool b => word b
  | .table es => 123 :: fieldsText es ++ [125]
  | .object ClassType SaveAttr =>
    [123] ++ classKey ++ [61, 34] ++ ClassType ++ [34, 44] ++ saveKey ++ [61] ++
      (123 :: fieldsText SaveAttr ++ [125]) ++ [125]
/-- The loop of `Serialize`. -/
def fieldsText : Entries → Bytes
  | .nil => []
  | .cons k v es => keyText k ++ 61 :: Serialize v ++ 44 :: fieldsText es
end

/-! ## `UnSerialize` -/

/-- A table that has a value other than `false` for `__class__`. -/
def isClassed (t : Table) : Bool :=
  match t.get (.str classKey) with
  | none => false
  | some (.bool b) => b
  | some _ => true

/-- A table with an entry that is classed. -/
def holdsClassed : Table → Bool
  | .nil => false
  | .cons _ (.table t) es => isClassed t || holdsClassed es
  | .cons _ _ es => holdsClassed es

/-- The data for which `UnSerialize` looks up a class. -/
def looksUp : Datum → Bool
  | .table t => isClassed t || holdsClassed t
  | _ => false

/-- `UnSerialize` of a string, or `none` if the text is beyond `load` here: looking up a class raises. -/
def UnSerialize (levels : Nat) (data : Bytes) : Option (Except LuaError (Option Datum)) :=
  match load levels data with
  | .error .beyond => none
  | .error .syntactic => some (.ok none)
  | .ok d => some (if looksUp d then .error .indexNil else .ok (some d))

/-! ## What is saved -/

/-- What is seen of a value. -/
inductive Shape
  | str (s : Bytes)
  | int (n : BitVec 64)
  | bool (b : Bool)
  | table
  | object (ClassType : Bytes)

/-- What is seen of a value. -/
def Value.shape : Value → Shape
  | .str s => .str s
  | .int n => .int n
  | .bool b => .bool b
  | .table _ => .table
  | .object c _ => .object c

/-- An entry of a table, or a saved attribute of an object. -/
def Value.entry : Value → Key → Option Value
  | .table es, k => es.get k
  | .object _ es, k => es.get k
  | _, _ => none

/-- What is seen at the end of a path of keys. -/
def Value.at : Value → List Key → Option Shape
  | v, [] => some v.shape
  | v, k :: ks => (v.entry k).bind fun w => w.at ks

/-- What is seen of data. -/
def shapeOf : Datum → Shape
  | .str s => .str s
  | .int n => .int n
  | .bool b => .bool b
  | .table _ => .table

/-- An entry of a table. -/
def entryOf : Datum → Key → Option Datum
  | .table t, k => t.get k
  | _, _ => none

/-- What is seen at the end of a path of keys. -/
def seenAt : Datum → List Key → Option Shape
  | d, [] => some (shapeOf d)
  | d, k :: ks => (entryOf d k).bind fun e => seenAt e ks

/-- A value is saved and comes back. -/
def RoundTrips (levels : Nat) (v : Value) : Prop :=
  ∃ d, UnSerialize levels (Serialize v) = some (.ok (some d)) ∧ ∀ ks, seenAt d ks = v.at ks

/-! ## Values without objects -/

mutual
/-- There is no object in a value. -/
def Value.Objectless : Value → Prop
  | .table es => es.Objectless
  | .object _ _ => False
  | _ => True
/-- There is no object in the entries of a table. -/
def Entries.Objectless : Entries → Prop
  | .nil => True
  | .cons _ v es => v.Objectless ∧ es.Objectless
end

mutual
/-- The data that `load` makes of a saved value: an object is a table. -/
def plainOf : Value → Datum
  | .str s => .str s
  | .int n => .int n
  | .bool b => .bool b
  | .table es => .table (tableOf es)
  | .object c es => .table (.cons (.str classKey) (.str c) (.cons (.str saveKey) (.table (tableOf es)) .nil))
/-- The table that `load` makes of entries. -/
def tableOf : Entries → Table
  | .nil => .nil
  | .cons k v es => .cons k (plainOf v) (tableOf es)
end

theorem get_tableOf : ∀ (es : Entries) (k : Key), (tableOf es).get k = (es.get k).map plainOf
  | .nil, _ => rfl
  | .cons k v es, k' => by
    unfold tableOf Table.get Entries.get
    split
    · rfl
    · exact get_tableOf es k'

/-- What is in a table without objects is none. -/
theorem Entries.Objectless.get : ∀ {es : Entries} {k : Key} {v : Value}, es.Objectless → es.get k = some v →
    v.Objectless
  | .nil, _, _, _, h => by cases h
  | .cons k w es, k', v, hes, h => by
    unfold Entries.get at h
    split at h
    · cases h
      exact hes.1
    · exact Entries.Objectless.get hes.2 h

/-- A value without objects is seen as the data that is loaded. -/
theorem seenAt_plainOf : ∀ (ks : List Key) {v : Value}, v.Objectless → seenAt (plainOf v) ks = v.at ks
  | [], v, hv => by
    cases v with
    | object _ _ => exact hv.elim
    | _ => rfl
  | k :: ks, v, hv => by
    cases v with
    | object _ _ => exact hv.elim
    | table es =>
      change ((tableOf es).get k).bind _ = (es.get k).bind _
      rw [get_tableOf]
      cases h : es.get k with
      | none => rfl
      | some w => exact seenAt_plainOf ks (hv.get h)
    | _ => rfl

/-- No object is seen in data. -/
theorem seenAt_ne_object : ∀ (ks : List Key) (d : Datum) (c : Bytes), seenAt d ks ≠ some (.object c)
  | [], d, c, h => by cases d <;> cases h
  | k :: ks, d, c, h => by
    unfold seenAt at h
    cases hd : entryOf d k with
    | none =>
      rw [hd] at h
      cases h
    | some e =>
      rw [hd] at h
      exact seenAt_ne_object ks e c h

mutual
/-- An object in a value is seen at the end of some path. -/
theorem exists_object : ∀ {v : Value}, v.Distinct → ¬v.Objectless → ∃ ks c, v.at ks = some (.object c)
  | .table _, hd, h => exists_object_in hd h
  | .object c _, _, _ => ⟨[], c, rfl⟩
  | .str _, _, h => (h trivial).elim
  | .int _, _, h => (h trivial).elim
  | .bool _, _, h => (h trivial).elim
/-- An object in the entries of a table is seen at the end of some path. -/
theorem exists_object_in : ∀ {es : Entries}, es.Distinct → ¬es.Objectless →
    ∃ ks c, (Value.table es).at ks = some (.object c)
  | .nil, _, h => (h trivial).elim
  | .cons k v es, hd, h => by
    obtain ⟨hk, hv, hes⟩ := hd
    by_cases hvo : v.Objectless
    · obtain ⟨ks, c, hks⟩ := exists_object_in hes fun h' => h ⟨hvo, h'⟩
      cases ks with
      | nil => cases hks
      | cons k' ks =>
        refine ⟨k' :: ks, c, ?_⟩
        change (es.get k').bind _ = _ at hks
        change ((Entries.cons k v es).get k').bind _ = _
        unfold Entries.get
        by_cases hkk : k = k'
        · rw [← hkk, hk] at hks
          cases hks
        · rw [if_neg hkk]
          exact hks
    · obtain ⟨ks, c, hks⟩ := exists_object hv hvo
      refine ⟨k :: ks, c, ?_⟩
      change ((Entries.cons k v es).get k).bind _ = _
      unfold Entries.get
      rw [if_pos rfl]
      exact hks
end

/-! ## What is written -/

/-- The literal of an integer. -/
def intLeaf (n : BitVec 64) : Leaf :=
  if n.toInt < 0 then .neg (BitVec.ofNat 64 n.toInt.natAbs) else .num (BitVec.ofNat 64 n.toInt.natAbs)

/-- The literal of a key. -/
def keyLeaf : Key → Leaf
  | .str k => .str k
  | .int k => intLeaf k

mutual
/-- The expression that `Serialize` writes. -/
def expOf : Value → Exp
  | .str s => .leaf (.str s)
  | .int n => .leaf (intLeaf n)
  | .bool b => .bool b
  | .table es => .table (fieldsOf es)
  | .object c es =>
    .table (.cons false (.str classKey) (.leaf (.str c)) (.cons false (.str saveKey) (.table (fieldsOf es)) .nil))
/-- The fields that `Serialize` writes. -/
def fieldsOf : Entries → Fields
  | .nil => .nil
  | .cons k v es => .cons true (keyLeaf k) (expOf v) (fieldsOf es)
end

/-- The string of a key, if it is one. -/
def keyAll (p : Bytes → Prop) : Key → Prop
  | .str k => p k
  | .int _ => True

mutual
/-- A property of all strings, keys and types of classes in a value. -/
def Value.All (p : Bytes → Prop) : Value → Prop
  | .str s => p s
  | .table es => es.All p
  | .object c es => p c ∧ es.All p
  | _ => True
/-- A property of all strings, keys and types of classes in a table. -/
def Entries.All (p : Bytes → Prop) : Entries → Prop
  | .nil => True
  | .cons k v es => keyAll p k ∧ v.All p ∧ es.All p
end

/-! ## What is read of it -/

theorem digitByte_ne : ∀ d < 10, digitByte d ≠ 34 ∧ digitByte d ≠ 45 ∧ digitByte d ≠ 116 ∧ digitByte d ≠ 102 ∧
    digitByte d ≠ 123 := by
  decide

/-- The literal of an integer is read back. -/
theorem readLeaf_dec (n : BitVec 64) {t : Bytes} (ht : Ends t) : readLeaf (dec n.toInt ++ t) = .ok (intLeaf n, t) := by
  have hread := readNumeral_decNat n.toInt.natAbs ht
  unfold dec intLeaf
  split
  · rw [List.cons_append, readLeaf, if_neg (by decide), if_pos rfl, hread]
    rfl
  · obtain ⟨d, ds, hds⟩ := List.exists_cons_of_ne_nil (decDigits_ne_nil n.toInt.natAbs)
    have hd : d < 10 := decDigits_lt (hds ▸ List.mem_cons_self)
    have hspec := digitByte_ne d hd
    have hcons : decNat n.toInt.natAbs ++ t = digitByte d :: (ds.map digitByte ++ t) := by
      unfold decNat
      rw [hds]
      rfl
    rw [hcons] at hread ⊢
    rw [readLeaf, if_neg hspec.1, if_neg hspec.2.1, hread]
    rfl

/-- A literal of a string is read back if it is one line. -/
theorem readLeaf_str {k : Bytes} (hk : Quotable k) (t : Bytes) :
    Parsed (Plain k) (readLeaf (34 :: k ++ 34 :: t)) (.str k, t) := by
  rw [List.cons_append, readLeaf, if_pos rfl]
  exact (readString_quotable hk t).map _

/-- A key is read back if it is one line. -/
theorem readKey_keyText {k : Key} (hk : keyAll Quotable k) {s : Bytes} (hs : s.head? ≠ some 61) (levels : Nat) :
    Parsed (keyAll Plain k ∧ (keyLeaf k).levels ≤ levels) (readKey levels (keyText k ++ 61 :: s))
    ((true, keyLeaf k), s) := by
  have hrest : ∀ {p : Prop} {u : Bytes}, Parsed p (readLeaf (u ++ 93 :: 61 :: s)) (keyLeaf k, 93 :: 61 :: s) →
      Parsed (p ∧ (keyLeaf k).levels ≤ levels) (readKey levels (91 :: (u ++ 93 :: 61 :: s)))
      ((true, keyLeaf k), s) := by
    intro p u hleaf
    rw [readKey]
    apply hleaf.bind
    have henter := parsed_enter levels (keyLeaf k).levels
    apply henter.ret
    change (readEquals (61 :: s) >>= _) = _
    rw [readEquals_of_ne hs]
    rfl
  cases k with
  | str k =>
    have htext : keyText (.str k) ++ 61 :: s = 91 :: ((34 :: k ++ [34]) ++ 93 :: 61 :: s) := by
      unfold keyText
      simp
    rw [htext]
    apply hrest
    have := readLeaf_str hk (93 :: 61 :: s)
    rw [List.append_assoc]
    exact this
  | int k =>
    have htext : keyText (.int k) ++ 61 :: s = 91 :: (dec k.toInt ++ 93 :: 61 :: s) := by
      unfold keyText
      simp
    rw [htext]
    apply hrest
    exact Parsed.of (readLeaf_dec k (Ends.cons (Or.inr (Or.inl rfl)) _))

/-- An expression that begins neither as a constructor nor as a word is a literal. -/
theorem subexpr_leaf {c : UInt8} (h1 : c ≠ 116) (h2 : c ≠ 102) (h3 : c ≠ 123) (levels : Nat) {s t : Bytes}
    {a : Leaf} {p : Prop}
    (h : Parsed p (readLeaf (c :: s)) (a, t)) :
    Parsed (p ∧ a.levels ≤ levels) (subexpr levels (c :: s)) (.leaf a, t) := by
  cases levels with
  | zero => exact Or.inr ⟨fun h => absurd h.2 (Nat.not_le_of_lt a.levels_pos), rfl⟩
  | succ levels =>
    have hword := takeWhile_ne_word h1 h2 s
    have heq : subexpr (levels + 1) (c :: s) =
        readLeaf (c :: s) >>= fun r => enter (levels + 1) r.1.levels >>= fun _ => pure (.leaf r.1, r.2) := by
      rw [subexpr, if_neg (hword true), if_neg (hword false)]
      intro u hu
      exact h3 (List.cons.inj hu).1
    rw [heq]
    apply h.bind
    exact (parsed_enter (levels + 1) a.levels).ret rfl

/-- A constructor is read if its fields are. -/
theorem subexpr_table {levels : Nat} {s t : Bytes} {fs : Fields} {p : Prop}
    (h : ∀ levels, Parsed (p ∧ fs.levels ≤ levels) (readFields levels (subexpr levels) (s.length + 1) s) (fs, t)) :
    Parsed (p ∧ (Exp.table fs).levels ≤ levels) (subexpr levels (123 :: s)) (.table fs, t) := by
  cases levels with
  | zero => exact Or.inr ⟨fun h => absurd h.2 (Nat.not_succ_le_zero _), rfl⟩
  | succ levels =>
    have hlevels : fs.levels ≤ levels ↔ (Exp.table fs).levels ≤ levels + 1 := Nat.succ_le_succ_iff.symm
    rw [← hlevels, subexpr]
    exact (h levels).ret rfl

section

variable {levels n : Nat} {sub : Bytes → Except Failure (Exp × Bytes)} {s s' t u : Bytes} {bracketed : Bool}
    {key : Leaf} {val : Exp}
  {fs : Fields} {p q r : Prop}

/-- A field that others follow. -/
theorem readFields_cons (hs : s.head? ≠ some 125) (hkey : Parsed p (readKey levels s) ((bracketed, key), s'))
    (hval : Parsed q (sub s') (val, 44 :: t)) (hfs : Parsed r (readFields levels sub n t) (fs, u)) :
    Parsed (p ∧ q ∧ r) (readFields levels sub (n + 1) s) (.cons bracketed key val fs, u) := by
  rw [readFields]
  · apply hkey.bind
    apply hval.bind
    exact hfs.ret rfl
  · rintro v rfl
    exact hs rfl

/-- The last field, without a separator. -/
theorem readFields_last (hs : s.head? ≠ some 125) (hkey : Parsed p (readKey levels s) ((bracketed, key), s'))
    (hval : Parsed q (sub s') (val, 125 :: t)) :
    Parsed (p ∧ q) (readFields levels sub (n + 1) s) (.cons bracketed key val .nil, t) := by
  rw [readFields]
  · apply hkey.bind
    exact hval.ret rfl
  · rintro v rfl
    exact hs rfl

end

/-- The number of entries. -/
def Entries.length : Entries → Nat
  | .nil => 0
  | .cons _ _ es => es.length + 1

theorem keyText_head (k : Key) (s : Bytes) : (keyText k ++ s).head? = some 91 := by cases k <;> rfl

/-- What `Serialize` writes is not empty and does not begin with `=`. -/
theorem serialize_head (v : Value) (s : Bytes) : (Serialize v ++ s).head? ≠ some 61 := by
  cases v with
  | bool b =>
    have hne : ∀ b, (word b).head? ≠ some 61 := by decide
    cases b
    · exact hne false
    · exact hne true
  | int n =>
    unfold Serialize dec
    split
    · simp
    · obtain ⟨d, ds, hds⟩ := List.exists_cons_of_ne_nil (decDigits_ne_nil n.toInt.natAbs)
      have hd : d < 10 := decDigits_lt (hds ▸ List.mem_cons_self)
      unfold decNat
      rw [hds]
      have hne : ∀ d < 10, digitByte d ≠ 61 := by decide
      simpa using hne d hd
  | _ => simp [Serialize]

theorem length_le_fieldsText : ∀ es : Entries, es.length ≤ (fieldsText es).length
  | .nil => Nat.le_refl 0
  | .cons k v es => by
    have ih := length_le_fieldsText es
    unfold Entries.length fieldsText
    simp only [List.length_append, List.length_cons]
    omega

theorem length_lt_fieldsText (es : Entries) (t : Bytes) : es.length < (fieldsText es ++ t).length + 1 := by
  have hle := length_le_fieldsText es
  rw [List.length_append]
  omega

/-- An integer begins with a sign or a digit. -/
theorem dec_cons (n : ℤ) (t : Bytes) : ∃ c s, dec n ++ t = c :: s ∧ c ≠ 116 ∧ c ≠ 102 ∧ c ≠ 123 := by
  unfold dec
  split
  · exact ⟨45, _, rfl, by decide, by decide, by decide⟩
  · obtain ⟨d, ds, hds⟩ := List.exists_cons_of_ne_nil (decDigits_ne_nil n.natAbs)
    obtain ⟨-, -, hne⟩ := digitByte_ne d (decDigits_lt (hds ▸ List.mem_cons_self))
    unfold decNat
    rw [hds]
    exact ⟨digitByte d, _, rfl, hne⟩

theorem subexpr_word (b : Bool) (levels : Nat) {t : Bytes} (ht : Ends t) :
    Parsed (1 ≤ levels) (subexpr levels (word b ++ t)) (expOf (.bool b), t) := by
  cases levels with
  | zero => exact Or.inr ⟨Nat.not_succ_le_zero _, rfl⟩
  | succ levels =>
    obtain ⟨htake, hdrop⟩ := takeWhile_word b fun c hc => (ht.spec c hc).2.1
    refine Or.inl ⟨Nat.le_add_left .., ?_⟩
    have hne : ∀ u, word b ++ t ≠ 123 :: u := by
      intro u hu
      cases b <;> cases hu
    rw [subexpr, htake, hdrop]
    · cases b <;> rfl
    · exact hne

/-- A string is read back if it is one line. -/
theorem subexpr_str {s : Bytes} (hs : Quotable s) (levels : Nat) (t : Bytes) :
    Parsed (Plain s ∧ 1 ≤ levels) (subexpr levels (34 :: s ++ 34 :: t)) (.leaf (.str s), t) :=
  subexpr_leaf (by decide) (by decide) (by decide) levels (readLeaf_str hs t)

mutual
/-- **What `Serialize` writes is read** as the expression it is meant to be, if every string is one line and the C
levels are enough. -/
theorem subexpr_serialize : ∀ (v : Value), v.All Quotable → ∀ (levels : Nat) {t : Bytes}, Ends t →
    Parsed (v.All Plain ∧ (expOf v).levels ≤ levels) (subexpr levels (Serialize v ++ t)) (expOf v, t)
  | .str s, hv, levels, t, _ => by
    have htext : Serialize (.str s) ++ t = 34 :: s ++ 34 :: t := by simp [Serialize]
    rw [htext]
    exact subexpr_str hv levels t
  | .int n, _, levels, t, ht => by
    have hread : Parsed True (readLeaf (dec n.toInt ++ t)) (intLeaf n, t) := Parsed.of (readLeaf_dec n ht)
    change Parsed _ (subexpr levels (dec n.toInt ++ t)) (.leaf (intLeaf n), t)
    obtain ⟨c, s, hcs, h1, h2, h3⟩ := dec_cons n.toInt t
    rw [hcs] at hread ⊢
    exact subexpr_leaf h1 h2 h3 levels hread
  | .bool b, _, levels, t, ht => (subexpr_word b levels ht).congr ⟨fun h => ⟨trivial, h⟩, fun h => h.2⟩
  | .table es, hv, levels, t, _ => by
    have htext : Serialize (.table es) ++ t = 123 :: (fieldsText es ++ 125 :: t) := by simp [Serialize]
    rw [htext]
    apply subexpr_table
    intro levels
    exact readFields_text es hv (length_lt_fieldsText es _)
  | .object c es, hv, levels, t, _ => by
    have htext : Serialize (.object c es) ++ t =
        123 :: (classKey ++
          61 :: (34 :: c ++ 34 :: 44 :: (saveKey ++ 61 :: 123 :: (fieldsText es ++ 125 :: 125 :: t)))) := by
      simp [Serialize]
    rw [htext]
    apply subexpr_table
    intro levels
    have hclass : ∀ s, readKey levels (classKey ++ 61 :: 34 :: s) = .ok ((false, .str classKey), 34 :: s) :=
      fun _ => rfl
    have hsave : ∀ s, readKey levels (saveKey ++ 61 :: 123 :: s) = .ok ((false, .str saveKey), 123 :: s) := fun _ => rfl
    have hsaved : Parsed (es.All Plain ∧ (Exp.table (fieldsOf es)).levels ≤ levels)
        (subexpr levels (123 :: (fieldsText es ++ 125 :: 125 :: t))) (.table (fieldsOf es), 125 :: t) := by
      apply subexpr_table
      intro levels
      exact readFields_text es hv.2 (length_lt_fieldsText es _)
    have hne : (some 95 : Option UInt8) ≠ some 125 := by decide
    have hclassHead : ∀ s, (classKey ++ s).head? ≠ some 125 := fun _ => hne
    have hsaveHead : ∀ s, (saveKey ++ s).head? ≠ some 125 := fun _ => hne
    have hall := fun n => readFields_cons (hclassHead _) (Parsed.of (hclass _)) (subexpr_str hv.1 levels _)
      (readFields_last (n := n) (hsaveHead _) (Parsed.of (hsave _)) hsaved)
    apply (hall _).congr
    have hlevels : (Fields.cons false (.str classKey) (.leaf (.str c))
        (.cons false (.str saveKey) (.table (fieldsOf es)) .nil)).levels ≤
        levels ↔ 1 ≤ levels ∧ (Exp.table (fieldsOf es)).levels ≤ levels := by
      simp only [Fields.levels, Exp.levels, Leaf.levels, Bool.false_eq_true, if_false, Nat.max_le]
      omega
    rw [hlevels]
    change _ ↔ (Plain c ∧ es.All Plain) ∧ _
    tauto
/-- The fields that `Serialize` writes are read. -/
theorem readFields_text : ∀ (es : Entries), es.All Quotable → ∀ {levels n : Nat} {t : Bytes}, es.length < n →
    Parsed (es.All Plain ∧ (fieldsOf es).levels ≤ levels)
    (readFields levels (subexpr levels) n (fieldsText es ++ 125 :: t))
      (fieldsOf es, t)
  | .nil, _, levels, n, t, hn => by
    obtain ⟨n, rfl⟩ := Nat.exists_eq_add_one_of_ne_zero (Nat.ne_of_gt hn)
    exact Or.inl ⟨⟨trivial, Nat.zero_le _⟩, rfl⟩
  | .cons k v es, hes, levels, n, t, hn => by
    obtain ⟨hk, hv, hes⟩ := hes
    obtain ⟨n, rfl⟩ := Nat.exists_eq_add_one_of_ne_zero (Nat.ne_zero_of_lt hn)
    have htext : fieldsText (.cons k v es) ++ 125 :: t = keyText k ++
        61 :: (Serialize v ++ 44 :: (fieldsText es ++ 125 :: t)) := by
      simp [fieldsText]
    have hkey := readKey_keyText hk (serialize_head v (44 :: (fieldsText es ++ 125 :: t))) levels
    have hval := subexpr_serialize v hv levels (Ends.cons (Or.inl rfl) (fieldsText es ++ 125 :: t))
    have hfs : Parsed (es.All Plain ∧ (fieldsOf es).levels ≤ levels)
        (readFields levels (subexpr levels) n (fieldsText es ++ 125 :: t)) (fieldsOf es, t) :=
      readFields_text es hes (Nat.lt_of_succ_lt_succ hn)
    have hhead : (keyText k ++ 61 :: (Serialize v ++ 44 :: (fieldsText es ++ 125 :: t))).head? ≠ some 125 := by
      rw [keyText_head]
      decide
    rw [htext]
    apply (readFields_cons hhead hkey hval hfs).congr
    have hlevels : (fieldsOf (.cons k v es)).levels ≤ levels ↔
        ((keyLeaf k).levels ≤ levels ∧ (expOf v).levels ≤ levels) ∧ (fieldsOf es).levels ≤ levels := by
      simp only [fieldsOf, Fields.levels, if_true, Nat.max_le]
    rw [hlevels]
    change _ ↔ (keyAll Plain k ∧ v.All Plain ∧ es.All Plain) ∧ _
    tauto
end

/-! ## What comes back -/

/-- The value of the literal of an integer. -/
theorem intLeaf_spec (n : BitVec 64) : (intLeaf n).eval = .int n ∧ (intLeaf n).key = .int n := by
  unfold intLeaf
  split
  · rename_i h
    have hneg : -BitVec.ofNat 64 n.toInt.natAbs = n := by
      rw [← BitVec.ofInt_natCast, ← BitVec.ofInt_neg, Int.ofNat_natAbs_of_nonpos (Int.le_of_lt h), Int.neg_neg,
        BitVec.ofInt_toInt]
    exact ⟨congrArg Datum.int hneg, congrArg Key.int hneg⟩
  · rename_i h
    have hpos : BitVec.ofNat 64 n.toInt.natAbs = n := by
      rw [← BitVec.ofInt_natCast, Int.natAbs_of_nonneg (Int.not_lt.1 h), BitVec.ofInt_toInt]
    exact ⟨congrArg Datum.int hpos, congrArg Key.int hpos⟩

theorem keyLeaf_key (k : Key) : (keyLeaf k).key = k := by
  cases k with
  | str k => rfl
  | int k => exact (intLeaf_spec k).2

mutual
/-- The value of what `Serialize` writes. -/
theorem eval_expOf : ∀ {v : Value}, v.Distinct → (expOf v).eval = plainOf v
  | .str _, _ => rfl
  | .int n, _ => (intLeaf_spec n).1
  | .bool _, _ => rfl
  | .table _, hv => congrArg Datum.table (eval_fieldsOf hv)
  | .object c es, hv => by
    have hes := eval_fieldsOf hv
    have hne : saveKey ≠ classKey := by decide
    simp [expOf, Exp.eval, Fields.eval, Leaf.eval, Leaf.key, Table.get, plainOf, hes, hne]
/-- The table of what `Serialize` writes. -/
theorem eval_fieldsOf : ∀ {es : Entries}, es.Distinct → (fieldsOf es).eval = tableOf es
  | .nil, _ => rfl
  | .cons k v es, hes => by
    obtain ⟨hk, hv, hes⟩ := hes
    have hnone : ((tableOf es).get k).isNone = true := by
      rw [get_tableOf, hk]
      rfl
    unfold fieldsOf Fields.eval tableOf
    rw [eval_fieldsOf hes, eval_expOf hv, keyLeaf_key, if_pos hnone]
end

/-- `load` reads the text of a value: no string has a line break, and the limits of the compiler are kept. -/
structure Loads (levels : Nat) (v : Value) : Prop where
  plain : v.All Plain
  levels : (expOf v).levels ≤ levels
  compiles : ((expOf v).compile 0 []).isSome

/-- What `load` makes of the text of a value. -/
theorem load_serialize {v : Value} (hv : v.Distinct) (hq : v.All Quotable) (levels : Nat) :
    Parsed (Loads levels v) (load levels (Serialize v)) (plainOf v) := by
  have hread := subexpr_serialize v hq levels (t := []) fun _ h => by cases h
  rw [List.append_nil] at hread
  have hcompile : Parsed ((expOf v).compile 0 []).isSome (expOf v).call (plainOf v) := by
    unfold Exp.call
    rw [eval_expOf hv]
    by_cases h : ((expOf v).compile 0 []).isSome
    · exact Or.inl ⟨h, if_pos h⟩
    · exact Or.inr ⟨h, if_neg h⟩
  apply (hread.bind hcompile).congr
  exact ⟨fun h => ⟨h.1.1, h.1.2, h.2⟩, fun h => ⟨⟨h.plain, h.levels⟩, h.compiles⟩⟩

theorem unSerialize_loaded {levels : Nat} {s : Bytes} {d : Datum} (h : load levels s = .ok d) :
    UnSerialize levels s = some (if looksUp d then .error .indexNil else .ok (some d)) := by
  unfold UnSerialize
  rw [h]

theorem unSerialize_syntactic {levels : Nat} {s : Bytes} (h : load levels s = .error .syntactic) :
    UnSerialize levels s = some (.ok none) := by
  unfold UnSerialize
  rw [h]

/-- The condition under which data is saved and comes back. -/
structure Fits (levels : Nat) (v : Value) : Prop where
  quotable : v.All Quotable
  loads : Loads levels v
  objectless : v.Objectless
  unclassed : looksUp (plainOf v) = false

/-- **Saved data**: a value whose strings have no quotation marks and no backslashes comes back exactly if no string has
a line break, the limits of the compiler are kept, there are no objects, and neither the value nor an entry of it is a
table with a value other than `false` for `__class__`. -/
theorem serialize_round_trip (levels : Nat) (v : Data) :
    v.1.All Quotable ∧ RoundTrips levels v.1 ↔ Fits levels v.1 := by
  obtain ⟨v, hv⟩ := v
  constructor
  · rintro ⟨hq, d, hd, hseen⟩
    rcases load_serialize hv hq levels with ⟨hloads, hload⟩ | ⟨-, hload⟩
    · rw [unSerialize_loaded hload] at hd
      cases hlook : looksUp (plainOf v) with
      | true =>
        rw [hlook] at hd
        cases hd
      | false =>
        rw [hlook] at hd
        cases hd
        refine ⟨hq, hloads, ?_, hlook⟩
        by_contra hobj
        obtain ⟨ks, c, hks⟩ := exists_object hv hobj
        exact seenAt_ne_object ks (plainOf v) c ((hseen ks).trans hks)
    · rw [unSerialize_syntactic hload] at hd
      cases hd
  · intro h
    rcases load_serialize hv h.quotable levels with ⟨-, hload⟩ | ⟨hno, -⟩
    · refine ⟨h.quotable, plainOf v, ?_, fun ks => seenAt_plainOf ks h.objectless⟩
      rw [unSerialize_loaded hload, h.unclassed]
      rfl
    · exact (hno h.loads).elim

/-- The table `{a = -5, [1] = {[-2] = true}}` comes back. -/
example : UnSerialize 190 (Serialize (.table (.cons (.str [97]) (.int (-5))
      (.cons (.int 1) (.table (.cons (.int (-2)) (.bool true) .nil)) .nil)))) =
    some
    (.ok
      (some
        (.table (.cons (.str [97]) (.int (-5))
          (.cons (.int 1) (.table (.cons (.int (-2)) (.bool true) .nil)) .nil))))) :=
  rfl

/-- An object, a line break, a backslash before an `n`, and an object two tables down. -/
theorem saved_data_lost : UnSerialize 190 (Serialize (.object [67] .nil)) = some (.error .indexNil) ∧
    UnSerialize 190 (Serialize (.str [LF])) = some (.ok none) ∧
    UnSerialize 190 (Serialize (.str [92, 110])) = some (.ok (some (.str [LF]))) ∧
    ¬RoundTrips 190 (.table (.cons (.int 1) (.table (.cons (.int 1) (.object [67] .nil) .nil)) .nil)) := by
  refine ⟨rfl, rfl, rfl, ?_⟩
  rintro ⟨d, -, hseen⟩
  exact seenAt_ne_object [.int 1, .int 1] d [67] (hseen [.int 1, .int 1])

end XCore.Saved
