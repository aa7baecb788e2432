import XCore.Class.Serialize
import XCore.Lua.Quote

/-!
# Tables as text (`table.tostring` and `table.loadstring` of `base/utils.lua`)

`tostring` writes a table as a constructor of Lua, and `loadstring` loads it. Values are written with `%q`, which is
right for all bytes; keys are written as `['%s']`, without escape sequences and cut at a zero, so that a table comes
back exactly if its keys are `Safe` (`tostring_round_trip`; keys with a quotation mark or a backslash are left out,
whose text may be any program).

The entries of a table are in the order in which `pairs` gives them. `levels` are the C levels of Lua that are left when
`loadstring` is called, less one for the statement. At most ten tables deep these and the constants are the only limits
(`compile_isSome`).
-/

namespace XCore.Utils.ToString

open XCore.Lua
open XCore.Saved (seenAt shapeOf entryOf keyAll keyLeaf intLeaf keyLeaf_key intLeaf_spec dec_cons readLeaf_dec)

/-! ## The functions -/

/-- The text of a key: `[%d]` or `['%s']`. -/
def keyText : Key → Bytes
  | .int k => 91 :: dec k.toInt ++ [93]
  | .str k => [91, 39] ++ fmtS k ++ [39, 93]

mutual
/-- What is written of a value: `tab2str(v)`, `v` or `tostring(v)` with `%s`, and a string with `%q`. -/
def valueText (max_deep _deep_count : Int) : Datum → Except LuaError Bytes
  | .table tab =>
    if _deep_count < max_deep then (pairsText max_deep (_deep_count + 1) [123] tab).map fun result =>
      fmtS (result ++ [125])
    else .error .assertion
  | .int v => .ok (fmtS (dec v.toInt))
  | .str v => .ok (34 :: addquoted v ++ [34])
  | .bool v => .ok (fmtS (word v))
/-- The loop of `tab2str`. -/
def pairsText (max_deep _deep_count : Int) (result : Bytes) : Table → Except LuaError Bytes
  | .nil => .ok result
  | .cons k v tab => do
    let text ← valueText max_deep _deep_count v
    pairsText max_deep _deep_count (fmtS result ++ keyText k ++ 61 :: text ++ [44]) tab
end

/-- `tab2str` of a table. -/
def tab2str (max_deep _deep_count : Int) (tab : Table) : Except LuaError Bytes :=
  if _deep_count < max_deep then (pairsText max_deep (_deep_count + 1) [123] tab).map fun result => result ++ [125]
  else .error .assertion

/-- `table.tostring`. -/
def tostring (tbl : Option Table) (deep : Option Int) : Except LuaError (Option Bytes) :=
  match tbl with
  | none => .ok none
  | some tab => (tab2str (deep.getD 10) 0 tab).map some

/-- `table.loadstring`, or `none` if the text is beyond `load` here. What does not load is given to `error` as its
level, which raises as well. -/
def loadstring (levels : Nat) (str : Option Bytes) : Option (Except LuaError Table) :=
  match Source.load levels (str.getD [123, 125]) with
  | .error .beyond => none
  | .error .syntactic => some (.error .badArgument)
  | .ok (.table rt) => some (.ok rt)
  | .ok _ => some (.ok .nil)

theorem valueText_table (max_deep _deep_count : Int) (tab : Table) :
    valueText max_deep _deep_count (.table tab) = (tab2str max_deep _deep_count tab).map fmtS := by
  unfold valueText tab2str
  split
  · cases pairsText max_deep (_deep_count + 1) [123] tab <;> rfl
  · rfl

/-! ## Trees -/

mutual
/-- How deep tables are nested in a value. -/
def depth : Datum → Nat
  | .table t => depthIn t + 1
  | _ => 0
/-- How deep tables are nested in the values of a table. -/
def depthIn : Table → Nat
  | .nil => 0
  | .cons _ v t => max (depth v) (depthIn t)
end

mutual
/-- Every key has one value. -/
def Distinct : Datum → Prop
  | .table t => DistinctIn t
  | _ => True
/-- Every key has one value. -/
def DistinctIn : Table → Prop
  | .nil => True
  | .cons k v t => t.get k = none ∧ Distinct v ∧ DistinctIn t
end

mutual
/-- A property of all strings that are keys. -/
def AllKeys (p : Bytes → Prop) : Datum → Prop
  | .table t => KeysIn p t
  | _ => True
/-- A property of all strings that are keys. -/
def KeysIn (p : Bytes → Prop) : Table → Prop
  | .nil => True
  | .cons k v t => keyAll p k ∧ AllKeys p v ∧ KeysIn p t
end

/-- A tree of at most ten tables in depth. -/
structure Tree where
  tbl : Table
  distinct : DistinctIn tbl
  depth : depth (.table tbl) ≤ 10

/-- A table is written, and a table with the same values comes back. -/
def RoundTrips (levels : Nat) (t : Tree) : Prop :=
  ∃ str rt, tostring (some t.tbl) none = .ok (some str) ∧ loadstring levels (some str) = some (.ok rt) ∧
    ∀ ks, seenAt (.table rt) ks = seenAt (.table t.tbl) ks

/-! ## What is written -/

mutual
/-- The text of a value. -/
def text : Datum → Bytes
  | .str s => 34 :: addquoted s ++ [34]
  | .int n => dec n.toInt
  | .bool b => word b
  | .table t => 123 :: fieldsText t ++ [125]
/-- The text of the entries of a table. -/
def fieldsText : Table → Bytes
  | .nil => []
  | .cons k v t => keyText k ++ 61 :: text v ++ 44 :: fieldsText t
end

theorem whole_dec (n : Int) : Whole (dec n) := by
  have hnat : 0 ∉ decNat n.natAbs := fun h => by
    obtain ⟨d, hd, h0⟩ := List.mem_map.1 h
    exact digitByte_ne_zero d (decDigits_lt hd) h0
  refine Whole.of_not_mem ?_
  unfold dec
  split
  · exact fun h => (List.mem_cons.1 h).elim (by decide) hnat
  · exact hnat

theorem whole_word (b : Bool) : Whole (word b) := by cases b <;> exact Whole.of_not_mem (by decide)

/-- Bytes other than zeros. -/
theorem whole_bytes {s : Bytes} (h : s.all (· ≠ 0) = true) : Whole s :=
  Whole.of_not_mem fun h0 => of_decide_eq_true (List.all_eq_true.1 h 0 h0) rfl

theorem whole_keyText : ∀ k : Key, Whole (keyText k)
  | .int k => ((whole_bytes (s := [91]) rfl).append (whole_dec k.toInt)).append (whole_bytes rfl)
  | .str k => ((whole_bytes rfl).append (whole_fmtS k)).append (whole_bytes rfl)

mutual
theorem whole_text : ∀ v : Datum, Whole (text v)
  | .str s => ((whole_bytes (s := [34]) rfl).append (Whole.of_not_mem (zero_not_mem_addquoted s))).append
      (whole_bytes rfl)
  | .int n => whole_dec n.toInt
  | .bool b => whole_word b
  | .table t => ((whole_bytes (s := [123]) rfl).append (whole_fieldsText t)).append (whole_bytes rfl)
theorem whole_fieldsText : ∀ t : Table, Whole (fieldsText t)
  | .nil => whole_bytes rfl
  | .cons k v t =>
    ((whole_keyText k).append ((whole_bytes (s := [61]) rfl).append (whole_text v))).append
      ((whole_bytes (s := [44]) rfl).append (whole_fieldsText t))
end

section

variable {max_deep : Int}

mutual
/-- What is written of a value that is not too deep. -/
theorem valueText_eq : ∀ {v : Datum} {_deep_count : Int}, _deep_count + depth v ≤ max_deep →
    valueText max_deep _deep_count v = .ok (text v)
  | .str _, _, _ => rfl
  | .int n, _, _ => congrArg Except.ok (fmtS_eq_self.2 (whole_dec n.toInt))
  | .bool b, _, _ => congrArg Except.ok (fmtS_eq_self.2 (whole_word b))
  | .table t, _deep_count, h => by
    have hdepth : (depth (.table t) : Int) = depthIn t + 1 := Nat.cast_succ (depthIn t)
    have hroom : _deep_count < max_deep := by omega
    have hloop : pairsText max_deep (_deep_count + 1) [123] t = .ok ([123] ++ fieldsText t) :=
      pairsText_eq (whole_bytes rfl) (by omega)
    have hwhole : Whole ([123] ++ fieldsText t ++ [125]) := whole_text (.table t)
    rw [valueText, if_pos hroom, hloop]
    exact congrArg Except.ok (fmtS_eq_self.2 hwhole)
/-- What the loop of `tab2str` writes. -/
theorem pairsText_eq : ∀ {t : Table} {_deep_count : Int} {result : Bytes}, Whole result →
    _deep_count + depthIn t ≤ max_deep → pairsText max_deep _deep_count result t = .ok (result ++ fieldsText t)
  | .nil, _, result, _, _ => by
    rw [pairsText, fieldsText, List.append_nil]
  | .cons k v t, _deep_count, result, hresult, h => by
    have hdepth : depthIn (.cons k v t) = max (depth v) (depthIn t) := rfl
    have hv : valueText max_deep _deep_count v = .ok (text v) := valueText_eq (by omega)
    have hnext : Whole (result ++ keyText k ++ 61 :: text v ++ [44]) :=
      ((hresult.append (whole_keyText k)).append ((whole_bytes (s := [61]) rfl).append (whole_text v))).append
        (whole_bytes rfl)
    have ih : pairsText max_deep _deep_count (result ++ keyText k ++ 61 :: text v ++ [44]) t =
        .ok (result ++ keyText k ++ 61 :: text v ++ [44] ++ fieldsText t) := pairsText_eq hnext (by omega)
    rw [pairsText, hv, fmtS_eq_self.2 hresult]
    change pairsText max_deep _deep_count (result ++ keyText k ++ 61 :: text v ++ [44]) t = _
    rw [ih, fieldsText]
    simp only [List.append_assoc, List.cons_append, List.nil_append]
end

end

/-- **What `tostring` writes** of a tree. -/
theorem tostring_eq (t : Tree) : tostring (some t.tbl) none = .ok (some (text (.table t.tbl))) := by
  have hdepth : depthIn t.tbl + 1 ≤ 10 := t.depth
  have hloop : pairsText 10 (0 + 1) [123] t.tbl = .ok ([123] ++ fieldsText t.tbl) :=
    pairsText_eq (whole_bytes rfl) (by omega)
  change (tab2str 10 0 t.tbl).map some = _
  unfold tab2str
  rw [if_pos (by decide), hloop]
  rfl

/-! ## What is read of it -/

/-- The key that is written. -/
def cutKey : Key → Key
  | .str k => .str (fmtS k)
  | .int k => .int k

mutual
/-- The expression that is written. -/
def expOf : Datum → Exp
  | .str s => .leaf (.str s)
  | .int n => .leaf (intLeaf n)
  | .bool b => .bool b
  | .table t => .table (fieldsOf t)
/-- The fields that are written. -/
def fieldsOf : Table → Fields
  | .nil => .nil
  | .cons k v t => .cons true (keyLeaf (cutKey k)) (expOf v) (fieldsOf t)
end

/-- No quotation mark `'` and no backslash. -/
def Unquoted (k : Bytes) : Prop := ∀ c ∈ k, c ≠ 39 ∧ c ≠ 92

/-- One line, as it is written. -/
def Line (k : Bytes) : Prop := Plain (fmtS k)

/-- A number is read as in `XCore.Lua.readLeaf`. -/
theorem readLeaf_int (n : BitVec 64) {t : Bytes} (ht : Ends t) :
    Source.readLeaf (dec n.toInt ++ t) = .ok (intLeaf n, t) := by
  have hread := readLeaf_dec n ht
  have hhead : ∃ c s, dec n.toInt ++ t = c :: s ∧ ¬(c = 34 ∨ c = 39) := by
    unfold dec
    split
    · exact ⟨45, _, rfl, by decide⟩
    · obtain ⟨d, ds, hds⟩ := List.exists_cons_of_ne_nil (decDigits_ne_nil n.toInt.natAbs)
      have hquote : ∀ d < 10, ¬(digitByte d = 34 ∨ digitByte d = 39) := by decide
      refine ⟨digitByte d, ds.map digitByte ++ t, ?_, hquote d (decDigits_lt (hds ▸ List.mem_cons_self))⟩
      unfold decNat
      rw [hds]
      rfl
  obtain ⟨c, s, hcs, hc⟩ := hhead
  rw [hcs] at hread ⊢
  rw [Source.readLeaf, if_neg hc, hread]

/-- A key is read back as it is written if that is one line. -/
theorem readKey_keyText {k : Key} (hk : keyAll Unquoted k) {s : Bytes} (hs : s.head? ≠ some 61) (levels : Nat) :
    Parsed (keyAll Line k ∧ (keyLeaf (cutKey k)).levels ≤ levels) (Source.readKey levels (keyText k ++ 61 :: s))
      (keyLeaf (cutKey k), s) := by
  cases k with
  | str k =>
    have htext : keyText (.str k) ++ 61 :: s = 91 :: ((39 :: fmtS k ++ [39]) ++ 93 :: 61 :: s) := by
      unfold keyText
      simp
    have hleaf : Parsed (Line k) (Source.readLeaf ((39 :: fmtS k ++ [39]) ++ 93 :: 61 :: s))
        (.str (fmtS k), 93 :: 61 :: s) := by
      rw [List.append_assoc, List.cons_append, Source.readLeaf, if_pos (Or.inr rfl)]
      exact (Source.read_string_plain (fun c hc => hk c (mem_of_mem_fmtS hc)) _).map _
    rw [htext]
    exact Source.readKey_leaf hs hleaf
  | int k =>
    have htext : keyText (.int k) ++ 61 :: s = 91 :: (dec k.toInt ++ 93 :: 61 :: s) := by
      unfold keyText
      simp
    rw [htext]
    exact Source.readKey_leaf hs (Parsed.of (readLeaf_int k (Ends.cons (Or.inr (Or.inl rfl)) _)))

/-- The text of a value is not empty and does not begin with `=`. -/
theorem text_head (v : Datum) (s : Bytes) : (text v ++ s).head? ≠ some 61 := by
  cases v with
  | bool b =>
    have hne : ∀ b, (word b).head? ≠ some 61 := by decide
    cases b
    · exact hne false
    · exact hne true
  | int n =>
    unfold text dec
    split
    · simp
    · obtain ⟨d, ds, hds⟩ := List.exists_cons_of_ne_nil (decDigits_ne_nil n.toInt.natAbs)
      have hne : ∀ d < 10, digitByte d ≠ 61 := by decide
      unfold decNat
      rw [hds]
      simpa using hne d (decDigits_lt (hds ▸ List.mem_cons_self))
  | _ => simp [text]

/-- The number of entries. -/
def size : Table → Nat
  | .nil => 0
  | .cons _ _ t => size t + 1

theorem size_le_fieldsText : ∀ t : Table, size t ≤ (fieldsText t).length
  | .nil => Nat.le_refl 0
  | .cons k v t => by
    have ih := size_le_fieldsText t
    unfold size fieldsText
    simp only [List.length_append, List.length_cons]
    omega

theorem keyText_head (k : Key) (s : Bytes) : (keyText k ++ s).head? ≠ some 125 := by
  have hbracket : (keyText k ++ s).head? = some 91 := by cases k <;> rfl
  rw [hbracket]
  decide

mutual
/-- **The text of a value is read** as the expression it is meant to be, if the keys are one line as they are written
and the C levels are enough. -/
theorem subexpr_text : ∀ (v : Datum), AllKeys Unquoted v → ∀ (levels : Nat) {t : Bytes}, Ends t →
    Parsed (AllKeys Line v ∧ (expOf v).levels ≤ levels) (Source.subexpr levels (text v ++ t)) (expOf v, t)
  | .str s, _, levels, t, _ => by
    have htext : text (.str s) ++ t = 34 :: (addquoted s ++ 34 :: t) := by simp [text]
    have hleaf : Source.readLeaf (34 :: (addquoted s ++ 34 :: t)) = .ok (.str s, t) := by
      rw [Source.readLeaf, if_pos (Or.inl rfl), Source.read_string_addquoted]
      rfl
    rw [htext]
    exact Source.subexpr_leaf (by decide) (by decide) (by decide) (Parsed.of hleaf)
  | .int n, _, levels, t, ht => by
    have hleaf := readLeaf_int n ht
    obtain ⟨c, s, hcs, h1, h2, h3⟩ := dec_cons n.toInt t
    change Parsed _ (Source.subexpr levels (dec n.toInt ++ t)) (.leaf (intLeaf n), t)
    rw [hcs] at hleaf ⊢
    exact Source.subexpr_leaf h1 h2 h3 (Parsed.of hleaf)
  | .bool b, _, levels, t, ht =>
    (Source.subexpr_word b fun c hc => (ht.spec c hc).2.1).congr ⟨fun h => ⟨trivial, h⟩, fun h => h.2⟩
  | .table tab, hv, levels, t, _ => by
    have htext : text (.table tab) ++ t = 123 :: (fieldsText tab ++ 125 :: t) := by simp [text]
    rw [htext]
    apply Source.subexpr_table
    intro levels
    have hle := size_le_fieldsText tab
    refine readFields_text tab hv ?_
    rw [List.length_append]
    omega
/-- The text of the entries of a table is read. -/
theorem readFields_text : ∀ (tab : Table), KeysIn Unquoted tab → ∀ {levels n : Nat} {t : Bytes}, size tab < n →
    Parsed (KeysIn Line tab ∧ (fieldsOf tab).levels ≤ levels)
      (Source.readFields levels (Source.subexpr levels) n (fieldsText tab ++ 125 :: t)) (fieldsOf tab, t)
  | .nil, _, levels, n, t, hn => by
    obtain ⟨n, rfl⟩ := Nat.exists_eq_add_one_of_ne_zero (Nat.ne_of_gt hn)
    exact Or.inl ⟨⟨trivial, Nat.zero_le _⟩, rfl⟩
  | .cons k v tab, hes, levels, n, t, hn => by
    obtain ⟨hk, hv, htab⟩ := hes
    obtain ⟨n, rfl⟩ := Nat.exists_eq_add_one_of_ne_zero (Nat.ne_zero_of_lt hn)
    have htext : fieldsText (.cons k v tab) ++ 125 :: t = keyText k ++
        61 :: (text v ++ 44 :: (fieldsText tab ++ 125 :: t)) := by
      simp [fieldsText]
    have hkey := readKey_keyText hk (text_head v (44 :: (fieldsText tab ++ 125 :: t))) levels
    have hval := subexpr_text v hv levels (Ends.cons (Or.inl rfl) (fieldsText tab ++ 125 :: t))
    have hfs : Parsed (KeysIn Line tab ∧ (fieldsOf tab).levels ≤ levels)
        (Source.readFields levels (Source.subexpr levels) n (fieldsText tab ++ 125 :: t)) (fieldsOf tab, t) :=
      readFields_text tab htab (Nat.lt_of_succ_lt_succ hn)
    rw [htext]
    apply (Source.readFields_cons (keyText_head k _) hkey hval hfs).congr
    have hlevels : (fieldsOf (.cons k v tab)).levels ≤ levels ↔
        ((keyLeaf (cutKey k)).levels ≤ levels ∧ (expOf v).levels ≤ levels) ∧ (fieldsOf tab).levels ≤ levels := by
      simp only [fieldsOf, Fields.levels, if_true, Nat.max_le]
    rw [hlevels]
    change _ ↔ (keyAll Line k ∧ AllKeys Line v ∧ KeysIn Line tab) ∧ _
    tauto
end

/-- What `load` makes of the text of a value. -/
theorem load_text {v : Datum} (hv : AllKeys Unquoted v) (levels : Nat) :
    Parsed ((AllKeys Line v ∧ (expOf v).levels ≤ levels) ∧ ((expOf v).compile 0 []).isSome)
    (Source.load levels (text v))
      (expOf v).eval := by
  have hread := subexpr_text v hv levels (t := []) fun _ h => by cases h
  rw [List.append_nil] at hread
  have hcall : Parsed ((expOf v).compile 0 []).isSome (expOf v).call (expOf v).eval := by
    unfold Exp.call
    by_cases h : ((expOf v).compile 0 []).isSome
    · exact Or.inl ⟨h, if_pos h⟩
    · exact Or.inr ⟨h, if_neg h⟩
  exact hread.bind hcall

/-! ## The limits of the compiler -/

mutual
/-- The number of keys and of values other than tables. -/
def scalars : Datum → Nat
  | .table t => scalarsIn t
  | _ => 1
/-- The number of keys and of values other than tables. -/
def scalarsIn : Table → Nat
  | .nil => 0
  | .cons _ v t => 1 + scalars v + scalarsIn t
end

theorem intLeaf_levels (n : BitVec 64) : (intLeaf n).levels ≤ 2 := by
  unfold intLeaf
  split
  · exact Nat.le_refl 2
  · exact Nat.le_succ 1

theorem keyLeaf_levels (k : Key) : (keyLeaf k).levels ≤ 2 := by
  cases k with
  | str k => exact Nat.le_succ 1
  | int k => exact intLeaf_levels k

mutual
/-- One C level for every table, and two for a negative number. -/
theorem levels_expOf : ∀ v : Datum, (expOf v).levels ≤ depth v + 2
  | .str _ => Nat.le_succ 1
  | .int n => intLeaf_levels n
  | .bool _ => Nat.le_succ 1
  | .table t => Nat.succ_le_succ (levels_fieldsOf t)
theorem levels_fieldsOf : ∀ t : Table, (fieldsOf t).levels ≤ depthIn t + 2
  | .nil => Nat.zero_le _
  | .cons k v t => by
    have hk := keyLeaf_levels (cutKey k)
    have hv := levels_expOf v
    have ht := levels_fieldsOf t
    simp only [fieldsOf, Fields.levels, if_true, depthIn]
    omega
end

theorem addk_some {k : List Const} (c : Const) (hk : k.length < 2 ^ 26 - 1) :
    ∃ i k', addk k c = some (i, k') ∧ k'.length ≤ k.length + 1 := by
  unfold addk
  split
  · exact ⟨_, k, rfl, Nat.le_succ _⟩
  · refine ⟨k.length, k ++ [c], rfl, ?_⟩
    rw [List.length_append, List.length_singleton]

theorem exp2RK_some (freereg : Nat) (k : List Const) (c : Const) (hreg : freereg + 1 < 255)
    (hk : k.length < 2 ^ 26 - 1) :
    ∃ reg k', exp2RK freereg k c = some (reg, k') ∧ reg ≤ freereg + 1 ∧ k'.length ≤ k.length + 1 := by
  obtain ⟨i, k', hadd, hlen⟩ := addk_some c hk
  by_cases hi : i ≤ 255
  · refine ⟨freereg, k', ?_, Nat.le_succ _, hlen⟩
    simp [exp2RK, hadd, hi]
  · refine ⟨freereg + 1, k', ?_, Nat.le_refl _, hlen⟩
    simp [exp2RK, reserve, hadd, hi, hreg]

/-- A literal is compiled to a constant. -/
theorem compile_leaf (a : Leaf) (freereg : Nat) (k : List Const) (hreg : freereg + 1 < 255)
    (hk : k.length < 2 ^ 26 - 1) :
    ∃ k', (Exp.leaf a).compile freereg k = some k' ∧ k'.length ≤ k.length + 1 := by
  obtain ⟨reg, k', h, -, hlen⟩ := exp2RK_some freereg k a.const hreg hk
  refine ⟨k', ?_, hlen⟩
  rw [Exp.compile, h]
  rfl

mutual
/-- A table needs two registers, one of them for a key. -/
theorem compile_expOf : ∀ (v : Datum) (freereg : Nat) (k : List Const), freereg + 2 * depth v + 2 < 255 →
    k.length + scalars v < 2 ^ 26 → ∃ k', (expOf v).compile freereg k = some k' ∧ k'.length ≤ k.length + scalars v
  | .str s, freereg, k, hreg, hk => by
    have hscalars : scalars (.str s) = 1 := rfl
    exact compile_leaf (.str s) freereg k (by omega) (by omega)
  | .int n, freereg, k, hreg, hk => by
    have hscalars : scalars (.int n) = 1 := rfl
    exact compile_leaf (intLeaf n) freereg k (by omega) (by omega)
  | .bool b, freereg, k, hreg, hk => by
    have hscalars : scalars (.bool b) = 1 := rfl
    have hreserve : reserve freereg = some (freereg + 1) := if_pos (by omega)
    obtain ⟨i, k', hadd, hlen⟩ := addk_some (.bool b) (show k.length < 2 ^ 26 - 1 by omega)
    rw [expOf, Exp.compile]
    split
    · refine ⟨k', ?_, hlen⟩
      rw [hadd]
      rfl
    · refine ⟨k, ?_, Nat.le_add_right _ _⟩
      rw [hreserve]
      rfl
  | .table t, freereg, k, hreg, hk => by
    have hdepth : depth (.table t) = depthIn t + 1 := rfl
    have hreserve : reserve freereg = some (freereg + 1) := if_pos (by omega)
    obtain ⟨k', h, hlen⟩ := compile_fieldsOf t (freereg + 1) k (by omega) hk
    refine ⟨k', ?_, hlen⟩
    rw [expOf, Exp.compile, hreserve]
    exact h
theorem compile_fieldsOf : ∀ (t : Table) (freereg : Nat) (k : List Const), freereg + 2 * depthIn t + 3 < 255 →
    k.length + scalarsIn t < 2 ^ 26 → ∃ k', (fieldsOf t).compile freereg k = some k' ∧
    k'.length ≤ k.length + scalarsIn t
  | .nil, _, k, _, _ => ⟨k, rfl, Nat.le_refl _⟩
  | .cons key v t, freereg, k, hreg, hk => by
    have hdepth : depthIn (.cons key v t) = max (depth v) (depthIn t) := rfl
    have hscalars : scalarsIn (.cons key v t) = 1 + scalars v + scalarsIn t := rfl
    obtain ⟨reg, k₁, h₁, hreg₁, hlen₁⟩ := exp2RK_some freereg k (keyLeaf (cutKey key)).const (by omega) (by omega)
    obtain ⟨k₂, h₂, hlen₂⟩ := compile_expOf v reg k₁ (by omega) (by omega)
    obtain ⟨k₃, h₃, hlen₃⟩ := compile_fieldsOf t freereg k₂ (by omega) (by omega)
    refine ⟨k₃, ?_, by omega⟩
    rw [fieldsOf, Fields.compile, h₁]
    change ((expOf v).compile reg k₁ >>= _) = _
    rw [h₂]
    exact h₃
end

/-- **A tree compiles** if its keys and values are not more than there can be constants. -/
theorem compile_isSome (t : Tree) (h : scalarsIn t.tbl < 2 ^ 26) : ((expOf (.table t.tbl)).compile 0 []).isSome := by
  have hdepth := t.depth
  have hscalars : ([] : List Const).length + scalars (.table t.tbl) < 2 ^ 26 := (Nat.zero_add _).trans_lt h
  obtain ⟨k', hk', -⟩ := compile_expOf (.table t.tbl) 0 [] (by omega) hscalars
  rw [hk']
  rfl

/-! ## What comes back -/

theorem cutKey_cutKey : ∀ k : Key, cutKey (cutKey k) = cutKey k
  | .str k => congrArg Key.str (fmtS_eq_self.2 (whole_fmtS k))
  | .int _ => rfl

theorem cutKey_eq_self : ∀ {k : Key}, cutKey k = k ↔ keyAll Whole k
  | .str _ => ⟨fun h => fmtS_eq_self.1 (Key.str.inj h), fun h => congrArg Key.str (fmtS_eq_self.2 h)⟩
  | .int _ => ⟨fun _ => trivial, fun _ => rfl⟩

theorem get_cons {k k' : Key} {v w : Datum} {t : Table} (hk : t.get k = none) (h : t.get k' = some w) :
    (Table.cons k v t).get k' = some w := by
  have hne : k ≠ k' := by
    rintro rfl
    rw [hk] at h
    cases h
  exact (if_neg hne).trans h

/-- The keys that come back are not cut. -/
theorem cutKey_of_eval : ∀ {t : Table} {k : Key} {v : Datum}, (fieldsOf t).eval.get k = some v → cutKey k = k
  | .nil, _, _, h => by cases h
  | .cons k' w t, k, v, h => by
    unfold fieldsOf Fields.eval at h
    rw [keyLeaf_key] at h
    split at h
    · unfold Table.get at h
      split at h
      · rename_i hk
        rw [← hk, cutKey_cutKey]
      · exact cutKey_of_eval h
    · exact cutKey_of_eval h

/-- The values that come back if no key of the table is cut. -/
theorem get_fieldsOf : ∀ {t : Table}, DistinctIn t → (∀ k v, t.get k = some v → cutKey k = k) → ∀ k,
    (fieldsOf t).eval.get k = (t.get k).map fun v => (expOf v).eval
  | .nil, _, _, _ => rfl
  | .cons k v t, ⟨hk, _, ht⟩, huncut, k' => by
    have ih := get_fieldsOf ht fun k' w h => huncut k' w (get_cons hk h)
    have hkey : cutKey k = k := huncut k v (if_pos rfl)
    have hnone : ((fieldsOf t).eval.get k).isNone = true := by
      rw [ih, hk]
      rfl
    unfold fieldsOf Fields.eval
    rw [keyLeaf_key, hkey, if_pos hnone]
    unfold Table.get
    split
    · rfl
    · exact ih k'

mutual
/-- If the value that comes back has the same values, no key is cut. -/
theorem whole_keys : ∀ {v : Datum}, Distinct v → (∀ ks, seenAt (expOf v).eval ks = seenAt v ks) → AllKeys Whole v
  | .str _, _, _ => trivial
  | .int _, _, _ => trivial
  | .bool _, _, _ => trivial
  | .table t, hd, h => by
    have hpath : ∀ k ks, (((fieldsOf t).eval.get k).bind fun e => seenAt e ks) = (t.get k).bind fun e => seenAt e ks :=
      fun k ks => h (k :: ks)
    have huncut : ∀ k v, t.get k = some v → cutKey k = k := by
      intro k v hv
      have hk := hpath k []
      rw [hv] at hk
      cases hget : (fieldsOf t).eval.get k with
      | none =>
        rw [hget] at hk
        cases hk
      | some e => exact cutKey_of_eval hget
    refine whole_keysIn hd fun k v hv => ⟨huncut k v hv, fun ks => ?_⟩
    have hk := hpath k ks
    rw [get_fieldsOf hd huncut, hv] at hk
    exact hk
theorem whole_keysIn : ∀ {t : Table}, DistinctIn t →
    (∀ k v, t.get k = some v → cutKey k = k ∧ ∀ ks, seenAt (expOf v).eval ks = seenAt v ks) → KeysIn Whole t
  | .nil, _, _ => trivial
  | .cons k v t, ⟨hk, hv, ht⟩, h => by
    obtain ⟨hcut, hseen⟩ := h k v (if_pos rfl)
    exact ⟨cutKey_eq_self.1 hcut, whole_keys hv hseen, whole_keysIn ht fun k' w hw => h k' w (get_cons hk hw)⟩
end

mutual
/-- The value that comes back if no key is cut. -/
theorem eval_expOf : ∀ {v : Datum}, Distinct v → AllKeys Whole v → (expOf v).eval = v
  | .str _, _, _ => rfl
  | .int n, _, _ => (intLeaf_spec n).1
  | .bool _, _, _ => rfl
  | .table _, hd, hv => congrArg Datum.table (eval_fieldsOf hd hv)
theorem eval_fieldsOf : ∀ {t : Table}, DistinctIn t → KeysIn Whole t → (fieldsOf t).eval = t
  | .nil, _, _ => rfl
  | .cons k v t, ⟨hk, hv, ht⟩, ⟨hkey, hvalue, hrest⟩ => by
    unfold fieldsOf Fields.eval
    rw [eval_fieldsOf ht hrest, eval_expOf hv hvalue, keyLeaf_key, cutKey_eq_self.2 hkey, if_pos (by rw [hk]; rfl)]
end

/-! ## The round trip -/

section

variable {p q : Bytes → Prop}

mutual
theorem AllKeys.imp (h : ∀ k, p k → q k) : ∀ {v : Datum}, AllKeys p v → AllKeys q v
  | .str _, _ => trivial
  | .int _, _ => trivial
  | .bool _, _ => trivial
  | .table _, hv => KeysIn.imp h hv
theorem KeysIn.imp (h : ∀ k, p k → q k) : ∀ {t : Table}, KeysIn p t → KeysIn q t
  | .nil, _ => trivial
  | .cons (.str k) _ _, ⟨hk, hv, ht⟩ => ⟨h k hk, AllKeys.imp h hv, KeysIn.imp h ht⟩
  | .cons (.int _) _ _, ⟨_, hv, ht⟩ => ⟨trivial, AllKeys.imp h hv, KeysIn.imp h ht⟩
end

mutual
theorem AllKeys.and : ∀ {v : Datum}, AllKeys p v → AllKeys q v → AllKeys (fun k => p k ∧ q k) v
  | .str _, _, _ => trivial
  | .int _, _, _ => trivial
  | .bool _, _, _ => trivial
  | .table _, hp, hq => KeysIn.and hp hq
theorem KeysIn.and : ∀ {t : Table}, KeysIn p t → KeysIn q t → KeysIn (fun k => p k ∧ q k) t
  | .nil, _, _ => trivial
  | .cons (.str _) _ _, ⟨hpk, hpv, hpt⟩, ⟨hqk, hqv, hqt⟩ => ⟨⟨hpk, hqk⟩, AllKeys.and hpv hqv, KeysIn.and hpt hqt⟩
  | .cons (.int _) _ _, ⟨_, hpv, hpt⟩, ⟨_, hqv, hqt⟩ => ⟨trivial, AllKeys.and hpv hqv, KeysIn.and hpt hqt⟩
end

end

/-- A key that comes back: one line without `'` and backslash, which `%s` does not cut. -/
structure Safe (k : Bytes) : Prop where
  unquoted : Unquoted k
  plain : Plain k
  whole : Whole k

theorem Safe.line {k : Bytes} (h : Safe k) : Line k := by
  unfold Line
  rw [fmtS_eq_self.2 h.whole]
  exact h.plain

theorem Safe.of_line {k : Bytes} (hquote : Unquoted k) (hline : Line k) (hwhole : Whole k) : Safe k := by
  unfold Line at hline
  rw [fmtS_eq_self.2 hwhole] at hline
  exact ⟨hquote, hline, hwhole⟩

/-- The condition under which a tree comes back. -/
structure Fits (levels : Nat) (t : Tree) : Prop where
  keys : KeysIn Safe t.tbl
  levels : (expOf (.table t.tbl)).levels ≤ levels
  compiles : ((expOf (.table t.tbl)).compile 0 []).isSome

/-- Twelve C levels and less than `2 ^ 26` keys and values are enough. -/
theorem fits_of_safe {levels : Nat} {t : Tree} (hkeys : KeysIn Safe t.tbl) (hlevels : 12 ≤ levels)
    (hsize : scalarsIn t.tbl < 2 ^ 26) : Fits levels t := by
  have hle := levels_expOf (.table t.tbl)
  have hdepth := t.depth
  exact ⟨hkeys, by omega, compile_isSome t hsize⟩

/-- **A table comes back** from its text, if no key has a quotation mark `'` or a backslash, exactly if every key is one
line and has no zero or at least 100 bytes, and the limits of the compiler are kept. -/
theorem tostring_round_trip (levels : Nat) (t : Tree) :
    KeysIn Unquoted t.tbl ∧ RoundTrips levels t ↔ Fits levels t := by
  have hwritten := tostring_eq t
  constructor
  · rintro ⟨hquote, str, rt, hstr, hload, hseen⟩
    rw [hwritten] at hstr
    cases hstr
    unfold loadstring at hload
    rcases load_text (v := .table t.tbl) hquote levels with ⟨⟨⟨hline, hlevels⟩, hcompile⟩, h⟩ | ⟨-, h⟩
    · have hload : some (.ok (fieldsOf t.tbl).eval) = some (.ok rt : Except LuaError Table) := by
        rw [Option.getD_some, h] at hload
        exact hload
      cases hload
      have hwhole : KeysIn Whole t.tbl := whole_keys (v := .table t.tbl) t.distinct hseen
      refine ⟨?_, hlevels, hcompile⟩
      exact ((KeysIn.and hquote hline).and hwhole).imp fun k hk => Safe.of_line hk.1.1 hk.1.2 hk.2
    · rw [Option.getD_some, h] at hload
      cases hload
  · intro h
    have hquote : KeysIn Unquoted t.tbl := h.keys.imp fun _ => Safe.unquoted
    have hline : KeysIn Line t.tbl := h.keys.imp fun _ => Safe.line
    have hwhole : KeysIn Whole t.tbl := h.keys.imp fun _ => Safe.whole
    refine ⟨hquote, text (.table t.tbl), t.tbl, hwritten, ?_, fun _ => rfl⟩
    have hvalue : (expOf (.table t.tbl)).eval = .table t.tbl := congrArg Datum.table (eval_fieldsOf t.distinct hwhole)
    rcases load_text (v := .table t.tbl) hquote levels with ⟨-, hload⟩ | ⟨hno, -⟩
    · unfold loadstring
      rw [Option.getD_some, hload, hvalue]
    · exact (hno ⟨⟨hline, h.levels⟩, h.compiles⟩).elim

/-- The table `{[k] = true}`. -/
def single (k : Bytes) : Tree := ⟨.cons (.str k) (.bool true) .nil, ⟨rfl, trivial, trivial⟩, by simp [depth, depthIn]⟩

/-- Values of all bytes come back: `{[-1] = "\r0\0\"\\"}`. -/
example : loadstring 190 (some (text (.table (.cons (.int (-1)) (.str [CR, 48, 0, 34, 92]) .nil)))) =
    some (.ok (.cons (.int (-1)) (.str [CR, 48, 0, 34, 92]) .nil)) := rfl

/-- A key with a line feed does not load, the key of a backslash and an `n` comes back as a line feed, and a zero as
nothing. -/
theorem tostring_keys : ¬(∀ t : Tree, RoundTrips 190 t) ∧
    loadstring 190 (some (text (.table (single [LF]).tbl))) = some (.error .badArgument) ∧
    loadstring 190 (some (text (.table (single [92, 110]).tbl))) = some (.ok (single [LF]).tbl) ∧
    loadstring 190 (some (text (.table (single [0]).tbl))) = some (.ok (single []).tbl) := by
  have hLF : loadstring 190 (some (text (.table (single [LF]).tbl))) = some (.error .badArgument) := rfl
  refine ⟨fun h => ?_, hLF, rfl, rfl⟩
  obtain ⟨str, rt, hstr, hload, -⟩ := h (single [LF])
  rw [tostring_eq] at hstr
  cases hstr
  rw [hLF] at hload
  cases hload

end XCore.Utils.ToString
