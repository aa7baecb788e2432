import XCore.Lua.Literal

/-!
# Data as text of Lua 5.3, with escape sequences

The same expressions as in `XCore.Lua.Literal`, with strings in either quotation mark and with their escape sequences
(`read_string` of `llex.c`). Keys are in brackets. The sequences `\x`, `\u` and `\z` are beyond this module, also
blanks; memory and the counters of 31 bits (lines, instructions) are taken as sufficient.

- `read_string_plain`: text without escape sequences is read as it is, if it is one line;
- `read_string_decimal`: what a decimal sequence stands for;
- `subexpr_leaf`, `subexpr_table`, `readFields_cons`: what is read of an expression, by what is read of its parts.
-/

namespace XCore.Lua.Source

/-! ## The parser -/

/-- Where `read_string` stands. -/
inductive Place
  | text
  /-- after a backslash -/
  | escape
  /-- in `readdecesc`: how many digits may follow, and the value of those so far -/
  | decimal (left r : Nat)
  /-- in `inclinenumber`, after the line break `old` -/
  | newline (old : UInt8)

/-- `read_string`, up to the delimiter. -/
def read_string (del : UInt8) : Place → Bytes → Except Failure (Bytes × Bytes)
  | _, [] => .error .syntactic
  | p, c :: s =>
    let text :=
      if c = del then .ok ([], s)
      else if c = LF ∨ c = CR then .error .syntactic
      else if c = 92 then read_string del .escape s
      else (read_string del .text s).map fun r => (c :: r.1, r.2)
    match p with
    | .text => text
    | .escape =>
      if c = LF ∨ c = CR then (read_string del (.newline c) s).map fun r => (LF :: r.1, r.2)
      else match escape c, digit c with
        | some b, _ => (read_string del .text s).map fun r => (b :: r.1, r.2)
        | none, some d => read_string del (.decimal 2 d) s
        | none, none => .error (if c = 120 ∨ c = 117 ∨ c = 122 then .beyond else .syntactic)
    | .decimal left r =>
      match left, digit c with
      | left + 1, some d => read_string del (.decimal left (10 * r + d)) s
      | _, _ => if r ≤ 255 then text.map fun t => (UInt8.ofNat r :: t.1, t.2) else .error .syntactic
    | .newline old => if (c = LF ∨ c = CR) ∧ c ≠ old then read_string del .text s else text

/-- A literal that may be a key. -/
def readLeaf : Bytes → Except Failure (Leaf × Bytes)
  | [] => .error .syntactic
  | c :: s => if c = 34 ∨ c = 39 then (read_string c .text s).map fun r => (.str r.1, r.2) else Lua.readLeaf (c :: s)

/-- The key of a field in brackets, and the sign `=`. -/
def readKey (levels : Nat) : Bytes → Except Failure (Leaf × Bytes)
  | 91 :: s => do
    let (a, s) ← readLeaf s
    enter levels a.levels
    match s with
    | 93 :: s =>
      let s ← readEquals s
      return (a, s)
    | _ => .error .beyond
  | _ => .error .beyond

/-- The loop of `constructor`, after `{` or a separator. -/
def readFields (levels : Nat) (subexpr : Bytes → Except Failure (Exp × Bytes)) :
    Nat → Bytes → Except Failure (Fields × Bytes)
  | 0, _ => .error .beyond
  | _ + 1, 125 :: s => .ok (.nil, s)
  | n + 1, s => do
    let (key, s) ← readKey levels s
    let (val, s) ← subexpr s
    match s with
    | [] => .error .syntactic
    | c :: s =>
      if c = 125 then return (.cons true key val .nil, s)
      else if c = 44 ∨ c = 59 then
        let (fs, s) ← readFields levels subexpr n s
        return (.cons true key val fs, s)
      else .error .beyond

/-- `subexpr`, with the C levels that are left; a constructor has no more fields than the text has bytes. -/
def subexpr : Nat → Bytes → Except Failure (Exp × Bytes)
  | 0, _ => .error .syntactic
  | levels + 1, 123 :: s => do
    let (fs, s) ← readFields levels (fun s => subexpr levels s) (s.length + 1) s
    return (.table fs, s)
  | levels + 1, s =>
    if s.takeWhile isName = word true then .ok (.bool true, s.dropWhile isName)
    else if s.takeWhile isName = word false then .ok (.bool false, s.dropWhile isName)
    else do
      let (a, s) ← readLeaf s
      enter (levels + 1) a.levels
      return (.leaf a, s)

/-- `load("return "..s)`, and the value that the function returns. -/
def load (levels : Nat) (s : Bytes) : Except Failure Datum := do
  let (e, s) ← subexpr levels s
  if s ≠ [] then .error .beyond
  e.call

/-! ## Strings -/

/-- A byte that is neither the delimiter, a line break nor a backslash is read as it is. -/
theorem read_string_cons {del c : UInt8} (hdel : c ≠ del) (hline : ¬(c = LF ∨ c = CR)) (hslash : c ≠ 92) (s : Bytes) :
    read_string del .text (c :: s) = (read_string del .text s).map fun r => (c :: r.1, r.2) := by
  rw [read_string, if_neg hdel, if_neg hline, if_neg hslash]

/-- **Text without escape sequences** is read as it is, if it is one line. -/
theorem read_string_plain {del : UInt8} : ∀ {s : Bytes}, (∀ c ∈ s, c ≠ del ∧ c ≠ 92) → ∀ t,
    Parsed (Plain s) (read_string del .text (s ++ del :: t)) (s, t)
  | [], _, t => by
    refine Or.inl ⟨fun _ h => (List.not_mem_nil h).elim, ?_⟩
    rw [List.nil_append, read_string, if_pos rfl]
  | c :: s, hs, t => by
    obtain ⟨hdel, hslash⟩ := hs c List.mem_cons_self
    rw [List.cons_append]
    by_cases hline : c = LF ∨ c = CR
    · refine Or.inr ⟨fun h => ?_, by rw [read_string, if_neg hdel, if_pos hline]⟩
      obtain ⟨hCR, hLF⟩ := h c List.mem_cons_self
      exact hline.elim hLF hCR
    · rw [read_string_cons hdel hline hslash]
      have ih := read_string_plain (fun b hb => hs b (List.mem_cons_of_mem c hb)) t
      apply (ih.map _).congr
      constructor
      · exact fun h => Plain.cons ⟨fun h => hline (Or.inr h), fun h => hline (Or.inl h)⟩ h
      · exact fun h b hb => h b (List.mem_cons_of_mem c hb)

/-- A decimal sequence ends before a byte that is no digit, and after the third digit. -/
theorem read_string_ended {del : UInt8} {left r : Nat} (hr : r ≤ 255) {u : Bytes}
    (hu : left = 0 ∨ ∀ c ∈ u.head?, digit c = none) :
    read_string del (.decimal left r) u = (read_string del .text u).map fun t => (UInt8.ofNat r :: t.1, t.2) := by
  cases u with
  | nil => rfl
  | cons c u =>
    have hend : ∀ left' d, left = left' + 1 → digit c = some d → False := by
      rintro left' d rfl hd
      rcases hu with hu | hu
      · exact absurd hu (Nat.succ_ne_zero left')
      · rw [hu c rfl] at hd
        cases hd
    rw [read_string, read_string]
    · exact if_pos hr
    · exact hend

/-- The digits of a decimal sequence. -/
theorem read_string_digits {del : UInt8} {u : Bytes} :
    ∀ {ds : List Nat} {left r : Nat}, (∀ d ∈ ds, d < 10) → ds.length ≤ left →
    read_string del (.decimal left r) (ds.map digitByte ++ u) =
      read_string del (.decimal (left - ds.length) (ds.foldl (fun a d => a * 10 + d) r)) u
  | [], _, _, _, _ => rfl
  | d :: ds, 0, _, _, h => absurd h (Nat.not_succ_le_zero _)
  | d :: ds, left + 1, r, hds, h => by
    have hd := (digitByte_spec d (hds d List.mem_cons_self)).1
    rw [List.map_cons, List.cons_append]
    simp only [read_string, hd]
    rw [read_string_digits (fun x hx => hds x (List.mem_cons_of_mem d hx)) (Nat.le_of_succ_le_succ h),
      Nat.mul_comm 10 r, List.foldl_cons, List.length_cons, Nat.succ_sub_succ]

theorem digitByte_escape : ∀ d < 10, ¬(digitByte d = LF ∨ digitByte d = CR) ∧ escape (digitByte d) = none := by decide

/-- **A decimal sequence** of up to three digits: less than three of them are followed by no other digit. -/
theorem read_string_decimal {del : UInt8} {ds : List Nat} (hne : ds ≠ []) (hds : ∀ d ∈ ds, d < 10)
    (hlen : ds.length ≤ 3)
    (hvalue : value 10 ds ≤ 255) {u : Bytes} (hu : ds.length = 3 ∨ ∀ c ∈ u.head?, digit c = none) :
    read_string del .escape (ds.map digitByte ++ u) =
      (read_string del .text u).map fun t => (UInt8.ofNat (value 10 ds) :: t.1, t.2) := by
  obtain ⟨d, ds, rfl⟩ := List.exists_cons_of_ne_nil hne
  have hd := hds d List.mem_cons_self
  obtain ⟨hline, hescape⟩ := digitByte_escape d hd
  have hfirst : value 10 (d :: ds) = ds.foldl (fun a d => a * 10 + d) d := by
    unfold value
    rw [List.foldl_cons, Nat.zero_mul, Nat.zero_add]
  rw [List.length_cons] at hlen hu
  rw [hfirst] at hvalue ⊢
  rw [List.map_cons, List.cons_append, read_string, if_neg hline, hescape, (digitByte_spec d hd).1]
  change read_string del (.decimal 2 d) (ds.map digitByte ++ u) = _
  rw [read_string_digits (fun x hx => hds x (List.mem_cons_of_mem d hx)) (Nat.le_of_succ_le_succ hlen)]
  exact read_string_ended hvalue (hu.imp_left fun h => by omega)

/-! ## Expressions -/

section

variable {levels n : Nat} {sub : Bytes → Except Failure (Exp × Bytes)} {s s' t u : Bytes} {a key : Leaf} {val : Exp}
    {fs : Fields}
  {p q r : Prop}

/-- A key in brackets is read if its literal is. -/
theorem readKey_leaf (hs : s.head? ≠ some 61) (h : Parsed p (readLeaf (t ++ 93 :: 61 :: s)) (a, 93 :: 61 :: s)) :
    Parsed (p ∧ a.levels ≤ levels) (readKey levels (91 :: (t ++ 93 :: 61 :: s))) (a, s) := by
  rw [readKey]
  apply h.bind
  apply (parsed_enter levels a.levels).ret
  change (readEquals (61 :: s) >>= _) = _
  rw [readEquals_of_ne hs]
  rfl

/-- The words are read, which nothing longer is. -/
theorem subexpr_word (b : Bool) (ht : ∀ c ∈ t.head?, isName c = false) :
    Parsed (1 ≤ levels) (subexpr levels (word b ++ t)) (.bool b, t) := by
  obtain ⟨htake, hdrop⟩ := takeWhile_word b ht
  cases levels with
  | zero => exact Or.inr ⟨Nat.not_succ_le_zero _, rfl⟩
  | succ levels =>
    refine Or.inl ⟨Nat.le_add_left .., ?_⟩
    rw [subexpr, htake, hdrop]
    · cases b <;> rfl
    · intro u hu
      cases b <;> cases hu

/-- An expression that begins neither as a constructor nor as a word is a literal. -/
theorem subexpr_leaf {c : UInt8} (h1 : c ≠ 116) (h2 : c ≠ 102) (h3 : c ≠ 123)
    (h : Parsed p (readLeaf (c :: s)) (a, t)) :
    Parsed (p ∧ a.levels ≤ levels) (subexpr levels (c :: s)) (.leaf a, t) := by
  cases levels with
  | zero => exact Or.inr ⟨fun h => absurd h.2 (Nat.not_le_of_lt a.levels_pos), rfl⟩
  | succ levels =>
    have hword := takeWhile_ne_word h1 h2 s
    have heq : subexpr (levels + 1) (c :: s) =
        readLeaf (c :: s) >>= fun r => enter (levels + 1) r.1.levels >>= fun _ => pure (.leaf r.1, r.2) := by
      rw [subexpr, if_neg (hword true), if_neg (hword false)]
      intro u hu
      exact h3 (List.cons.inj hu).1
    rw [heq]
    apply h.bind
    exact (parsed_enter (levels + 1) a.levels).ret rfl

/-- A constructor is read if its fields are. -/
theorem subexpr_table
    (h : ∀ levels, Parsed (p ∧ fs.levels ≤ levels) (readFields levels (subexpr levels) (s.length + 1) s) (fs, t)) :
    Parsed (p ∧ (Exp.table fs).levels ≤ levels) (subexpr levels (123 :: s)) (.table fs, t) := by
  cases levels with
  | zero => exact Or.inr ⟨fun h => absurd h.2 (Nat.not_succ_le_zero _), rfl⟩
  | succ levels =>
    have hlevels : fs.levels ≤ levels ↔ (Exp.table fs).levels ≤ levels + 1 := Nat.succ_le_succ_iff.symm
    rw [← hlevels, subexpr]
    exact (h levels).ret rfl

/-- A field that others follow. -/
theorem readFields_cons (hs : s.head? ≠ some 125) (hkey : Parsed p (readKey levels s) (key, s'))
    (hval : Parsed q (sub s') (val, 44 :: t)) (hfs : Parsed r (readFields levels sub n t) (fs, u)) :
    Parsed (p ∧ q ∧ r) (readFields levels sub (n + 1) s) (.cons true key val fs, u) := by
  rw [readFields]
  · apply hkey.bind
    apply hval.bind
    exact hfs.ret rfl
  · rintro v rfl
    exact hs rfl

end

end XCore.Lua.Source
