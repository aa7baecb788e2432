import XCore.Net.Scan
import XCore.Net.Wire

/-!
# Values at a place in a message

What a primitive writes stands somewhere in a message, and is read there (`Returns`): the value that is written comes
out, and the cursor stops behind its bytes. For a list the reader first takes the count, and looks whether there are
bytes enough; it returns a list of one element as the element.

- `fixed_returns_iff`: numbers of fixed width;
- `string_returns_iff`: strings;
- `number_returns_iff`: integers of variable size.
-/

namespace XCore.Net

open XCore.Lua

/-! ## Places -/

/-- A list is read as an array. -/
def Base.isarray : Base → Bool
  | .one _ => false
  | .arr _ => true

@[simp] theorem Base.isarray_one (x : Scalar) : (Base.one x).isarray = false := rfl

@[simp] theorem Base.isarray_arr (l : List Scalar) : (Base.arr l).isarray = true := rfl

/-- A value that is written between other entries of a message is read from where its first byte stands, up to behind
its last. -/
def Returns (border : Border) (prim : Prim) (b : Base) (pre post : List Bytes) : Prop :=
  ∃ as m, writeX prim (some (.base b)) = .ok as ∧
    concat border (pre.map some ++ as.flatMap Append.pieces ++ post.map some) = .ok m ∧
    readX prim b.isarray (cursor m pre.flatten.length) =
      .ok (some b, cursor m (pre.flatten.length + (as.flatMap Append.bytes).length))

/-- The cursor before some bytes, with bytes before and after them. -/
def place (pre s post : Bytes) : ReadData := cursor (pre ++ s ++ post) pre.length

section

variable {border : Border} {prim : Prim} {b : Base} {pre post : List Bytes} {s t u : Bytes} {d : ReadData}

theorem place_carries : (place u s t).Carries s := by
  refine ⟨Nat.le_add_left 1 _, ?_⟩
  unfold place cursor
  dsimp only
  rw [Nat.add_sub_cancel, List.append_assoc, List.drop_left]
  exact List.prefix_append s t

theorem place_carries_left {s' : Bytes} : (place u (s ++ s') t).Carries s := (ReadData.carries_append.1 place_carries).1

/-- What stands behind the number of items. -/
theorem place_carries_items {n : Nat} : ((place u (leBytes 1 n ++ s) t).skip 1).Carries s := by
  have hall := place_carries (u := u) (s := leBytes 1 n ++ s) (t := t)
  rw [ReadData.carries_append, length_leBytes] at hall
  exact hall.2

theorem length_flatMap_const {α : Type} {f : α → Bytes} {n : Nat} (h : ∀ x, (f x).length = n) (xs : List α) :
    (xs.flatMap f).length = xs.length * n := by
  induction xs with
  | nil => exact (Nat.zero_mul n).symm
  | cons x xs ih => rw [List.flatMap_cons, List.length_append, ih, h, List.length_cons, Nat.succ_mul, Nat.add_comm]

theorem skip_place (n : Nat) : (place u s t).skip n = cursor (u ++ s ++ t) (u.length + n) := by
  unfold place cursor ReadData.skip
  dsimp only
  rw [Nat.add_right_comm]

/-- The entries of a value, none of which is nil. -/
theorem bytes_of_pieces {as : List Append} {ss : List Bytes} (h : as.flatMap Append.pieces = ss.map some) :
    as.flatMap Append.bytes = ss.flatten := by
  have hbytes : as.flatMap Append.bytes = (as.flatMap Append.pieces).flatMap fun p => p.getD [] :=
    (List.flatMap_assoc ..).symm
  rw [hbytes, h, List.flatMap_map]
  simp [List.flatMap_id']

/-- A value whose bytes are all in the message. -/
theorem returns_iff {as : List Append} (ss : List Bytes) (hwrite : writeX prim (some (.base b)) = .ok as)
    (hss : as.flatMap Append.pieces = ss.map some) : Returns border prim b pre post ↔
      readX prim b.isarray (place pre.flatten ss.flatten post.flatten) =
        .ok (some b, (place pre.flatten ss.flatten post.flatten).skip ss.flatten.length) := by
  have hconcat : concat border (pre.map some ++ as.flatMap Append.pieces ++ post.map some) =
      .ok (pre.flatten ++ ss.flatten ++ post.flatten) := by
    rw [hss, ← List.map_append, ← List.map_append, concat_some, List.flatten_append, List.flatten_append]
  rw [skip_place]
  constructor
  · rintro ⟨as', m, hw, hm, hread⟩
    cases hwrite.symm.trans hw
    cases hconcat.symm.trans hm
    rwa [bytes_of_pieces hss] at hread
  · intro hread
    refine ⟨as, _, hwrite, hconcat, ?_⟩
    rw [bytes_of_pieces hss]
    exact hread

/-- The entries of a list, of which every element has some. -/
theorem pieces_map {α : Type} {g : α → Append} {ss : α → List Bytes} {xs : List α}
    (h : ∀ x ∈ xs, (g x).pieces = (ss x).map some) :
    (xs.map g).flatMap Append.pieces = (xs.flatMap ss).map some := by
  induction xs with
  | nil => rfl
  | cons x xs ih =>
    rw [List.map_cons, List.flatMap_cons, List.flatMap_cons, List.map_append, h x List.mem_cons_self,
      ih fun y hy => h y (List.mem_cons_of_mem x hy)]

theorem flatten_flatMap {α : Type} (ss : α → List Bytes) (xs : List α) :
    (xs.flatMap ss).flatten = xs.flatMap fun x => (ss x).flatten := by
  induction xs with
  | nil => rfl
  | cons x xs ih => rw [List.flatMap_cons, List.flatMap_cons, List.flatten_append, ih]

/-- A list whose bytes are all in the message. -/
theorem returns_list_iff {α : Type} {g : α → Append} {ss : α → List Bytes} {xs : List α}
    (hwrite : writeX prim (some (.base b)) = .ok (⟨[some (leBytes 1 xs.length)], 1⟩ :: xs.map g))
    (h : ∀ x ∈ xs, (g x).pieces = (ss x).map some) : Returns border prim b pre post ↔
      readX prim b.isarray
      (place pre.flatten (leBytes 1 xs.length ++ xs.flatMap fun x => (ss x).flatten) post.flatten) =
        .ok (some b, (place pre.flatten (leBytes 1 xs.length ++ xs.flatMap fun x => (ss x).flatten) post.flatten).skip
          (leBytes 1 xs.length ++ xs.flatMap fun x => (ss x).flatten).length) := by
  rw [returns_iff (leBytes 1 xs.length :: xs.flatMap ss) hwrite, List.flatten_cons, flatten_flatMap]
  rw [List.flatMap_cons, pieces_map h]
  rfl

/-! ## Lists -/

/-- The number of items of a list: without two bytes there is no room for a list. -/
theorem readCount_place {n : Nat} (hn : n ≤ 255) : readCount true (place u (leBytes 1 n ++ s) t) =
    if s = [] ∧ t = [] then .ok (none, place u (leBytes 1 n ++ s) t) else .ok
    (some n, (place u (leBytes 1 n ++ s) t).skip 1) := by
  have hroom : (place u (leBytes 1 n ++ s) t).Len < (place u (leBytes 1 n ++ s) t).Pos + 1 ↔ s = [] ∧ t = [] := by
    rw [← List.length_eq_zero_iff, ← List.length_eq_zero_iff]
    simp only [place, cursor, ReadData.Len, List.length_append, length_leBytes]
    omega
  rw [readCount, if_pos rfl]
  by_cases h : s = [] ∧ t = []
  · rw [if_pos (hroom.2 h), if_pos h]
  · rw [if_neg (mt hroom.1 h), if_neg h]
    have hd : (place u (leBytes 1 n ++ s) t).Carries (leBytes 1 n) := place_carries_left
    exact bind_eq_ok.2 ⟨_, unpackAt_carries Nat.one_pos (by omega) hd, rfl⟩

/-- A loop over items that stand one after the other. -/
theorem readMany_carries {α β : Type} {read : ReadData → Except LuaError (β × ReadData)} {enc : α → Bytes} {f : α → β}
    {xs : List α}
    (h : ∀ x ∈ xs, ∀ d : ReadData, d.Carries (enc x) → read d = .ok (f x, d.skip (enc x).length))
    (hd : d.Carries (xs.flatMap enc)) :
    readMany read xs.length d = .ok (xs.map f, d.skip (xs.flatMap enc).length) := by
  induction xs generalizing d with
  | nil => rfl
  | cons x xs ih =>
    rw [List.flatMap_cons] at hd
    obtain ⟨hx, hxs⟩ := ReadData.carries_append.1 hd
    have hrest := ih (fun y hy => h y (List.mem_cons_of_mem x hy)) hxs
    refine bind_eq_ok.2 ⟨_, h x List.mem_cons_self d hx, bind_eq_ok.2 ⟨_, hrest, ?_⟩⟩
    rw [ReadData.skip_skip, List.flatMap_cons, List.length_append, List.map_cons]

/-- What is written for a list whose elements are written. -/
theorem writeArray_eq {α : Type} {write : Val Base → Except LuaError (List Append)} {f : α → Val Base} {g : α → Append}
    {xs : List α} (hlen : xs.length ≤ 255) (h : ∀ x ∈ xs, write (f x) = .ok [g x]) :
    writeArray write (xs.map f) = .ok (⟨[some (leBytes 1 xs.length)], 1⟩ :: xs.map g) := by
  have hmany : writeMany write (xs.map f) = .ok (xs.map g) := by
    clear hlen
    induction xs with
    | nil => rfl
    | cons x xs ih =>
      have hrest := ih fun y hy => h y (List.mem_cons_of_mem x hy)
      exact bind_eq_ok.2 ⟨_, h x List.mem_cons_self, bind_eq_ok.2 ⟨_, hrest, rfl⟩⟩
  unfold writeArray
  rw [List.length_map, if_neg (by omega)]
  exact bind_eq_ok.2 ⟨_, hmany, rfl⟩

end

/-! ## Numbers of fixed width -/

/-- A number that the format has, or a list of at most 255 of them. -/
def FixedValue (fmt : Fmt) (b : Base) : Prop :=
  (∃ x, b = .one (.num x) ∧ fmt.Holds x) ∨ ∃ xs : List Number, b = .arr (xs.map .num) ∧ xs.length ≤ 255 ∧
    ∀ x ∈ xs, fmt.Holds x

/-- The bytes of a number. -/
def fixedBytes (fmt : Fmt) (x : Number) : Bytes := leBytes fmt.size (bitsOf fmt x)

section

variable {border : Border} {prim : Prim} {fmt : Fmt} {pre post : List Bytes} {t u : Bytes} {xs : List Number}

theorem readFmt_carries {x : Number} (hx : fmt.Holds x) {d : ReadData} (hd : d.Carries (fixedBytes fmt x)) :
    readFmt fmt d = .ok (x, d.skip (fixedBytes fmt x).length) := by
  have hread := readFmt_leBytes (packFmt_bits hx).2 hd
  rw [value_bitsOf hx] at hread
  rw [fixedBytes, length_leBytes]
  exact hread

theorem length_fixedBytes (xs : List Number) : (xs.flatMap (fixedBytes fmt)).length = xs.length * fmt.size :=
  length_flatMap_const (fun _ => length_leBytes ..) xs

/-- What is written for a list. -/
theorem writeX_list (hf : fmtOf prim = some fmt) (hlen : xs.length ≤ 255) (h : ∀ x ∈ xs, fmt.Holds x) :
    writeX prim (some (.base (.arr (xs.map .num)))) =
      .ok (⟨[some (leBytes 1 xs.length)], 1⟩ :: xs.map fun x => ⟨[some (fixedBytes fmt x)], fmt.size⟩) := by
  have hone : ∀ x ∈ xs, writeFmt fmt fmt.size (some (.base (.one (.num x)))) =
      .ok [⟨[some (fixedBytes fmt x)], fmt.size⟩] := by
    intro x hx
    unfold writeFmt packVal Scalar.toNum
    dsimp only
    rw [(packFmt_bits (h x hx)).1]
    rfl
  rw [writeX_fmt hf]
  unfold WritePtoNumber
  simp only [Option.bind_some, elems, List.map_map]
  exact writeArray_eq (f := fun x => .base (.one (.num x))) hlen hone

/-- What is read for a list. -/
theorem ReadPtoNumber_list (hlen : xs.length ≤ 255) (h : ∀ x ∈ xs, fmt.Holds x) (d : ReadData)
    (hd : d = place u (leBytes 1 xs.length ++ xs.flatMap (fixedBytes fmt)) t) :
    ReadPtoNumber fmt fmt.size true d =
      .ok (some (.arr (xs.map .num)), d.skip (leBytes 1 xs.length ++ xs.flatMap (fixedBytes fmt)).length) ↔
      xs.length ≠ 1 ∧ (xs = [] → t ≠ []) := by
  have hcount := readCount_place (u := u) (s := xs.flatMap (fixedBytes fmt)) (t := t) hlen
  rw [← hd] at hcount
  have hcarries : (d.skip 1).Carries (xs.flatMap (fixedBytes fmt)) := by
    rw [hd]
    exact place_carries_items
  have hread : ∀ x ∈ xs, ∀ d : ReadData, d.Carries (fixedBytes fmt x) →
      readFmt fmt d = .ok (x, d.skip (fixedBytes fmt x).length) :=
    fun x hx d hd => readFmt_carries (h x hx) hd
  have hmany := readMany_carries (f := id) hread hcarries
  rw [List.map_id] at hmany
  have hroom : ¬(d.skip 1).Len + 1 < (d.skip 1).Pos + xs.length * fmt.size := by
    rw [hd]
    simp only [place, cursor, ReadData.skip, ReadData.Len, List.length_append, length_leBytes, length_fixedBytes]
    omega
  unfold ReadPtoNumber
  rw [hcount]
  by_cases hend : xs.flatMap (fixedBytes fmt) = [] ∧ t = []
  · have hnil : xs = [] := by
      have hlength : (xs.flatMap (fixedBytes fmt)).length = xs.length * fmt.size := length_fixedBytes xs
      have hsize : 0 < fmt.size := by cases fmt <;> decide
      rw [hend.1, List.length_nil] at hlength
      exact List.length_eq_zero_iff.1 ((Nat.mul_eq_zero.1 hlength.symm).resolve_right hsize.ne')
    rw [if_pos hend]
    refine iff_of_false ?_ fun hrhs => hrhs.2 hnil hend.2
    rintro ⟨⟩
  · rw [if_neg hend]
    simp only [bind, Except.bind, if_neg hroom]
    by_cases hone : xs.length = 1
    · obtain ⟨x, rfl⟩ := List.length_eq_one_iff.1 hone
      have hx := hread x List.mem_cons_self (d.skip 1) (by simpa using hcarries)
      rw [if_pos hone, hx]
      refine iff_of_false ?_ fun hrhs => hrhs.1 hone
      rintro ⟨⟩
    · rw [if_neg hone, hmany]
      refine iff_of_true ?_ ⟨hone, ?_⟩
      · simp only [ReadData.skip_skip, List.length_append, length_leBytes]
      · rintro rfl rfl
        exact hend ⟨rfl, rfl⟩

/-- **Numbers of fixed width** are read back, but for lists of one number and the empty list at the end of a message. -/
theorem fixed_returns_iff (border : Border) (prim : Prim) (fmt : Fmt) (hf : fmtOf prim = some fmt) (b : Base)
    (hb : FixedValue fmt b) (pre post : List Bytes) : Returns border prim b pre post ↔
      ∀ l, b = .arr l → l.length ≠ 1 ∧ (l = [] → post.flatten ≠ []) := by
  rcases hb with ⟨x, rfl, hx⟩ | ⟨xs, rfl, hlen, h⟩
  · rw [returns_iff [fixedBytes fmt x] (writeX_num hf hx) rfl]
    refine iff_of_true ?_ (by rintro l ⟨⟩)
    have hcarries : (place pre.flatten [fixedBytes fmt x].flatten post.flatten).Carries
        (leBytes fmt.size (bitsOf fmt x)) := by
      have := place_carries (u := pre.flatten) (s := [fixedBytes fmt x].flatten) (t := post.flatten)
      simpa [fixedBytes] using this
    have hread := ReadPtoNumber_eq (packFmt_bits hx).2 hcarries
    rw [value_bitsOf hx] at hread
    rw [readX_fmt hf, Base.isarray_one]
    simpa [fixedBytes] using hread
  · have hpieces : ∀ x ∈ xs, (⟨[some (fixedBytes fmt x)], fmt.size⟩ : Append).pieces = [fixedBytes fmt x].map some :=
      fun _ _ => rfl
    rw [returns_list_iff (writeX_list hf hlen h) hpieces, readX_fmt hf]
    simp only [List.flatten_singleton]
    refine (ReadPtoNumber_list hlen h _ rfl).trans ⟨?_, ?_⟩
    · rintro ⟨hone, hnil⟩ l ⟨⟩
      rw [List.length_map, List.map_eq_nil_iff]
      exact ⟨hone, hnil⟩
    · intro hl
      have := hl _ rfl
      rwa [List.length_map, List.map_eq_nil_iff] at this

/-- Three numbers are read back at the end of a message. -/
theorem fixed_returns_three :
    Returns Border.first .Uint8 (.arr [.num (.int 1), .num (.int 2), .num (.int 3)]) [[9]] [] := by
  apply (fixed_returns_iff Border.first .Uint8 .B rfl _
    (Or.inr ⟨[.int 1, .int 2, .int 3], rfl, by decide, by simp [Fmt.Holds]⟩) [[9]] []).2
  rintro l ⟨⟩
  exact ⟨by decide, fun hl => nomatch hl⟩

/-- A list of one number comes back as the number. -/
theorem not_returns_one : ¬Returns Border.first .Uint8 (.arr [.num (.int 7)]) [] [[0]] := by
  have hwrite : writeX .Uint8 (some (.base (.arr [.num (.int 7)]))) = .ok [⟨[some [1]], 1⟩, ⟨[some [7]], 1⟩] := rfl
  rw [returns_iff [[1], [7]] hwrite rfl]
  rintro ⟨⟩

end

/-! ## Strings -/

/-- A string of at most 65534 bytes, or a list of at most 255 of them. -/
def StringValue (b : Base) : Prop :=
  (∃ s : Bytes, b = .one (.str s) ∧ s.length ≤ 65534) ∨
    ∃ ss : List Bytes, b = .arr (ss.map .str) ∧ ss.length ≤ 255 ∧ ∀ s ∈ ss, s.length ≤ 65534

/-- The size of a string, in a byte or, after a zero, in two. -/
def sizePieces (s : Bytes) : List Bytes :=
  if s.length + 1 ≤ 0xff then [leBytes 1 (s.length + 1)] else [leBytes 1 0, leBytes 2 (s.length + 1)]

/-- The bytes of a string in a list. -/
def strBytes (s : Bytes) : Bytes := (sizePieces s ++ [s]).flatten

/-- What is written for a string, with the entry of `Data` that follows its size. -/
def strAppend (s : Bytes) (v : Option Bytes) : Append :=
  ⟨(sizePieces s).map some ++ [v], if s.length + 1 ≤ 0xff then s.length + 2 else s.length + 4⟩

section

variable {border : Border} {pre post : List Bytes} {s t u : Bytes} {ss : List Bytes} {d : ReadData}

theorem writeStr_eq (hs : s.length ≤ 65534) (v : Option Bytes) : writeStr (s.length + 1) v = .ok [strAppend s v] := by
  unfold writeStr strAppend sizePieces
  by_cases h : s.length + 1 ≤ 0xff
  · simp only [if_pos h]
    rfl
  · have hpack : packU 2 (s.length + 1) = .ok (leBytes 2 (s.length + 1)) := if_pos (by omega)
    simp only [if_neg h]
    rw [hpack]
    rfl

/-- What is written for a list. -/
theorem writeX_strings (hlen : ss.length ≤ 255) (h : ∀ s ∈ ss, s.length ≤ 65534) :
    writeX .String (some (.base (.arr (ss.map .str)))) =
      .ok (⟨[some (leBytes 1 ss.length)], 1⟩ :: ss.map fun s => strAppend s (some s)) := by
  unfold writeX WritePtoString
  simp only [Option.bind_some, elems, List.map_map]
  exact writeArray_eq (f := fun s => .base (.one (.str s))) hlen fun s hs => writeStr_eq (h s hs) (some s)

theorem strBytes_eq (s : Bytes) : strBytes s = (sizePieces s).flatten ++ s := by
  unfold strBytes
  rw [List.flatten_append, List.flatten_singleton]

/-- The size that is read, with the cursor behind it. -/
theorem readStr_size (hs : s.length ≤ 65534) (hd : d.Carries (sizePieces s).flatten) :
    readStr d = .ok (sub d.Data (d.skip (sizePieces s).flatten.length).Pos
      (s.length + (d.skip (sizePieces s).flatten.length).Pos - 1),
      d.skip ((sizePieces s).flatten.length + s.length)) := by
  have hlast : ∀ n : Nat, (((d.skip n).Pos : Int) + (((s.length + 1 : Nat) : Int) - 1)).toNat =
      d.Pos + (n + s.length) := by
    intro n
    unfold ReadData.skip
    dsimp only
    omega
  have hsize : ((s.length + 1 : Nat) : Int) - 1 = s.length := by omega
  unfold sizePieces at hd ⊢
  by_cases h : s.length + 1 ≤ 0xff
  · rw [if_pos h] at hd ⊢
    rw [List.flatten_singleton] at hd ⊢
    have hone : (if s.length + 1 ≤ 0 then unpackAt 2 (d.skip 1) else .ok (s.length + 1, d.skip 1)) = .ok
        (s.length + 1, d.skip 1) :=
      if_neg (by omega)
    refine bind_eq_ok.2 ⟨_, unpackAt_carries Nat.one_pos (by omega) hd, bind_eq_ok.2 ⟨_, hone, ?_⟩⟩
    dsimp only
    rw [length_leBytes, hlast, hsize]
    rfl
  · rw [if_neg h] at hd ⊢
    have hflat : [leBytes 1 0, leBytes 2 (s.length + 1)].flatten = leBytes 1 0 ++ leBytes 2 (s.length + 1) := by
      rw [List.flatten_cons, List.flatten_singleton]
    rw [hflat] at hd ⊢
    obtain ⟨hzero, hsz⟩ := ReadData.carries_append.1 hd
    rw [length_leBytes] at hsz
    have hsecond : unpackAt 2 (d.skip 1) = .ok (s.length + 1, (d.skip 1).skip 2) :=
      unpackAt_carries Nat.two_pos (by omega) hsz
    refine bind_eq_ok.2 ⟨_, unpackAt_carries Nat.one_pos (by omega) hzero, bind_eq_ok.2 ⟨_, hsecond, ?_⟩⟩
    dsimp only
    rw [List.length_append, length_leBytes, length_leBytes, ReadData.skip_skip, hlast, hsize]
    rfl

/-- A string is read where its bytes stand. -/
theorem readStr_carries (hs : s.length ≤ 65534) (hd : d.Carries (strBytes s)) :
    readStr d = .ok (s, d.skip (strBytes s).length) := by
  rw [strBytes_eq] at hd ⊢
  obtain ⟨hsize, hpos, w, hw⟩ := ReadData.carries_append.1 hd
  rw [readStr_size hs hsize, List.length_append]
  have hstop : ((s.length : Int) + (d.skip (sizePieces s).flatten.length).Pos - 1) =
      ((s.length + (d.skip (sizePieces s).flatten.length).Pos - 1 : Nat) : Int) := by omega
  have hlen : s.length + (d.skip (sizePieces s).flatten.length).Pos - 1 + 1 - (d.skip
      (sizePieces s).flatten.length).Pos = s.length := by
    omega
  have hdata : (d.skip (sizePieces s).flatten.length).Data = d.Data := rfl
  rw [hdata] at hw
  rw [hstop, sub_eq d.Data hpos, hlen, ← hw, List.take_left]

theorem skip_append {w : Bytes} : (place u (s ++ t) w).skip s.length = place (u ++ s) t w := by
  rw [skip_place]
  unfold place
  simp only [List.append_assoc, List.length_append]

theorem length_strBytes_pos (s : Bytes) : 1 ≤ (strBytes s).length := by
  unfold strBytes sizePieces
  split
  · simp
  · simp

theorem length_strBytes_nonempty (hs : s ≠ []) : 2 ≤ (strBytes s).length := by
  have hpos := List.length_pos_of_ne_nil hs
  unfold strBytes sizePieces
  split
  · simp only [List.flatten_append, List.flatten_singleton, List.length_append, length_leBytes]
    omega
  · simp only [List.flatten_append, List.flatten_cons, List.length_append, length_leBytes]
    omega

/-- The loop reads the strings, unless the last is empty and nothing follows. -/
theorem readStrs_all (h : ∀ s ∈ ss, s.length ≤ 65534) (hend : t ≠ [] ∨ ss.getLast? ≠ some []) :
    readStrs ss.length (place u (ss.flatMap strBytes) t) =
      .ok (some ss, (place u (ss.flatMap strBytes) t).skip (ss.flatMap strBytes).length) := by
  induction ss generalizing u with
  | nil => rfl
  | cons s ss ih =>
    rw [List.length_cons, readStrs, List.flatMap_cons]
    have hroom : ¬(place u (strBytes s ++ ss.flatMap strBytes) t).Len <
        (place u (strBytes s ++ ss.flatMap strBytes) t).Pos + 1 := by
      have hlen : 2 ≤ (strBytes s).length + (ss.flatMap strBytes).length + t.length := by
        have hs := length_strBytes_pos s
        cases ss with
        | nil =>
          rcases hend with ht | hs
          · have := List.length_pos_of_ne_nil ht
            omega
          · have hne : s ≠ [] := by
              rintro rfl
              exact hs rfl
            have := length_strBytes_nonempty hne
            omega
        | cons s' ss =>
          have hs' := length_strBytes_pos s'
          rw [List.flatMap_cons, List.length_append]
          omega
      unfold place cursor ReadData.Len
      dsimp only
      rw [List.length_append, List.length_append, List.length_append]
      omega
    have hcarries : (place u (strBytes s ++ ss.flatMap strBytes) t).Carries (strBytes s) := place_carries_left
    have hend' : t ≠ [] ∨ ss.getLast? ≠ some [] := by
      refine hend.imp_right fun hlast hss => hlast ?_
      rw [List.getLast?_cons, hss]
      rfl
    have hrest := ih (u := u ++ strBytes s) (fun s' hs' => h s' (List.mem_cons_of_mem s hs')) hend'
    rw [← skip_append] at hrest
    rw [if_neg hroom]
    refine bind_eq_ok.2 ⟨_, readStr_carries (h s List.mem_cons_self) hcarries, bind_eq_ok.2 ⟨_, hrest, ?_⟩⟩
    rw [ReadData.skip_skip, List.length_append]
    rfl

/-- The loop is left before an empty string at the end of a message. -/
theorem readStrs_none (h : ∀ s ∈ ss, s.length ≤ 65534) (hlast : ss.getLast? = some []) :
    ∃ d, readStrs ss.length (place u (ss.flatMap strBytes) []) = .ok (none, d) := by
  induction ss generalizing u with
  | nil => cases hlast
  | cons s ss ih =>
    rw [List.length_cons, readStrs, List.flatMap_cons]
    cases ss with
    | nil =>
      obtain rfl : s = [] := Option.some.inj hlast
      refine ⟨_, if_pos ?_⟩
      unfold place cursor ReadData.Len
      simp [strBytes, sizePieces]
    | cons s' ss =>
      by_cases hroom : (place u (strBytes s ++ (s' :: ss).flatMap strBytes) []).Len <
          (place u (strBytes s ++ (s' :: ss).flatMap strBytes) []).Pos + 1
      · exact ⟨_, if_pos hroom⟩
      · have hcarries : (place u (strBytes s ++ (s' :: ss).flatMap strBytes) []).Carries (strBytes s) :=
          place_carries_left
        obtain ⟨d, hrest⟩ := ih (u := u ++ strBytes s) (fun s' hs' => h s' (List.mem_cons_of_mem s hs')) hlast
        rw [← skip_append] at hrest
        rw [if_neg hroom]
        exact ⟨d, bind_eq_ok.2 ⟨_, readStr_carries (h s List.mem_cons_self) hcarries, bind_eq_ok.2 ⟨_, hrest, rfl⟩⟩⟩

/-- What is read for a list. -/
theorem ReadPtoString_list (hlen : ss.length ≤ 255) (h : ∀ s ∈ ss, s.length ≤ 65534) (d : ReadData)
    (hd : d = place u (leBytes 1 ss.length ++ ss.flatMap strBytes) t) :
    ReadPtoString true d = .ok (some (.arr (ss.map .str)), d.skip (leBytes 1 ss.length ++ ss.flatMap strBytes).length) ↔
      ss.length ≠ 1 ∧ 2 * ss.length < (ss.flatMap strBytes).length + t.length ∧ (t = [] → ss.getLast? ≠ some []) := by
  have hcount := readCount_place (u := u) (s := ss.flatMap strBytes) (t := t) hlen
  rw [← hd] at hcount
  have hskip : d.skip 1 = place (u ++ leBytes 1 ss.length) (ss.flatMap strBytes) t := by
    rw [hd, ← skip_append, length_leBytes]
  have hroom : (d.skip 1).Len < (d.skip 1).Pos + ss.length * 2 ↔
      ¬2 * ss.length < (ss.flatMap strBytes).length + t.length := by
    rw [hskip]
    unfold place cursor ReadData.Len
    simp only [List.length_append, length_leBytes]
    omega
  unfold ReadPtoString
  rw [hcount]
  by_cases hend : ss.flatMap strBytes = [] ∧ t = []
  · rw [if_pos hend, hend.1, hend.2]
    refine iff_of_false (by rintro ⟨⟩) fun hrhs => ?_
    exact Nat.not_lt_zero _ hrhs.2.1
  · rw [if_neg hend]
    simp only [bind, Except.bind]
    by_cases hfew : (d.skip 1).Len < (d.skip 1).Pos + ss.length * 2
    · rw [if_pos hfew]
      exact iff_of_false (by rintro ⟨⟩) fun hrhs => hroom.1 hfew hrhs.2.1
    · rw [if_neg hfew]
      have hmany : 2 * ss.length < (ss.flatMap strBytes).length + t.length := not_not.1 (mt hroom.2 hfew)
      by_cases hone : ss.length = 1
      · obtain ⟨s, rfl⟩ := List.length_eq_one_iff.1 hone
        have hcarries : (d.skip 1).Carries (strBytes s) := by
          rw [hskip]
          simpa using place_carries (u := u ++ leBytes 1 [s].length) (s := [s].flatMap strBytes) (t := t)
        rw [if_pos hone, readStr_carries (h s List.mem_cons_self) hcarries]
        exact iff_of_false (by rintro ⟨⟩) fun hrhs => hrhs.1 hone
      · rw [if_neg hone, hskip]
        by_cases hlast : t = [] ∧ ss.getLast? = some []
        · obtain ⟨rfl, hlast⟩ := hlast
          obtain ⟨d', hnone⟩ := readStrs_none (u := u ++ leBytes 1 ss.length) h hlast
          rw [hnone]
          exact iff_of_false (by rintro ⟨⟩) fun hrhs => hrhs.2.2 rfl hlast
        · rw [readStrs_all h (not_and_or.1 hlast), ← hskip]
          refine iff_of_true ?_ ⟨hone, hmany, fun ht hl => hlast ⟨ht, hl⟩⟩
          simp only [ReadData.skip_skip, List.length_append, length_leBytes, Option.map_some]

/-- Entries with a nil among them are not concatenated. -/
theorem concatAll_none {l : List (Option Bytes)} {m : Bytes} : concatAll (ss.map some ++ none :: l) ≠ .ok m := by
  induction ss generalizing m with
  | nil => rintro ⟨⟩
  | cons s ss ih =>
    intro h
    obtain ⟨m', hm', -⟩ := map_eq_ok.1 h
    exact ih hm'

/-- A nil entry ends a message, where it does not raise. -/
theorem concat_hole {l : List (Option Bytes)} {m : Bytes} (h : concat border (ss.map some ++ none :: l) = .ok m) :
    m = ss.flatten := by
  have hafter : ss.length ≤ border.len (ss.map some ++ none :: l) := by
    by_contra hle
    have hlt := Nat.lt_of_not_le hle
    apply border.after (ss.map some ++ none :: l) ss[border.len (ss.map some ++ none :: l)]
    rw [List.getElem?_append_left (by simpa using hlt), List.getElem?_map, List.getElem?_eq_getElem hlt]
    rfl
  unfold concat at h
  obtain ⟨n, hn⟩ := Nat.exists_eq_add_of_le hafter
  have hlen : ss.length = (ss.map some).length := (List.length_map some).symm
  rw [hn, hlen, List.take_length_add_append] at h
  cases n with
  | zero =>
    rw [List.take_zero, List.append_nil, concatAll_some] at h
    cases h
    rfl
  | succ n => exact (concatAll_none h).elim

/-- A single string is not in the message, and is not read from it. -/
theorem not_returns_string (hs : s.length ≤ 65534) : ¬Returns border .String (.one (.str s)) pre post := by
  rintro ⟨as, m, hwrite, hconcat, hread⟩
  have has : writeX .String (some (.base (.one (.str s)))) = .ok [strAppend s none] := writeStr_eq hs none
  cases has.symm.trans hwrite
  have hpieces : pre.map some ++ [strAppend s none].flatMap Append.pieces ++ post.map some =
      (pre ++ sizePieces s).map some ++ none :: post.map some := by
    simp [strAppend]
  rw [hpieces] at hconcat
  obtain rfl := concat_hole hconcat
  have hplace : cursor (pre ++ sizePieces s).flatten pre.flatten.length = place pre.flatten
      (sizePieces s).flatten [] := by
    unfold place
    rw [List.flatten_append, List.append_nil]
  rw [hplace, Base.isarray_one] at hread
  have hlen : (place pre.flatten (sizePieces s).flatten []).Len =
      pre.flatten.length + (sizePieces s).flatten.length := by
    simp [place, cursor, ReadData.Len]
  unfold readX ReadPtoString readCount at hread
  simp only [Bool.false_eq_true, ↓reduceIte, bind, Except.bind, hlen] at hread
  split at hread
  · cases hread
  · rename_i hroom
    -- the string would begin at the end of the message
    rw [readStr_size hs place_carries] at hread
    have hend : sub (place pre.flatten (sizePieces s).flatten []).Data
        ((place pre.flatten (sizePieces s).flatten []).skip (sizePieces s).flatten.length).Pos
        (s.length + ((place pre.flatten (sizePieces s).flatten []).skip (sizePieces s).flatten.length).Pos - 1) =
            [] := by
      have hpos : ((place pre.flatten (sizePieces s).flatten []).skip (sizePieces s).flatten.length).Pos =
          pre.flatten.length + (sizePieces s).flatten.length + 1 := by
        rw [skip_place]
        rfl
      have hstop : (s.length : Int) + ((pre.flatten.length + (sizePieces s).flatten.length + 1 : Nat) : Int) - 1 =
          ((s.length + (pre.flatten.length + (sizePieces s).flatten.length) : Nat) : Int) := by omega
      rw [hpos, hstop, sub_eq _ (Nat.le_add_left 1 _), Nat.add_sub_cancel, List.drop_eq_nil_of_le, List.take_nil]
      simp [place, cursor]
    rw [hend] at hread
    obtain rfl : [] = s := Scalar.str.inj (Base.one.inj (Option.some.inj (Prod.mk.inj (Except.ok.inj hread)).1))
    exact hroom (by simp [place, cursor, sizePieces])

/-- **Strings** are read back in lists that do not have one string, when there are, with what follows, more than two
bytes for each, and the last string is not empty or something follows. -/
theorem string_returns_iff (border : Border) (b : Base) (hb : StringValue b) (pre post : List Bytes) :
    Returns border .String b pre post ↔ ∃ ss : List Bytes, b = .arr (ss.map .str) ∧ ss.length ≠ 1 ∧
      2 * ss.length < (ss.flatMap strBytes).length + post.flatten.length ∧
      (post.flatten = [] → ss.getLast? ≠ some []) := by
  rcases hb with ⟨s, rfl, hs⟩ | ⟨ss, rfl, hlen, h⟩
  · exact iff_of_false (not_returns_string hs) (by rintro ⟨ss, ⟨⟩, -⟩)
  · have hpieces : ∀ s ∈ ss, (strAppend s (some s)).pieces = (sizePieces s ++ [s]).map some := by
      intro s _
      unfold strAppend
      rw [List.map_append]
      rfl
    rw [returns_list_iff (writeX_strings hlen h) hpieces]
    refine (ReadPtoString_list hlen h _ rfl).trans ⟨fun hss => ⟨ss, rfl, hss⟩, ?_⟩
    rintro ⟨ss', hss', hcond⟩
    have hinj : Function.Injective Scalar.str := fun _ _ h => Scalar.str.inj h
    obtain rfl := List.map_injective_iff.2 hinj (Base.arr.inj hss')
    exact hcond

/-- Two strings are read back before another byte. -/
theorem string_returns_two : Returns Border.first .String (.arr [.str [65], .str []]) [] [[0], [0]] := by
  apply (string_returns_iff Border.first _ (Or.inr ⟨[[65], []], rfl, by decide, by decide⟩) [] [[0], [0]]).2
  exact ⟨[[65], []], rfl, by decide, by decide, fun h => nomatch h⟩

/-- A single string is not read back. -/
theorem not_returns_letter : ¬Returns Border.first .String (.one (.str [65])) [] [[0]] :=
  not_returns_string (by decide)

end

/-! ## Integers of variable size -/

/-- The sign in the first byte. -/
def signBit (n : Int) : Nat := if n < 0 then 1 else 0

/-- The bytes of an integer of one byte. -/
def smallPieces (n : Int) : List Bytes := [leBytes 1 (2 + signBit n), leBytes 1 n.natAbs]

/-- A list of integers. -/
def ints (ns : List Int) : Base := .arr (ns.map fun n => .num (.int n))

section

variable {border : Border} {pre post : List Bytes} {t u : Bytes} {n : Int} {ns : List Int} {d : ReadData}

theorem signBit_lt (n : Int) : signBit n < 2 := by
  unfold signBit
  split
  · exact Nat.one_lt_two
  · exact Nat.two_pos

theorem length_packInt {k : Nat} {lo hi x : Int} {s : Bytes} (h : packInt k lo hi (.int x) = .ok s) : s.length = k := by
  unfold packInt at h
  rw [Number.toInteger_int] at h
  dsimp only at h
  split at h
  · cases h
    exact length_intBytes k x
  · cases h

theorem le_int (a b : Int) : Number.le (.int a) (.int b) = decide (a ≤ b) := rfl

/-- The absolute value, but for the least integer. -/
theorem abs_number (hn : Fits n) (hmin : n ≠ -2 ^ 63) :
    (if n < 0 then Number.neg (.int n) else .int n) = .int n.natAbs := by
  obtain ⟨h1, h2⟩ := hn
  split
  · rw [Number.neg, wrap_of_fits ⟨by omega, by omega⟩]
    congr 1
    omega
  · congr 1
    omega

/-- An integer of one byte. -/
theorem WriteNumberCore_small (h : n.natAbs ≤ 255) :
    WriteNumberCore (some (.base (.int n))) = .ok [⟨(smallPieces n).map some, 2⟩] := by
  have hle : (Number.int n.natAbs).le (.int 0xff) = true := decide_eq_true (by omega)
  have hpack : packFmt .B (.int n.natAbs) = .ok (leBytes 1 n.natAbs) := by
    have hmod : ((n.natAbs : Int) % 256 ^ 1).toNat = n.natAbs := by omega
    rw [packFmt, packInt_int ⟨by omega, by omega⟩, intBytes, hmod]
  simp only [WriteNumberCore, Number.lt_int, decide_eq_true_eq, abs_number (n := n) ⟨by omega, by omega⟩ (by omega),
    hle, ↓reduceIte, hpack]
  rfl

/-- Another integer: its first byte does not have the size. -/
theorem WriteNumberCore_large (hn : Fits n) (h : 255 < n.natAbs) {as : List Append}
    (hwrite : WriteNumberCore (some (.base (.int n))) = .ok as) :
    ∃ ss : List Bytes, as.flatMap Append.pieces = (leBytes 1 (signBit n) :: ss).map some ∧ 2 ≤ ss.flatten.length := by
  by_cases hmin : n = -2 ^ 63
  · have hneg : Number.neg (.int (-2 ^ 63)) = .int (-2 ^ 63) := congrArg Number.int (by decide +kernel)
    have hlt : (Number.int (-2 ^ 63)).lt (.int 0) = true := by rw [Number.lt_int, decide_eq_true (by decide)]
    have hle : (Number.int (-2 ^ 63)).le (.int 0xff) = true := by rw [le_int, decide_eq_true (by decide)]
    have hpack : packFmt .B (.int (-2 ^ 63)) = .error .packOverflow := by
      rw [packFmt, packInt, Number.toInteger_int]
      exact if_neg (by decide)
    have herr : WriteNumberCore (some (.base (.int (-2 ^ 63)))) = .error .packOverflow := by
      simp only [WriteNumberCore, hlt, hneg, hle, ↓reduceIte, hpack]
      rfl
    rw [hmin, herr] at hwrite
    cases hwrite
  have hle : ¬(Number.int n.natAbs).le (.int 0xff) = true := by
    rw [le_int, decide_eq_true_eq]
    omega
  simp only [WriteNumberCore, Number.lt_int, decide_eq_true_eq, abs_number hn hmin, if_neg hle] at hwrite
  split at hwrite
  · obtain ⟨s, hs, hwrite⟩ := bind_eq_ok.1 hwrite
    cases hwrite
    rw [packFmt] at hs
    refine ⟨[s], rfl, ?_⟩
    rw [List.flatten_singleton, length_packInt hs]
  split at hwrite
  · cases hwrite
    exact ⟨[_, _, _], rfl, by simp⟩
  · obtain ⟨s, hs, hwrite⟩ := bind_eq_ok.1 hwrite
    cases hwrite
    rw [packFmt] at hs
    refine ⟨[s], rfl, ?_⟩
    rw [List.flatten_singleton, length_packInt hs]
    exact Nat.le_add_left 2 2

theorem writeX_int (n : Int) : writeX .Number (some (.base (.int n))) = WriteNumberCore (some (.base (.int n))) := rfl

/-- What is written for a list of integers of one byte. -/
theorem writeX_ints (hlen : ns.length ≤ 255) (h : ∀ n ∈ ns, n.natAbs ≤ 255) :
    writeX .Number (some (.base (ints ns))) =
      .ok (⟨[some (leBytes 1 ns.length)], 1⟩ :: ns.map fun n => ⟨(smallPieces n).map some, 2⟩) := by
  unfold writeX WriteNumber ints
  simp only [Option.bind_some, elems, List.map_map]
  exact writeArray_eq (f := fun n => .base (.int n)) hlen fun n hn => WriteNumberCore_small (h n hn)

theorem length_small (n : Int) : (smallPieces n).flatten.length = 2 := rfl

/-- An integer of one byte is read where its bytes stand. -/
theorem ReadNumberCore_small (h : n.natAbs ≤ 255) (hd : d.Carries (smallPieces n).flatten) :
    ReadNumberCore d = .ok (.int n, d.skip (smallPieces n).flatten.length) := by
  have hflat : (smallPieces n).flatten = leBytes 1 (2 + signBit n) ++ leBytes 1 n.natAbs := rfl
  rw [hflat] at hd
  obtain ⟨hflag, hvalue⟩ := ReadData.carries_append.1 hd
  rw [length_leBytes] at hvalue
  have hsign := signBit_lt n
  have hsize : (2 + signBit n) / 2 = 1 := by omega
  have hread : (unpackAt 1 (d.skip 1)).map Prod.fst = .ok n.natAbs := by
    rw [unpackAt_carries Nat.one_pos (by omega) hvalue]
    rfl
  have hint : (if (2 + signBit n) % 2 = 0 then (n.natAbs : Int) else -(n.natAbs : Int)) = n := by
    unfold signBit
    split
    · rw [if_neg (by decide)]
      omega
    · rw [if_pos rfl]
      omega
  refine bind_eq_ok.2 ⟨_, unpackAt_carries Nat.one_pos (by omega) hflag, ?_⟩
  simp only [hsize, ↓reduceIte, hread, bind, Except.bind, hint]
  rfl

/-- Of another integer one byte is read. -/
theorem ReadNumberCore_large {x : Number} {d' : ReadData} (hd : d.Carries (leBytes 1 (signBit n)))
    (h : ReadNumberCore d = .ok (x, d')) : d' = d.skip 1 := by
  have hsign := signBit_lt n
  have hsize : signBit n / 2 = 0 := by omega
  obtain ⟨r, hr, h⟩ := bind_eq_ok.1 h
  cases (unpackAt_carries Nat.one_pos (by omega) hd).symm.trans hr
  simp only [hsize] at h
  obtain ⟨ret, -, h⟩ := bind_eq_ok.1 h
  cases h
  rfl

theorem skip_inj {m k : Nat} (h : d.skip m = d.skip k) : m = k := by
  have hpos : d.Pos + m = d.Pos + k := congrArg ReadData.Pos h
  omega

/-- A single integer. -/
theorem int_returns_iff (hn : Fits n) :
    Returns border .Number (.int n) pre post ↔ n.natAbs ≤ 255 ∧ post.flatten ≠ [] := by
  by_cases h : n.natAbs ≤ 255
  · rw [returns_iff (smallPieces n) ((writeX_int n).trans (WriteNumberCore_small h)) (List.append_nil _),
      Base.isarray_one]
    generalize post.flatten = t
    generalize pre.flatten = u
    have hroom : (place u (smallPieces n).flatten t).Len < (place u (smallPieces n).flatten t).Pos + 1 * 2 ↔
        t = [] := by
      rw [← List.length_eq_zero_iff]
      unfold place cursor ReadData.Len
      simp only [List.length_append, length_small]
      omega
    unfold readX ReadNumber readCount
    simp only [Bool.false_eq_true, ↓reduceIte, bind, Except.bind, ReadNumberCore_small h place_carries]
    by_cases ht : t = []
    · rw [if_pos (hroom.2 ht)]
      exact iff_of_false (by rintro ⟨⟩) fun hrhs => hrhs.2 ht
    · rw [if_neg (mt hroom.1 ht)]
      exact iff_of_true rfl ⟨h, ht⟩
  · refine iff_of_false (fun hreturns => ?_) fun hrhs => h hrhs.1
    obtain ⟨as, m, hwrite, -⟩ := id hreturns
    obtain ⟨ss, hss, hlen⟩ := WriteNumberCore_large hn (Nat.lt_of_not_le h) hwrite
    rw [returns_iff _ hwrite hss, Base.isarray_one] at hreturns
    have hcarries : (place pre.flatten (leBytes 1 (signBit n) :: ss).flatten post.flatten).Carries
      (leBytes 1 (signBit n)) := place_carries_left
    unfold readX ReadNumber readCount at hreturns
    simp only [Bool.false_eq_true, ↓reduceIte, bind, Except.bind] at hreturns
    split at hreturns
    · cases hreturns
    · split at hreturns
      · cases hreturns
      · rename_i r hr
        have hend := (Prod.mk.inj (Except.ok.inj hreturns)).2
        rw [ReadNumberCore_large hcarries hr] at hend
        have := skip_inj hend
        rw [List.flatten_cons, List.length_append, length_leBytes] at this
        omega

/-- A list of integers of one byte. -/
theorem ints_returns_iff (hlen : ns.length ≤ 255) (h : ∀ n ∈ ns, n.natAbs ≤ 255) :
    Returns border .Number (ints ns) pre post ↔ ns.length ≠ 1 ∧ post.flatten ≠ [] := by
  have hpieces : ∀ n ∈ ns, (⟨(smallPieces n).map some, 2⟩ : Append).pieces = (smallPieces n).map some := fun _ _ => rfl
  rw [returns_list_iff (writeX_ints hlen h) hpieces]
  generalize post.flatten = t
  generalize pre.flatten = u
  generalize hd : place u (leBytes 1 ns.length ++ ns.flatMap fun n => (smallPieces n).flatten) t = d
  have hcount := readCount_place (u := u) (s := ns.flatMap fun n => (smallPieces n).flatten) (t := t) hlen
  rw [hd] at hcount
  have hcarries : (d.skip 1).Carries (ns.flatMap fun n => (smallPieces n).flatten) := by
    rw [← hd]
    exact place_carries_items
  have hlength : (ns.flatMap fun n => (smallPieces n).flatten).length = ns.length * 2 :=
    length_flatMap_const length_small ns
  have hroom : (d.skip 1).Len < (d.skip 1).Pos + ns.length * 2 ↔ t = [] := by
    rw [← hd, ← List.length_eq_zero_iff]
    unfold place cursor ReadData.skip ReadData.Len
    simp only [List.length_append, length_leBytes, hlength]
    omega
  have hmany : readMany ReadNumberCore ns.length (d.skip 1) =
      .ok (ns.map Number.int, (d.skip 1).skip (ns.flatMap fun n => (smallPieces n).flatten).length) :=
    readMany_carries (fun n hn d hd => ReadNumberCore_small (h n hn) hd) hcarries
  have hreadX : readX .Number (ints ns).isarray d = ReadNumber true d := rfl
  rw [hreadX]
  unfold ReadNumber
  rw [hcount]
  by_cases hend : (ns.flatMap fun n => (smallPieces n).flatten) = [] ∧ t = []
  · rw [if_pos hend]
    exact iff_of_false (by rintro ⟨⟩) fun hrhs => hrhs.2 hend.2
  · rw [if_neg hend]
    simp only [bind, Except.bind]
    by_cases ht : t = []
    · rw [if_pos (hroom.2 ht)]
      exact iff_of_false (by rintro ⟨⟩) fun hrhs => hrhs.2 ht
    · rw [if_neg (mt hroom.1 ht)]
      by_cases hone : ns.length = 1
      · obtain ⟨n, rfl⟩ := List.length_eq_one_iff.1 hone
        have hn : ReadNumberCore (d.skip 1) = _ :=
          ReadNumberCore_small (h n List.mem_cons_self) (by simpa using hcarries)
        rw [if_pos hone, hn]
        exact iff_of_false (by rintro ⟨⟩) fun hrhs => hrhs.1 hone
      · rw [if_neg hone, hmany]
        refine iff_of_true ?_ ⟨hone, ht⟩
        simp only [ReadData.skip_skip, List.length_append, length_leBytes, List.map_map]
        rfl

/-- **Integers of variable size** are read back, one by one and in a list, if they have one byte, the list does not have
one element and something follows. -/
theorem number_returns_iff (border : Border) (pre post : List Bytes) :
    (∀ n, Fits n → (Returns border .Number (.int n) pre post ↔ n.natAbs ≤ 255 ∧ post.flatten ≠ [])) ∧
      ∀ ns : List Int, ns.length ≤ 255 → (∀ n ∈ ns, Fits n) →
        ((∀ n ∈ ns, n.natAbs ≤ 255) → (Returns border .Number (ints ns) pre post ↔ ns.length ≠ 1 ∧ post.flatten ≠ [])) ∧
        ((∀ n ∈ ns, Returns border .Number (.int n) pre post) ∧ Returns border .Number (ints ns) pre post ↔
          (∀ n ∈ ns, n.natAbs ≤ 255) ∧ ns.length ≠ 1 ∧ post.flatten ≠ []) := by
  refine ⟨fun n hn => int_returns_iff hn, fun ns hlen hfits => ⟨fun h => ints_returns_iff hlen h, ?_, ?_⟩⟩
  · rintro ⟨hone, hlist⟩
    have h : ∀ n ∈ ns, n.natAbs ≤ 255 := fun n hn => ((int_returns_iff (hfits n hn)).1 (hone n hn)).1
    exact ⟨h, (ints_returns_iff hlen h).1 hlist⟩
  · rintro ⟨h, hone, hpost⟩
    exact ⟨fun n hn => (int_returns_iff (hfits n hn)).2 ⟨h n hn, hpost⟩, (ints_returns_iff hlen h).2 ⟨hone, hpost⟩⟩

/-- Two integers are read back before another byte. -/
theorem number_returns_two : Returns Border.first .Number (ints [-3, 255]) [] [[0]] := by
  obtain ⟨-, hlist⟩ := number_returns_iff Border.first [] [[0]]
  exact ((hlist [-3, 255] (by decide) (by decide)).1 (by decide)).2 ⟨by decide, fun h => nomatch h⟩

-- larger integers can stand for each other: this list comes back, and neither integer does
example : Returns Border.first .Number (ints [16777230, 65536]) [] [[0]] := by
  have hwrite : writeX .Number (some (.base (ints [16777230, 65536]))) =
      .ok [⟨[some [2]], 1⟩, ⟨[some [0], some [14, 0, 0, 1]], 5⟩, ⟨[some [0], some [0], some [0], some [1]], 4⟩] := rfl
  rw [returns_iff [[2], [0], [14, 0, 0, 1], [0], [0], [0], [1]] hwrite rfl]
  rfl

/-- An integer of two bytes is written, and is not read back. -/
theorem not_returns_256 : writeX .Number (some (.base (.int 256))) = .ok [⟨[some [0], some [0, 1]], 3⟩] ∧
    ¬Returns Border.first .Number (.int 256) [] [[0]] := by
  refine ⟨rfl, fun h => ?_⟩
  have hsmall := ((int_returns_iff (by decide)).1 h).1
  exact absurd hsmall (by decide)

end

end XCore.Net
