import XCore.Redis.Parser

/-!
# Replies, and the parser on them

A `Reply` is what a server sends: its flag, its head line and its body make its encoding (`Reply.encode`). The parser is
described on a buffer that starts with a reply, or with the rest of one whose head was read before:

- `respParser_fresh`, `respParser_open`, `respParser_resume`: up to the head;
- `afterHead_line`: the three replies without a body;
- `bulk_at`: the branch of `$`, for a buffer `pre ++ m` read up to `m`;
- `elements_cons`, `elements_all`, `elements_cut`, `multiBulk_at`: the branch of `*`.

Strings are assumed to fit in an address space (`addressable`), so that positions do not wrap.
-/

namespace XCore.Redis

open XCore.Lua XCore.Tcp

/-! ## Replies -/

/-- The text of a status or an error. -/
abbrev Text := {t : Bytes // Plain t}

/-- A 64-bit integer. -/
abbrev Integer := {n : Int // Fits n}

/-- The replies of a server; `none` is the null bulk string. -/
inductive Reply
  | status (t : Text)
  | error (t : Text)
  | integer (n : Integer)
  | bulk (b : Option Bytes)
  | array (es : List (Option Bytes))

/-- The length field of a bulk string. -/
def bulkSize : Option Bytes → Int
  | none => -1
  | some b => b.length

/-- What follows the length field of a bulk string. -/
def bulkBody : Option Bytes → Bytes
  | none => []
  | some b => b ++ crlf

/-- The encoding of a bulk string. -/
def encodeBulk (b : Option Bytes) : Bytes := fDollar ++ dec (bulkSize b) ++ crlf ++ bulkBody b

/-- The encoding of the elements of an array. -/
def encodeElems (es : List (Option Bytes)) : Bytes := es.flatMap encodeBulk

namespace Reply

/-- The flag byte. -/
def flag : Reply → Bytes
  | status _ => fPlus
  | error _ => fMinus
  | integer _ => fColon
  | bulk _ => fDollar
  | array _ => fStar

/-- The head line. -/
def head : Reply → Bytes
  | status t => t
  | error t => t
  | integer n => dec n
  | bulk b => dec (bulkSize b)
  | array es => dec es.length

/-- What follows the head line. -/
def body : Reply → Bytes
  | bulk b => bulkBody b
  | array es => encodeElems es
  | _ => []

/-- The encoding of a reply. -/
def encode (r : Reply) : Bytes := r.flag ++ r.head ++ crlf ++ r.body

/-- The payload that stands for a reply. -/
def pak : Reply → Pak
  | status t => ⟨true, .str t⟩
  | error t => ⟨false, .str t⟩
  | integer n => ⟨true, .num (.int n)⟩
  | bulk none => ⟨true, .nil⟩
  | bulk (some b) => ⟨true, .str b⟩
  | array es => ⟨true, .list es⟩

theorem plain_head : ∀ r : Reply, Plain r.head
  | status t => t.2
  | error t => t.2
  | integer n => plain_dec n
  | bulk b => plain_dec (bulkSize b)
  | array es => plain_dec es.length

/-- The flag is one byte. -/
theorem flag_eq (r : Reply) : ∃ c, r.flag = [c] := by cases r <;> exact ⟨_, rfl⟩

end Reply

/-- The encoding of a sequence of replies. -/
def encodeAll (rs : List Reply) : Bytes := rs.flatMap Reply.encode

@[simp] theorem encodeAll_nil : encodeAll [] = [] := rfl

@[simp] theorem encodeAll_cons (r : Reply) (rs : List Reply) : encodeAll (r :: rs) = r.encode ++ encodeAll rs := rfl

@[simp] theorem encodeElems_nil : encodeElems [] = [] := rfl

@[simp] theorem encodeElems_cons (e : Option Bytes) (es : List (Option Bytes)) :
    encodeElems (e :: es) = encodeBulk e ++ encodeElems es := rfl

/-- An element takes at least one byte. -/
theorem length_le_encodeElems (es : List (Option Bytes)) : es.length ≤ (encodeElems es).length := by
  induction es with
  | nil => simp
  | cons e es ih =>
    have : 1 ≤ (encodeBulk e).length := by simp [encodeBulk, fDollar]
    simp only [encodeElems_cons, List.length_cons, List.length_append]
    omega

/-! ## Positions -/

/-- The size of the address space of a process, which no string exceeds. -/
def addressable : Nat := 2 ^ 57

/-- Arithmetic on positions does not wrap. -/
theorem wrap_pos {n : Int} {k : Nat} (h : n = k) (hk : k ≤ 8 * addressable) : wrap n = (k : Nat) := by
  have hsize : addressable = 2 ^ 57 := rfl
  rw [h]
  exact wrap_of_fits (Fits.of_small (b := 2 ^ 62) (by omega) (by omega) (by omega))

/-- The next line, found from where the reading stands. -/
theorem find_at (pre s : Bytes) : find (pre ++ s) crlf (pre.length + 1 : Nat) =
    (idxOf crlf s).map fun k => (((pre.length + (k + 1) : Nat) : Int), ((pre.length + (k + 2) : Nat) : Int)) := by
  have hstart : max (1 : Int) ((pre.length + 1 : Nat) : Int) = (pre.length + 1 : Nat) := by omega
  simp only [find, posrelat_nat, hstart]
  rw [if_neg (by simp), show (((pre.length + 1 : Nat) : Int) - 1).toNat = pre.length by omega, List.drop_left]
  cases idxOf crlf s with
  | none => rfl
  | some k =>
    simp only [Option.map_some, crlf, List.length_cons, List.length_nil, Option.some.injEq, Prod.mk.injEq]
    omega

/-- The part of the unread rest between two positions. -/
theorem sub_at (pre s : Bytes) {i : Nat} (hi : 1 ≤ i) (j : Nat) :
    sub (pre ++ s) (pre.length + i : Nat) (pre.length + j : Nat) = (s.drop (i - 1)).take (j + 1 - i) := by
  rw [sub_eq _ (by omega), show pre.length + i - 1 = pre.length + (i - 1) by omega, List.drop_length_add_append]
  congr 1
  omega

/-- The unread rest from a position on. -/
theorem subFrom_at (pre s : Bytes) {i : Nat} (hi : 1 ≤ i) :
    subFrom (pre ++ s) (pre.length + i : Nat) = s.drop (i - 1) := by
  rw [subFrom_eq _ (by omega), show pre.length + i - 1 = pre.length + (i - 1) by omega, List.drop_length_add_append]

/-! ## Up to the head -/

/-- The head line is complete. -/
theorem respParser_fresh (c : UInt8) {t : Bytes} (ht : Plain t) (m : Bytes) :
    respParser ⟨[c] ++ t ++ crlf ++ m, none, none⟩ =
      afterHead ⟨[c] ++ t ++ crlf ++ m, none, none⟩ ⟨some [c], none, none⟩ (.str t)
        (([c] ++ t ++ crlf).length + 1 : Nat) (([c] ++ t ++ crlf ++ m).length + 1 : Nat) := by
  have hflag : sub ([c] ++ t ++ crlf ++ m) 1 1 = [c] := by
    rw [show (1 : Int) = (1 : Nat) from rfl, sub_eq _ (by omega)]; rfl
  have hsub : sub ([c] ++ (t ++ crlf ++ m)) 2 (1 + t.length : Nat) = t := by
    have h := sub_at [c] (t ++ crlf ++ m) (i := 1) (by omega) t.length
    simpa [Nat.add_comm] using h
  have hfind : find ([c] ++ (t ++ crlf ++ m)) crlf 2 = some
      (((2 + t.length : Nat) : Int), ((3 + t.length : Nat) : Int)) := by
    have h := find_at [c] (t ++ crlf ++ m)
    rw [idxOf_line m ht] at h
    simp only [List.length_cons, List.length_nil, Option.map_some] at h
    rw [show (2 : Int) = ((0 + 1 + 1 : Nat) : Int) from rfl, h]
    simp only [Option.some.injEq, Prod.mk.injEq]
    omega
  simp only [respParser, Option.getD_none, readFlag, hflag, readHead]
  rw [if_neg (by simp; omega)]
  simp only [List.append_assoc] at hfind hsub ⊢
  rw [hfind]
  simp only [show ((2 + t.length : Nat) : Int) - 1 = (1 + t.length : Nat) by omega, hsub]
  congr 1
  simp [crlf]; omega

/-- The head line is not complete: the flag is kept, and nothing is cut off. -/
theorem respParser_open (c : UInt8) {t : Bytes} (ht : idxOf crlf t = none) :
    respParser ⟨c :: t, none, none⟩ = ⟨⟨c :: t, some ⟨some [c], none, none⟩, none⟩, .ok false⟩ := by
  have hflag : sub (c :: t) 1 1 = [c] := by
    rw [show (1 : Int) = (1 : Nat) from rfl, sub_eq _ (by omega)]; rfl
  have hfind : find (c :: t) crlf 2 = none := by
    have h := find_at [c] t
    rw [ht] at h
    exact h
  simp only [respParser, Option.getD_none, readFlag, hflag, readHead, hfind]
  rw [if_neg (by simp)]

/-- The flag and the head were read before. -/
theorem respParser_resume {m : Bytes} (hm : m ≠ []) (f : Bytes) (h : Head) (b : Option (List Bytes)) :
    respParser ⟨m, some ⟨some f, some h, b⟩, none⟩ =
      afterHead ⟨m, some ⟨some f, some h, b⟩, none⟩ ⟨some f, some h, b⟩ h 1 (m.length + 1 : Nat) := by
  have hpos : 0 < m.length := List.length_pos_of_ne_nil hm
  simp only [respParser, Option.getD_some, readFlag, readHead]
  rw [if_neg (by omega)]
  rfl

/-- No data, no reply. -/
theorem respParser_nil (left : Option Left) : respParser ⟨[], left, none⟩ = ⟨⟨[], left, none⟩, .ok false⟩ := by
  simp [respParser]

/-! ## The branch of `$` -/

/-- The length of a bulk string and one more, `0` for null. -/
def bulkNext : Option Bytes → Nat
  | none => 0
  | some b => b.length + 1

theorem bulkSize_eq (b : Option Bytes) : bulkSize b = (bulkNext b : Int) - 1 := by
  cases b with
  | none => rfl
  | some b => simp [bulkSize, bulkNext]

/-- A length field is read back. -/
theorem tonumber_bulkSize {b : Option Bytes} (hb : bulkNext b ≤ addressable) :
    tonumber (dec (bulkSize b)) = some (.int (bulkNext b - 1)) := by
  have h : addressable = 2 ^ 57 := rfl
  have hsize := bulkSize_eq b
  rw [tonumber_dec_nil (Fits.of_small (b := 2 ^ 57) (by omega) (by omega) (by omega)), hsize]

/-- A bulk reply, from its body on: `k` is one more than its length. -/
theorem bulk_at {data : Data} {pre m : Bytes} {k : Nat} (hd : data.metaStr = pre ++ m)
    (hlen : (pre ++ m).length < addressable) (hk : k ≤ addressable) :
    bulk data (some (.int (k - 1))) (pre.length + 1 : Nat) ((pre ++ m).length + 1 : Nat) =
      if m.length < k + 1 then ⟨{ data with metaStr := m }, .ok false⟩
      else ⟨⟨m.drop (k + 1), none, some ⟨true, .str (m.take k)⟩⟩, .ok true⟩ := by
  have hl : (pre ++ m).length = pre.length + m.length := List.length_append
  have hw1 : wrap (((pre.length + 1 : Nat) : Int) + (k - 1)) = (pre.length + k : Nat) := wrap_pos (by omega) (by omega)
  have hw2 : wrap (((pre.length + k : Nat) : Int) + 2) = (pre.length + (k + 2) : Nat) := wrap_pos (by omega) (by omega)
  have hrest : subFrom (pre ++ m) (pre.length + 1 : Nat) = m := by rw [subFrom_at _ _ (by omega)]; simp
  simp only [bulk, Number.add_int, hw1, hw2, Number.lt_int, hd, hrest, subNum, subFromNum, Number.toInteger_int,
    sub_at pre m (i := 1) (by omega), subFrom_at pre m (i := k + 2) (by omega)]
  by_cases hshort : m.length < k + 1
  · rw [if_pos (by simp; omega), if_pos hshort]
  · rw [if_neg (by simp; omega), if_neg hshort]
    simp

/-! ## The branch of `*` -/

/-- One element of an array: `k` is one more than its size. -/
theorem elements_cons {pre t m : Bytes} {k : Nat} (n : Nat) (body : List Bytes) (c : UInt8) (ht : Plain ([c] ++ t))
    (hnum : tonumber (t ++ [CR]) = some (.int (k - 1))) (hlen : (pre ++ ([c] ++ t ++ crlf) ++ m).length < addressable)
    (hk : k ≤ addressable) :
    elements (pre ++ ([c] ++ t ++ crlf) ++ m) ((pre ++ ([c] ++ t ++ crlf) ++ m).length + 1 : Nat) (n + 1)
        (.int (pre.length + 1 : Nat)) body =
      if m.length < k + 1 then ⟨.int (pre.length + 1 : Nat), body, .ok false⟩
      else elements (pre ++ ([c] ++ t ++ crlf) ++ m) ((pre ++ ([c] ++ t ++ crlf) ++ m).length + 1 : Nat) n
        (.int ((pre ++ ([c] ++ t ++ crlf)).length + (k + 1) + 1 : Nat)) (body ++ [m.take (k - 1)]) := by
  have hl : (pre ++ ([c] ++ t ++ crlf) ++ m).length = (pre ++ ([c] ++ t ++ crlf)).length + m.length :=
    List.length_append
  have hp : (pre ++ ([c] ++ t ++ crlf)).length = pre.length + (t.length + 3) := by simp [crlf]
  have hw0 : wrap (((pre.length + 1 : Nat) : Int) + 1) = (pre.length + 2 : Nat) := wrap_pos (by omega) (by omega)
  have hfind : find (pre ++ ([c] ++ t ++ crlf) ++ m) crlf (pre.length + 1 : Nat) =
      some (((pre.length + (t.length + 2) : Nat) : Int), ((pre.length + (t.length + 3) : Nat) : Int)) := by
    rw [List.append_assoc, find_at, idxOf_line m ht]
    simp only [List.length_append, List.length_cons, List.length_nil, Option.map_some, Option.some.injEq, Prod.mk.injEq]
    omega
  have hsize : sub (pre ++ ([c] ++ t ++ crlf) ++ m) (pre.length + 2 : Nat) (pre.length + (t.length + 2) : Nat) =
      t ++ [CR] := by
    rw [List.append_assoc, sub_at _ _ (by omega), show t.length + 2 + 1 - 2 = t.length + 1 by omega]
    have : (t ++ crlf ++ m).take (t.length + 1) = t ++ [CR] := by
      rw [List.append_assoc, List.take_length_add_append]; rfl
    simpa using this
  have he : ((pre.length + (t.length + 2) : Nat) : Int) + 2 = ((pre ++ ([c] ++ t ++ crlf)).length + 1 : Nat) := by omega
  have hw1 : wrap (((pre ++ ([c] ++ t ++ crlf)).length + 1 : Nat) + (k - 1)) =
      ((pre ++ ([c] ++ t ++ crlf)).length + k : Nat) := wrap_pos (by omega) (by omega)
  have hw2 : wrap (((pre ++ ([c] ++ t ++ crlf)).length + k : Nat) + 2) =
      ((pre ++ ([c] ++ t ++ crlf)).length + (k + 1) + 1 : Nat) := wrap_pos (by omega) (by omega)
  have hw3 : wrap (((pre ++ ([c] ++ t ++ crlf)).length + k : Nat) - 1) =
      ((pre ++ ([c] ++ t ++ crlf)).length + k - 1 : Nat) := wrap_pos (by omega) (by omega)
  have hdata : sub (pre ++ ([c] ++ t ++ crlf) ++ m) ((pre ++ ([c] ++ t ++ crlf)).length + 1 : Nat)
      ((pre ++ ([c] ++ t ++ crlf)).length + k - 1 : Nat) = m.take (k - 1) := by
    have hn : (pre ++ ([c] ++ t ++ crlf)).length + k - 1 + 1 - ((pre ++ ([c] ++ t ++ crlf)).length + 1) = k - 1 := by
      omega
    rw [sub_eq _ (by omega), hn, Nat.add_sub_cancel, List.drop_left]
  simp only [elements, Number.toInteger_int, Number.add_int, Number.sub_int, hw0, hfind, hsize, hnum, he, hw1, hw2,
    hw3, subNum, hdata, Number.lt_int]
  by_cases hshort : m.length < k + 1
  · rw [if_pos (by simp only [decide_eq_true_eq]; omega), if_pos hshort]
  · rw [if_neg (by simp only [decide_eq_true_eq]; omega), if_neg hshort]

/-- The next line is not complete. -/
theorem elements_open {pre m : Bytes} (n : Nat) (maxpos : Int) (body : List Bytes) (hm : idxOf crlf m = none) :
    elements (pre ++ m) maxpos (n + 1) (.int (pre.length + 1 : Nat)) body =
      ⟨.int (pre.length + 1 : Nat), body, .ok false⟩ := by
  have hfind : find (pre ++ m) crlf (pre.length + 1 : Nat) = none := by rw [find_at, hm]; rfl
  simp only [elements, Number.toInteger_int, Number.add_int, hfind]

/-- The length field of an element is read back, before the carriage return. -/
theorem tonumber_size {b : Bytes} (hb : b.length < addressable) :
    tonumber (dec b.length ++ [CR]) = some (.int ((b.length + 1 : Nat) - 1)) := by
  have h : addressable = 2 ^ 57 := rfl
  have hspace : ∀ c ∈ [CR], isSpace c = true := fun c hc => by rw [List.mem_singleton.1 hc]; rfl
  rw [tonumber_dec (n := b.length) (Fits.of_small (b := 2 ^ 57) (by omega) (by omega) (by omega)) hspace]
  congr 2; omega

/-- The encoding of elements that are not null. -/
def encodeList (bs : List Bytes) : Bytes := encodeElems (bs.map some)

theorem encodeElems_map_some (bs : List Bytes) : encodeElems (bs.map some) = encodeList bs := rfl

@[simp] theorem encodeList_nil : encodeList [] = [] := rfl

@[simp] theorem encodeList_cons (b : Bytes) (bs : List Bytes) :
    encodeList (b :: bs) = encodeBulk (some b) ++ encodeList bs := rfl

theorem encodeList_append (bs cs : List Bytes) : encodeList (bs ++ cs) = encodeList bs ++ encodeList cs := by
  simp [encodeList, encodeElems]

/-- The length field of an element, with its flag. -/
def bulkHead (b : Bytes) : Bytes := fDollar ++ dec b.length

theorem plain_bulkHead (b : Bytes) : Plain (bulkHead b) := Plain.append (by decide) (plain_dec _)

theorem encodeBulk_some (b : Bytes) : encodeBulk (some b) = bulkHead b ++ crlf ++ (b ++ crlf) := rfl

theorem length_encodeBulk_some (b : Bytes) :
    (encodeBulk (some b)).length = (bulkHead b ++ crlf).length + (b.length + 2) := by
  simp only [encodeBulk_some, List.length_append, crlf, List.length_cons, List.length_nil]

/-- One element that is not null: it is read when it is complete. -/
theorem elements_some {p m : Bytes} (b : Bytes) (n : Nat) (body : List Bytes)
    (hlen : (p ++ (bulkHead b ++ crlf) ++ m).length < addressable) (hb : b.length < addressable) :
    elements (p ++ (bulkHead b ++ crlf) ++ m) ((p ++ (bulkHead b ++ crlf) ++ m).length + 1 : Nat) (n + 1)
        (.int (p.length + 1 : Nat)) body =
      if m.length < b.length + 2 then ⟨.int (p.length + 1 : Nat), body, .ok false⟩
      else elements (p ++ (bulkHead b ++ crlf) ++ m) ((p ++ (bulkHead b ++ crlf) ++ m).length + 1 : Nat) n
        (.int ((p ++ (bulkHead b ++ crlf)).length + (b.length + 2) + 1 : Nat)) (body ++ [m.take b.length]) :=
  elements_cons n body 36 (plain_bulkHead b) (tonumber_size hb) hlen (k := b.length + 1) (by omega)

/-- An element that is not complete stops the loop. -/
theorem elements_waits {q m d r b : Bytes} (n : Nat) (body : List Bytes) (hm : m ++ d = encodeBulk (some b) ++ r)
    (hshort : m.length < (encodeBulk (some b)).length) (hlen : (q ++ m).length < addressable)
    (hb : b.length < addressable) :
    elements (q ++ m) ((q ++ m).length + 1 : Nat) (n + 1) (.int (q.length + 1 : Nat)) body =
      ⟨.int (q.length + 1 : Nat), body, .ok false⟩ := by
  rw [encodeBulk_some, List.append_assoc] at hm
  rcases crlf_cut (plain_bulkHead b) hm with hno | ⟨m₁, rfl, -⟩
  · exact elements_open _ _ _ hno
  · rw [← List.append_assoc] at hlen
    have hel := elements_some (p := q) (m := m₁) b n body hlen hb
    rw [length_encodeBulk_some, List.length_append] at hshort
    rw [if_pos (by omega), List.append_assoc] at hel
    exact hel

/-- An element that is complete is read. -/
theorem elements_reads {q b : Bytes} (m : Bytes) (n : Nat) (body : List Bytes)
    (hlen : (q ++ encodeBulk (some b) ++ m).length < addressable) (hb : b.length < addressable) :
    elements (q ++ encodeBulk (some b) ++ m) ((q ++ encodeBulk (some b) ++ m).length + 1 : Nat) (n + 1)
        (.int (q.length + 1 : Nat)) body =
      elements (q ++ encodeBulk (some b) ++ m) ((q ++ encodeBulk (some b) ++ m).length + 1 : Nat) n
        (.int ((q ++ encodeBulk (some b)).length + 1 : Nat)) (body ++ [b]) := by
  have hwhole : q ++ encodeBulk (some b) ++ m = q ++ (bulkHead b ++ crlf) ++ (b ++ crlf ++ m) := by
    simp [encodeBulk_some]
  have hpos : (q ++ encodeBulk (some b)).length = (q ++ (bulkHead b ++ crlf)).length + (b.length + 2) := by
    rw [List.length_append, length_encodeBulk_some, ← Nat.add_assoc, ← List.length_append]
  have htake : (b ++ crlf ++ m).take b.length = b := by simp
  rw [hwhole] at hlen ⊢
  rw [elements_some b n body hlen hb, if_neg (by simp [crlf]), htake, hpos]

/-- **The loop over the elements** on a prefix `m` of their encoding and what follows: all elements are in `m`, and all
are read; or the loop stops before the first that is not. -/
theorem elements_run {d s : Bytes} : ∀ (bs : List Bytes) {q m : Bytes} (body : List Bytes),
    m ++ d = encodeList bs ++ s → (q ++ (m ++ d)).length < addressable →
    (∃ m', m = encodeList bs ++ m' ∧ m' ++ d = s ∧
      elements (q ++ m) ((q ++ m).length + 1 : Nat) bs.length (.int (q.length + 1 : Nat)) body =
        ⟨.int ((q ++ encodeList bs).length + 1 : Nat), body ++ bs, .ok true⟩) ∨
    (∃ done b rest p, bs = done ++ b :: rest ∧ m = encodeList done ++ p ∧ p ++ d = encodeList (b :: rest) ++ s ∧
      p.length < (encodeBulk (some b)).length ∧
      elements (q ++ m) ((q ++ m).length + 1 : Nat) bs.length (.int (q.length + 1 : Nat)) body =
        ⟨.int ((q ++ encodeList done).length + 1 : Nat), body ++ done, .ok false⟩)
  | [], pre, m, body, hm, _ => by
    left
    exact ⟨m, by simp, by simpa using hm, by simp [elements]⟩
  | b :: bs, pre, m, body, hm, hlen => by
    have hm' : m ++ d = encodeBulk (some b) ++ (encodeList bs ++ s) := by
      rw [hm, encodeList_cons, List.append_assoc]
    have hsize := length_encodeBulk_some b
    have hb : b.length < addressable := by
      have := congrArg List.length hm'
      simp only [List.length_append] at this hlen hsize
      omega
    rw [List.length_cons]
    by_cases hshort : m.length < (encodeBulk (some b)).length
    · right
      refine ⟨[], b, bs, m, rfl, rfl, hm, hshort, ?_⟩
      rw [elements_waits bs.length body hm' hshort (by simp only [List.length_append] at hlen ⊢; omega) hb]
      simp
    · obtain ⟨m₂, rfl⟩ : encodeBulk (some b) <+: m := prefix_of_append hm' (by omega)
      have hm₂ : m₂ ++ d = encodeList bs ++ s := by
        rw [List.append_assoc] at hm'
        exact List.append_cancel_left hm'
      rw [← List.append_assoc, elements_reads m₂ bs.length body (by simp only [List.length_append] at hlen ⊢; omega) hb]
      rcases elements_run bs (q := pre ++ encodeBulk (some b)) (body ++ [b]) hm₂
        (by simp only [List.length_append] at hlen ⊢; omega)
        with ⟨m', rfl, hs, h⟩ | ⟨done, b', rest, p, rfl, rfl, hp, hlt, h⟩
      · left
        exact ⟨m', by simp, hs, by rw [h]; simp⟩
      · right
        exact ⟨b :: done, b', rest, p, rfl, by simp, hp, hlt, by rw [h]; simp⟩

/-- **The branch of `*`** on an array without null, of which the elements from `m` on are to be read. -/
theorem multiBulk_run {data : Data} {pak : Left} {d s pre m : Bytes} (bs : List Bytes)
    (hd : data.metaStr = pre ++ m) (hm : m ++ d = encodeList bs ++ s) (hlen : (pre ++ (m ++ d)).length < addressable)
    (hfull : 7 * bs.length ≤ m.length) :
    (∃ m', m = encodeList bs ++ m' ∧ m' ++ d = s ∧
      multiBulk data pak (some (.int bs.length)) (pre.length + 1 : Nat) ((pre ++ m).length + 1 : Nat) =
        ⟨⟨m', none, some ⟨true, .list ((pak.body.getD [] ++ bs).map some)⟩⟩, .ok true⟩) ∨
    (∃ done b rest p, bs = done ++ b :: rest ∧ m = encodeList done ++ p ∧ p ++ d = encodeList (b :: rest) ++ s ∧
      p.length < (encodeBulk (some b)).length ∧
      multiBulk data pak (some (.int bs.length)) (pre.length + 1 : Nat) ((pre ++ m).length + 1 : Nat) =
        ⟨{ data with left := some { pak with body := some (pak.body.getD [] ++ done) }, metaStr := p },
          .ok false⟩) := by
  have hl : (pre ++ (m ++ d)).length = pre.length + m.length + d.length := by simp [Nat.add_assoc]
  have hw1 : wrap ((bs.length : Int) * 7) = (7 * bs.length : Nat) := wrap_pos (by omega) (by omega)
  have hw2 : wrap (((pre.length + 1 : Nat) : Int) + (7 * bs.length : Nat)) = (pre.length + 1 + 7 * bs.length : Nat) :=
    wrap_pos (by omega) (by omega)
  have hge : ¬((((pre ++ m).length + 1 : Nat) : Int) < (pre.length + 1 + 7 * bs.length : Nat)) := by
    rw [List.length_append]; omega
  have hrest : ∀ q p : Bytes, subFrom (pre ++ (q ++ p)) ((pre ++ q).length + 1 : Nat) = p := by
    intro q p
    rw [← List.append_assoc, subFrom_at _ _ (by omega)]; simp
  simp only [multiBulk, Number.mul_int, Number.add_int, hw1, hw2, Number.lt_int, hge, decide_false,
    Bool.false_eq_true, ↓reduceIte, Number.forCount_int, Int.toNat_natCast, hd]
  rcases elements_run bs (pak.body.getD []) hm hlen with
    ⟨m', rfl, hs, h⟩ | ⟨done, b, rest, p, rfl, rfl, hp, hlt, h⟩
  · left
    refine ⟨m', rfl, hs, ?_⟩
    simp only [h, subFromNum, Number.toInteger_int, hrest]
  · right
    refine ⟨done, b, rest, p, rfl, rfl, hp, hlt, ?_⟩
    simp only [h, subFromNum, Number.toInteger_int, hrest]

/-- An array waits until its elements could be there, seven bytes each. -/
theorem multiBulk_wait {data : Data} {pak : Left} {pre m : Bytes} {n : Nat} (hd : data.metaStr = pre ++ m)
    (hlen : (pre ++ m).length < addressable) (hn : n ≤ addressable) (hshort : m.length < 7 * n) :
    multiBulk data pak (some (.int n)) (pre.length + 1 : Nat) ((pre ++ m).length + 1 : Nat) =
      ⟨{ data with metaStr := m }, .ok false⟩ := by
  have hl : (pre ++ m).length = pre.length + m.length := List.length_append
  have hw1 : wrap ((n : Int) * 7) = (7 * n : Nat) := wrap_pos (by omega) (by omega)
  have hw2 : wrap (((pre.length + 1 : Nat) : Int) + (7 * n : Nat)) = (pre.length + 1 + 7 * n : Nat) :=
    wrap_pos (by omega) (by omega)
  have hrest : subFrom (pre ++ m) (pre.length + 1 : Nat) = m := by rw [subFrom_at _ _ (by omega)]; simp
  simp only [multiBulk, Number.mul_int, Number.add_int, hw1, hw2, Number.lt_int, hd, hrest]
  rw [if_pos (by simp only [decide_eq_true_eq]; omega)]

/-! ## Calls on a reply whose head is read

A bulk reply or an array is *open* when its flag and its head are read and `m` is what is buffered of it: in the buffer
before `m`, or in `left`. Both ways the call ends in the branch of its flag. -/

/-- `left` of a bulk reply. -/
def bulkLeft (b : Option Bytes) : Left := ⟨some fDollar, some (.num (.int (bulkNext b - 1))), none⟩

/-- `left` of an array of `n` elements. -/
def arrayLeft (n : Nat) (body : Option (List Bytes)) : Left := ⟨some fStar, some (.num (.int n)), body⟩

/-- A bulk reply is open. -/
def OpenBulk (b : Option Bytes) (data : Data) (m : Bytes) : Prop :=
  ∃ pre, data.metaStr = pre ++ m ∧ respParser data =
    bulk ⟨pre ++ m, some (bulkLeft b), none⟩ (some (.int (bulkNext b - 1)))
    (pre.length + 1 : Nat) ((pre ++ m).length + 1 : Nat)

/-- An array is open. -/
def OpenArray (n : Nat) (body : Option (List Bytes)) (data : Data) (m : Bytes) : Prop :=
  ∃ pre, data.metaStr = pre ++ m ∧ respParser data =
    multiBulk ⟨pre ++ m, some (arrayLeft n body), none⟩ (arrayLeft n body) (some (.int n)) (pre.length + 1 : Nat)
      ((pre ++ m).length + 1 : Nat)

theorem openBulk_fresh {b : Option Bytes} (hb : bulkNext b ≤ addressable) (m : Bytes) :
    OpenBulk b ⟨fDollar ++ dec (bulkSize b) ++ crlf ++ m, none, none⟩ m := by
  refine ⟨fDollar ++ dec (bulkSize b) ++ crlf, rfl, (respParser_fresh 36 (plain_dec (bulkSize b)) m).trans ?_⟩
  rw [show some [(36 : UInt8)] = some fDollar from rfl, afterHead_dollar, Head.tonumber, tonumber_bulkSize hb]
  rfl

theorem openBulk_resume (b : Option Bytes) {m : Bytes} (hm : m ≠ []) : OpenBulk b ⟨m, some (bulkLeft b), none⟩ m :=
  ⟨[], rfl, (respParser_resume hm fDollar _ none).trans (afterHead_dollar _ _ _ _ _ _)⟩

theorem openArray_fresh {n : Nat} (hn : n ≤ addressable) (m : Bytes) :
    OpenArray n none ⟨fStar ++ dec n ++ crlf ++ m, none, none⟩ m := by
  have ha : addressable = 2 ^ 57 := rfl
  have hnum : tonumber (dec n) = some (.int n) :=
    tonumber_dec_nil (Fits.of_small (b := 2 ^ 57) (by omega) (by omega) (by omega))
  refine ⟨fStar ++ dec n ++ crlf, rfl, (respParser_fresh 42 (plain_dec n) m).trans ?_⟩
  rw [show some [(42 : UInt8)] = some fStar from rfl, afterHead_star, Head.tonumber, hnum]
  rfl

theorem openArray_resume (n : Nat) (body : Option (List Bytes)) {m : Bytes} (hm : m ≠ []) :
    OpenArray n body ⟨m, some (arrayLeft n body), none⟩ m :=
  ⟨[], rfl, (respParser_resume hm fStar _ body).trans (afterHead_star _ _ _ _ _ _)⟩

/-- **An open bulk reply**: its text is given with the byte after it. -/
theorem OpenBulk.call {b : Option Bytes} {data : Data} {m : Bytes} (h : OpenBulk b data m)
    (hlen : data.metaStr.length < addressable) (hb : bulkNext b ≤ addressable) :
    respParser data = if m.length < bulkNext b + 1 then ⟨⟨m, some (bulkLeft b), none⟩, .ok false⟩
      else ⟨⟨m.drop (bulkNext b + 1), none, some ⟨true, .str (m.take (bulkNext b))⟩⟩, .ok true⟩ := by
  obtain ⟨pre, hd, h⟩ := h
  rw [h, bulk_at rfl (by rwa [← hd]) hb]

/-- **An open array waits** until its elements could be there, seven bytes each. -/
theorem OpenArray.wait {n : Nat} {body : Option (List Bytes)} {data : Data} {m : Bytes} (h : OpenArray n body data m)
    (hlen : data.metaStr.length < addressable) (hn : n ≤ addressable) (hshort : m.length < 7 * n) :
    respParser data = ⟨⟨m, some (arrayLeft n body), none⟩, .ok false⟩ := by
  obtain ⟨pre, hd, h⟩ := h
  rw [h, multiBulk_wait rfl (by rwa [← hd]) hn hshort]

/-- **An open array** without null, of which the elements from `m` on are to be read: all of them are in `m`, or the
call stops before the first that is not. -/
theorem OpenArray.call {body : Option (List Bytes)} {data : Data} {d s m : Bytes} {bs : List Bytes}
    (h : OpenArray bs.length body data m) (hm : m ++ d = encodeList bs ++ s)
    (hlen : (data.metaStr ++ d).length < addressable) (hfull : 7 * bs.length ≤ m.length) :
    (∃ m', m = encodeList bs ++ m' ∧ m' ++ d = s ∧
      respParser data = ⟨⟨m', none, some ⟨true, .list ((body.getD [] ++ bs).map some)⟩⟩, .ok true⟩) ∨
    (∃ done b rest p, bs = done ++ b :: rest ∧ m = encodeList done ++ p ∧ p ++ d = encodeList (b :: rest) ++ s ∧
      p.length < (encodeBulk (some b)).length ∧
      respParser data = ⟨⟨p, some (arrayLeft bs.length (some (body.getD [] ++ done))), none⟩, .ok false⟩) := by
  obtain ⟨pre, hd, h⟩ := h
  rw [h]
  exact multiBulk_run bs rfl hm (by rwa [← List.append_assoc, ← hd]) hfull

end XCore.Redis
