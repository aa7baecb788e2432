import XCore.Lua.Pack
import XCore.Net.Convert

/-!
# Generated writers and readers

The primitives are taken to be exact inverses of each other (`Prims.Exact`). A `Tuple` is a well-typed tuple of values
for a list of fields; `enc` is what a writer of every field would write for it, `written` what the generated writer does
write: for a structure that is not in an array it calls a reader.

- `read_enc`: the generated reader reads a tuple from its encoding, and no more;
- `read_length`: a reader that returns a tuple has consumed as many bytes as its encoding has;
- `write_written`, `write_enc`: the generated writer writes `written`, and returns when the structures that are not in
  arrays have no content.

So a tuple is read back exactly when the structures that are not in arrays have no content and no array is too long
(`round_trips_iff`).
-/

namespace XCore.Net

open XCore.Lua

/-! ## Primitives -/

/-- The cursor after `n` more bytes. -/
def ReadData.skip (d : ReadData) (n : Nat) : ReadData := { d with Pos := d.Pos + n }

/-- The bytes at the cursor. -/
def ReadData.Carries (d : ReadData) (s : Bytes) : Prop := 1 ≤ d.Pos ∧ s <+: d.Data.drop (d.Pos - 1)

/-- Reading and writing primitives, with the values that they are for. -/
structure Prims (B O : Type) extends Reads B, Writes B O where
  Valid : Prim → Bool → B → Prop

/-- The primitives are inverses of each other. -/
structure Prims.Exact {B : Type} (P : Prims B UInt8) : Prop where
  /-- A value is written as some bytes, and read from these bytes. -/
  read_write {prim isarray b} (h : P.Valid prim isarray b) : ∃ s, P.write prim (some (.base b)) = .ok s ∧ s ≠ [] ∧
    ∀ d : ReadData, d.Carries s → P.read prim isarray d = .ok (some b, d.skip s.length)
  /-- The bytes that a value is read from are those written for it. -/
  write_read {prim isarray b d d'} (hpos : 1 ≤ d.Pos) (h : P.read prim isarray d = .ok (some b, d')) :
    P.Valid prim isarray b ∧ ∃ s, P.write prim (some (.base b)) = .ok s ∧ d.Carries s ∧ d' = d.skip s.length
  /-- The values of `Uint16`. -/
  uint16 {b} : P.Valid .Uint16 false b ↔ ∃ n < 65536, b = P.count n
  /-- `for i=1,n`. -/
  rounds_count (n : Nat) : P.rounds (P.count n) = .ok n

/-- What is written for a value. -/
def Writes.bytes {B O : Type} (W : Writes B O) (prim : Prim) (b : B) : List O :=
  match W.write prim (some (.base b)) with
  | .ok s => s
  | .error _ => []

/-- Something is written for every value. -/
structure Prims.Writable {B O : Type} (P : Prims B O) : Prop where
  write {prim isarray b} (h : P.Valid prim isarray b) : ∃ s, P.write prim (some (.base b)) = .ok s ∧ s ≠ []
  count {n : Nat} (hn : n < 65536) : P.Valid .Uint16 false (P.count n)

/-- And the value is read from it. -/
structure Prims.Readable {B : Type} (P : Prims B UInt8) : Prop extends Prims.Writable P where
  read {prim isarray b} (h : P.Valid prim isarray b) {d : ReadData} (hd : d.Carries (P.bytes prim b)) :
    P.read prim isarray d = .ok (some b, d.skip (P.bytes prim b).length)
  rounds (n : Nat) : P.rounds (P.count n) = .ok n

namespace ReadData

@[simp] theorem skip_zero (d : ReadData) : d.skip 0 = d := rfl

@[simp] theorem skip_skip (d : ReadData) (m n : Nat) : (d.skip m).skip n = d.skip (m + n) := by
  simp [skip, Nat.add_assoc]

/-- Two byte strings, one after the other. -/
theorem carries_append {d : ReadData} {s t : Bytes} :
    d.Carries (s ++ t) ↔ d.Carries s ∧ (d.skip s.length).Carries t := by
  have hdrop (hpos : 1 ≤ d.Pos) : d.Data.drop (d.Pos + s.length - 1) = (d.Data.drop (d.Pos - 1)).drop s.length := by
    rw [List.drop_drop]
    congr 1
    omega
  constructor
  · rintro ⟨hpos, u, hu⟩
    refine ⟨⟨hpos, t ++ u, by rw [← List.append_assoc, hu]⟩, by simp only [skip]; omega, ?_⟩
    rw [skip, hdrop hpos, ← hu, List.append_assoc, List.drop_left]
    exact List.prefix_append t u
  · rintro ⟨⟨hpos, u, hu⟩, _, v, hv⟩
    rw [skip, hdrop hpos, ← hu, List.drop_left] at hv
    exact ⟨hpos, v, by rw [List.append_assoc, hv, hu]⟩

end ReadData

namespace Prims.Writable

variable {B O : Type} {P : Prims B O} (hP : P.Writable) {prim : Prim} {isarray : Bool} {b : B}
include hP

theorem write_eq (h : P.Valid prim isarray b) : P.write prim (some (.base b)) = .ok (P.bytes prim b) := by
  obtain ⟨s, hs, -⟩ := hP.write h
  rw [Writes.bytes, hs]

theorem bytes_ne_nil (h : P.Valid prim isarray b) : P.bytes prim b ≠ [] := by
  obtain ⟨s, hs, hne⟩ := hP.write h
  rwa [Writes.bytes, hs]

end Prims.Writable

theorem Prims.Readable.read_eq {B : Type} {P : Prims B UInt8} (hP : P.Readable) {prim : Prim} {isarray : Bool} {b : B}
    (h : P.Valid prim isarray b) {d : ReadData} (hd : d.Carries (P.bytes prim b)) :
    P.ReadX prim isarray (some d) = .ok (some b, some (d.skip (P.bytes prim b).length)) := by
  rw [Reads.ReadX, hP.read h hd]
  rfl

namespace Prims.Exact

variable {B : Type} {P : Prims B UInt8} (hP : P.Exact) {prim : Prim} {isarray : Bool} {b : B}
include hP

/-- Exact primitives read what they write. -/
theorem readable : P.Readable where
  write h := by
    obtain ⟨s, hs, hne, -⟩ := hP.read_write h
    exact ⟨s, hs, hne⟩
  count hn := hP.uint16.2 ⟨_, hn, rfl⟩
  read h d hd := by
    obtain ⟨s, hs, -, hread⟩ := hP.read_write h
    rw [Writes.bytes, hs] at hd ⊢
    exact hread d hd
  rounds := hP.rounds_count

/-- What has been read when a primitive returns a value. -/
theorem read_some {d : ReadData} {d' : Option ReadData} (hpos : 1 ≤ d.Pos)
    (h : P.ReadX prim isarray (some d) = .ok (some b, d')) :
    P.Valid prim isarray b ∧ d' = some (d.skip (P.bytes prim b).length) := by
  rw [Reads.ReadX] at h
  match hread : P.read prim isarray d with
  | .error e => rw [hread] at h; cases h
  | .ok (v, d₁) =>
    rw [hread] at h
    cases h
    obtain ⟨hvalid, s, hs, -, rfl⟩ := hP.write_read hpos hread
    exact ⟨hvalid, by rw [Writes.bytes, hs]⟩

end Prims.Exact

/-! ## Typed values -/

section Typed

variable {B O : Type} (P : Prims B O) (Γ : NetType)

mutual

/-- A tuple of values, one for each field. -/
inductive Tuple : List Arg → Type
  | nil : Tuple []
  | cons {a : Arg} {args : List Arg} (v : Value a) (vs : Tuple args) : Tuple (a :: args)

/-- A value of a field. -/
inductive Value : Arg → Type
  /-- A scalar or an array of a base type. -/
  | base {a : Arg} (prim : Prim) (hprim : TYPE_EXPORT_LUA a.argtype = some prim) (b : B)
    (hb : P.Valid prim a.argnum.isSome b) : Value a
  /-- A structure. -/
  | struct {a : Arg} {args : List Arg} (hprim : TYPE_EXPORT_LUA a.argtype = none) (hnum : a.argnum = none)
    (hargs : Γ.types.lookup a.argtype = some args) (v : Tuple args) : Value a
  /-- An array of structures. -/
  | list {a : Arg} {args : List Arg} {m : Nat} (hprim : TYPE_EXPORT_LUA a.argtype = none) (hnum : a.argnum = some m)
    (hargs : Γ.types.lookup a.argtype = some args) (vs : Elems args) : Value a

/-- The elements of an array of structures. -/
inductive Elems : List Arg → Type
  | nil {args : List Arg} : Elems args
  | cons {args : List Arg} (v : Tuple args) (vs : Elems args) : Elems args

end

variable {P Γ}

/-- The number of elements. -/
def Elems.length {args : List Arg} : Elems P Γ args → Nat
  | .nil => 0
  | .cons _ vs => vs.length + 1

mutual

/-- The table of a tuple: its keys are the names of the fields, or their numbers from `k` on. -/
def Tuple.table (showname : Bool) : {args : List Arg} → Tuple P Γ args → Nat → Table B
  | _, .nil, _ => []
  | a :: _, .cons v vs, k => (idxname showname k a, v.val) :: vs.table showname (k + 1)

/-- The Lua value of a value. -/
def Value.val : {a : Arg} → Value P Γ a → Val B
  | _, .base _ _ b _ => .base b
  | _, .struct _ _ _ v => .table (v.table true 1)
  | _, .list _ _ _ vs => .table (vs.table 1)

/-- The table of an array. -/
def Elems.table : {args : List Arg} → Elems P Γ args → Nat → Table B
  | _, .nil, _ => []
  | _, .cons v vs, i => (.pos i, .table (v.table true 1)) :: vs.table (i + 1)

end

mutual

/-- The nesting of calls for the fields of a tuple. -/
def Tuple.depth : {args : List Arg} → Tuple P Γ args → Nat
  | _, .nil => 0
  | _, .cons v vs => max v.depth vs.depth

def Value.depth : {a : Arg} → Value P Γ a → Nat
  | _, .base .. => 0
  | _, .struct _ _ _ v => v.depth + 1
  | _, .list _ _ _ vs => vs.depth + 1

def Elems.depth : {args : List Arg} → Elems P Γ args → Nat
  | _, .nil => 0
  | _, .cons v vs => max v.depth vs.depth

end

mutual

/-- The encoding of a tuple: its fields one after the other, an array with its length before it. -/
def Tuple.enc : {args : List Arg} → Tuple P Γ args → List O
  | _, .nil => []
  | _, .cons v vs => v.enc ++ vs.enc

def Value.enc : {a : Arg} → Value P Γ a → List O
  | _, .base prim _ b _ => P.bytes prim b
  | _, .struct _ _ _ v => v.enc
  | _, .list _ _ _ vs => P.bytes .Uint16 (P.count vs.length) ++ vs.enc

def Elems.enc : {args : List Arg} → Elems P Γ args → List O
  | _, .nil => []
  | _, .cons v vs => v.enc ++ vs.enc

end

mutual

/-- What the generated writer writes: nothing for a structure that is not in an array. -/
def Tuple.written : {args : List Arg} → Tuple P Γ args → List O
  | _, .nil => []
  | _, .cons v vs => v.written ++ vs.written

def Value.written : {a : Arg} → Value P Γ a → List O
  | _, .base prim _ b _ => P.bytes prim b
  | _, .struct .. => []
  | _, .list _ _ _ vs => P.bytes .Uint16 (P.count vs.length) ++ vs.written

def Elems.written : {args : List Arg} → Elems P Γ args → List O
  | _, .nil => []
  | _, .cons v vs => v.written ++ vs.written

end

mutual

/-- The lengths of the arrays of structures are `uint16`s. -/
def Tuple.Counted : {args : List Arg} → Tuple P Γ args → Prop
  | _, .nil => True
  | _, .cons v vs => v.Counted ∧ vs.Counted

def Value.Counted : {a : Arg} → Value P Γ a → Prop
  | _, .base .. => True
  | _, .struct _ _ _ v => v.Counted
  | _, .list _ _ _ vs => vs.length < 65536 ∧ vs.Counted

def Elems.Counted : {args : List Arg} → Elems P Γ args → Prop
  | _, .nil => True
  | _, .cons v vs => v.Counted ∧ vs.Counted

end

mutual

/-- There is no value of a base type and no array in a tuple. -/
def Tuple.Empty : {args : List Arg} → Tuple P Γ args → Prop
  | _, .nil => True
  | _, .cons v vs => v.Empty ∧ vs.Empty

def Value.Empty : {a : Arg} → Value P Γ a → Prop
  | _, .base .. => False
  | _, .struct _ _ _ v => v.Empty
  | _, .list .. => False

end

mutual

/-- The structures that are not in arrays are empty, in the tuple and in the elements of its arrays. -/
def Tuple.StructsEmpty : {args : List Arg} → Tuple P Γ args → Prop
  | _, .nil => True
  | _, .cons v vs => v.StructsEmpty ∧ vs.StructsEmpty

def Value.StructsEmpty : {a : Arg} → Value P Γ a → Prop
  | _, .base .. => True
  | _, .struct _ _ _ v => v.Empty
  | _, .list _ _ _ vs => vs.StructsEmpty

def Elems.StructsEmpty : {args : List Arg} → Elems P Γ args → Prop
  | _, .nil => True
  | _, .cons v vs => v.StructsEmpty ∧ vs.StructsEmpty

end

end Typed

/-! ## Keys -/

/-- The keys of the fields from number `k` on. -/
def keys (showname : Bool) : Nat → List Arg → List Key
  | _, [] => []
  | k, a :: args => idxname showname k a :: keys showname (k + 1) args

theorem mem_keys_true {args : List Arg} {k : Nat} {key : Key} (h : key ∈ keys true k args) :
    ∃ a ∈ args, key = .name a.argname := by
  induction args generalizing k with
  | nil => exact absurd h List.not_mem_nil
  | cons a args ih =>
    rcases List.mem_cons.1 h with rfl | h
    · exact ⟨a, List.mem_cons_self, rfl⟩
    · obtain ⟨a', ha', rfl⟩ := ih h
      exact ⟨a', List.mem_cons_of_mem a ha', rfl⟩

theorem mem_keys_false {args : List Arg} {k : Nat} {key : Key} (h : key ∈ keys false k args) :
    ∃ j ≥ k, key = .pos j := by
  induction args generalizing k with
  | nil => exact absurd h List.not_mem_nil
  | cons a args ih =>
    rcases List.mem_cons.1 h with rfl | h
    · exact ⟨k, Nat.le_refl k, rfl⟩
    · obtain ⟨j, hj, rfl⟩ := ih h
      exact ⟨j, Nat.le_of_succ_le hj, rfl⟩

/-- The fields of a tuple have different numbers. -/
theorem keys_false_nodup (args : List Arg) (k : Nat) : (keys false k args).Nodup := by
  induction args generalizing k with
  | nil => exact List.nodup_nil
  | cons a args ih =>
    refine List.nodup_cons.2 ⟨fun h => ?_, ih (k + 1)⟩
    obtain ⟨j, hj, he⟩ := mem_keys_false h
    cases he
    omega

/-- The fields of a structure have different names. -/
theorem keys_true_nodup {args : List Arg} (h : (args.map Arg.argname).Nodup) (k : Nat) : (keys true k args).Nodup := by
  induction args generalizing k with
  | nil => exact List.nodup_nil
  | cons a args ih =>
    rw [List.map_cons, List.nodup_cons] at h
    refine List.nodup_cons.2 ⟨fun hmem => ?_, ih h.2 (k + 1)⟩
    obtain ⟨a', ha', he⟩ := mem_keys_true hmem
    injection he with he
    exact h.1 (he ▸ List.mem_map_of_mem ha')

theorem keys_lookup {Γ : NetType} {argtype : String} {args : List Arg} (h : Γ.types.lookup argtype = some args) :
    (keys true 1 args).Nodup :=
  keys_true_nodup (Γ.nodup _ (AList.mem_lookup_iff.1 h)) 1

/-- The entries of an array before number `i + 1`. -/
theorem fresh_append {B : Type} {tmp : Table B} {i : Nat} {v : Val B} (h : ∀ e ∈ tmp, ∀ j ≥ i, e.1 ≠ .pos j) :
    ∀ e ∈ tmp ++ [(Key.pos i, v)], ∀ j ≥ i + 1, e.1 ≠ .pos j := by
  intro e he j hj
  rcases List.mem_append.1 he with he | he
  · exact h e he j (by omega)
  · rw [List.mem_singleton.1 he]
    intro hij
    cases hij
    omega

section Typed

variable {B O : Type} {P : Prims B O} {Γ : NetType}

@[simp] theorem Tuple.map_fst_table : ∀ {args : List Arg} (v : Tuple P Γ args) (showname : Bool) (k : Nat),
    (v.table showname k).map Prod.fst = keys showname k args
  | _, .nil, _, _ => rfl
  | _, .cons v vs, showname, k => by
    rw [Tuple.table, List.map_cons, Tuple.map_fst_table vs, keys]

/-! ## Reading -/

/-- A table without entries has none of the keys. -/
theorem not_key_nil (ks : List Key) : ∀ e ∈ ([] : Table B), e.1 ∉ ks := fun _ he => absurd he List.not_mem_nil

theorem not_pos_nil (i : Nat) : ∀ e ∈ ([] : Table B), ∀ j ≥ i, e.1 ≠ .pos j := fun _ he => absurd he List.not_mem_nil

section Read

variable {P : Prims B UInt8} {net : List (String × Compiled)}

theorem callReader_succ (R : Reads B) (hnet : Export Γ = some net) {argtype : String} {args : List Arg}
    (hargs : Γ.types.lookup argtype = some args) (depth : Nat) (d : Option ReadData) :
    callReader R (readersOf net) (depth + 1) argtype d =
      readCode R (callReader R (readersOf net) depth) (readStmts true 1 args) [] d := by
  rw [callReader, readersOf, Export_lookup hnet hargs]
  rfl

set_option linter.unusedSectionVars false

section Enc

variable (hP : P.Readable) (hnet : Export Γ = some net)
include hP hnet

mutual

/-- The generated reader reads a tuple from its encoding. -/
theorem Tuple.read_enc : ∀ {args : List Arg} (v : Tuple P Γ args), v.Counted → ∀ {showname : Bool} {k depth : Nat}
    {data : Table B} {d : ReadData}, (keys showname k args).Nodup → (∀ e ∈ data, e.1 ∉ keys showname k args) →
    v.depth ≤ depth → d.Carries v.enc →
    readCode P.toReads (callReader P.toReads (readersOf net) depth) (readStmts showname k args) data (some d) =
      .ok (data ++ v.table showname k, some (d.skip v.enc.length))
  | _, .nil, _, _, _, _, data, d, _, _, _, _ => by
    simp [readStmts, readCode, Tuple.table, Tuple.enc]
  | a :: args, .cons v vs, hc, showname, k, depth, data, d, hnd, hfresh, hdepth, hd => by
    obtain ⟨hv, hvs⟩ := hc
    rw [keys, List.nodup_cons] at hnd
    rw [Tuple.depth] at hdepth
    rw [Tuple.enc, ReadData.carries_append] at hd
    have hidx : ∀ e ∈ data, e.1 ≠ idxname showname k a := fun e he heq => hfresh e he (heq ▸ List.mem_cons_self)
    have hrest : ∀ e ∈ data ++ [(idxname showname k a, v.val)], e.1 ∉ keys showname (k + 1) args := by
      intro e he
      rcases List.mem_append.1 he with he | he
      · exact fun hmem => hfresh e he (List.mem_cons_of_mem _ hmem)
      · rw [List.mem_singleton.1 he]
        exact hnd.1
    rw [readStmts, readCode, Value.read_enc v hv hidx (by omega) hd.1]
    simp only [bind, Except.bind]
    rw [Tuple.read_enc vs hvs hnd.2 hrest (by omega) hd.2, Tuple.table, Tuple.enc]
    simp

/-- A piece of the reader reads the value of its field. -/
theorem Value.read_enc : ∀ {a : Arg} (v : Value P Γ a), v.Counted → ∀ {idx : Key} {depth : Nat} {data : Table B}
    {d : ReadData}, (∀ e ∈ data, e.1 ≠ idx) → v.depth ≤ depth → d.Carries v.enc →
    readStmt P.toReads (callReader P.toReads (readersOf net) depth) (readField idx a) data (some d) =
      .ok (data ++ [(idx, v.val)], some (d.skip v.enc.length))
  | a, .base prim hprim b hb, _, idx, depth, data, d, hfresh, _, hd => by
    rw [readField, hprim]
    simp only [readStmt]
    rw [hP.read_eq hb hd]
    simp only [bind, Except.bind, Option.map_some]
    rw [setKey_new hfresh]
    rfl
  | a, .struct hprim hnum hargs v, hc, idx, depth + 1, data, d, hfresh, hdepth, hd => by
    have hread := Tuple.read_enc v hc (keys_lookup hargs) (not_key_nil _) (Nat.le_of_succ_le_succ hdepth) hd
    rw [readField, hprim, hnum]
    simp only [readStmt]
    rw [callReader_succ _ hnet hargs, hread]
    simp only [bind, Except.bind]
    rw [setKey_new hfresh]
    rfl
  | a, .list hprim hnum hargs vs, hc, idx, depth, data, d, hfresh, hdepth, hd => by
    obtain ⟨hn, hc⟩ := hc
    obtain ⟨hcount, hd⟩ := ReadData.carries_append.1 hd
    rw [readField, hprim, hnum]
    simp only [readStmt]
    rw [hP.read_eq (hP.count hn) hcount]
    simp only [bind, Except.bind, Reads.limit, hP.rounds]
    rw [Elems.read_enc hargs vs hc (by simp) hdepth hd]
    simp only [List.nil_append, ReadData.skip_skip]
    rw [setKey_new hfresh, Value.val, Value.enc, List.length_append]

/-- The loop of the reader reads the elements of an array. -/
theorem Elems.read_enc {argtype : String} : ∀ {args : List Arg}, Γ.types.lookup argtype = some args →
    ∀ vs : Elems P Γ args, vs.Counted → ∀ {i depth : Nat} {tmp : Table B} {d : ReadData},
    (∀ e ∈ tmp, ∀ j ≥ i, e.1 ≠ .pos j) → vs.depth + 1 ≤ depth → d.Carries vs.enc →
    readElems (callReader P.toReads (readersOf net) depth argtype) vs.length i tmp (some d) =
      .ok (tmp ++ vs.table i, some (d.skip vs.enc.length))
  | _, _, .nil, _, _, _, tmp, d, _, _, _ => by
    simp [Elems.length, readElems, Elems.table, Elems.enc]
  | args, hargs, .cons v vs, hc, i, depth + 1, tmp, d, hfresh, hdepth, hd => by
    obtain ⟨hv, hvs⟩ := hc
    rw [Elems.depth] at hdepth
    obtain ⟨hdv, hdvs⟩ := ReadData.carries_append.1 hd
    have hread := Tuple.read_enc v hv (keys_lookup hargs) (not_key_nil _) (by omega : v.depth ≤ depth) hdv
    rw [Elems.length, readElems, callReader_succ _ hnet hargs, hread]
    simp only [bind, Except.bind, List.nil_append]
    rw [setKey_new fun e he => hfresh e he i (Nat.le_refl i),
      Elems.read_enc hargs vs hvs (fresh_append hfresh) (by omega) hdvs, Elems.table, Elems.enc]
    simp

end

end Enc

/-! ## What has been read -/

/-- A piece of a reader sets the key of its field. -/
theorem readStmt_setKey {R : Reads B} {call : String → Option ReadData → Except LuaError (Table B × Option ReadData)}
    {idx : Key} {a : Arg} {data t : Table B} {d d' : Option ReadData}
    (h : readStmt R call (readField idx a) data d = .ok (t, d')) : ∃ v, t = setKey data idx v := by
  rw [readField] at h
  split at h
  · obtain ⟨⟨v, d₁⟩, -, h⟩ := bind_eq_ok.1 h
    cases h
    exact ⟨_, rfl⟩
  · obtain ⟨⟨tmpsize, d₁⟩, -, h⟩ := bind_eq_ok.1 h
    obtain ⟨n, -, h⟩ := bind_eq_ok.1 h
    obtain ⟨⟨tmp, d₂⟩, -, h⟩ := bind_eq_ok.1 h
    cases h
    exact ⟨_, rfl⟩
  · obtain ⟨⟨v, d₁⟩, -, h⟩ := bind_eq_ok.1 h
    cases h
    exact ⟨_, rfl⟩

/-- A reader leaves the other keys alone. -/
theorem readCode_frame {R : Reads B} {call : String → Option ReadData → Except LuaError (Table B × Option ReadData)}
    {showname : Bool} {args : List Arg} {k : Nat} {data t : Table B} {d d' : Option ReadData}
    (h : readCode R call (readStmts showname k args) data d = .ok (t, d')) {key : Key}
    (hkey : key ∉ keys showname k args) :
    getKey t key = getKey data key := by
  induction args generalizing k data d with
  | nil =>
    cases h
    rfl
  | cons a args ih =>
    rw [keys, List.mem_cons, not_or] at hkey
    obtain ⟨⟨data₁, d₁⟩, hstmt, h⟩ := bind_eq_ok.1 h
    obtain ⟨v, rfl⟩ := readStmt_setKey hstmt
    rw [ih h hkey.2, getKey_setKey_ne (Ne.symm hkey.1)]

/-- The loop of a reader appends as many elements as it has rounds. -/
theorem readElems_append {reader : Option ReadData → Except LuaError (Table B × Option ReadData)} {n i : Nat}
    {tmp t : Table B} {d d' : Option ReadData} (h : readElems reader n i tmp d = .ok (t, d'))
    (hfresh : ∀ e ∈ tmp, ∀ j ≥ i, e.1 ≠ .pos j) : ∃ l, t = tmp ++ l ∧ l.length = n := by
  induction n generalizing i tmp d with
  | zero =>
    cases h
    exact ⟨[], by simp, rfl⟩
  | succ n ih =>
    obtain ⟨⟨v, d₁⟩, -, h⟩ := bind_eq_ok.1 h
    simp only [setKey_new fun e he => hfresh e he i (Nat.le_refl i)] at h
    obtain ⟨l, rfl, rfl⟩ := ih h (fresh_append hfresh)
    exact ⟨(.pos i, .table v) :: l, by simp, rfl⟩

variable (hP : P.Exact) (hnet : Export Γ = some net)
include hP hnet

mutual

/-- A reader that returns a tuple has read as many bytes as its encoding has. -/
theorem Tuple.read_length : ∀ {args : List Arg} (v : Tuple P Γ args) {showname : Bool} {k depth : Nat}
    {data t : Table B} {d : ReadData} {d' : Option ReadData}, (keys showname k args).Nodup → 1 ≤ d.Pos →
    readCode P.toReads (callReader P.toReads (readersOf net) depth) (readStmts showname k args) data (some d) =
    .ok (t, d') → (∀ e ∈ v.table showname k, getKey t e.1 = some e.2) → v.Counted ∧ d' = some (d.skip v.enc.length)
  | _, .nil, _, _, _, _, _, d, d', _, _, h, _ => by
    cases h
    exact ⟨trivial, rfl⟩
  | a :: args, .cons v vs, showname, k, depth, data, t, d, d', hnd, hpos, h, ht => by
    rw [keys, List.nodup_cons] at hnd
    rw [Tuple.table, List.forall_mem_cons] at ht
    obtain ⟨⟨data₁, d₁⟩, hstmt, h⟩ := bind_eq_ok.1 h
    have hkey : getKey data₁ (idxname showname k a) = some v.val := (readCode_frame h hnd.1).symm.trans ht.1
    obtain ⟨hv, rfl⟩ := Value.read_length v hpos hstmt hkey
    obtain ⟨hvs, rfl⟩ := Tuple.read_length vs hnd.2 (Nat.le_add_right_of_le hpos) h ht.2
    exact ⟨⟨hv, hvs⟩, by rw [Tuple.enc, List.length_append, ReadData.skip_skip]⟩

/-- A piece of a reader that sets a value has read as many bytes as its encoding has. -/
theorem Value.read_length : ∀ {a : Arg} (v : Value P Γ a) {idx : Key} {depth : Nat} {data t : Table B} {d : ReadData}
    {d' : Option ReadData}, 1 ≤ d.Pos →
    readStmt P.toReads (callReader P.toReads (readersOf net) depth) (readField idx a) data (some d) = .ok (t, d') →
    getKey t idx = some v.val → v.Counted ∧ d' = some (d.skip v.enc.length)
  | a, .base prim hprim b hb, idx, depth, data, t, d, d', hpos, h, ht => by
    rw [readField, hprim] at h
    obtain ⟨⟨v, d₁⟩, hread, h⟩ := bind_eq_ok.1 h
    cases h
    rw [getKey_setKey] at ht
    cases v with
    | none => cases ht
    | some b' =>
      cases ht
      exact ⟨trivial, (hP.read_some hpos hread).2⟩
  | a, .struct hprim hnum hargs v, idx, 0, data, t, d, d', hpos, h, ht => by
    rw [readField, hprim, hnum] at h
    cases h
  | a, .struct hprim hnum hargs v, idx, depth + 1, data, t, d, d', hpos, h, ht => by
    rw [readField, hprim, hnum] at h
    obtain ⟨⟨v', d₁⟩, hread, h⟩ := bind_eq_ok.1 h
    cases h
    rw [getKey_setKey] at ht
    cases ht
    rw [callReader_succ _ hnet hargs] at hread
    refine Tuple.read_length v (keys_lookup hargs) hpos hread fun e he => getKey_of_mem ?_ he
    rw [Tuple.map_fst_table]
    exact keys_lookup hargs
  | a, .list hprim hnum hargs vs, idx, depth, data, t, d, d', hpos, h, ht => by
    rw [readField, hprim, hnum] at h
    obtain ⟨⟨tmpsize, d₁⟩, hsize, h⟩ := bind_eq_ok.1 h
    obtain ⟨n, hn, h⟩ := bind_eq_ok.1 h
    obtain ⟨⟨tmp, d₂⟩, helems, h⟩ := bind_eq_ok.1 h
    cases h
    rw [getKey_setKey] at ht
    cases tmpsize with
    | none => cases hn
    | some b =>
      obtain ⟨hvalid, rfl⟩ := hP.read_some hpos hsize
      obtain ⟨m, hm, rfl⟩ := hP.uint16.1 hvalid
      rw [Reads.limit, hP.rounds_count] at hn
      cases hn
      injection ht with ht
      injection ht with ht
      subst ht
      obtain ⟨rfl, hc, rfl⟩ := Elems.read_length hargs vs (not_pos_nil 1) (Nat.le_add_right_of_le hpos) helems
      exact ⟨⟨hm, hc⟩, by rw [Value.enc, List.length_append, ReadData.skip_skip]⟩

/-- A loop that makes an array has read as many bytes as the elements have. -/
theorem Elems.read_length {argtype : String} : ∀ {args : List Arg}, Γ.types.lookup argtype = some args →
    ∀ (vs : Elems P Γ args) {n i depth : Nat} {tmp : Table B} {d : ReadData} {d' : Option ReadData},
    (∀ e ∈ tmp, ∀ j ≥ i, e.1 ≠ .pos j) → 1 ≤ d.Pos →
    readElems (callReader P.toReads (readersOf net) depth argtype) n i tmp (some d) = .ok (tmp ++ vs.table i, d') →
    vs.length = n ∧ vs.Counted ∧ d' = some (d.skip vs.enc.length)
  | _, _, .nil, n, i, depth, tmp, d, d', hfresh, hpos, h => by
    obtain ⟨l, hl, rfl⟩ := readElems_append h hfresh
    obtain rfl : [] = l := List.append_cancel_left hl
    injection h with h
    injection h with _ h
    subst h
    exact ⟨rfl, trivial, rfl⟩
  | _, _, .cons v vs, 0, i, depth, tmp, d, d', hfresh, hpos, h => by
    obtain ⟨l, hl, hlen⟩ := readElems_append h hfresh
    obtain rfl := List.append_cancel_left hl
    cases hlen
  | _, _, .cons v vs, n + 1, i, 0, tmp, d, d', hfresh, hpos, h => by
    cases h
  | args, hargs, .cons v vs, n + 1, i, depth + 1, tmp, d, d', hfresh, hpos, h => by
    obtain ⟨⟨v', d₁⟩, hread, h⟩ := bind_eq_ok.1 h
    simp only [setKey_new fun e he => hfresh e he i (Nat.le_refl i)] at h
    obtain ⟨l, hl, -⟩ := readElems_append h (fresh_append hfresh)
    rw [List.append_assoc, List.append_cancel_left_eq] at hl
    injection hl with hl₁ hl₂
    injection hl₁ with _ hl₁
    injection hl₁ with hl₁
    subst hl₁
    rw [callReader_succ _ hnet hargs] at hread
    obtain ⟨hv, rfl⟩ := Tuple.read_length v (keys_lookup hargs) hpos hread fun e he => getKey_of_mem
      (by rw [Tuple.map_fst_table]; exact keys_lookup hargs) he
    rw [Elems.table, List.append_cons tmp _ (vs.table (i + 1))] at h
    obtain ⟨rfl, hvs, rfl⟩ := Elems.read_length hargs vs (fresh_append hfresh) (Nat.le_add_right_of_le hpos) h
    exact ⟨rfl, ⟨hv, hvs⟩, by rw [Elems.enc, List.length_append, ReadData.skip_skip]⟩

end

end Read

/-! ## Content -/

section Content

set_option linter.unusedSectionVars false

variable (hP : P.Writable)
include hP

mutual

/-- A tuple without bytes has no content. -/
theorem Tuple.empty_of_enc : ∀ {args : List Arg} (v : Tuple P Γ args), v.Counted → v.enc = [] → v.Empty
  | _, .nil, _, _ => trivial
  | _, .cons v vs, hc, h => by
    rw [Tuple.enc, List.append_eq_nil_iff] at h
    exact ⟨Value.empty_of_enc v hc.1 h.1, Tuple.empty_of_enc vs hc.2 h.2⟩

theorem Value.empty_of_enc : ∀ {a : Arg} (v : Value P Γ a), v.Counted → v.enc = [] → v.Empty
  | _, .base _ _ _ hb, _, h => absurd h (hP.bytes_ne_nil hb)
  | _, .struct _ _ _ v, hc, h => Tuple.empty_of_enc v hc h
  | _, .list _ _ _ vs, hc, h => by
    rw [Value.enc, List.append_eq_nil_iff] at h
    exact absurd h.1 (hP.bytes_ne_nil (hP.count hc.1))

end

omit hP in
mutual

/-- A tuple without content has no bytes. -/
theorem Tuple.enc_of_empty : ∀ {args : List Arg} (v : Tuple P Γ args), v.Empty → v.enc = []
  | _, .nil, _ => rfl
  | _, .cons v vs, h => by rw [Tuple.enc, Value.enc_of_empty v h.1, Tuple.enc_of_empty vs h.2, List.append_nil]

theorem Value.enc_of_empty : ∀ {a : Arg} (v : Value P Γ a), v.Empty → v.enc = []
  | _, .base .., h => h.elim
  | _, .struct _ _ _ v, h => Tuple.enc_of_empty v h
  | _, .list .., h => h.elim

end

omit hP in
mutual

/-- The generated writer writes no more than the encoding. -/
theorem Tuple.written_le : ∀ {args : List Arg} (v : Tuple P Γ args), v.written.length ≤ v.enc.length
  | _, .nil => Nat.le_refl 0
  | _, .cons v vs => by
    have hv := Value.written_le v
    have hvs := Tuple.written_le vs
    simp only [Tuple.written, Tuple.enc, List.length_append]
    omega

theorem Value.written_le : ∀ {a : Arg} (v : Value P Γ a), v.written.length ≤ v.enc.length
  | _, .base .. => Nat.le_refl _
  | _, .struct .. => Nat.zero_le _
  | _, .list _ _ _ vs => by
    have hvs := Elems.written_le vs
    simp only [Value.written, Value.enc, List.length_append]
    omega

theorem Elems.written_le : ∀ {args : List Arg} (vs : Elems P Γ args), vs.written.length ≤ vs.enc.length
  | _, .nil => Nat.le_refl 0
  | _, .cons v vs => by
    have hv := Tuple.written_le v
    have hvs := Elems.written_le vs
    simp only [Elems.written, Elems.enc, List.length_append]
    omega

end

mutual

/-- Where the writer writes as many bytes as the encoding has, it has left no content out. -/
theorem Tuple.structsEmpty : ∀ {args : List Arg} (v : Tuple P Γ args), v.Counted →
    v.enc.length ≤ v.written.length → v.StructsEmpty
  | _, .nil, _, _ => trivial
  | _, .cons v vs, hc, h => by
    have hv := Value.written_le v
    have hvs := Tuple.written_le vs
    simp only [Tuple.written, Tuple.enc, List.length_append] at h
    exact ⟨Value.structsEmpty v hc.1 (by omega), Tuple.structsEmpty vs hc.2 (by omega)⟩

theorem Value.structsEmpty : ∀ {a : Arg} (v : Value P Γ a), v.Counted →
    v.enc.length ≤ v.written.length → v.StructsEmpty
  | _, .base .., _, _ => trivial
  | _, .struct _ _ _ v, hc, h => Tuple.empty_of_enc hP v hc (List.length_eq_zero_iff.1 (Nat.le_zero.1 h))
  | _, .list _ _ _ vs, hc, h => by
    simp only [Value.written, Value.enc, List.length_append] at h
    exact Elems.structsEmpty vs hc.2 (by omega)

theorem Elems.structsEmpty : ∀ {args : List Arg} (vs : Elems P Γ args), vs.Counted →
    vs.enc.length ≤ vs.written.length → vs.StructsEmpty
  | _, .nil, _, _ => trivial
  | _, .cons v vs, hc, h => by
    have hv := Tuple.written_le v
    have hvs := Elems.written_le vs
    simp only [Elems.written, Elems.enc, List.length_append] at h
    exact ⟨Tuple.structsEmpty v hc.1 (by omega), Elems.structsEmpty vs hc.2 (by omega)⟩

end

end Content

/-! ## Writing -/

/-- A table holds a tuple for the fields from number `k` on. -/
def Tuple.Holds : {args : List Arg} → Tuple P Γ args → Table B → Nat → Prop
  | _, .nil, _, _ => True
  | a :: _, .cons v vs, data, k => argument data k a.argname = some v.val ∧ vs.Holds data (k + 1)

/-- Setting a field leaves the later fields alone. -/
theorem Tuple.Holds.setKey {args : List Arg} {v : Tuple P Γ args} {data : Table B} {j : Nat} {x : Option (Val B)} :
    ∀ {k : Nat}, j < k → v.Holds data k → v.Holds (setKey data (.pos j) x) k := by
  induction args with
  | nil =>
    intro k _ _
    cases v
    exact trivial
  | cons a args ih =>
    intro k hjk hv
    cases v with
    | cons v vs =>
      refine ⟨?_, ih (Nat.lt_succ_of_lt hjk) hv.2⟩
      rw [argument, getKey_setKey_ne (by simp; omega), getKey_setKey_ne (by simp)]
      exact hv.1

theorem Tuple.holds_of_getKey {args : List Arg} {v : Tuple P Γ args} {showname : Bool} {data : Table B}
    (hpos : showname = true → ∀ j, getKey data (.pos j) = none) :
    ∀ {k : Nat}, (∀ e ∈ v.table showname k, getKey data e.1 = some e.2) → v.Holds data k := by
  induction args with
  | nil =>
    intro k _
    cases v
    exact trivial
  | cons a args ih =>
    intro k h
    cases v with
    | cons v vs =>
      rw [Tuple.table, List.forall_mem_cons] at h
      refine ⟨?_, ih h.2⟩
      have hkey := h.1
      rw [argument]
      cases showname with
      | true => rw [hpos rfl, Option.none_or]; exact hkey
      | false => rw [show getKey data (.pos k) = some v.val from hkey, Option.some_or]

/-- The table of a tuple holds the tuple. -/
theorem Tuple.holds_table {args : List Arg} (v : Tuple P Γ args) {showname : Bool} (h : (keys showname 1 args).Nodup) :
    v.Holds (v.table showname 1) 1 := by
  rw [← v.map_fst_table showname 1] at h
  refine Tuple.holds_of_getKey (fun hs j => getKey_eq_none fun e he hej => ?_) fun e he => getKey_of_mem h he
  subst hs
  have hmem : e.1 ∈ (v.table true 1).map Prod.fst := List.mem_map_of_mem he
  rw [Tuple.map_fst_table, hej] at hmem
  obtain ⟨a, -, ha⟩ := mem_keys_true hmem
  cases ha

theorem Elems.length_table : ∀ {args : List Arg} (vs : Elems P Γ args) (i : Nat), (vs.table i).length = vs.length
  | _, .nil, _ => rfl
  | _, .cons _ vs, i => by rw [Elems.table, List.length_cons, Elems.length_table vs, Elems.length]

theorem Elems.entriesFrom_table : ∀ {args : List Arg} (vs : Elems P Γ args) {i : Nat} {pre : Table B},
    (∀ e ∈ pre, ∀ j ≥ i, e.1 ≠ .pos j) → entriesFrom (pre ++ vs.table i) i vs.length = (vs.table i).map Prod.snd
  | _, .nil, _, _, _ => rfl
  | _, .cons v vs, i, pre, hpre => by
    have hkey : getKey (pre ++ (Elems.cons v vs).table i) (.pos i) = some (.table (v.table true 1)) := by
      rw [getKey_append_of_notMem fun e he => hpre e he i (Nat.le_refl i), Elems.table, getKey_cons, if_pos rfl]
    rw [Elems.length, entriesFrom, hkey]
    simp only
    rw [Elems.table, List.append_cons, Elems.entriesFrom_table vs (fresh_append hpre), List.map_cons]

/-- The values that the loop of a writer runs over. -/
theorem Elems.ipairs_table {args : List Arg} (vs : Elems P Γ args) :
    ipairs (vs.table 1) = (vs.table 1).map Prod.snd := by
  have h := vs.entriesFrom_table (not_pos_nil 1)
  rwa [List.nil_append, ← vs.length_table 1] at h

section Write

variable {net : List (String × Compiled)}

/-- The writers of the types, with the depth that the stack allows. -/
abbrev Prims.writer (P : Prims B O) (net : List (String × Compiled)) (depth : Nat) :
    String → Val B → World O → Except LuaError (World O) :=
  callWriter P.toReads P.toWrites (readersOf net) (writersOf net) depth

/-- The readers of the types, with the depth that the stack allows. -/
abbrev Prims.reader (P : Prims B O) (net : List (String × Compiled)) (depth : Nat) :
    String → Option ReadData → Except LuaError (Table B × Option ReadData) :=
  callReader P.toReads (readersOf net) depth

theorem callWriter_succ (hnet : Export Γ = some net) {argtype : String} {args : List Arg}
    (hargs : Γ.types.lookup argtype = some args) (depth : Nat) (t : Table B) (w : World O) :
    P.writer net (depth + 1) argtype (.table t) w =
      (do let (_, w) ← writeCode P.toWrites (P.reader net depth) (P.writer net depth) (writeStmts 1 args) t w;
          .ok w) := by
  have hwriter : writersOf net argtype = some (writeStmts 1 args) := by
    rw [writersOf, Export_lookup hnet hargs]
    rfl
  simp only [Prims.writer, callWriter, hwriter]

/-- The pieces of a writer set at most the number of their field. -/
theorem writeStmt_setKey {callR : String → Option ReadData → Except LuaError (Table B × Option ReadData)}
    {callW : String → Val B → World O → Except LuaError (World O)} {k : Nat} {a : Arg} {data data' : Table B}
    {w w' : World O}
    (h : writeStmt P.toWrites callR callW (writeField k a) data w = .ok (data', w')) :
    data' = data ∨ ∃ x, data' = setKey data (.pos k) x := by
  rw [writeField] at h
  split at h
  · obtain ⟨s, -, h⟩ := bind_eq_ok.1 h
    cases h
    exact Or.inl rfl
  · rw [writeStmt] at h
    split at h
    · cases h
    · cases h
    · obtain ⟨s, -, h⟩ := bind_eq_ok.1 h
      obtain ⟨w₁, -, h⟩ := bind_eq_ok.1 h
      cases h
      exact Or.inl rfl
  · obtain ⟨⟨v, d⟩, -, h⟩ := bind_eq_ok.1 h
    cases h
    exact Or.inr ⟨_, rfl⟩

/-- Later fields are held after a piece of a writer. -/
theorem Tuple.Holds.writeStmt {callR : String → Option ReadData → Except LuaError (Table B × Option ReadData)}
    {callW : String → Val B → World O → Except LuaError (World O)} {k : Nat} {a : Arg} {data data' : Table B}
    {w w' : World O}
    {args : List Arg} {v : Tuple P Γ args} (hv : v.Holds data (k + 1))
    (h : writeStmt P.toWrites callR callW (writeField k a) data w = .ok (data', w')) : v.Holds data' (k + 1) := by
  rcases writeStmt_setKey h with rfl | ⟨x, rfl⟩
  · exact hv
  · exact hv.setKey (Nat.lt_succ_self k)

theorem bytes_of_write {prim : Prim} {b : B} {s : List O} (h : P.write prim (some (.base b)) = .ok s) :
    P.bytes prim b = s := by
  rw [Writes.bytes, h]

set_option linter.unusedSectionVars false

section Written

variable (hnet : Export Γ = some net)
include hnet

mutual

/-- A generated writer that returns has written `written`. -/
theorem Tuple.write_written :
    ∀ {args : List Arg} (v : Tuple P Γ args) {k depth : Nat} {data data' : Table B} {w w' : World O}, v.Holds data k →
    writeCode P.toWrites (P.reader net depth) (P.writer net depth) (writeStmts k args) data w = .ok (data', w') →
    w'.out = w.out ++ v.written
  | _, .nil, k, depth, data, data', w, w', _, h => by
    cases h
    rw [Tuple.written, List.append_nil]
  | a :: args, .cons v vs, k, depth, data, data', w, w', hv, h => by
    obtain ⟨⟨data₁, w₁⟩, hstmt, h⟩ := bind_eq_ok.1 h
    have hout := Value.write_written v hv.1 hstmt
    have hrest := Tuple.write_written vs (hv.2.writeStmt hstmt) h
    rw [hrest, hout, Tuple.written, List.append_assoc]

/-- So does a piece of a writer. -/
theorem Value.write_written : ∀ {a : Arg} (v : Value P Γ a) {k depth : Nat} {data data' : Table B} {w w' : World O},
    argument data k a.argname = some v.val →
    writeStmt P.toWrites (P.reader net depth) (P.writer net depth) (writeField k a) data w = .ok (data', w') →
    w'.out = w.out ++ v.written
  | a, .base prim hprim b hb, k, depth, data, data', w, w', harg, h => by
    rw [writeField, hprim] at h
    obtain ⟨s, hs, h⟩ := bind_eq_ok.1 h
    cases h
    rw [harg] at hs
    rw [Value.written, bytes_of_write hs]
  | a, .struct hprim hnum hargs v, k, depth, data, data', w, w', harg, h => by
    rw [writeField, hprim, hnum] at h
    obtain ⟨⟨t, d⟩, -, h⟩ := bind_eq_ok.1 h
    cases h
    rw [Value.written, List.append_nil]
  | a, .list hprim hnum hargs vs, k, depth, data, data', w, w', harg, h => by
    rw [writeField, hprim, hnum] at h
    simp only [writeStmt, harg, Value.val] at h
    obtain ⟨s, hs, h⟩ := bind_eq_ok.1 h
    obtain ⟨w₁, helems, h⟩ := bind_eq_ok.1 h
    cases h
    rw [vs.ipairs_table, List.length_map, vs.length_table] at hs
    rw [vs.ipairs_table] at helems
    rw [Elems.write_written hargs vs helems, Value.written, bytes_of_write hs, List.append_assoc]

/-- So does the loop over an array. -/
theorem Elems.write_written {argtype : String} : ∀ {args : List Arg}, Γ.types.lookup argtype = some args →
    ∀ (vs : Elems P Γ args) {i depth : Nat} {w w' : World O},
    writeElems (P.writer net depth argtype) ((vs.table i).map Prod.snd) w = .ok w' → w'.out = w.out ++ vs.written
  | _, _, .nil, i, depth, w, w', h => by
    cases h
    rw [Elems.written, List.append_nil]
  | _, _, .cons v vs, i, 0, w, w', h => by
    cases h
  | args, hargs, .cons v vs, i, depth + 1, w, w', h => by
    rw [Elems.table, List.map_cons] at h
    obtain ⟨w₁, hwriter, h⟩ := bind_eq_ok.1 h
    rw [callWriter_succ hnet hargs] at hwriter
    obtain ⟨⟨data, w₂⟩, hcode, hw₂⟩ := bind_eq_ok.1 hwriter
    cases hw₂
    have hout := Tuple.write_written v (v.holds_table (keys_lookup hargs)) hcode
    rw [Elems.write_written hargs vs h, hout, Elems.written, List.append_assoc]

end

end Written

section Enc

variable (hP : P.Writable) (hnet : Export Γ = some net)
include hP hnet

omit hP in
mutual

/-- A reader of a tuple without content reads nothing. -/
theorem Tuple.read_empty : ∀ {args : List Arg} (v : Tuple P Γ args),
    v.Empty → ∀ (showname : Bool) (k : Nat) {depth : Nat} (data : Table B) (d : Option ReadData), v.depth ≤ depth →
    ∃ t, readCode P.toReads (P.reader net depth) (readStmts showname k args) data d = .ok (t, d)
  | _, .nil, _, _, _, _, data, _, _ => ⟨data, rfl⟩
  | a :: args, .cons v vs, h, showname, k, depth, data, d, hdepth => by
    rw [Tuple.depth] at hdepth
    obtain ⟨data₁, hstmt⟩ := Value.read_empty v h.1 (idxname showname k a) data d (by omega : v.depth ≤ depth)
    obtain ⟨t, ht⟩ := Tuple.read_empty vs h.2 showname (k + 1) data₁ d (by omega : vs.depth ≤ depth)
    exact ⟨t, bind_eq_ok.2 ⟨_, hstmt, ht⟩⟩

theorem Value.read_empty : ∀ {a : Arg} (v : Value P Γ a), v.Empty → ∀ (idx : Key) {depth : Nat} (data : Table B)
    (d : Option ReadData), v.depth ≤ depth →
    ∃ t, readStmt P.toReads (P.reader net depth) (readField idx a) data d = .ok (t, d)
  | _, .base .., h, _, _, _, _, _ => h.elim
  | _, .list .., h, _, _, _, _, _ => h.elim
  | a, .struct hprim hnum hargs v, h, idx, depth + 1, data, d, hdepth => by
    obtain ⟨t, ht⟩ := Tuple.read_empty v h true 1 [] d (Nat.le_of_succ_le_succ hdepth)
    rw [readField, hprim, hnum]
    exact ⟨_, bind_eq_ok.2 ⟨(t, d), by rw [Prims.reader, callReader_succ _ hnet hargs]; exact ht, rfl⟩⟩

end

mutual

/-- The generated writer writes the encoding of a tuple whose structures have no content. -/
theorem Tuple.write_enc : ∀ {args : List Arg} (v : Tuple P Γ args), v.Counted → v.StructsEmpty →
    ∀ {k depth : Nat} {data : Table B} {w : World O}, v.depth ≤ depth → v.Holds data k →
    ∃ data', writeCode P.toWrites (P.reader net depth) (P.writer net depth) (writeStmts k args) data w =
      .ok (data', { w with out := w.out ++ v.enc })
  | _, .nil, _, _, k, depth, data, w, _, _ => ⟨data, by rw [Tuple.enc, List.append_nil]; rfl⟩
  | a :: args, .cons v vs, hc, hs, k, depth, data, w, hdepth, hv => by
    rw [Tuple.depth] at hdepth
    obtain ⟨data₁, hstmt⟩ := Value.write_enc v hc.1 hs.1 (w := w) (by omega : v.depth ≤ depth) hv.1
    obtain ⟨data₂, hcode⟩ := Tuple.write_enc vs hc.2 hs.2 (w := { w with out := w.out ++ v.enc })
      (by omega : vs.depth ≤ depth) (hv.2.writeStmt hstmt)
    rw [List.append_assoc] at hcode
    exact ⟨data₂, bind_eq_ok.2 ⟨_, hstmt, hcode⟩⟩

theorem Value.write_enc : ∀ {a : Arg} (v : Value P Γ a), v.Counted → v.StructsEmpty →
    ∀ {k depth : Nat} {data : Table B} {w : World O}, v.depth ≤ depth → argument data k a.argname = some v.val →
    ∃ data', writeStmt P.toWrites (P.reader net depth) (P.writer net depth) (writeField k a) data w =
      .ok (data', { w with out := w.out ++ v.enc })
  | a, .base prim hprim b hb, _, _, k, depth, data, w, _, harg => by
    rw [writeField, hprim]
    exact ⟨data, bind_eq_ok.2 ⟨_, by rw [harg]; exact hP.write_eq hb, rfl⟩⟩
  | a, .struct hprim hnum hargs v, _, hs, k, depth, data, w, hdepth, _ => by
    obtain ⟨depth, rfl⟩ : ∃ n, depth = n + 1 := ⟨depth - 1, by rw [Value.depth] at hdepth; omega⟩
    obtain ⟨t, ht⟩ := Tuple.read_empty hnet v hs true 1 [] w.read (Nat.le_of_succ_le_succ hdepth)
    rw [writeField, hprim, hnum, Value.enc, v.enc_of_empty hs, List.append_nil]
    exact ⟨_, bind_eq_ok.2 ⟨(t, w.read), by rw [Prims.reader, callReader_succ _ hnet hargs]; exact ht, rfl⟩⟩
  | a, .list hprim hnum hargs vs, hc, hs, k, depth, data, w, hdepth, harg => by
    have hcount := hP.write_eq (hP.count hc.1)
    obtain hcode := Elems.write_enc hargs vs hc.2 hs (i := 1)
      (w := { w with out := w.out ++ P.bytes .Uint16 (P.count vs.length) }) hdepth
    rw [List.append_assoc] at hcode
    rw [writeField, hprim, hnum]
    simp only [writeStmt, harg, Value.val]
    rw [vs.ipairs_table, List.length_map, vs.length_table]
    exact ⟨data, bind_eq_ok.2 ⟨_, hcount, bind_eq_ok.2 ⟨_, hcode, rfl⟩⟩⟩

theorem Elems.write_enc {argtype : String} : ∀ {args : List Arg}, Γ.types.lookup argtype = some args →
    ∀ (vs : Elems P Γ args), vs.Counted → vs.StructsEmpty → ∀ {i depth : Nat} {w : World O}, vs.depth + 1 ≤ depth →
    writeElems (P.writer net depth argtype) ((vs.table i).map Prod.snd) w = .ok { w with out := w.out ++ vs.enc }
  | _, _, .nil, _, _, i, depth, w, _ => by rw [Elems.enc, List.append_nil]; rfl
  | args, hargs, .cons v vs, hc, hs, i, depth + 1, w, hdepth => by
    rw [Elems.depth] at hdepth
    obtain ⟨data, hcode⟩ := Tuple.write_enc v hc.1 hs.1 (w := w) (by omega : v.depth ≤ depth)
      (v.holds_table (keys_lookup hargs))
    have hrest := Elems.write_enc hargs vs hc.2 hs.2 (i := i + 1) (w := { w with out := w.out ++ v.enc })
      (by omega : vs.depth + 1 ≤ depth + 1)
    rw [List.append_assoc] at hrest
    rw [Elems.table, List.map_cons]
    refine bind_eq_ok.2 ⟨_, ?_, hrest⟩
    rw [callWriter_succ hnet hargs]
    exact bind_eq_ok.2 ⟨_, hcode, rfl⟩

end

end Enc

end Write

/-! ## Round trips -/

/-- With enough stack, what the generated writer writes for a tuple, whatever `net.ReadData` is, the generated reader
reads back to its last byte as the same tuple. -/
def Tuple.RoundTrips {P : Prims B UInt8} {args : List Arg} (v : Tuple P Γ args) (d : Option ReadData) : Prop :=
  ∃ net reader writer, Export Γ = some net ∧ ConvertReader args false = some reader ∧ ConvertWriter args = some writer ∧
    ∃ n, ∀ depth ≥ n, ∃ data w,
      writeCode P.toWrites (P.reader net depth) (P.writer net depth) writer (v.table false 1) ⟨d, []⟩ = .ok (data, w) ∧
      readCode P.toReads (P.reader net depth) reader [] (some (ReadBegin w.out)) =
        .ok (v.table false 1, some ((ReadBegin w.out).skip w.out.length))

section RoundTrips

variable {P : Prims B UInt8} (hP : P.Exact) {args : List Arg} {v : Tuple P Γ args} {d : Option ReadData}
include hP

/-- A tuple that is read back has nothing that the writer leaves out. -/
theorem Tuple.RoundTrips.clean (h : v.RoundTrips d) : v.Counted ∧ v.StructsEmpty := by
  obtain ⟨net, reader, writer, hnet, hreader, hwriter, n, h⟩ := h
  obtain ⟨data, w, hwrite, hread⟩ := h n (Nat.le_refl n)
  rw [ConvertReader_eq] at hreader
  split at hreader
  · rename_i hargs
    rw [ConvertWriter_eq hargs] at hwriter
    cases hreader
    cases hwriter
    have hnd := keys_false_nodup args 1
    have hout := v.write_written hnet (v.holds_table hnd) hwrite
    obtain ⟨hc, hpos⟩ := v.read_length hP hnet hnd (Nat.le_refl 1) hread fun e he =>
      getKey_of_mem (by rw [Tuple.map_fst_table]; exact hnd) he
    -- as many bytes have been read as were written, so none are missing
    have hlen : w.out.length = v.enc.length := by
      injection hpos with hpos
      injection hpos with _ hpos
      exact Nat.add_left_cancel hpos
    refine ⟨hc, v.structsEmpty hP.readable.toWritable hc ?_⟩
    rw [← hlen, hout, List.nil_append]
  · cases hreader

/-- A tuple of which the writer leaves nothing out is read back. -/
theorem Tuple.roundTrips_of_clean (hΓ : ∀ e ∈ Γ.types.entries, structArrays e.2 ≤ 97) (hargs : structArrays args ≤ 97)
    (hc : v.Counted) (hs : v.StructsEmpty) : v.RoundTrips d := by
  obtain ⟨net, hnet⟩ := (Export_isSome Γ).2 hΓ
  refine ⟨net, _, _, hnet,
    by rw [ConvertReader_eq, if_pos hargs], ConvertWriter_eq hargs, v.depth, fun depth hdepth => ?_⟩
  have hnd := keys_false_nodup args 1
  obtain ⟨data, hwrite⟩ := v.write_enc hP.readable.toWritable hnet hc hs (w := ⟨d, []⟩) hdepth (v.holds_table hnd)
  have hcarries : (ReadBegin v.enc).Carries v.enc := ⟨Nat.le_refl 1, by simp [ReadBegin]⟩
  have hread := v.read_enc hP.readable hnet hc hnd (not_key_nil _) hdepth hcarries
  exact ⟨data, _, hwrite, by simpa using hread⟩

/-- **What is written is read back** exactly when all code is loaded, no array has more than 65535 structures, and no
structure outside of an array has content. -/
theorem round_trips_iff (v : Tuple P Γ args) (d : Option ReadData) : v.RoundTrips d ↔
    (∀ e ∈ Γ.types.entries, structArrays e.2 ≤ 97) ∧ structArrays args ≤ 97 ∧ v.Counted ∧ v.StructsEmpty := by
  constructor
  · intro h
    obtain ⟨hc, hs⟩ := h.clean hP
    obtain ⟨net, reader, writer, hnet, hreader, -⟩ := h
    refine ⟨(Export_isSome Γ).1 ⟨net, hnet⟩, ?_, hc, hs⟩
    rw [ConvertReader_eq] at hreader
    split at hreader
    · assumption
    · cases hreader
  · rintro ⟨hΓ, hargs, hc, hs⟩
    exact Tuple.roundTrips_of_clean hP hΓ hargs hc hs

end RoundTrips

end Typed

/-! ## Unsigned scalars -/

/-- The size of an unsigned base type. -/
def uintSize : Prim → Option Nat
  | .Uint8 => some 1
  | .Uint16 => some 2
  | .Uint32 => some 4
  | .Uint64 => some 8
  | _ => none

/-- The primitives of the unsigned scalars, without the other base types. -/
def uints : Prims Nat UInt8 where
  read prim isarray d :=
    match uintSize prim, isarray with
    | some size, false =>
      if d.Pos + size > d.Data.length + 1 then .ok (none, d)
      else (unpackU size d.Data d.Pos).map fun r => (some r.1, { d with Pos := r.2.toNat })
    | _, _ => .ok (none, d)
  rounds n := .ok n
  write prim v :=
    match uintSize prim, v with
    | some size, some (.base n) => packU size n
    | _, _ => .error .badArgument
  count n := n
  Valid prim isarray n := ∃ size, uintSize prim = some size ∧ isarray = false ∧ n < 256 ^ size

theorem uintSize_pos {prim : Prim} {size : Nat} (h : uintSize prim = some size) : 0 < size := by
  cases prim <;> simp only [uintSize, Option.some.injEq, reduceCtorEq] at h <;> omega

/-- An unsigned scalar is read where there is room for it. -/
theorem uints_read {prim : Prim} {size p : Nat} {s : Bytes} (h : uintSize prim = some size) (hp : p + size ≤ s.length) :
    uints.read prim false ⟨s, p + 1⟩ = .ok (some (leNat ((s.drop p).take size)), ⟨s, p + 1 + size⟩) := by
  have hlen : ¬p + 1 + size > s.length + 1 := by omega
  simp only [uints, h, if_neg hlen, Int.natCast_add, Int.natCast_one, unpackU_eq hp, Except.map]
  congr 3
  omega

/-- They are inverses of each other. -/
theorem uints_exact : uints.Exact where
  read_write := by
    rintro prim _ b ⟨size, hsize, rfl, hb⟩
    refine ⟨leBytes size b, by simp only [uints, hsize, packU, if_pos hb], ?_, ?_⟩
    · intro h
      have hlen := length_leBytes size b
      rw [h] at hlen
      exact absurd hlen.symm (uintSize_pos hsize).ne'
    · rintro ⟨s, pos⟩ ⟨hpos, t, ht⟩
      obtain ⟨p, rfl⟩ : ∃ p, pos = p + 1 := ⟨pos - 1, by simp only at hpos; omega⟩
      simp only [Nat.add_sub_cancel] at ht
      have hlen := congrArg List.length ht
      simp only [List.length_append, length_leBytes, List.length_drop] at hlen
      have htake : (s.drop p).take size = leBytes size b := by rw [← ht, List.take_left' (length_leBytes size b)]
      have hsize' := uintSize_pos hsize
      rw [uints_read hsize (by omega), htake, leNat_leBytes, Nat.mod_eq_of_lt hb, ReadData.skip, length_leBytes]
  write_read := by
    rintro prim isarray b ⟨s, pos⟩ d' hpos h
    obtain ⟨p, rfl⟩ : ∃ p, pos = p + 1 := ⟨pos - 1, by simp only at hpos; omega⟩
    cases hsize : uintSize prim with
    | none => simp [uints, hsize] at h
    | some size =>
      cases isarray with
      | true => simp [uints, hsize] at h
      | false =>
        by_cases hlen : p + size ≤ s.length
        · have htake : ((s.drop p).take size).length = size := by simp; omega
          rw [uints_read hsize hlen] at h
          cases h
          have hlt := leNat_lt ((s.drop p).take size)
          have hback := leBytes_leNat ((s.drop p).take size)
          rw [htake] at hlt hback
          refine ⟨⟨size, hsize, rfl, hlt⟩, (s.drop p).take size, ?_, ⟨hpos, List.take_prefix _ _⟩, by
            rw [ReadData.skip, htake]⟩
          simp only [uints, hsize, packU, if_pos hlt, hback]
        · have hlen : p + 1 + size > s.length + 1 := by omega
          simp [uints, hsize, if_pos hlen] at h
  uint16 := by
    intro b
    constructor
    · rintro ⟨size, hsize, -, hb⟩
      cases hsize
      exact ⟨b, hb, rfl⟩
    · rintro ⟨n, hn, rfl⟩
      exact ⟨2, rfl, rfl, hn⟩
  rounds_count _ := rfl

/-- A type `p` with one field. -/
def pointTypes : NetType where
  types := ⟨[⟨"p", [⟨"x", "uint8", none⟩]⟩], by simp [List.NodupKeys, List.keys]⟩
  nodup := by simp

/-- A value of `p`. -/
def point (n : Nat) (h : n < 256) : Tuple uints pointTypes [⟨"x", "uint8", none⟩] :=
  .cons (.base .Uint8 rfl n ⟨1, rfl, rfl, h⟩) .nil

/-- A number and an array of two structures. -/
def sample : Tuple uints pointTypes [⟨"n", "uint16", none⟩, ⟨"ps", "p", some 2⟩] :=
  .cons (.base .Uint16 rfl 300 ⟨2, rfl, rfl, by decide⟩)
    (.cons (.list rfl rfl rfl (.cons (point 1 (by decide)) (.cons (point 2 (by decide)) .nil))) .nil)

theorem round_trips_sample : sample.RoundTrips none := by
  refine (round_trips_iff uints_exact sample none).2 ⟨?_, by decide, ?_, ?_⟩
  · simp [pointTypes, structArrays, TYPE_EXPORT_LUA]
  · simp [sample, point, Tuple.Counted, Value.Counted, Elems.Counted, Elems.length]
  · simp [sample, point, Tuple.StructsEmpty, Value.StructsEmpty, Elems.StructsEmpty]

/-- A structure that is not in an array is lost. -/
theorem not_round_trips_point :
    ¬(∀ (args : List Arg) (v : Tuple uints pointTypes args) (d : Option ReadData), v.RoundTrips d) := by
  intro h
  have hclean := (h [⟨"p", "p", none⟩] (.cons (.struct rfl rfl rfl (point 1 (by decide))) .nil) none).clean uints_exact
  exact hclean.2.1.1

end XCore.Net
