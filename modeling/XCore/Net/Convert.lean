import Mathlib.Data.List.AList
import XCore.Lua.Str

/-!
# Readers and writers generated from schemas (`tolua.lua`)

`__Convert` makes the source text of a reader and a writer from a list of fields, one piece of text for each field, and
loads it. A piece of a reader is a `ReadStmt`, a piece of a writer a `WriteStmt`; the docstring of a constructor is its
text. Names are taken to stand for themselves between quotes, as identifiers do.

- `ConvertReader`, `ConvertWriter`: the generated code, unless it has too many locals to be loaded;
- `readCode`, `writeCode`: what the code does, with the primitives `net.ReadX` and `net.WriteX` as parameters;
- `callReader`, `callWriter`: calls of the readers and writers of `net.NetType`, with the depth that the Lua stack
  allows;
- `Export`: the readers and writers of all types.
-/

namespace XCore.Net

open XCore.Lua

/-! ## Schemas -/

/-- The names of `net.TYPE_EXPORT_LUA`: the base type `X` has the primitives `net.ReadX` and `net.WriteX`. -/
inductive Prim
  | String
  | Int8
  | Int16
  | Int32
  | Int64
  | Uint8
  | Uint16
  | Uint32
  | Uint64
  | Float
  | Double
  | Number
  deriving DecidableEq

/-- `net.TYPE_EXPORT_LUA`. -/
def TYPE_EXPORT_LUA : String → Option Prim
  | "string" => some .String
  | "int8" => some .Int8
  | "int16" => some .Int16
  | "int32" => some .Int32
  | "int64" => some .Int64
  | "uint8" => some .Uint8
  | "uint16" => some .Uint16
  | "uint32" => some .Uint32
  | "uint64" => some .Uint64
  | "float" => some .Float
  | "double" => some .Double
  | "number" => some .Number
  | _ => none

/-- A field: `{argname, argtype, argnum}`; it is an array if it has an `argnum`. -/
structure Arg where
  argname : String
  argtype : String
  argnum : Option Nat

/-- `net.NetType`. No two fields of a type have the same name (`ReadType`). -/
structure NetType where
  types : AList fun _ : String => List Arg
  nodup : ∀ e ∈ types.entries, (e.2.map Arg.argname).Nodup

/-- `CheckType` accepts the types: the types of their fields are known, and there is no cycle. -/
def NetType.Checked (Γ : NetType) : Prop :=
  ∃ rank : String → Nat, ∀ {name : String} {args : List Arg}, Γ.types.lookup name = some args →
    ∀ a ∈ args, TYPE_EXPORT_LUA a.argtype = none → (Γ.types.lookup a.argtype).isSome ∧ rank a.argtype < rank name

/-! ## Values -/

/-- A key of a table. -/
inductive Key
  | pos (k : Nat)
  | name (s : String)
  deriving DecidableEq

/-- A value: what a primitive reads and writes, or a table. -/
inductive Val (B : Type)
  | base (b : B)
  | table (t : List (Key × Val B))

/-- A table, with its entries in the order in which they were made. -/
abbrev Table (B : Type) := List (Key × Val B)

section Tables

variable {B : Type}

/-- `t[k]`. -/
def getKey (t : Table B) (k : Key) : Option (Val B) := t.lookup k

/-- `t[k] = v`. -/
def setKey (t : Table B) (k : Key) (v : Option (Val B)) : Table B :=
  t.filter (fun e => e.1 ≠ k) ++ (v.map fun v => (k, v)).toList

/-- `t[i], t[i+1], ..`, at most `n` of them, up to the first that is nil. -/
def entriesFrom (t : Table B) : Nat → Nat → List (Val B)
  | _, 0 => []
  | i, n + 1 =>
    match getKey t (.pos i) with
    | none => []
    | some v => v :: entriesFrom t (i + 1) n

/-- The values of `ipairs(t)`. -/
def ipairs (t : Table B) : List (Val B) := entriesFrom t 1 t.length

end Tables

/-! ## Readers -/

/-- `net.ReadData`. -/
structure ReadData where
  Data : Bytes
  Pos : Nat

/-- `net.ReadBegin`. -/
def ReadBegin (str : Bytes) : ReadData := ⟨str, 1⟩

/-- The reading primitives; `rounds b` is the number of rounds of `for i=1,b`. -/
structure Reads (B : Type) where
  read : Prim → Bool → ReadData → Except LuaError (Option B × ReadData)
  rounds : B → Except LuaError Nat

/-- A piece of a reader. -/
inductive ReadStmt
  /-- `data[idx]=net.ReadX("argname");` or `data[idx]=net.ReadX("argname", argnum);` -/
  | read (idx : Key) (prim : Prim) (isarray : Bool)
  /-- `local tmp = {};local tmpsize = net.ReadUint16("argname");for i=1,tmpsize do
  tmp[i]=net.NetType["argtype"].reader("argname"); end;data[idx] = tmp;` -/
  | readList (idx : Key) (argtype : String)
  /-- `data[idx]=net.NetType['argtype'].reader();` -/
  | readStruct (idx : Key) (argtype : String)

/-- `idxname`: the key of field number `k`. -/
def idxname (showname : Bool) (k : Nat) (a : Arg) : Key := if showname then .name a.argname else .pos k

/-- The piece of a reader for a field. -/
def readField (idx : Key) (a : Arg) : ReadStmt :=
  match TYPE_EXPORT_LUA a.argtype, a.argnum with
  | some prim, argnum => .read idx prim argnum.isSome
  | none, some _ => .readList idx a.argtype
  | none, none => .readStruct idx a.argtype

/-- The pieces of a reader of the fields from number `k` on. -/
def readStmts (showname : Bool) : Nat → List Arg → List ReadStmt
  | _, [] => []
  | k, a :: args => readField (idxname showname k a) a :: readStmts showname (k + 1) args

/-- `MAXVARS`, the number of locals that a function may have. -/
def MAXVARS : Nat := 200

/-- The most locals of a reader, when `n` are in scope: `tmp` and `tmpsize` stay, a numeric loop has four. -/
def readLocals : Nat → List ReadStmt → Nat
  | n, [] => n
  | n, .readList .. :: code => max (n + 2 + 4) (readLocals (n + 2) code)
  | n, _ :: code => readLocals n code

/-- `__Convert` of a reader, `function(argname) local data={}; .. return data; end`. -/
def ConvertReader (args : List Arg) (showname : Bool) : Option (List ReadStmt) :=
  let code := readStmts showname 1 args
  if readLocals 2 code ≤ MAXVARS then some code else none

section Read

variable {B : Type}

/-- The primitive `net.ReadX`. -/
def Reads.ReadX (R : Reads B) (prim : Prim) (isarray : Bool) :
    Option ReadData → Except LuaError (Option B × Option ReadData)
  | none => .ok (none, none)
  | some data => (R.read prim isarray data).map fun r => (r.1, some r.2)

/-- The rounds of `for i=1,tmpsize`. -/
def Reads.limit (R : Reads B) : Option B → Except LuaError Nat
  | none => .error .forLimit
  | some b => R.rounds b

/-- `for i=i,i+n-1 do tmp[i]=reader(); end`. -/
def readElems (reader : Option ReadData → Except LuaError (Table B × Option ReadData)) :
    Nat → Nat → Table B → Option ReadData → Except LuaError (Table B × Option ReadData)
  | 0, _, tmp, d => .ok (tmp, d)
  | n + 1, i, tmp, d => do
    let (v, d) ← reader d
    readElems reader n (i + 1) (setKey tmp (.pos i) (some (.table v))) d

/-- What a piece of a reader does to `data` and `net.ReadData`. -/
def readStmt (R : Reads B) (call : String → Option ReadData → Except LuaError (Table B × Option ReadData)) :
    ReadStmt → Table B → Option ReadData → Except LuaError (Table B × Option ReadData)
  | .read idx prim isarray, data, d => do
    let (v, d) ← R.ReadX prim isarray d
    .ok (setKey data idx (v.map .base), d)
  | .readList idx argtype, data, d => do
    let (tmpsize, d) ← R.ReadX .Uint16 false d
    let n ← R.limit tmpsize
    let (tmp, d) ← readElems (call argtype) n 1 [] d
    .ok (setKey data idx (some (.table tmp)), d)
  | .readStruct idx argtype, data, d => do
    let (v, d) ← call argtype d
    .ok (setKey data idx (some (.table v)), d)

/-- The body of a reader. -/
def readCode (R : Reads B) (call : String → Option ReadData → Except LuaError (Table B × Option ReadData)) :
    List ReadStmt → Table B → Option ReadData → Except LuaError (Table B × Option ReadData)
  | [], data, d => .ok (data, d)
  | s :: code, data, d => do
    let (data, d) ← readStmt R call s data d
    readCode R call code data d

/-- `net.NetType[argtype].reader()`. -/
def callReader (R : Reads B) (readers : String → Option (List ReadStmt)) :
    Nat → String → Option ReadData → Except LuaError (Table B × Option ReadData)
  | 0, _, _ => .error .stackOverflow
  | depth + 1, argtype, d =>
    match readers argtype with
    | none => .error .indexNil
    | some code => readCode R (callReader R readers depth) code [] d

end Read

/-! ## Writers -/

/-- The writing primitives: what they append to `net.WriteData` for a value, as bytes or in other units; `count n` is
the number `n`. -/
structure Writes (B O : Type) where
  write : Prim → Option (Val B) → Except LuaError (List O)
  count : Nat → B

/-- A piece of a writer. -/
inductive WriteStmt
  /-- `net.WriteX("argname", data[k] or data["argname"]);` -/
  | write (prim : Prim) (k : Nat) (argname : String)
  /-- `local tmp = data[k] or data["argname"];net.WriteUint16("argname", #tmp);for k,v in ipairs(tmp) do
  net.NetType["argtype"].writer("argname",v); end;` -/
  | writeList (k : Nat) (argname : String) (argtype : String)
  /-- `data[k]=net.NetType["argtype"].reader("argname");` -/
  | readStruct (k : Nat) (argtype : String)

/-- The piece of a writer for field number `k`; for a structure it calls a reader. -/
def writeField (k : Nat) (a : Arg) : WriteStmt :=
  match TYPE_EXPORT_LUA a.argtype, a.argnum with
  | some prim, _ => .write prim k a.argname
  | none, some _ => .writeList k a.argname a.argtype
  | none, none => .readStruct k a.argtype

/-- The pieces of a writer of the fields from number `k` on. -/
def writeStmts : Nat → List Arg → List WriteStmt
  | _, [] => []
  | k, a :: args => writeField k a :: writeStmts (k + 1) args

/-- The most locals of a writer, when `n` are in scope: `tmp` stays, a generic loop with two variables has five. -/
def writeLocals : Nat → List WriteStmt → Nat
  | n, [] => n
  | n, .writeList .. :: code => max (n + 1 + 5) (writeLocals (n + 1) code)
  | n, _ :: code => writeLocals n code

/-- `__Convert` of a writer, `function(argname, data) .. end`. -/
def ConvertWriter (args : List Arg) : Option (List WriteStmt) :=
  let code := writeStmts 1 args
  if writeLocals 2 code ≤ MAXVARS then some code else none

/-- `net.ReadData` and what has been written. -/
structure World (O : Type) where
  read : Option ReadData
  out : List O

section Write

variable {B O : Type}

/-- `data[k] or data["argname"]`. -/
def argument (data : Table B) (k : Nat) (argname : String) : Option (Val B) :=
  (getKey data (.pos k)).or (getKey data (.name argname))

/-- The loop of a writer over an array. -/
def writeElems (writer : Val B → World O → Except LuaError (World O)) :
    List (Val B) → World O → Except LuaError (World O)
  | [], w => .ok w
  | v :: vs, w => do writeElems writer vs (← writer v w)

/-- What a piece of a writer does; a value that should be a table is one. -/
def writeStmt (W : Writes B O) (callR : String → Option ReadData → Except LuaError (Table B × Option ReadData))
    (callW : String → Val B → World O → Except LuaError (World O)) :
    WriteStmt → Table B → World O → Except LuaError (Table B × World O)
  | .write prim k argname, data, w => do
    let s ← W.write prim (argument data k argname)
    .ok (data, { w with out := w.out ++ s })
  | .writeList k argname argtype, data, w =>
    match argument data k argname with
    | none => .error .lenNil
    | some (.base _) => .error .lenNumber
    | some (.table tmp) => do
      let s ← W.write .Uint16 (some (.base (W.count (ipairs tmp).length)))
      let w ← writeElems (callW argtype) (ipairs tmp) { w with out := w.out ++ s }
      .ok (data, w)
  | .readStruct k argtype, data, w => do
    let (v, d) ← callR argtype w.read
    .ok (setKey data (.pos k) (some (.table v)), { w with read := d })

/-- The body of a writer. -/
def writeCode (W : Writes B O) (callR : String → Option ReadData → Except LuaError (Table B × Option ReadData))
    (callW : String → Val B → World O → Except LuaError (World O)) :
    List WriteStmt → Table B → World O → Except LuaError (Table B × World O)
  | [], data, w => .ok (data, w)
  | s :: code, data, w => do
    let (data, w) ← writeStmt W callR callW s data w
    writeCode W callR callW code data w

/-- `net.NetType[argtype].writer(argname, v)`, of a table `v`. -/
def callWriter (R : Reads B) (W : Writes B O) (readers : String → Option (List ReadStmt))
    (writers : String → Option (List WriteStmt)) : Nat → String → Val B → World O → Except LuaError (World O)
  | 0, _, _, _ => .error .stackOverflow
  | depth + 1, argtype, v, w =>
    match writers argtype, v with
    | none, _ => .error .indexNil
    | some _, .base _ => .error .indexNumber
    | some code, .table t => do
      let (_, w) ← writeCode W (callReader R readers depth) (callWriter R W readers writers depth) code t w
      .ok w

end Write

/-! ## Export -/

/-- The entries that `Export` makes in `net.NetType[name]`. -/
structure Compiled where
  reader : List ReadStmt
  writer : List WriteStmt

/-- The reader and the writer of a type. -/
def compile (args : List Arg) : Option Compiled := do
  let reader ← ConvertReader args true
  let writer ← ConvertWriter args
  return ⟨reader, writer⟩

/-- `Export`, as far as `net.NetType` is concerned: a reader or writer that is not loaded raises. -/
def Export (types : NetType) : Option (List (String × Compiled)) :=
  types.types.entries.mapM fun e => (compile e.2).map fun c => (e.1, c)

/-- The readers of the types. -/
def readersOf (net : List (String × Compiled)) (argtype : String) : Option (List ReadStmt) :=
  (net.lookup argtype).map Compiled.reader

/-- The writers of the types. -/
def writersOf (net : List (String × Compiled)) (argtype : String) : Option (List WriteStmt) :=
  (net.lookup argtype).map Compiled.writer

/-! ## Lemmas -/

section Tables

variable {B : Type} {t : Table B} {k j : Key} {v : Option (Val B)}

theorem getKey_cons (e : Key × Val B) (t : Table B) (k : Key) :
    getKey (e :: t) k = if k = e.1 then some e.2 else getKey t k := by
  rw [getKey, getKey, List.lookup_cons]
  by_cases h : k = e.1
  · simp [h]
  · rw [if_neg h, beq_false_of_ne h]

theorem getKey_append_of_notMem {u : Table B} (h : ∀ e ∈ t, e.1 ≠ k) : getKey (t ++ u) k = getKey u k := by
  induction t with
  | nil => rfl
  | cons e t ih =>
    rw [List.cons_append, getKey_cons, if_neg (h e (by simp)).symm]
    exact ih fun e he => h e (by simp [he])

theorem getKey_eq_none (h : ∀ e ∈ t, e.1 ≠ k) : getKey t k = none := by
  have := getKey_append_of_notMem (u := []) h
  rwa [List.append_nil] at this

@[simp] theorem getKey_setKey : getKey (setKey t k v) k = v := by
  rw [setKey, getKey_append_of_notMem (by simp)]
  cases v <;> simp [getKey]

theorem getKey_setKey_ne (h : k ≠ j) : getKey (setKey t k v) j = getKey t j := by
  rw [setKey]
  induction t with
  | nil => cases v <;> simp [getKey_cons, h.symm]
  | cons e t ih =>
    by_cases he : e.1 = k
    · rw [List.filter_cons_of_neg (by simpa using he), getKey_cons, if_neg (by rw [he]; exact h.symm)]
      exact ih
    · rw [List.filter_cons_of_pos (by simpa using he), List.cons_append, getKey_cons, getKey_cons, ih]

/-- A new key comes last. -/
theorem setKey_new {v : Val B} (h : ∀ e ∈ t, e.1 ≠ k) : setKey t k (some v) = t ++ [(k, v)] := by
  have hfilter : t.filter (fun e => e.1 ≠ k) = t := List.filter_eq_self.2 fun e he => by simpa using h e he
  rw [setKey, hfilter]
  rfl

/-- The key of an entry of a table without repetitions. -/
theorem getKey_of_mem {e : Key × Val B} (hnd : (t.map Prod.fst).Nodup) (he : e ∈ t) : getKey t e.1 = some e.2 := by
  induction t with
  | nil => exact absurd he List.not_mem_nil
  | cons x t ih =>
    rw [List.map_cons, List.nodup_cons] at hnd
    rw [getKey_cons]
    rcases List.mem_cons.1 he with rfl | he
    · rw [if_pos rfl]
    · have hne : e.1 ≠ x.1 := fun hx => hnd.1 (hx ▸ List.mem_map.2 ⟨e, he, rfl⟩)
      rw [if_neg hne]
      exact ih hnd.2 he

end Tables

/-! ## What is loaded -/

/-- The number of fields that are arrays of structures. -/
def structArrays : List Arg → Nat
  | [] => 0
  | a :: args => (if TYPE_EXPORT_LUA a.argtype = none ∧ a.argnum ≠ none then 1 else 0) + structArrays args

theorem readLocals_readStmts (showname : Bool) : ∀ (args : List Arg) (k n : Nat),
    readLocals n (readStmts showname k args) = if structArrays args = 0 then n else n + 2 * structArrays args + 4
  | [], _, _ => rfl
  | a :: args, k, n => by
    have ih := readLocals_readStmts showname args (k + 1)
    rw [readStmts, readField, structArrays]
    cases hp : TYPE_EXPORT_LUA a.argtype with
    | some prim => simp [readLocals, ih]
    | none =>
      cases hn : a.argnum with
      | none => simp [readLocals, ih]
      | some m =>
        simp only [readLocals, ih]
        split <;> simp <;> omega

theorem writeLocals_writeStmts : ∀ (args : List Arg) (k n : Nat),
    writeLocals n (writeStmts k args) = if structArrays args = 0 then n else n + structArrays args + 5
  | [], _, _ => rfl
  | a :: args, k, n => by
    have ih := writeLocals_writeStmts args (k + 1)
    rw [writeStmts, writeField, structArrays]
    cases hp : TYPE_EXPORT_LUA a.argtype with
    | some prim => simp [writeLocals, ih]
    | none =>
      cases hn : a.argnum with
      | none => simp [writeLocals, ih]
      | some m =>
        simp only [writeLocals, ih]
        split <;> simp <;> omega

/-- A reader is loaded when there are at most 97 arrays of structures. -/
theorem ConvertReader_eq (args : List Arg) (showname : Bool) :
    ConvertReader args showname = if structArrays args ≤ 97 then some (readStmts showname 1 args) else none := by
  simp only [ConvertReader, readLocals_readStmts, MAXVARS]
  split <;> split <;> split <;> first | rfl | omega

/-- Then the writer is loaded as well. -/
theorem ConvertWriter_eq {args : List Arg} (h : structArrays args ≤ 97) :
    ConvertWriter args = some (writeStmts 1 args) := by
  simp only [ConvertWriter, writeLocals_writeStmts, MAXVARS]
  split <;> split <;> first | rfl | omega

theorem compile_eq (args : List Arg) : compile args =
    if structArrays args ≤ 97 then some ⟨readStmts true 1 args, writeStmts 1 args⟩ else none := by
  rw [compile, ConvertReader_eq]
  split
  · rename_i h
    rw [ConvertWriter_eq h]
    rfl
  · rfl

/-- What is made for the entries of `net.NetType`. -/
theorem compileEntries_eq (entries : List (Sigma fun _ : String => List Arg)) :
    (entries.mapM fun e => (compile e.2).map fun c => (e.1, c)) =
      if ∀ e ∈ entries, structArrays e.2 ≤ 97
      then some (entries.map fun e => (e.1, ⟨readStmts true 1 e.2, writeStmts 1 e.2⟩)) else none := by
  induction entries with
  | nil => rfl
  | cons e entries ih =>
    rw [List.mapM_cons, ih, compile_eq]
    simp only [List.forall_mem_cons]
    by_cases he : structArrays e.2 ≤ 97
    · by_cases hrest : ∀ e ∈ entries, structArrays e.2 ≤ 97
      · rw [if_pos he, if_pos hrest, if_pos ⟨he, hrest⟩]
        rfl
      · rw [if_pos he, if_neg hrest, if_neg (mt And.right hrest)]
        rfl
    · rw [if_neg he, if_neg (mt And.left he)]
      rfl

/-- The types are exported when none has more than 97 arrays of structures. -/
theorem Export_isSome (types : NetType) :
    (∃ net, Export types = some net) ↔ ∀ e ∈ types.types.entries, structArrays e.2 ≤ 97 := by
  rw [Export, compileEntries_eq]
  split <;> simp_all

/-- What is exported for a name. -/
theorem Export_lookup_eq {types : NetType} {net : List (String × Compiled)} (h : Export types = some net)
    (argtype : String) :
    net.lookup argtype = (types.types.lookup argtype).map fun args => ⟨readStmts true 1 args, writeStmts 1 args⟩ := by
  rw [Export, compileEntries_eq] at h
  split at h
  · cases h
    rw [AList.lookup]
    generalize types.types.entries = entries
    induction entries with
    | nil => rfl
    | cons e entries ih =>
      obtain ⟨s, l⟩ := e
      rw [List.map_cons, List.lookup_cons]
      by_cases hs : argtype = s
      · subst hs
        rw [List.dlookup_cons_eq]
        simp
      · rw [List.dlookup_cons_ne _ _ hs, beq_false_of_ne hs]
        exact ih
  · cases h

/-- What is exported for a type. -/
theorem Export_lookup {types : NetType} {net : List (String × Compiled)} (h : Export types = some net)
    {argtype : String} {args : List Arg} (ha : types.types.lookup argtype = some args) :
    net.lookup argtype = some ⟨readStmts true 1 args, writeStmts 1 args⟩ := by
  rw [Export_lookup_eq h, ha]
  rfl

end XCore.Net
