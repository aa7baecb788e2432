import XCore.Lua.Format
import XCore.Net.Convert

/-!
# The primitives of `base.lua`

`net.ReadX` and `net.WriteX` for the base types. What they read and write is a number or a string, or a table of these
(`Base`); a number that is given for a string is left out.

- `ReadPtoNumber`, `ReadPtoString`, `ReadNumber`: the readers, with the position that they leave behind; a result `none`
  is nil;
- `WritePtoNumber`, `WritePtoString`, `WriteNumber`: the writers, with what they append to `net.WriteData` (`Append`);
- `readX`, `writeX`: the primitive of a base type.
-/

namespace XCore.Net

open XCore.Lua

/-- A number or a string. -/
inductive Scalar
  | num (n : Number)
  | str (s : Bytes)
  deriving DecidableEq

/-- What the primitives are for: a number or a string, or a table `{x1, .., xn}` of these. -/
inductive Base
  | one (x : Scalar)
  | arr (l : List Scalar)
  deriving DecidableEq

namespace Base

/-- A number. -/
abbrev int (n : Int) : Base := .one (.num (.int n))

end Base

/-! ## Readers -/

namespace ReadData

/-- `data.Len`. -/
def Len (data : ReadData) : Nat := data.Data.length

/-- `net.ReadData` with another position. -/
def goto (data : ReadData) (pos : Nat) : ReadData := { data with Pos := pos }

end ReadData

/-- `string.unpack` of an unsigned item at the position, which is moved behind it. -/
def unpackAt (n : Nat) (data : ReadData) : Except LuaError (Nat × ReadData) := do
  let (v, len) ← unpackU n data.Data data.Pos
  .ok (v, data.goto len.toNat)

/-- The number of items: one, or for an array the next byte; `none` when there is no room for an array. -/
def readCount (isarray : Bool) (data : ReadData) : Except LuaError (Option Nat × ReadData) :=
  if isarray then
    if data.Len < data.Pos + 1 then .ok (none, data)
    else do
      let (count, data) ← unpackAt 1 data
      .ok (some count, data)
  else .ok (some 1, data)

/-- A loop of `count` rounds. -/
def readMany {α : Type} (read : ReadData → Except LuaError (α × ReadData)) :
    Nat → ReadData → Except LuaError (List α × ReadData)
  | 0, data => .ok ([], data)
  | n + 1, data => do
    let (x, data) ← read data
    let (xs, data) ← readMany read n data
    .ok (x :: xs, data)

/-- `ReadNumberCore`: the low bit of the first byte is the sign and the others are the size. -/
def ReadNumberCore (data : ReadData) : Except LuaError (Number × ReadData) := do
  let (flag, data) ← unpackAt 1 data
  let size := flag / 2
  let ret ←
    if size = 1 then (unpackAt 1 data).map Prod.fst
    else if size = 2 then (unpackAt 2 data).map Prod.fst
    else if size = 3 then
      match data.Data.drop (data.Pos - 1) with
      | a :: b :: c :: _ => .ok (a.toNat + 2 ^ 8 * b.toNat + 2 ^ 16 * c.toNat)
      | _ => .error .arithNil
    else (unpackAt 4 data).map Prod.fst
  .ok (.int (if flag % 2 = 0 then ret else -(ret : Int)), data.goto (data.Pos + size))

/-- `ReadNumber`. -/
def ReadNumber (isarray : Bool) (data : ReadData) : Except LuaError (Option Base × ReadData) := do
  match ← readCount isarray data with
  | (none, data) => .ok (none, data)
  | (some count, data) =>
    if data.Len < data.Pos + count * 2 then .ok (none, data)
    else if count = 1 then
      let (x, data) ← ReadNumberCore data
      .ok (some (.one (.num x)), data)
    else
      let (xs, data) ← readMany ReadNumberCore count data
      .ok (some (.arr (xs.map .num)), data)

/-- `string.unpack(_type, data.Data, data.Pos)`. -/
def readFmt (fmt : Fmt) (data : ReadData) : Except LuaError (Number × ReadData) := do
  let (x, len) ← unpackFmt fmt data.Data data.Pos
  .ok (x, data.goto len.toNat)

/-- `ReadPtoNumber`. -/
def ReadPtoNumber (fmt : Fmt) (size : Nat) (isarray : Bool) (data : ReadData) :
    Except LuaError (Option Base × ReadData) := do
  match ← readCount isarray data with
  | (none, data) => .ok (none, data)
  | (some count, data) =>
    if data.Len + 1 < data.Pos + count * size then .ok (none, data)
    else if count = 1 then
      let (x, data) ← readFmt fmt data
      .ok (some (.one (.num x)), data)
    else
      let (xs, data) ← readMany (readFmt fmt) count data
      .ok (some (.arr (xs.map .num)), data)

/-- One string: its length plus one in a byte or, after a zero, in two bytes. -/
def readStr (data : ReadData) : Except LuaError (Bytes × ReadData) := do
  let (size, data) ← unpackAt 1 data
  let (size, data) ← if size ≤ 0 then unpackAt 2 data else .ok (size, data)
  let size : Int := size - 1
  .ok (sub data.Data data.Pos (size + data.Pos - 1), data.goto (data.Pos + size).toNat)

/-- The loop of `ReadPtoString`; `none` when it returns nil. -/
def readStrs : Nat → ReadData → Except LuaError (Option (List Bytes) × ReadData)
  | 0, data => .ok (some [], data)
  | n + 1, data =>
    if data.Len < data.Pos + 1 then .ok (none, data)
    else do
      let (s, data) ← readStr data
      let (ss, data) ← readStrs n data
      .ok (ss.map (s :: ·), data)

/-- `ReadPtoString`. -/
def ReadPtoString (isarray : Bool) (data : ReadData) : Except LuaError (Option Base × ReadData) := do
  match ← readCount isarray data with
  | (none, data) => .ok (none, data)
  | (some count, data) =>
    if data.Len < data.Pos + count * 2 then .ok (none, data)
    else if count = 1 then
      let (s, data) ← readStr data
      .ok (some (.one (.str s)), data)
    else
      let (ss, data) ← readStrs count data
      .ok (ss.map fun ss => .arr (ss.map .str), data)

/-- `net.ReadX`. -/
def readX : Prim → Bool → ReadData → Except LuaError (Option Base × ReadData)
  | .Uint8 => ReadPtoNumber .B 1
  | .Uint16 => ReadPtoNumber .H 2
  | .Uint32 => ReadPtoNumber .I 4
  | .Uint64 => ReadPtoNumber .J 8
  | .Int8 => ReadPtoNumber .b 1
  | .Int16 => ReadPtoNumber .h 2
  | .Int32 => ReadPtoNumber .i 4
  | .Int64 => ReadPtoNumber .j 8
  | .Float => ReadPtoNumber .f 4
  | .Double => ReadPtoNumber .d 8
  | .String => ReadPtoString
  | .Number => ReadNumber

/-- The rounds of `for i=1,tmpsize`. -/
def forRounds : Base → Except LuaError Nat
  | .one (.num n) => .ok n.forCount
  | _ => .error .forLimit

/-- The readers of `base.lua`. -/
def luaReads : Reads Base := ⟨readX, forRounds⟩

/-! ## Writers -/

/-- What a writer appends to `net.WriteData`: entries of `Data`, where `none` is nil, and what `Len` grows by. -/
structure Append where
  pieces : List (Option Bytes)
  len : Nat

/-- The elements of a table that is given for an array. -/
def elems : Val Base → Option (List (Val Base))
  | .base (.arr l) => some (l.map fun x => .base (.one x))
  | .table t => some (ipairs t)
  | .base (.one _) => none

/-- The number that `string.pack` takes an argument for. -/
def Scalar.toNum : Scalar → Option Number
  | .num n => some n
  | .str s => tonumber s

/-- `string.pack(_type, value)`. -/
def packVal (fmt : Fmt) : Option (Val Base) → Except LuaError Bytes
  | some (.base (.one x)) => match x.toNum with
    | some n => packFmt fmt n
    | none => .error .badArgument
  | _ => .error .badArgument

/-- A loop over the elements of a table. -/
def writeMany {α : Type} (write : α → Except LuaError (List Append)) : List α → Except LuaError (List Append)
  | [] => .ok []
  | x :: xs => do
    let a ← write x
    let as ← writeMany write xs
    .ok (a ++ as)

/-- The count of a table, and its elements. -/
def writeArray (write : Val Base → Except LuaError (List Append)) (l : List (Val Base)) :
    Except LuaError (List Append) :=
  if 255 < l.length then .error .assertion
  else do
    let as ← writeMany write l
    .ok (⟨[some (leBytes 1 l.length)], 1⟩ :: as)

/-- One number of a fixed width. -/
def writeFmt (fmt : Fmt) (size : Nat) (value : Option (Val Base)) : Except LuaError (List Append) := do
  let s ← packVal fmt value
  .ok [⟨[some s], size⟩]

/-- `WritePtoNumber`. -/
def WritePtoNumber (fmt : Fmt) (size : Nat) (value : Option (Val Base)) : Except LuaError (List Append) :=
  match value.bind elems with
  | some l => writeArray (fun v => writeFmt fmt size (some v)) l
  | none => writeFmt fmt size value

/-- A bit field of an integer: `(value >> shift) & 0xff`. -/
def lowBits (shift : Nat) (value : Number) : Except LuaError Bytes :=
  match value.toInteger with
  | none => .error .noInteger
  | some n => .ok (intBytes 1 (n / 2 ^ shift))

/-- `WriteNumberCore`: the size stands in the first byte for numbers of one byte only. -/
def WriteNumberCore (value : Option (Val Base)) : Except LuaError (List Append) :=
  match value with
  | some (.base (.one (.num value))) =>
    let negative := value.lt (.int 0)
    let flag : Nat := if negative then 1 else 0
    let value := if negative then value.neg else value
    if value.le (.int 0xff) then do
      let s ← packFmt .B value
      .ok [⟨[some (leBytes 1 (2 + flag)), some s], 2⟩]
    else if value.lt (.int 0xffff) then do
      let s ← packFmt .H value
      .ok [⟨[some (leBytes 1 flag), some s], 3⟩]
    else if value.lt (.int 0xffffff) then do
      let s₀ ← lowBits 0 value
      let s₁ ← lowBits 8 value
      let s₂ ← lowBits 16 value
      .ok [⟨[some (leBytes 1 flag), some s₀, some s₁, some s₂], 4⟩]
    else do
      let s ← packFmt .I value
      .ok [⟨[some (leBytes 1 flag), some s], 5⟩]
  | _ => .error .compare

/-- `WriteNumber`. -/
def WriteNumber (value : Option (Val Base)) : Except LuaError (List Append) :=
  match value.bind elems with
  | some l => writeArray (fun v => WriteNumberCore (some v)) l
  | none => WriteNumberCore value

/-- One string of `size - 1` bytes, with the entry of `Data` that follows its size. -/
def writeStr (size : Nat) (v : Option Bytes) : Except LuaError (List Append) :=
  if size ≤ 0xff then .ok [⟨[some (leBytes 1 size), v], size + 1⟩]
  else do
    let s ← packU 2 size
    .ok [⟨[some (leBytes 1 0), some s, v], size + 3⟩]

/-- `WritePtoString`. The branch of a single string appends the global variable `v`, which is nil, instead of
`value`. -/
def WritePtoString (value : Option (Val Base)) : Except LuaError (List Append) :=
  match value.bind elems with
  | some l => writeArray (fun v => match v with
    | .base (.one (.str s)) => writeStr (s.length + 1) (some s)
    | _ => .error .badArgument) l
  | none => match value with
    | some (.base (.one (.str s))) => writeStr (s.length + 1) none
    | _ => .error .badArgument

/-- `net.WriteX`. -/
def writeX : Prim → Option (Val Base) → Except LuaError (List Append)
  | .Uint8 => WritePtoNumber .B 1
  | .Uint16 => WritePtoNumber .H 2
  | .Uint32 => WritePtoNumber .I 4
  | .Uint64 => WritePtoNumber .J 8
  | .Int8 => WritePtoNumber .b 1
  | .Int16 => WritePtoNumber .h 2
  | .Int32 => WritePtoNumber .i 4
  | .Int64 => WritePtoNumber .j 8
  | .Float => WritePtoNumber .f 4
  | .Double => WritePtoNumber .d 8
  | .String => WritePtoString
  | .Number => WriteNumber

/-- The writers of `base.lua`. -/
def luaWrites : Writes Base Append := ⟨writeX, fun n => .int n⟩

end XCore.Net
