import XCore.Net.Send

/-!
# The exported C# (`tocsharp.lua`)

`Export` writes a C# structure for every type, a reader for every message of a server and a writer for every message of
a client. What the C# does is modelled with the documented behaviour of `BinaryReader` and `BinaryWriter`: numbers are
little endian, of fixed width, and a string stands after the number of its UTF-8 bytes, seven bits in a byte. A result
`none` is code that does not compile, an exception, or a loop that does not come to an end within the fuel.

- `csReadFields`, `csWriteFields`, `csLength`: the pieces of text that are exported for the fields;
- `csRead`: a reader; `csWrite`: a writer, whose buffer has the length that `Length()` returns.
-/

namespace XCore.Net

open XCore.Lua

/-! ## Types and values -/

/-- A type of C#. -/
inductive CsType
  | bool
  | num (fmt : Fmt)
  | string
  | custom (name : String)

/-- `dataTrans`: the C# type of a field, `ST_<name>` for a structure. The entry `custom` has no name. -/
def dataTrans : String → Option CsType
  | "bool" => some .bool
  | "uint8" => some (.num .B)
  | "uint16" => some (.num .H)
  | "uint32" => some (.num .I)
  | "uint64" => some (.num .J)
  | "int8" => some (.num .b)
  | "int16" => some (.num .h)
  | "int32" => some (.num .i)
  | "int64" => some (.num .j)
  | "string" => some .string
  | "float" => some (.num .f)
  | "double" => some (.num .d)
  | "custom" => none
  | name => some (.custom name)

/-- `length[1]`. -/
def CsType.size : CsType → Nat
  | .bool => 1
  | .num fmt => fmt.size
  | .string => 1
  | .custom _ => 0

/-- How a field is exported: a member, a list of any length, or a list of the length that the schema gives. -/
inductive Shape
  | one
  | list0
  | listN (count : Nat)

/-- `not argnum or argnum == 1`, `argnum > 1`, or else. -/
def shape : Option Nat → Shape
  | none => .one
  | some 0 => .list0
  | some 1 => .one
  | some n => .listN n

/-- A value of C#: the bits of a number, a string by its UTF-8 bytes, a list, or a structure with its members in
order. -/
inductive CsVal
  | num (bits : Nat)
  | str (s : Bytes)
  | list (l : List CsVal)
  | struct (l : List CsVal)

/-- The UTF-8 bytes of a string. -/
def utf8 (s : String) : Bytes := s.toUTF8.data.toList

/-- The string that `ReadString` makes of bytes; it replaces those that are not UTF-8. -/
structure Utf8Decoder where
  getString : Bytes → Bytes
  valid (s : String) : getString (utf8 s) = utf8 s

/-- The characters that begin with a byte of UTF-8. -/
def charsOf (b : UInt8) : Nat := if b < 0x80 then 1 else if b < 0xC0 then 0 else if b < 0xF0 then 1 else 2

/-- `<string>.Length`: characters of 16 bits. -/
def utf16Length (s : Bytes) : Nat := (s.map charsOf).sum

/-! ## Lengths -/

/-- What an item adds to `iLen`. -/
def csItemLength (call : String → CsVal → Option Nat) : CsType → CsVal → Option Nat
  | .string, .str s => some (CsType.string.size + utf16Length s)
  | .custom name, v => call name v
  | t, _ => some t.size

/-- What the items of a list add to `iLen`. -/
def csItemsLength (call : String → CsVal → Option Nat) (t : CsType) : List CsVal → Option Nat
  | [] => some 0
  | v :: vs => do
    let m ← csItemLength call t v
    let n ← csItemsLength call t vs
    some (m + n)

/-- What a field adds to `iLen`; a list adds `head` for its length. -/
def csFieldLength (call : String → CsVal → Option Nat) (head : Nat) (a : Arg) (v : CsVal) : Option Nat := do
  let t ← dataTrans a.argtype
  match shape a.argnum, v with
  | .one, v => csItemLength call t v
  | _, .list l => (csItemsLength call t l).map (head + ·)
  | _, _ => none

/-- The sum for fields. -/
def csFieldsLength (call : String → CsVal → Option Nat) (head : Nat) : List Arg → List CsVal → Option Nat
  | [], [] => some 0
  | a :: args, v :: vs => do
    let m ← csFieldLength call head a v
    let n ← csFieldsLength call head args vs
    some (m + n)
  | _, _ => none

/-- `Length()` of a structure, which is a `ushort`; it counts one byte for the length of a list. -/
def csLength (Γ : NetType) : Nat → String → CsVal → Option Nat
  | 0, _, _ => none
  | fuel + 1, name, v => do
    let args ← Γ.types.lookup name
    match v with
    | .struct l => (csFieldsLength (csLength Γ fuel) 1 args l).map (· % 65536)
    | _ => none

/-! ## Writers -/

/-- `Write7BitEncodedInt`. -/
def sevenBit (n : Nat) : Bytes :=
  if n < 128 then [UInt8.ofNat n] else UInt8.ofNat (n % 128 + 128) :: sevenBit (n / 128)

/-- `bw.Write(<mem_name>);` or `<mem_name>.Write(bw);` -/
def csWriteItem (call : String → CsVal → Option Bytes) : CsType → CsVal → Option Bytes
  | .bool, .num bits => some [if bits = 0 then 0 else 1]
  | .num fmt, .num bits => if bits < 256 ^ fmt.size then some (leBytes fmt.size bits) else none
  | .string, .str s => some (sevenBit s.length ++ s)
  | .custom name, v => call name v
  | _, _ => none

/-- `foreach(<mem_type> item in <mem_name>)` -/
def csWriteItems (write : CsVal → Option Bytes) : List CsVal → Option Bytes
  | [] => some []
  | v :: vs => do
    let s ← write v
    let t ← csWriteItems write vs
    some (s ++ t)

/-- `for (byte i=0; i<<count>; i++)` over the items of a list, from `i` on. -/
def csWriteFor (write : CsVal → Option Bytes) (count : Nat) (l : List CsVal) : Nat → UInt8 → Option Bytes
  | 0, _ => none
  | fuel + 1, i =>
    if i.toNat < count then do
      let v ← l[i.toNat]?
      let s ← write v
      let t ← csWriteFor write count l fuel (i + 1)
      some (s ++ t)
    else some []

/-- The piece of a writer for a field. -/
def csWriteField (call : String → CsVal → Option Bytes) (fuel : Nat) (a : Arg) (v : CsVal) : Option Bytes := do
  let t ← dataTrans a.argtype
  match shape a.argnum, v with
  | .one, v => csWriteItem call t v
  | .list0, .list l => (csWriteItems (csWriteItem call t) l).map (leBytes 2 l.length ++ ·)
  | .listN count, .list l => csWriteFor (csWriteItem call t) count l fuel 0
  | _, _ => none

/-- The pieces for fields, one after the other. -/
def csWriteFields (call : String → CsVal → Option Bytes) (fuel : Nat) : List Arg → List CsVal → Option Bytes
  | [], [] => some []
  | a :: args, v :: vs => do
    let s ← csWriteField call fuel a v
    let t ← csWriteFields call fuel args vs
    some (s ++ t)
  | _, _ => none

/-- `Write` of a structure. -/
def csWriteStruct (Γ : NetType) : Nat → String → CsVal → Option Bytes
  | 0, _, _ => none
  | fuel + 1, name, v => do
    let args ← Γ.types.lookup name
    match v with
    | .struct l => csWriteFields (csWriteStruct Γ fuel) fuel args l
    | _ => none

/-- A line `<argname> = NetType.ST_<argtype>;` of a constructor does not compile. -/
def initStruct (a : Arg) : Bool :=
  match dataTrans a.argtype, shape a.argnum with
  | some (.custom _), .one => true
  | _, _ => false

/-- `Handler_<name>` of a writer: the buffer has a fixed length, and what is not written stays zero. -/
def csWrite (Γ : NetType) (fuel : Nat) (args : List Arg) (vs : List CsVal) : Option Bytes := do
  if args.any initStruct then none
  else
    let s ← csWriteFields (csWriteStruct Γ fuel) fuel args vs
    let n ← csFieldsLength (csLength Γ fuel) 2 args vs
    if s.length ≤ n % 65536 then some (s ++ List.replicate (n % 65536 - s.length) 0) else none

/-! ## Readers -/

/-- The next `n` bytes. -/
def csBytes (n : Nat) (s : Bytes) : Option (Bytes × Bytes) := if n ≤ s.length then some (s.take n, s.drop n) else none

/-- `Read7BitEncodedInt`, of at most `fuel` bytes. -/
def csSevenBit : Nat → Bytes → Option (Nat × Bytes)
  | 0, _ => none
  | _ + 1, [] => none
  | fuel + 1, b :: s =>
    if b < 128 then some (b.toNat, s)
    else do
      let (n, s) ← csSevenBit fuel s
      some (b.toNat % 128 + 128 * n, s)

section Read

variable (D : Utf8Decoder)

/-- `<mem_name> = br.ReadX();`, or a new structure and its `Read(br)`. -/
def csReadItem (call : String → Bytes → Option (CsVal × Bytes)) : CsType → Bytes → Option (CsVal × Bytes)
  | .bool, s => do
    let (b, s) ← csBytes 1 s
    some (.num (if b = [0] then 0 else 1), s)
  | .num fmt, s => do
    let (b, s) ← csBytes fmt.size s
    some (.num (leNat b), s)
  | .string, s => do
    let (n, s) ← csSevenBit 5 s
    let (b, s) ← csBytes n s
    some (.str (D.getString b), s)
  | .custom name, s => call name s

/-- `for (byte i=0; i<bySize; i++)`, from `i` on; `i` never reaches 256. -/
def csReadFor (read : Bytes → Option (CsVal × Bytes)) (count : Nat) : Nat → UInt8 → Bytes → Option (List CsVal × Bytes)
  | 0, _, _ => none
  | fuel + 1, i, s =>
    if i.toNat < count then do
      let (v, s) ← read s
      let (vs, s) ← csReadFor read count fuel (i + 1) s
      some (v :: vs, s)
    else some ([], s)

/-- The piece of a reader for a field. -/
def csReadField (call : String → Bytes → Option (CsVal × Bytes)) (fuel : Nat) (a : Arg) (s : Bytes) :
    Option (CsVal × Bytes) := do
  let t ← dataTrans a.argtype
  match shape a.argnum with
  | .one => csReadItem D call t s
  | .list0 => do
    let (bySize, s) ← csBytes 2 s
    let (l, s) ← csReadFor (csReadItem D call t) (leNat bySize) fuel 0 s
    some (.list l, s)
  | .listN count => do
    let (l, s) ← csReadFor (csReadItem D call t) count fuel 0 s
    some (.list l, s)

/-- The pieces for fields, one after the other. -/
def csReadFields (call : String → Bytes → Option (CsVal × Bytes)) (fuel : Nat) :
    List Arg → Bytes → Option (List CsVal × Bytes)
  | [], s => some ([], s)
  | a :: args, s => do
    let (v, s) ← csReadField D call fuel a s
    let (vs, s) ← csReadFields call fuel args s
    some (v :: vs, s)

/-- `Read` of a structure. -/
def csReadStruct (Γ : NetType) : Nat → String → Bytes → Option (CsVal × Bytes)
  | 0, _, _ => none
  | fuel + 1, name, s => do
    let args ← Γ.types.lookup name
    let (l, s) ← csReadFields D (csReadStruct Γ fuel) fuel args s
    some (.struct l, s)

/-- `Handler_<name>` of a reader. -/
def csRead (Γ : NetType) (fuel : Nat) (args : List Arg) (buffer : Bytes) : Option (List CsVal) :=
  (csReadFields D (csReadStruct D Γ fuel) fuel args buffer).map Prod.fst

end Read

end XCore.Net
