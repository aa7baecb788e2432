import XCore.Lib.Search
import XCore.Net.Convert

/-!
# Reading a schema

`reader.lua`: the definitions of `allpto.lua` are read into `net.NetType`, `net.NetC2S` and `net.NetS2C`, and the types
are checked. A table of `allpto.lua` is a sequence; a field `{name, type, ..}` keeps what follows its type. An inline
list of fields is put into a table `{name = subname, args = fields}` before `ReadType` gets it.

`pairs` goes through the keys of a table in some order (`Pairs`). The depth of the calls of `__CheckNode` is a count of
fuel, which is never used up (`CheckType_ends`).
-/

namespace XCore.Net

open XCore.Search

/-! ## Data -/

/-- A value in `allpto.lua`. -/
inductive Data
  | str (s : String)
  | num (n : Nat)
  | tab (items : List Data)
  | other (tostring : String)

/-- `tostring(v)`; a table has an address. -/
def Data.tostring : Data → String
  | str s => s
  | num n => toString n
  | tab _ => "table"
  | other s => s

/-- `net.DATA_TYPE`. -/
def DATA_TYPE (t : String) : Bool :=
  t ∈ ["string", "int8", "int16", "int32", "int64", "uint8", "uint16", "uint32", "uint64", "float", "double", "number"]

/-- `net.TYPE_NAME_TRANS`. -/
def TYPE_NAME_TRANS : String → Option String
  | "str" => some "string"
  | "byte" => some "uint8"
  | "int" => some "int32"
  | "long" => some "int64"
  | "uint" => some "uint32"
  | "ulong" => some "uint64"
  | "word" => some "uint8"
  | _ => none

/-- A type name without its alias. -/
def transName (t : String) : String := (TYPE_NAME_TRANS t).getD t

/-- A field that has been read: `v[1]`, `v[2]` and what follows. -/
structure Field where
  argname : String
  argtype : String
  rest : List Data

/-- `args`: the fields, or the table around an inline list. -/
inductive Args
  | list (fields : List Field)
  | wrapped (name : String) (args : List Data)

/-- What `ipairs(args)` finds. -/
def Args.fields : Args → List Field
  | list fields => fields
  | wrapped _ _ => []

/-- An entry of `net.NetType`, `net.NetC2S` and `net.NetS2C`. -/
structure Info where
  name : String
  args : Args

/-- `net.NetType`. -/
abbrev Types := AList fun _ : String => Info

/-- The fields of a type. -/
def fieldsOf (T : Types) (name : String) : List Field := ((T.lookup name).map fun info => info.args.fields).getD []

/-- An order in which `pairs` may go through the keys of a table. -/
structure Pairs where
  order : List String → List String
  perm : ∀ l, (order l).Perm l

/-- The last key first. -/
def Pairs.last : Pairs := ⟨id, fun _ => .refl _⟩

/-! ## `CheckType` -/

/-- The named types that each type refers to. -/
abbrev Custom := AList fun _ : String => List String

/-- `custom[name][sub] = true`. -/
def Custom.add (custom : Custom) (name sub : String) : Custom :=
  custom.insert name (((custom.lookup name).getD []).insert sub)

/-- The loop over the fields of a type. -/
def checkFields (NetType : Types) (name : String) : List Field → Custom → Except String Custom
  | [], custom => .ok custom
  | v :: vs, custom =>
    if v.argtype = name then .error ("协议文件 " ++ v.argtype ++ " 出现嵌套环")
    else if ¬(DATA_TYPE v.argtype ∨ v.argtype ∈ NetType) then .error ("数据类型 " ++ v.argtype ++ " 不支持")
    else checkFields NetType name vs (if v.argtype ∈ NetType then custom.add name v.argtype else custom)

/-- The loop over the types. -/
def checkTypes (NetType : Types) : List String → Custom → Except String Custom
  | [], custom => .ok custom
  | name :: names, custom => do
    let custom ← checkFields NetType name (fieldsOf NetType name) custom
    checkTypes NetType names custom

/-- The keys of `custom[name]`, as `pairs` goes through them. -/
def subnames (O : Pairs) (custom : Custom) (name : String) : List String := O.order ((custom.lookup name).getD [])

/-- `__CheckNode`; `chain` has the names that are marked. -/
def CheckNode (O : Pairs) (custom : Custom) (root : String) :
    Nat → List String → String → Option (Except String (List String))
  | 0, _, _ => none
  | n + 1, chain, name =>
    if name ∈ chain then some (.error ("数据类型 " ++ root ++ " 出现嵌套环"))
    else visitAll (CheckNode O custom root n) (name :: chain) (subnames O custom name)

/-- The loop over `custom`: the search starts anew from each type. -/
def checkRoots (O : Pairs) (custom : Custom) (n : Nat) : List String → Option (Except String Unit)
  | [] => some (.ok ())
  | name :: names =>
    match CheckNode O custom name n [] name with
    | some (.ok _) => checkRoots O custom n names
    | some (.error e) => some (.error e)
    | none => none

/-- `CheckType`. -/
def CheckType (O : Pairs) (NetType : Types) : Option (Except String Unit) :=
  if NetType.keys = [] then some (.ok ())
  else
    match checkTypes NetType (O.order NetType.keys) ∅ with
    | .error e => some (.error e)
    | .ok custom => checkRoots O custom (NetType.keys.length + 1) (O.order custom.keys)

/-! ## `ReadType` and `ReadPto` -/

/-- `ReadType(name, {name=name, args=items})`: the loop over the fields finds none, and the table is stored. -/
def readWrapped (name : String) (items : List Data) (NetType : Types) : Types :=
  NetType.insert name ⟨name, .wrapped name items⟩

/-- The name of the type of an inline list. -/
def subname (name key : String) : String := name ++ "_" ++ key

/-- The type of a field; `check` is what `ReadType` and `ReadPto` ask of a name that is no data type. -/
def readKind (check : String → Except String Unit) (name key : String) : Data → Types → Except String (String × Types)
  | .str t, NetType =>
    if DATA_TYPE (transName t) then .ok (transName t, NetType)
    else do
      check (transName t)
      .ok (transName t, NetType)
  | .tab [], _ => .error ("协议文件 " ++ name ++ " 嵌套格式错误")
  | .tab items, NetType => .ok (subname name key, readWrapped (subname name key) items NetType)
  | v, _ => .error ("协议文件 " ++ name ++ " 出现不支持的数据类型：" ++ v.tostring)

/-- The loop over the fields of a definition. -/
def readFields (check : String → Except String Unit) (name : String) :
    List String → List Data → Types → Except String (List Field × Types)
  | _, [], NetType => .ok ([], NetType)
  | keys, .tab (.str key :: kind :: rest) :: vs, NetType =>
    if key ∈ keys then .error ("协议文件 " ++ name ++ " 出现重复字段")
    else do
      let (argtype, NetType) ← readKind check name key kind NetType
      let (fields, NetType) ← readFields check name (key :: keys) vs NetType
      .ok (⟨key, argtype, rest⟩ :: fields, NetType)
  | _, _ :: _, _ => .error ("协议文件 " ++ name ++ " 格式错误")

/-- A definition does not use itself. -/
def checkSelf (name t : String) : Except String Unit :=
  if t = name then .error ("协议文件 " ++ name ++ " 出现嵌套环") else .ok ()

/-- `ReadType`. -/
def ReadType (name : String) (args : List Data) (NetType : Types) : Except String Types := do
  let (fields, NetType) ← readFields (checkSelf name) name [] args NetType
  .ok (NetType.insert name ⟨name, .list fields⟩)

/-- `string.startwith`. -/
def startwith (str flag : String) : Bool := flag.toList.isPrefixOf str.toList

/-- What `ReadPto` asks of a name: the definition does not use itself, and no protocol. -/
def checkPto (name t : String) : Except String Unit := do
  checkSelf name t
  if startwith t "c2s" then .error ("协议文件 " ++ name ++ " 不允许嵌套" ++ t)
  else if startwith t "s2c" then .error ("协议文件 " ++ name ++ " 不允许嵌套" ++ t)
  else .ok ()

/-- The tables of `net` that are filled. -/
structure Schema where
  IsServer : Option Bool
  NetType : Types
  Name2ID : AList fun _ : String => Nat
  NetC2S : AList fun _ : Nat => Info
  NetS2C : AList fun _ : Nat => Info

/-- `ReadPto`. -/
def ReadPto (id : Nat) (name : String) (args : List Data) (net : Schema) : Except String Schema := do
  let (fields, NetType) ← readFields (checkPto name) name [] args net.NetType
  let net := { net with NetType := NetType, Name2ID := net.Name2ID.insert name id }
  if name.toList.take 2 = ['c', '_'] then .ok { net with NetS2C := net.NetS2C.insert id ⟨name, .list fields⟩ }
  else .ok { net with NetC2S := net.NetC2S.insert id ⟨name, .list fields⟩ }

/-! ## `Init` -/

/-- A definition: its name and its fields. -/
abbrev Def := String × List Data

/-- The loop over the types. -/
def readTypes : List Def → Types → Except String Types
  | [], NetType => .ok NetType
  | d :: ds, NetType => do
    let NetType ← ReadType d.1 d.2 NetType
    readTypes ds NetType

/-- The loop over the protocols. -/
def readPtos : Nat → List Def → Schema → Except String Schema
  | _, [], net => .ok net
  | k, d :: ds, net => do
    let net ← ReadPto k d.1 d.2 net
    readPtos (k + 1) ds net

/-- The definitions are read. -/
def readAll (isserver : Option Bool) (types ptos : List Def) (net : Schema) : Except String Schema := do
  let NetType ← readTypes types net.NetType
  readPtos 1 ptos { net with IsServer := isserver, NetType := NetType }

/-- `Init`, for what `dofile(path)` returns. -/
def Init (O : Pairs) (isserver : Option Bool) (types ptos : List Def) (net : Schema) : Option (Except String Schema) :=
  match readAll isserver types ptos net with
  | .error e => some (.error e)
  | .ok net => (CheckType O net.NetType).map fun r => r.map fun _ => net

end XCore.Net
