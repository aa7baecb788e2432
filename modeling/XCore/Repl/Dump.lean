import Mathlib.Data.List.Sort
import XCore.Repl.Text

/-!
# `dump` of the REPL (`base/repl.lua`)

`dump` prints a value with its tables, in lines of the width of the terminal: where a text does not fit, the blocks it
is in are opened, from the outermost on, by a line break in front of each. If it does not fit even then, `write` calls
`dump` for the stack of the blocks and drops what it returns.

- `process` is the recursion over the value. The calls of `dump` for the stack are its parameter, and a table is entered
  once, so that the number of tables is enough as its depth (`process_prints`).
- `dump` has the depth of the calls of `dump` as its first argument. Lua's stack and memory are taken as sufficient for
  `process`.
- The order in which `pairs` goes through a table is that of its fields here; the keys are sorted before they are used.
-/

namespace XCore.Repl

open XCore.Lua

/-! ## Values -/

/-- The identity of a table. -/
abbrev Ref := Nat

/-- A value that is made of tables and scalars. -/
inductive Value
  | nil
  | bool (b : Bool)
  | num (n : Number)
  | str (s : Bytes)
  | tab (r : Ref)
  deriving DecidableEq

/-- The fields of each table. -/
abbrev Heap := Ref → List (Value × Value)

/-- `value[k]`. -/
def rawget : List (Value × Value) → Value → Value
  | [], _ => .nil
  | (k', v) :: fields, k => if k' = k then v else rawget fields k

/-- A table, if it is one, is among the first ones. -/
def Value.Below (size : Nat) : Value → Prop
  | .tab r => r < size
  | _ => True

/-- A value, and the finitely many tables that it is made of. -/
structure Graph where
  heap : Heap
  size : Nat
  root : Value
  rooted : root.Below size
  closed : ∀ {r}, r < size → ∀ kv ∈ heap r, kv.1.Below size ∧ kv.2.Below size

/-- What `dump` depends on: the width of the terminal, the theme, and how C writes floats and addresses: without line
breaks. -/
structure Terminal where
  width : Nat
  theme : Option Theme
  float : UInt64 → Bytes
  address : Ref → Bytes
  float_unbroken : ∀ b, LF ∉ float b
  address_unbroken : ∀ r, LF ∉ address r

/-- `tostring`. -/
def tostring (T : Terminal) : Value → Bytes
  | .nil => [110, 105, 108]
  | .bool b => word b
  | .num (.int n) => dec n
  | .num (.flt b) => T.float b
  | .str s => s
  | .tab r => [116, 97, 98, 108, 101, 58, 32] ++ T.address r

/-- `type`, as the name of a colour. -/
def type : Value → Color
  | .nil => .nil
  | .bool _ => .boolean
  | .num _ => .number
  | .str _ => .string
  | .tab _ => .table

/-! ## `table.sort` -/

def Value.isNum : Value → Bool
  | .num _ => true
  | _ => false

def Value.isStr : Value → Bool
  | .str _ => true
  | _ => false

/-- `a < b`, where the two have an order. -/
def lessThan : Value → Value → Bool
  | .num a, .num b => a.lt b
  | .str a, .str b => decide (a < b)
  | _, _ => false

/-- Keys that `table.sort` does not raise for: it compares every key with another one, if there is one. -/
def Sortable (keylist : List Value) : Prop :=
  keylist.length ≤ 1 ∨ keylist.all Value.isNum = true ∨ keylist.all Value.isStr = true

instance (keylist : List Value) : Decidable (Sortable keylist) := inferInstanceAs (Decidable (_ ∨ _))

/-- `table.sort` of the keys of a table. -/
def sort (keylist : List Value) : Except LuaError (List Value) :=
  if Sortable keylist then .ok (keylist.insertionSort fun a b => lessThan b a = false) else .error .compare

/-! ## Lines -/

/-- A block that is not printed in full yet. -/
structure Entry where
  index : Nat
  opened : Bool
  deriving DecidableEq

/-- The locals of `dump`. -/
structure Locals where
  seen : List Ref
  output : List Bytes
  offset : Nat
  stack : List Entry

/-- `string.match(text, "\n([^\n]*)$")`. -/
def lastLine (text : Bytes) : Option Bytes :=
  if LF ∈ text then some (text.reverse.takeWhile (· ≠ LF)).reverse else none

/-- A round of `recalcOffset`. -/
def recalcText (offset : Nat) (text : Bytes) : Nat :=
  match lastLine text with
  | some m => (strip m).length
  | none => offset + (strip text).length

/-- `recalcOffset`. -/
def recalcOffset (output : List Bytes) (index : Nat) (offset : Nat) : Nat := (output.drop index).foldl recalcText offset

/-- `table.insert`, behind some texts. -/
def insertAt (output : List Bytes) (index : Nat) (text : Bytes) : List Bytes :=
  output.take index ++ text :: output.drop index

/-- A block that begins one text later. -/
def Entry.bump (e : Entry) : Entry := { e with index := e.index + 1 }

/-- Opening a block that has `i` blocks around it: a line break in front of it, with the blanks for its depth. -/
def Locals.opened (i : Nat) (entry : Entry) (s : Locals) : Locals :=
  let output := insertAt s.output entry.index (LF :: List.replicate (2 * (i + 1)) 32)
  { s with
    output
    offset := recalcOffset output entry.index s.offset
    stack := s.stack.take i ++ { entry with opened := true } :: (s.stack.drop (i + 1)).map Entry.bump }

/-- Opening a block; `table.insert` checks the position. -/
def openBlock (i : Nat) (entry : Entry) (s : Locals) : Except LuaError Locals :=
  if entry.index ≤ s.output.length then .ok (s.opened i entry) else .error .badArgument

/-- The loop of `write`, from the block with `i` blocks around it on, for the blocks that are left. -/
def openBlocks (width length : Nat) : Nat → Nat → Locals → Except LuaError Locals
  | 0, _, s => .ok s
  | left + 1, i, s =>
    if width < s.offset + length then
      match s.stack[i]? with
      | none => .ok s
      | some entry =>
        if entry.opened then openBlocks width length left (i + 1) s
        else do
          let s ← openBlock i entry s
          openBlocks width length left (i + 1) s
    else .ok s

/-- The end of `write`: the text is put out. -/
def Locals.append (text : Bytes) (s : Locals) : Locals :=
  { s with output := s.output ++ [text], offset := s.offset + (strip text).length }

section

variable (T : Terminal) (dumpStack : List Entry → Except LuaError Unit)

/-- `write`. -/
def write (text : Bytes) (s : Locals) : Except LuaError Locals := do
  let s ← openBlocks T.width (strip text).length s.stack.length 0 s
  let s := s.append text
  if T.width < s.offset then dumpStack s.stack
  return s

/-- `indent`. -/
def Locals.indent (s : Locals) : Locals := { s with stack := s.stack ++ [⟨s.output.length, false⟩] }

/-- `unindent`. -/
def Locals.unindent (s : Locals) : Locals := { s with stack := s.stack.dropLast }

/-! ## The recursion -/

/-- `quote` and the other texts of `loadColors`. -/
def obrace : Bytes := colorize T.theme .braces [123, 32] none
def cbrace : Bytes := colorize T.theme .braces [125] none
def obracket : Bytes := colorize T.theme .property [91] none
def cbracket : Bytes := colorize T.theme .property [93] none
def comma : Bytes := colorize T.theme .sep [44, 32] none
def equals : Bytes := colorize T.theme .sep [32, 61, 32] none

/-- A key that is printed as it is. -/
def nameOf : Value → Option Bytes
  | .str k => if isIdentifier k then some k else none
  | _ => none

variable (process : Value → Locals → Except LuaError Locals)

/-- A key, other than the index. -/
def printKey (k : Value) (s : Locals) : Except LuaError Locals :=
  match nameOf k with
  | some name => write T dumpStack (colorize T.theme .property name none ++ equals T) s
  | none => do
    let s ← write T dumpStack (obracket T) s
    let s ← process k s
    write T dumpStack (cbracket T ++ equals T) s

/-- The value of a key, other than the index: a block of its own, if it is no table. -/
def printValue (v : Value) (s : Locals) : Except LuaError Locals :=
  match v with
  | .tab _ => process v s
  | _ => do
    let s ← process v s.indent
    return s.unindent

/-- A key and its value; a key that is the index is not shown. -/
def printEntry (fields : List (Value × Value)) (i : Nat) (k : Value) (s : Locals) : Except LuaError Locals :=
  let v := rawget fields k
  if k = .num (.int i) then process v s
  else do
    let s ← printKey T dumpStack process k s
    printValue process v s

/-- A round of the loop over the keys. -/
def printField (fields : List (Value × Value)) (total i : Nat) (k : Value) (s : Locals) : Except LuaError Locals := do
  let s ← printEntry T dumpStack process fields i k s.indent
  let s ← write T dumpStack (if i < total then comma T else [32]) s
  return s.unindent

/-- The loop over the keys. -/
def printFields (fields : List (Value × Value)) (total : Nat) : Nat → List Value → Locals → Except LuaError Locals
  | _, [], s => .ok s
  | i, k :: keylist, s => do
    let s ← printField T dumpStack process fields total i k s
    printFields fields total (i + 1) keylist s

end

/-- `process`, for some depth of tables. -/
def process (T : Terminal) (heap : Heap) (dumpStack : List Entry → Except LuaError Unit) :
    Nat → Value → Locals → Except LuaError Locals
  | 0, _, _ => .error .stackOverflow
  | n + 1, value, s =>
    match value with
    | .str v => write T dumpStack (quoted T.theme v) s
    | .tab r =>
      if r ∈ s.seen then write T dumpStack (colorize T.theme .table (tostring T (.tab r)) none) s
      else do
        let s ← write T dumpStack (obrace T) { s with seen := r :: s.seen }
        let keylist ← sort ((heap r).map Prod.fst)
        let s ← printFields T dumpStack (process T heap dumpStack n) (heap r) keylist.length 1 keylist s
        write T dumpStack (cbrace T) s
    | v => write T dumpStack (colorize T.theme (type v) (tostring T v) none) s

/-! ## `dump` -/

/-- `"index"`. -/
def indexKey : Value := .str [105, 110, 100, 101, 120]

/-- `"opened"`. -/
def openedKey : Value := .str [111, 112, 101, 110, 101, 100]

/-- The fields of an entry. -/
def entryFields (e : Entry) : List (Value × Value) := [(indexKey, .num (.int e.index)), (openedKey, .bool e.opened)]

/-- The elements of a list of tables, from the `i`th on. -/
def elements (i count : Nat) : List (Value × Value) :=
  (List.range' i count).map fun (j : Nat) => (.num (.int j), .tab j)

/-- The tables of a stack: the list, and the entries. -/
def stackHeap (stack : List Entry) : Heap
  | 0 => elements 1 stack.length
  | j + 1 => match stack[j]? with
    | some e => entryFields e
    | none => []

theorem mem_elements {i count : Nat} {kv : Value × Value} (h : kv ∈ elements i count) :
    ∃ j : Nat, i ≤ j ∧ j < i + count ∧ kv = (.num (.int j), .tab j) := by
  obtain ⟨j, hj, rfl⟩ := List.mem_map.1 h
  obtain ⟨h1, h2⟩ := List.mem_range'_1.1 hj
  exact ⟨j, h1, h2, rfl⟩

/-- A stack as a value. -/
def stackGraph (stack : List Entry) : Graph where
  heap := stackHeap stack
  size := stack.length + 1
  root := .tab 0
  rooted := Nat.succ_pos _
  closed {r} hr kv hkv := by
    match r with
    | 0 =>
      obtain ⟨j, -, hj, rfl⟩ := mem_elements hkv
      exact ⟨trivial, hj.trans_eq (Nat.add_comm ..)⟩
    | j + 1 =>
      cases he : stack[j]? with
      | none => simp [stackHeap, he] at hkv
      | some e =>
        rw [stackHeap, he] at hkv
        rcases List.mem_cons.1 hkv with rfl | hkv
        · exact ⟨trivial, trivial⟩
        · rw [List.mem_singleton.1 hkv]
          exact ⟨trivial, trivial⟩

/-- `dump`, for some meaning of its call for the stack. -/
def dumpOnce (T : Terminal) (dumpStack : List Entry → Except LuaError Unit) (g : Graph) : Except LuaError Bytes :=
  match g.root with
  | .nil | .bool false => .ok [110, 105, 108]
  | value => do
    let s ← process T g.heap dumpStack (g.size + 1) value ⟨[], [], 0, []⟩
    return s.output.flatten

/-- `dump`, for some depth of calls. -/
def dump (T : Terminal) : Nat → Graph → Except LuaError Bytes
  | 0, _ => .error .stackOverflow
  | n + 1, g => dumpOnce T (fun stack => (dump T n (stackGraph stack)).map fun _ => ()) g

/-- `dump` returns, with enough depth of calls. -/
def Returns (T : Terminal) (g : Graph) : Prop := ∃ n s, dump T n g = .ok s

end XCore.Repl
