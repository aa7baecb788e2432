import XCore.Lib.CString
import XCore.Lua.Number

/-!
# `luv_stackdump` and `luv_error` (`luv_util.c`)

The text of an error is put together in `g_ErrMsgBuff`, which has 1024 bytes, with a `sprintf` at the end of what is
there for each frame of the call stack and for each of its local variables. A variable that is left out (`_ENV`, `_G`,
or nil) stays on the Lua stack; and the upvalues that are listed are those of whatever is at the top of it then.

- `luv_stackdump`, `luv_error`: the calls, without a result when they store outside of the buffer;
- `varSize`, `frameSize`, `upvalSize`: what the lines take, from the lengths of names, types and values;
- `stackdump_exact`: when the calls stay inside the buffer.
-/

namespace XCore.Luv

open XCore.CString XCore.Lua

/-! ## The Lua state -/

/-- A value; the number is by its text and the others have an address. -/
inductive Val
  | nil
  | boolean (b : Bool)
  | number (text : Bytes)
  | string (s : Bytes)
  | lightuserdata (p : Nat)
  | userdata (p : Nat)
  | thread (p : Nat)
  | function (p : Nat)
  | table (p : Nat)

/-- A variable as `lua_getlocal` and `lua_getupvalue` give it: its name and its value. -/
abbrev Var := Bytes × Val

/-- What the Lua state has of functions, and how `%8p` writes an address. -/
structure State where
  upvalues : Nat → List Var
  upvalues_le : ∀ p, (upvalues p).length ≤ 255
  pointer : Nat → Bytes
  zero_not_mem_pointer : ∀ p, 0 ∉ pointer p

/-- What `lua_getinfo` and `lua_getlocal` say of a level of the call stack. -/
structure Frame where
  what : Bytes
  name : Option Bytes
  short_src : Bytes
  currentline : Int
  locals : List Var

/-! ## The lines -/

/-- `lua_typename`. -/
def typename : Val → Bytes
  | .nil => [110, 105, 108]
  | .boolean _ => [98, 111, 111, 108, 101, 97, 110]
  | .number _ => [110, 117, 109, 98, 101, 114]
  | .string _ => [115, 116, 114, 105, 110, 103]
  | .lightuserdata _ | .userdata _ => [117, 115, 101, 114, 100, 97, 116, 97]
  | .thread _ => [116, 104, 114, 101, 97, 100]
  | .function _ => [102, 117, 110, 99, 116, 105, 111, 110]
  | .table _ => [116, 97, 98, 108, 101]

/-- What stands behind the type: `true` or `false`, `0x%8p`, or `%s` of a number or a string. -/
def valueText (L : State) : Val → Bytes
  | .nil => []
  | .boolean true => [116, 114, 117, 101]
  | .boolean false => [102, 97, 108, 115, 101]
  | .number s | .string s => cstr s
  | .lightuserdata p | .userdata p | .thread p | .function p | .table p => [48, 120] ++ L.pointer p

/-- `"\t%s = <%s> %s\n"`. -/
def varLine (L : State) (v : Var) : Bytes :=
  [9] ++ cstr v.1 ++ [32, 61, 32, 60] ++ typename v.2 ++ [62, 32] ++ valueText L v.2 ++ [10]

/-- `%4d`. -/
def dec4 (n : Int) : Bytes := List.replicate (4 - (dec n).length) 32 ++ dec n

/-- The line of a frame: `"%4d[C] : in %s\n"`, `"%4d[C] :\n"`, `"%4d %s:%d in %s\n"` or `"%4d %s:%d\n"`. -/
def frameLine (iLevel : Nat) (f : Frame) : Bytes :=
  if f.what.head? = some 67 then
    match f.name with
    | some name => dec4 iLevel ++ [91, 67, 93, 32, 58, 32, 105, 110, 32] ++ cstr name ++ [10]
    | none => dec4 iLevel ++ [91, 67, 93, 32, 58, 10]
  else
    match f.name with
    | some name => dec4 iLevel ++ [32] ++ cstr f.short_src ++ [58] ++ dec f.currentline ++ [32, 105, 110, 32] ++
        cstr name ++ [10]
    | none => dec4 iLevel ++ [32] ++ cstr f.short_src ++ [58] ++ dec f.currentline ++ [10]

/-- `LUV_STACKDUMP_STR`: a line feed, `===========[luv_stackdump]==============` and a line feed. -/
def LUV_STACKDUMP_STR : Bytes :=
  [10] ++ List.replicate 11 61 ++ [91, 108, 117, 118, 95, 115, 116, 97, 99, 107, 100, 117, 109, 112, 93] ++
    List.replicate 14 61 ++ [10]

/-! ## The dump -/

/-- `g_ErrMsgBuff`, and the Lua stack with its top in front. -/
abbrev Dump := Buff 1024 × List Val

/-- `sprintf(g_ErrMsgBuff + strlen(g_ErrMsgBuff), ..)`. -/
def put (s : Bytes) (d : Dump) : Option Dump := (d.1.sprintf s).map fun b => (b, d.2)

/-- The variables that are not listed: `_ENV`, `_G`, and those that are nil. -/
def Hidden (v : Var) : Prop := cstr v.1 = [95, 69, 78, 86] ∨ cstr v.1 = [95, 71] ∨ v.2 = .nil

instance (v : Var) : Decidable (Hidden v) :=
  have : Decidable (v.2 = .nil) := match v.2 with
    | .nil => .isTrue rfl
    | .boolean _ | .number _ | .string _ | .lightuserdata _ | .userdata _ | .thread _ | .function _ | .table _ =>
      .isFalse fun h => by cases h
  inferInstanceAs (Decidable (_ ∨ _ ∨ _))

/-- The body of both loops: the value is on the stack, and `continue` leaves it there. -/
def dumpVar (L : State) (v : Var) (d : Dump) : Option Dump :=
  if Hidden v then some (d.1, v.2 :: d.2) else put (varLine L v) d

/-- The loop over the local variables. -/
def dumpLocals (L : State) : List Var → Dump → Option Dump
  | [], d => some d
  | v :: vs, d => (dumpVar L v d).bind (dumpLocals L vs)

/-- `lua_getupvalue(L, -1, iIndex)`. -/
def getupvalue (L : State) (stack : List Val) (iIndex : Nat) : Option Var :=
  match stack with
  | .function p :: _ => (L.upvalues p)[iIndex - 1]?
  | _ => none

theorem getupvalue_le {L : State} {stack : List Val} {iIndex : Nat} {v : Var} (h : getupvalue L stack iIndex = some v) :
    iIndex ≤ 255 := by
  unfold getupvalue at h
  split at h
  · next p _ =>
    have hlt := (List.getElem?_eq_some_iff.1 h).1
    have hle := L.upvalues_le p
    omega
  · cases h

/-- The loop over the upvalues of what is at the top of the stack. -/
def dumpUpvalues (L : State) (iIndex : Nat) (d : Dump) : Option Dump :=
  match h : getupvalue L d.2 iIndex with
  | none => some d
  | some v => (dumpVar L v d).bind (dumpUpvalues L (iIndex + 1))
termination_by 256 - iIndex
decreasing_by
  have hle := getupvalue_le h
  omega

/-- `luv_stackdump_impl`, with the frames from `iLevel` on. -/
def luv_stackdump_impl (L : State) : Nat → List Frame → Dump → Option Dump
  | _, [], d => some d
  | iLevel, f :: fs, d =>
    (((put (frameLine iLevel f) d).bind (dumpLocals L f.locals)).bind (dumpUpvalues L 1)).bind
      (luv_stackdump_impl L (iLevel + 1) fs)

/-- `"%s\n"` of `lua_tostring`, which is NULL for a value that is neither a number nor a string. -/
def messageLine : Val → Bytes
  | .number s | .string s => cstr s ++ [10]
  | _ => [40, 110, 117, 108, 108, 41, 10]

/-- `luv_stackdump` with what is on the Lua stack. -/
def luv_stackdump (L : State) (stack : List Val) (frames : List Frame) (g_ErrMsgBuff : Buff 1024) : Option Dump :=
  let start := (g_ErrMsgBuff.strcpy LUV_STACKDUMP_STR).map fun b => (b, stack)
  (match stack with
    | [] => start
    | v :: _ => start.bind (put (messageLine v))).bind (luv_stackdump_impl L 1 frames)

/-- `luv_error` with the name and the text of the error. -/
def luv_error (L : State) (sErrName sErrStr : Bytes) (stack : List Val) (frames : List Frame)
    (g_ErrMsgBuff : Buff 1024) :
    Option Dump :=
  let message := [91, 108, 117, 118, 95, 101, 114, 114, 111, 114, 93] ++ cstr sErrName ++ [58, 32] ++ cstr sErrStr
  let stack := .string (cstr sErrName) :: .string message :: .nil :: stack
  (((g_ErrMsgBuff.strcpy LUV_STACKDUMP_STR).map fun b => (b, stack)).bind
    (put (cstr sErrName ++ [58] ++ cstr sErrStr ++ [10]))).bind (luv_stackdump_impl L 1 frames)

/-! ## What the lines take -/

/-- A line of a variable. -/
def varSize (L : State) (v : Var) : Nat :=
  if Hidden v then 0 else (cstr v.1).length + (typename v.2).length + (valueText L v.2).length + 8

/-- A line of a frame. -/
def frameSize (iLevel : Nat) (f : Frame) : Nat :=
  max 4 (dec iLevel).length +
    (if f.what.head? = some 67 then match f.name with
      | some name => (cstr name).length + 10
      | none => 6
    else (cstr f.short_src).length + (dec f.currentline).length + match f.name with
      | some name => (cstr name).length + 7
      | none => 3)

/-- What is left on the stack by variables. -/
def leave (stack : List Val) (vs : List Var) : List Val :=
  vs.foldl (fun stack v => if Hidden v then v.2 :: stack else stack) stack

/-- The lines of the upvalues from an index on, and the stack then. -/
def upvalSize (L : State) (iIndex : Nat) (stack : List Val) : Nat × List Val :=
  match _h : getupvalue L stack iIndex with
  | none => (0, stack)
  | some v =>
    let rest := upvalSize L (iIndex + 1) (leave stack [v])
    (varSize L v + rest.1, rest.2)
termination_by 256 - iIndex
decreasing_by
  have hle := getupvalue_le ‹getupvalue L stack iIndex = some v›
  omega

/-- What is left on the stack by the variables of frames. -/
def framesLeave (L : State) : List Frame → List Val → List Val
  | [], stack => stack
  | f :: fs, stack => framesLeave L fs (upvalSize L 1 (leave stack f.locals)).2

/-- The lines of the frames. -/
def dumpSize (L : State) : Nat → List Frame → List Val → Nat
  | _, [], _ => 0
  | iLevel, f :: fs, stack =>
    let upvals := upvalSize L 1 (leave stack f.locals)
    frameSize iLevel f + (f.locals.map (varSize L)).sum + upvals.1 + dumpSize L (iLevel + 1) fs upvals.2

/-- The line of the message. -/
def messageSize : List Val → Nat
  | [] => 0
  | .number s :: _ | .string s :: _ => (cstr s).length + 1
  | _ :: _ => 7

/-! ## Lines -/

section Lines

variable {L : State}

theorem zero_not_mem_dec (n : Int) : 0 ∉ dec n := by
  have hdigit : ∀ d < 10, (0 : UInt8) ≠ digitByte d := by decide
  have hnat : 0 ∉ decNat n.natAbs := by
    intro h
    obtain ⟨d, hd, heq⟩ := List.mem_map.1 h
    exact hdigit d (decDigits_lt hd) heq.symm
  unfold dec
  split
  · exact List.not_mem_cons_of_ne_of_not_mem (by decide) hnat
  · exact hnat

theorem zero_not_mem_dec4 (n : Int) : 0 ∉ dec4 n := by
  rw [dec4, List.mem_append, not_or]
  refine ⟨fun h => ?_, zero_not_mem_dec n⟩
  exact absurd (List.eq_of_mem_replicate h) (by decide)

theorem length_dec4 (n : Int) : (dec4 n).length = max 4 (dec n).length := by
  rw [dec4, List.length_append, List.length_replicate]
  omega

theorem zero_not_mem_typename (v : Val) : 0 ∉ typename v := by
  cases v <;> simp [typename]

theorem zero_not_mem_valueText (v : Val) : 0 ∉ valueText L v := by
  cases v with
  | nil => exact List.not_mem_nil
  | boolean b => cases b <;> simp [valueText]
  | number s | string s => exact zero_not_mem_cstr s
  | lightuserdata p | userdata p | thread p | function p | table p =>
    have hp := L.zero_not_mem_pointer p
    simp [valueText, hp]

theorem zero_not_mem_varLine (v : Var) : 0 ∉ varLine L v := by
  have h1 := zero_not_mem_cstr v.1
  have h2 := zero_not_mem_typename v.2
  have h3 := zero_not_mem_valueText (L := L) v.2
  simp [varLine, h1, h2, h3]

theorem zero_not_mem_frameLine (iLevel : Nat) (f : Frame) : 0 ∉ frameLine iLevel f := by
  have h1 := zero_not_mem_dec4 iLevel
  have h2 := zero_not_mem_dec f.currentline
  have h3 := zero_not_mem_cstr f.short_src
  unfold frameLine
  split
  · split
    · next name _ =>
      have h4 := zero_not_mem_cstr name
      simp [h1, h4]
    · simp [h1]
  · split
    · next name _ =>
      have h4 := zero_not_mem_cstr name
      simp [h1, h2, h3, h4]
    · simp [h1, h2, h3]

theorem length_varLine {v : Var} (hv : ¬Hidden v) : (varLine L v).length = varSize L v := by
  rw [varSize, if_neg hv]
  simp only [varLine, List.length_append, List.length_cons, List.length_nil]
  omega

theorem length_frameLine (iLevel : Nat) (f : Frame) : (frameLine iLevel f).length = frameSize iLevel f := by
  unfold frameLine frameSize
  split
  · cases f.name with
    | none => simp only [List.length_append, List.length_cons, List.length_nil, length_dec4]
    | some name =>
      simp only [List.length_append, List.length_cons, List.length_nil, length_dec4]
      omega
  · cases f.name with
    | none =>
      simp only [List.length_append, List.length_cons, List.length_nil, length_dec4]
      omega
    | some name =>
      simp only [List.length_append, List.length_cons, List.length_nil, length_dec4]
      omega

theorem zero_not_mem_messageLine (v : Val) : 0 ∉ messageLine v := by
  cases v with
  | number s | string s =>
    have h := zero_not_mem_cstr s
    simp [messageLine, h]
  | _ => simp [messageLine]

theorem length_messageLine (v : Val) (stack : List Val) : (messageLine v).length = messageSize (v :: stack) := by
  cases v with
  | number s | string s => rw [messageLine, List.length_append]; rfl
  | _ => rfl

end Lines

/-! ## The dump in the buffer -/

section Runs

variable {L : State} {n : Nat} {b : Buff 1024}

theorem stores_put {s : Bytes} (stack : List Val) (hs : 0 ∉ s) (hb : b.strlen = n) :
    Stores n s.length stack (put s (b, stack)) :=
  stores_sprintf hb hs

theorem stores_dumpVar (v : Var) (stack : List Val) (hb : b.strlen = n) (hn : n + 1 ≤ 1024) :
    Stores n (varSize L v) (leave stack [v]) (dumpVar L v (b, stack)) := by
  unfold dumpVar
  by_cases hv : Hidden v
  · rw [if_pos hv, varSize, if_pos hv, leave, List.foldl_cons, List.foldl_nil, if_pos hv]
    exact stores_zero hb hn
  · rw [if_neg hv, ← length_varLine hv, leave, List.foldl_cons, List.foldl_nil, if_neg hv]
    exact stores_put stack (zero_not_mem_varLine v) hb

theorem stores_dumpLocals : ∀ (vs : List Var) (stack : List Val) {n : Nat} {b : Buff 1024}, b.strlen = n →
    n + 1 ≤ 1024 → Stores n (vs.map (varSize L)).sum (leave stack vs) (dumpLocals L vs (b, stack))
  | [], _, _, _, hb, hn => stores_zero hb hn
  | v :: vs, stack, _, _, hb, hn =>
    (stores_dumpVar v stack hb hn).bind fun _ hb' hn' => stores_dumpLocals vs (leave stack [v]) hb' hn'

theorem stores_dumpUpvalues (iIndex : Nat) (stack : List Val) (hb : b.strlen = n) (hn : n + 1 ≤ 1024) :
    Stores n (upvalSize L iIndex stack).1 (upvalSize L iIndex stack).2 (dumpUpvalues L iIndex (b, stack)) := by
  -- an index above 255 finds nothing
  induction hk : 256 - iIndex using Nat.strongRecOn generalizing iIndex stack n b with
  | _ k ih =>
  rw [dumpUpvalues, upvalSize]
  split
  · next h =>
    split
    · exact stores_zero hb hn
    · next h' => cases h.symm.trans h'
  · next v h =>
    split
    · next h' => cases h.symm.trans h'
    · next v' h' =>
      obtain rfl : v = v' := Option.some.inj (h.symm.trans h')
      have hle := getupvalue_le h
      refine (stores_dumpVar v stack hb hn).bind fun _ hb' hn' => ?_
      exact ih (256 - (iIndex + 1)) (by omega) (iIndex + 1) (leave stack [v]) hb' hn' rfl

/-- **The frames**, one after the other. -/
theorem stores_impl : ∀ (fs : List Frame) (iLevel : Nat) (stack : List Val) {n : Nat} {b : Buff 1024}, b.strlen = n →
    n + 1 ≤ 1024 →
    Stores n (dumpSize L iLevel fs stack) (framesLeave L fs stack) (luv_stackdump_impl L iLevel fs (b, stack))
  | [], _, _, _, _, hb, hn => stores_zero hb hn
  | f :: fs, iLevel, stack, _, _, hb, hn => by
    have hframe := stores_put stack (zero_not_mem_frameLine iLevel f) hb
    rw [length_frameLine] at hframe
    exact ((hframe.bind fun _ hb' hn' => stores_dumpLocals f.locals stack hb' hn').bind
      fun _ hb' hn' => stores_dumpUpvalues 1 (leave stack f.locals) hb' hn').bind
      fun _ hb' hn' => stores_impl fs (iLevel + 1) _ hb' hn'

theorem stores_start (g_ErrMsgBuff : Buff 1024) (stack : List Val) :
    Stores 0 42 stack ((g_ErrMsgBuff.strcpy LUV_STACKDUMP_STR).map fun b => (b, stack)) := by
  cases h : g_ErrMsgBuff.strcpy LUV_STACKDUMP_STR with
  | none => exact .outside (Buff.store_eq_none.1 h)
  | some b => exact .inside (Buff.strlen_store (Nat.zero_le _) (by decide) h) (by decide)

/-- **`luv_stackdump`** as a whole. -/
theorem stores_stackdump (stack : List Val) (frames : List Frame) (g_ErrMsgBuff : Buff 1024) :
    Stores 0 (42 + messageSize stack + dumpSize L 1 frames stack) (framesLeave L frames stack)
      (luv_stackdump L stack frames g_ErrMsgBuff) := by
  have hstart := stores_start g_ErrMsgBuff stack
  cases stack with
  | nil => exact hstart.bind fun _ hb hn => stores_impl frames 1 [] hb hn
  | cons v stack =>
    have hmessage := hstart.bind fun _ hb _ => stores_put (v :: stack) (zero_not_mem_messageLine v) hb
    rw [length_messageLine v stack] at hmessage
    exact hmessage.bind fun _ hb hn => stores_impl frames 1 (v :: stack) hb hn

/-- What `luv_error` pushes. -/
def pushed (sErrName sErrStr : Bytes) (stack : List Val) : List Val :=
  .string (cstr sErrName) :: .string
    ([91, 108, 117, 118, 95, 101, 114, 114, 111, 114, 93] ++ cstr sErrName ++ [58, 32] ++ cstr sErrStr) ::
    .nil :: stack

/-- **`luv_error`** as a whole. -/
theorem stores_error (sErrName sErrStr : Bytes) (stack : List Val) (frames : List Frame) (g_ErrMsgBuff : Buff 1024) :
    Stores 0 (42 + ((cstr sErrName).length + (cstr sErrStr).length + 2) + dumpSize L 1 frames
      (pushed sErrName sErrStr stack))
      (framesLeave L frames (pushed sErrName sErrStr stack))
      (luv_error L sErrName sErrStr stack frames g_ErrMsgBuff) := by
  have hzero : 0 ∉ cstr sErrName ++ [58] ++ cstr sErrStr ++ [10] := by
    have h1 := zero_not_mem_cstr sErrName
    have h2 := zero_not_mem_cstr sErrStr
    simp [h1, h2]
  have hlen : (cstr sErrName ++ [58] ++ cstr sErrStr ++ [10]).length =
      (cstr sErrName).length + (cstr sErrStr).length + 2 := by
    simp only [List.length_append, List.length_singleton]
    omega
  have hmessage := (stores_start g_ErrMsgBuff (pushed sErrName sErrStr stack)).bind fun _ hb _ => stores_put _ hzero hb
  rw [hlen] at hmessage
  exact hmessage.bind fun _ hb hn => stores_impl frames 1 _ hb hn

end Runs

/-- **When the calls stay inside the buffer**: if the line at the head with the message, and the lines of the frames, of
their variables and of the upvalues leave room for the last byte. -/
theorem stackdump_exact (L : State) (stack : List Val) (frames : List Frame) (g_ErrMsgBuff : Buff 1024) :
    ((∃ d, luv_stackdump L stack frames g_ErrMsgBuff = some d) ↔ messageSize stack + dumpSize L 1 frames stack ≤ 981) ∧
    ∀ sErrName sErrStr, (∃ d, luv_error L sErrName sErrStr stack frames g_ErrMsgBuff = some d) ↔
      (cstr sErrName).length + (cstr sErrStr).length + dumpSize L 1 frames (pushed sErrName sErrStr stack) ≤ 979 := by
  refine ⟨(stores_stackdump stack frames g_ErrMsgBuff).isSome_iff.trans ?_, fun sErrName sErrStr =>
    (stores_error sErrName sErrStr stack frames g_ErrMsgBuff).isSome_iff.trans ?_⟩
  · omega
  · omega

/-- A message of 1000 bytes is too long. -/
theorem stackdump_overflows : ¬∀ (L : State) (stack : List Val) (frames : List Frame) (g_ErrMsgBuff : Buff 1024),
    ∃ d, luv_stackdump L stack frames g_ErrMsgBuff = some d := by
  intro h
  let L : State := ⟨fun _ => [], fun _ => Nat.zero_le _, fun _ => [], fun _ => List.not_mem_nil⟩
  let message : Bytes := List.replicate 1000 97
  have hinside :=
    (stores_stackdump (L := L) [.string message] [] ⟨List.replicate 1024 0, List.length_replicate⟩).isSome_iff.1
      (h _ _ _ _)
  have hmessage : (cstr message).length = 1000 := by
    rw [cstr, List.takeWhile_eq_self_iff.2 fun c hc => ?_]
    · exact List.length_replicate
    · rw [List.eq_of_mem_replicate hc]
      decide
  have hsize : messageSize [.string message] = 1001 := congrArg (· + 1) hmessage
  rw [hsize] at hinside
  omega

end XCore.Luv
