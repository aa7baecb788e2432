import XCore.Require.Require

/-!
# Modules that require modules

Code is a program: what it does to the tables, up to the calls of `require` that it makes. `codeWithin` is the code of
modules whose bodies and functions are programs; their calls of `require` are calls of `require` in turn, within some
depth of the stack.

`tracedWithin` does the same and keeps a record of what is required, run and returned. The record changes nothing
(`trace_erases`).
-/

namespace XCore.Require

open XCore.Lua XCore.Heap XCore.Effect

/-- Code that comes to an end: what it does to the tables and the calls of `require` it makes. It leaves `_MODULE` and
`_CLASS` to `require`. -/
inductive Program (φ : Type)
  | done
  | raise (e : LuaError)
  | tables (f : St φ → Store φ) (k : St φ → Program φ)
  | require (name : String) (k : Val φ → Program φ)

/-- The bodies of the files, what the functions do that are called as hooks or as `__newindex`, and the modules that are
built in. -/
structure Modules (φ χ : Type) where
  body : χ → Ref → Program φ
  hook : φ → Ref → Program φ
  newindex : φ → Ref → Val φ → Val φ → Program φ
  builtin : String → Option (Val φ)

/-- A run of a program. -/
def Program.run {φ : Type} (require : String → St φ → Act φ × Val φ) : Program φ → St φ → Option LuaError × St φ
  | .done, s => (none, s)
  | .raise e, s => (some e, s)
  | .tables f k, s => (k s).run require { s with heap := f s }
  | .require name k, s =>
    match (require name s).1.err with
    | some e => (some e, (require name s).1.state)
    | none => (k (require name s).2).run require (require name s).1.state

/-- What happens while files are required: `require` is called and returns, in the code of a file or elsewhere; the body
of a file is entered and left, its `__init__` is called, and the file is finished; code raises an error itself. -/
inductive Event (φ : Type)
  | calls (who : Option String) (name : String)
  | returns (who : Option String) (name : String) (v : Val φ)
  | enter (file : String)
  | leave (file : String) (M : Ref) (s : St φ)
  | init (file : String) (f : φ)
  | finish (file : String)
  | raises

/-- What code does, with the record of it. -/
abbrev Trace (φ : Type) := Done (St φ) (Event φ) LuaError

/-- An event, and the state it leaves. -/
def emit {φ : Type} (e : Event φ) (s : St φ) : Trace φ := ⟨s, [e], none⟩

/-- A part of `require` of which no record is kept. -/
def silent {φ : Type} (r : Act φ) : Trace φ := ⟨r.state, [], r.err⟩

/-- A run of a program, with its record. -/
def Program.trace {φ : Type} (require : String → St φ → Trace φ × Val φ) (who : Option String) :
    Program φ → St φ → Trace φ
  | .done, s => .skip s
  | .raise e, s => ⟨s, [.raises], some e⟩
  | .tables f k, s => (k s).trace require who { s with heap := f s }
  | .require name k, s => (emit (.calls who name) s).andThen fun s =>
    (require name s).1.andThen fun t =>
    (emit (.returns who name (require name s).2) t).andThen ((k (require name s).2).trace require who)

/-- The code of modules with its record; a file is known by the name it is found under. -/
structure Traced (φ χ : Type) where
  call : φ → String → Ref → St φ → Trace φ
  exec : χ → String → Ref → St φ → Trace φ

section

variable {φ χ : Type} [DecidableEq φ] (T : Traced φ χ) (builtin : String → Option (Val φ)) (O : Order φ)
    (files : String → File χ)

/-- `_CallInit`, with its record. -/
def tracedInit (file : String) (M : Ref) (s : St φ) : Trace φ := (silent (registerAll O M s)).andThen fun s =>
  match s.heap.index M Hook.init.key with
  | .ok (.fn f) => (emit (.init file f) s).andThen (T.call f file M)
  | r => silent (read r s fun v => if v.truthy then raise .callValue s else .skip s)

/-- `require` of a file that is not loaded, with its record. -/
def tracedLoad (file : String) (c : χ) (New : Ref) (s : St φ) : Trace φ :=
  (emit (.enter file) s).andThen fun s => (T.exec c file New s).andThen fun s =>
  (emit (.leave file New s) { s with MODULE := Function.update s.MODULE file (some New) }).andThen fun s =>
  (tracedInit T O file New s).andThen (emit (.finish file))

/-- `require` without reload, with its record. -/
def traced (name : String) (s : St φ) : Trace φ × Val φ :=
  match builtin name with
  | some v => (.skip s, v)
  | none =>
    match s.MODULE name with
    | some Old => (.skip s, .tab Old)
    | none =>
      match LoadFile files name with
      | .error e => (silent (raise e (opened s)), .nil)
      | .ok (c, file) =>
        match s.MODULE file with
        | some Old => (.skip (opened s), .tab Old)
        | none => (tracedLoad T O file c (fresh s) (opened s), .tab (fresh s))

variable (P : Modules φ χ)

/-- The code of modules, within some depth of the stack. -/
def codeWithin : Nat → Code φ χ
  | 0 => ⟨fun _ _ s => (some .stackOverflow, s), fun _ _ _ _ s => (some .stackOverflow, s),
      fun _ _ s => (some .stackOverflow, s), P.builtin⟩
  | n + 1 => ⟨fun f M => (P.hook f M).run fun name => require (codeWithin n) O files name false,
      fun f r k v => (P.newindex f r k v).run fun name => require (codeWithin n) O files name false,
      fun c M => (P.body c M).run fun name => require (codeWithin n) O files name false, P.builtin⟩

/-- And with its record. -/
def tracedWithin : Nat → Traced φ χ
  | 0 => ⟨fun _ _ _ s => ⟨s, [], some .stackOverflow⟩, fun _ _ _ s => ⟨s, [], some .stackOverflow⟩⟩
  | n + 1 => ⟨fun f file M => (P.hook f M).trace (traced (tracedWithin n) P.builtin O files) (some file),
      fun c file M => (P.body c M).trace (traced (tracedWithin n) P.builtin O files) (some file)⟩

end

/-! ## The record changes nothing -/

section

variable {φ χ : Type} [DecidableEq φ] {T : Traced φ χ} {K : Code φ χ} {O : Order φ} {files : String → File χ}
    {s t : St φ}
  {x : Trace φ} {err : Option LuaError} {M : Ref}

/-- Without its record, a run ends in this state, with this error if any. -/
structure Erases (x : Trace φ) (err : Option LuaError) (t : St φ) : Prop where
  err : x.err = err
  state : x.state = t

omit [DecidableEq φ] in
theorem Erases.andThen {r : Act φ} {k : St φ → Trace φ} {k' : St φ → Act φ} (h : Erases x r.err r.state)
    (hk : Erases (k r.state) (k' r.state).err (k' r.state).state) :
    Erases (x.andThen k) (r.andThen k').err (r.andThen k').state := by
  obtain ⟨herr, hstate⟩ := h
  cases hr : r.err with
  | some e =>
    rw [Done.andThen_of_err (herr.trans hr), Done.andThen_of_err hr]
    exact ⟨herr, hstate⟩
  | none =>
    rw [Done.andThen_of_ok (herr.trans hr), Done.andThen_of_ok hr, hstate]
    exact ⟨hk.err, hk.state⟩

omit [DecidableEq φ] in
/-- An event at the beginning. -/
theorem Erases.emit {e : Event φ} {k : St φ → Trace φ} (h : Erases (k s) err t) : Erases ((emit e s).andThen k) err t :=
  ⟨h.err, h.state⟩

omit [DecidableEq φ] in
theorem Erases.silent (r : Act φ) : Erases (silent r) r.err r.state := ⟨rfl, rfl⟩

omit [DecidableEq φ] in
/-- An event at the end. -/
theorem Erases.finish {e : Event φ} (h : Erases x err t) : Erases (x.andThen (Require.emit e)) err t := by
  obtain ⟨rfl, rfl⟩ := h
  cases hx : x.err with
  | some e' =>
    rw [Done.andThen_of_err hx]
    exact ⟨hx, rfl⟩
  | none =>
    rw [Done.andThen_of_ok hx]
    exact ⟨rfl, rfl⟩

omit [DecidableEq φ] in
theorem Program.trace_erases {require : String → St φ → Act φ × Val φ} {tracing : String → St φ → Trace φ × Val φ}
    (h : ∀ name s, Erases (tracing name s).1 (require name s).1.err (require name s).1.state ∧
      (tracing name s).2 = (require name s).2)
    (who : Option String) (p : Program φ) (s : St φ) : Erases (p.trace tracing who s) (p.run require s).1
      (p.run require s).2 := by
  induction p generalizing s with
  | done => exact ⟨rfl, rfl⟩
  | raise e => exact ⟨rfl, rfl⟩
  | tables f k ih => exact ih s _
  | require name k ih =>
    obtain ⟨⟨herr, hstate⟩, hvalue⟩ := h name s
    apply Erases.emit
    unfold Program.run
    cases hr : (require name s).1.err with
    | some e =>
      rw [Done.andThen_of_err (herr.trans hr)]
      exact ⟨herr.trans hr, hstate⟩
    | none =>
      rw [Done.andThen_of_ok (herr.trans hr), hstate, hvalue]
      have hrest := Erases.emit (e := .returns who name (require name s).2)
        (ih (require name s).2 (require name s).1.state)
      exact ⟨hrest.err, hrest.state⟩

/-- The code does the same with its record. -/
structure SameCode (T : Traced φ χ) (K : Code φ χ) : Prop where
  call : ∀ f file M s, Erases (T.call f file M s) (K.call f M s).1 (K.call f M s).2
  exec : ∀ c file M s, Erases (T.exec c file M s) (K.exec c M s).1 (K.exec c M s).2

theorem tracedInit_erases (h : SameCode T K) (file : String) (M : Ref) (s : St φ) :
    Erases (tracedInit T O file M s) (CallInit K O M s).err (CallInit K O M s).state := by
  apply (Erases.silent (registerAll O M s)).andThen
  generalize (registerAll O M s).state = t
  unfold callHook
  cases t.heap.index M Hook.init.key with
  | error e => exact Erases.silent _
  | ok v =>
    cases v with
    | fn f => exact Erases.emit (h.call f file M t)
    | nil => exact Erases.silent _
    | bool b =>
      cases b with
      | false => exact Erases.silent _
      | true => exact Erases.silent _
    | num n => exact Erases.silent _
    | str x => exact Erases.silent _
    | tab r => exact Erases.silent _

theorem tracedLoad_erases (h : SameCode T K) (file : String) (c : χ) (New : Ref) (s : St φ) :
    Erases (tracedLoad T O file c New s) (loadModule K O file c none New s).err
    (loadModule K O file c none New s).state := by
  apply Erases.emit
  refine Erases.andThen (r := ⟨(K.exec c New s).2, [], (K.exec c New s).1⟩) (h.exec c file New s) ?_
  apply Erases.emit
  exact Erases.finish (tracedInit_erases h file New _)

theorem traced_erases (O : Order φ) (files : String → File χ) (h : SameCode T K) (name : String) (s : St φ) :
    Erases (traced T K.builtin O files name s).1 (require K O files name false s).1.err
    (require K O files name false s).1.state ∧
      (traced T K.builtin O files name s).2 = (require K O files name false s).2 := by
  unfold traced require
  cases K.builtin name with
  | some v => exact ⟨⟨rfl, rfl⟩, rfl⟩
  | none =>
    cases s.MODULE name with
    | some Old => exact ⟨⟨rfl, rfl⟩, rfl⟩
    | none =>
      cases LoadFile files name with
      | error e => exact ⟨⟨rfl, rfl⟩, rfl⟩
      | ok found =>
        dsimp only
        cases s.MODULE found.2 with
        | some Old => exact ⟨⟨rfl, rfl⟩, rfl⟩
        | none => exact ⟨tracedLoad_erases h found.2 found.1 _ _, rfl⟩

theorem codeWithin_builtin (P : Modules φ χ) (n : Nat) : (codeWithin O files P n).builtin = P.builtin := by
  cases n with
  | zero => rfl
  | succ n => rfl

theorem sameCode (O : Order φ) (files : String → File χ) (P : Modules φ χ) (n : Nat) :
    SameCode (tracedWithin O files P n) (codeWithin O files P n) := by
  induction n with
  | zero => exact ⟨fun _ _ _ _ => ⟨rfl, rfl⟩, fun _ _ _ _ => ⟨rfl, rfl⟩⟩
  | succ n ih =>
    have hrequire := fun name s => traced_erases O files ih name s
    rw [codeWithin_builtin] at hrequire
    constructor
    · intro f file M s
      exact (P.hook f M).trace_erases hrequire (some file) s
    · intro c file M s
      exact (P.body c M).trace_erases hrequire (some file) s

/-- **The record changes nothing**: a program that keeps a record of what it requires ends as it does without. -/
theorem trace_erases (O : Order φ) (files : String → File χ) (P : Modules φ χ) (n : Nat) (who : Option String)
    (p : Program φ) (s : St φ) :
    Erases (p.trace (traced (tracedWithin O files P n) P.builtin O files) who s)
      (p.run (fun name => require (codeWithin O files P n) O files name false) s).1
      (p.run (fun name => require (codeWithin O files P n) O files name false) s).2 := by
  refine p.trace_erases (fun name s => ?_) who s
  have hrequire := traced_erases O files (sameCode O files P n) name s
  rw [codeWithin_builtin] at hrequire
  exact hrequire

end

end XCore.Require
