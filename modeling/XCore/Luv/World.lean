import XCore.Lib.Refs

/-!
# Handles and requests of luv (`luv_lhandle.c`, `luv_handle.c`, `luv_req.c`)

A handle and a request are userdata that libuv keeps a pointer to. What belongs to them is in the Lua registry: the
userdata itself, so that it is not collected, the callbacks of a handle, the continuation of a request and the data that
is written.

- The first part is what the functions of `luv_lhandle.c` and `luv_req.c` do with the references;
- `step` is one action: a program calls one of the functions, libuv calls back, or a Lua function that was called
  returns. It has no result where the process crashes, and else says which Lua value was called.

The operations on references are a parameter: those of the registry, or those of references that are the values
themselves.
-/

namespace XCore.Luv

open XCore.Refs

/-- What is in the registry: the userdata of handles and requests, and what the program has given. -/
inductive Value (F : Type)
  | handle (h : Nat)
  | req (r : Nat)
  | lua (v : F)

inductive luv_callback_id
  | CLOSED
  | EVENT

structure luv_handle_t (R : Type) where
  ref : R
  callbacks : luv_callback_id → Option R

structure luv_req_t (R : Type) where
  req_ref : R
  callback_ref : Option R
  data_ref : Option R

section

variable {S R F : Type} (ops : Ops S R (Value F))

def luv_handle_setup (s : S) (h : Nat) : luv_handle_t R × S :=
  let p := ops.ref s (.handle h)
  (⟨p.1, fun _ => none⟩, p.2)

/-- The new callback in the place of the old one. -/
def luv_handle_t.put (data : luv_handle_t R) : luv_callback_id → R → luv_handle_t R
  | .CLOSED, r => { data with callbacks := fun | .CLOSED => some r | .EVENT => data.callbacks .EVENT }
  | .EVENT, r => { data with callbacks := fun | .CLOSED => data.callbacks .CLOSED | .EVENT => some r }

def luv_callback_check (s : S) (data : luv_handle_t R) (id : luv_callback_id) (f : F) : luv_handle_t R × S :=
  let p := ops.ref (ops.unref? s (data.callbacks id)) (.lua f)
  (data.put id p.1, p.2)

def luv_callback_call (s : S) (data : luv_handle_t R) (id : luv_callback_id) : Option (Value F) :=
  (data.callbacks id).bind (ops.get s)

def luv_handle_cleanup (s : S) (data : luv_handle_t R) : S :=
  ops.unref? (ops.unref? (ops.unref s data.ref) (data.callbacks .CLOSED)) (data.callbacks .EVENT)

/-- `luaL_ref` of a value that may be absent. -/
def store (s : S) : Option F → Option R × S
  | none => (none, s)
  | some v =>
    let p := ops.ref s (.lua v)
    (some p.1, p.2)

def luv_req_check_continuation (s : S) (f : Option F) : Option R × S := store ops s f

def luv_req_setup (s : S) (r : Nat) (callback_ref : Option R) : luv_req_t R × S :=
  let p := ops.ref s (.req r)
  (⟨p.1, callback_ref, none⟩, p.2)

/-- The data of a request with its continuation, and with what is stored once libuv has the request. -/
def luv_req (s : S) (r : Nat) (f v : Option F) : luv_req_t R × S :=
  let c := luv_req_check_continuation ops s f
  let p := luv_req_setup ops c.2 r c.1
  let d := store ops p.2 v
  ({ p.1 with data_ref := d.1 }, d.2)

def luv_req_fulfill (s : S) (data : luv_req_t R) : Option (Value F) := data.callback_ref.bind (ops.get s)

def luv_req_cleanup (s : S) (data : luv_req_t R) : S :=
  ops.unref? (ops.unref? (ops.unref s data.req_ref) data.callback_ref) data.data_ref

end

/-! ## The state -/

/-- `UV_CLOSING` and `UV_CLOSED`. -/
inductive Phase
  | opened
  | closing
  | closed
deriving DecidableEq

/-- The functions that make a request; `fs` is for those that have no branch of their own in `FS_CALL` or `luv_fs_cb`. A
write has its data, and a scan finds its directory or not. -/
inductive Kind (F : Type)
  | shutdown
  | write (v : F)
  | connect
  | send
  | dns
  | fs
  | access
  | scandir (finds : Bool)

structure Handle (R : Type) where
  phase : Phase
  data : Option (luv_handle_t R)

/-- A request, which libuv has to complete or not. -/
structure Req (R F : Type) where
  kind : Kind F
  flying : Bool
  data : Option (luv_req_t R)

/-- The C functions that have called Lua: a callback that does nothing afterwards, `luv_handle_close_cb` or the callback
of a request. -/
inductive Pending
  | event
  | close (h : Nat)
  | complete (r : Nat)
deriving DecidableEq

structure World (S R F : Type) where
  store : S
  handles : List (Handle R)
  reqs : List (Req R F)
  pending : List Pending

/-! ## Requests -/

namespace Kind

variable {F : Type}

/-- Whether the handle is checked for its data, as `luv_tcp_check`, `luv_pipe_check` and `luv_udp_check` do. -/
def checked : Kind F → Bool
  | connect | send => true
  | _ => false

/-- Whether libuv will call back after a call with or without a continuation, which has succeeded or not. -/
def flies (kind : Kind F) (continuation ok : Bool) : Bool :=
  match kind with
  | shutdown | write _ | connect | send => ok
  | dns | fs | access | scandir _ => ok && continuation

/-- Whether the data of the request outlives the call. -/
def keeps (kind : Kind F) (continuation ok : Bool) : Bool :=
  match kind with
  | shutdown | write _ | connect | send => true
  | dns => continuation || !ok
  | fs => ok && continuation
  | access => continuation
  | scandir _ => ok

/-- What is stored after a call that has succeeded. -/
def written : Kind F → Bool → Option F
  | write v, true => some v
  | _, _ => none

/-- Whether the callback gives the data back. -/
def cleans : Kind F → Bool
  | scandir _ => false
  | _ => true

end Kind

/-- A scan that has called back with an error: `req->ptr` is still `NULL`. -/
def Req.failed {R F : Type} (x : Req R F) : Bool :=
  match x.data, x.kind with
  | some data, .scandir finds => !x.flying && data.callback_ref.isSome && !finds
  | _, _ => false

/-! ## Steps -/

/-- What `uv_fs_scandir_next` comes upon: an entry, the end, or that `req->ptr` is `NULL` where it reads an entry. -/
inductive Next
  | entry
  | eof
  | null
deriving DecidableEq

/-- What happens: a handle is made; `luv_timer_start`, `luv_stream_listen` and so on, where the handle is checked for
its data or not; `luv_handle_close`; a request is made; `luv_req_cancel` and what `uv_cancel` returns;
`luv_fs_scandir_next` and what it comes upon; libuv calls back for a handle, for its closing or for a request; a Lua
function returns. -/
inductive Action (F : Type)
  | make
  | start (h : Nat) (checked : Bool) (f : F)
  | close (h : Nat) (f : Option F)
  | request (kind : Kind F) (h : Nat) (f : Option F) (ok : Bool)
  | cancel (r : Nat) (ok : Bool)
  | scandir_next (r : Nat) (next : Next)
  | event (h : Nat)
  | close_cb (h : Nat)
  | complete (r : Nat)
  | ret

section

variable {F : Type}

def luv_stream_listen (h : Nat) (f : F) : Action F := .start h false f

def luv_stream_read_start (h : Nat) (f : F) : Action F := .start h false f

def luv_timer_start (h : Nat) (f : F) : Action F := .start h true f

def luv_stream_shutdown (h : Nat) (f : Option F) (ok : Bool) : Action F := .request .shutdown h f ok

def luv_stream_write (h : Nat) (v : F) (f : Option F) (ok : Bool) : Action F := .request (.write v) h f ok

def luv_tcp_connect (h : Nat) (f : Option F) (ok : Bool) : Action F := .request .connect h f ok

def luv_udp_send (h : Nat) (f : Option F) (ok : Bool) : Action F := .request .send h f ok

end

namespace World

variable {S R F : Type} (ops : Ops S R (Value F)) (w : World S R F)

def setHandle (h : Nat) (x : Handle R) (s : S) : World S R F := { w with store := s, handles := w.handles.set h x }

def setReq (r : Nat) (x : Req R F) (s : S) : World S R F := { w with store := s, reqs := w.reqs.set r x }

def push (p : Pending) : World S R F := { w with pending := p :: w.pending }

/-- The functions that start a handle. -/
def start (h : Nat) (checked : Bool) (f : F) : Option (World S R F) :=
  match w.handles[h]? with
  | none => some w
  | some x =>
    match x.data with
    | none => if checked then some w else none
    | some data =>
      let p := luv_callback_check ops w.store data .EVENT f
      some (w.setHandle h { x with data := some p.1 } p.2)

def luv_handle_close (h : Nat) (f : Option F) : Option (World S R F) :=
  match w.handles[h]? with
  | none => some w
  | some x =>
    if x.phase ≠ .opened then some w
    else
      match f with
      | none => some (w.setHandle h { x with phase := .closing } w.store)
      | some f =>
        match x.data with
        | none => none
        | some data =>
          let p := luv_callback_check ops w.store data .CLOSED f
          some (w.setHandle h ⟨.closing, some p.1⟩ p.2)

/-- The functions that make a request: the data, the call of libuv, and what is left of the data. -/
def request (kind : Kind F) (f : Option F) (ok : Bool) : World S R F :=
  let p := luv_req ops w.store w.reqs.length f (kind.written ok)
  if kind.keeps f.isSome ok then { w with store := p.2, reqs := w.reqs ++ [⟨kind, kind.flies f.isSome ok, some p.1⟩] }
  else { w with store := luv_req_cleanup ops p.2 p.1, reqs := w.reqs ++ [⟨kind, kind.flies f.isSome ok, none⟩] }

/-- The data of a request is given back. -/
def release (r : Nat) : Option (World S R F) :=
  match w.reqs[r]? with
  | none => some w
  | some x =>
    match x.data with
    | none => none
    | some data => some (w.setReq r { x with data := none } (luv_req_cleanup ops w.store data))

/-- `luv_req_cancel` checks the data before it gives it back. -/
def withdraw (r : Nat) (ok : Bool) : Option (World S R F) :=
  match w.reqs[r]? with
  | none => some w
  | some x => if x.data.isSome && ok then w.release ops r else some w

/-- `luv_fs_scandir_next` checks the data, and gives it back at the end. The entries of a scan that has failed are at
`NULL`; while a scan is under way `nbufs` is what the memory of the new userdata has there, or what the thread pool has
written. -/
def scandir_next (r : Nat) (next : Next) : Option (World S R F) :=
  match w.reqs[r]? with
  | none => some w
  | some x => if x.data.isSome && (x.failed || next == .null) then none else w.withdraw ops r (next == .eof)

/-- `luv_handle_close_cb`, after the call. -/
def closed (h : Nat) : Option (World S R F) :=
  match w.handles[h]? with
  | none => some w
  | some x =>
    match x.data with
    | none => none
    | some data => some (w.setHandle h { x with data := none } (luv_handle_cleanup ops w.store data))

/-- The callback of a request, after the call. -/
def completed (r : Nat) : Option (World S R F) :=
  match w.reqs[r]? with
  | none => some w
  | some x => if x.kind.cleans then w.release ops r else some w

/-- A Lua function is called, if there is one; what is left is done when it has returned. -/
def call (v : Option (Value F)) (p : Pending) (rest : Option (World S R F)) : Option (World S R F × Option (Value F)) :=
  match v with
  | none => rest.map fun w => (w, none)
  | some v => some (w.push p, some v)

/-- Callbacks of events: `luv_timer_cb`, `luv_stream_read_cb` and so on. -/
def event (h : Nat) : Option (World S R F × Option (Value F)) :=
  match w.handles[h]? with
  | none => some (w, none)
  | some x =>
    match x.data with
    | none => none
    | some data => w.call (luv_callback_call ops w.store data .EVENT) .event (some w)

def luv_handle_close_cb (h : Nat) : Option (World S R F × Option (Value F)) :=
  match w.handles[h]? with
  | none => some (w, none)
  | some x =>
    let w' := w.setHandle h { x with phase := .closed } w.store
    match x.data with
    | none => some (w', none)
    | some data => w'.call (luv_callback_call ops w.store data .CLOSED) (.close h) (w'.closed ops h)

/-- Callbacks of requests: `luv_stream_write_cb`, `luv_fs_cb` and so on. -/
def complete (r : Nat) : Option (World S R F × Option (Value F)) :=
  match w.reqs[r]? with
  | none => some (w, none)
  | some x =>
    match x.data with
    | none => none
    | some data =>
      let w' := w.setReq r { x with flying := false } w.store
      w'.call (luv_req_fulfill ops w.store data) (.complete r) (w'.completed ops r)

/-- A Lua function returns to the C function that has called it. -/
def ret : Option (World S R F) :=
  match w.pending with
  | [] => some w
  | .event :: pending => some { w with pending := pending }
  | .close h :: pending => { w with pending := pending }.closed ops h
  | .complete r :: pending => { w with pending := pending }.completed ops r

/-- Whether a request may be made: the functions of TCP, pipes and UDP check their handle. -/
def admits (kind : Kind F) (h : Nat) : Bool := !kind.checked || (w.handles[h]?.bind Handle.data).isSome

def make : World S R F :=
  let p := luv_handle_setup ops w.store w.handles.length
  { w with store := p.2, handles := w.handles ++ [⟨.opened, some p.1⟩] }

/-- An action. -/
def step : Action F → Option (World S R F × Option (Value F))
  | .make => some (w.make ops, none)
  | .start h checked f => (w.start ops h checked f).map fun w => (w, none)
  | .close h f => (w.luv_handle_close ops h f).map fun w => (w, none)
  | .request kind h f ok => some (if w.admits kind h then w.request ops kind f ok else w, none)
  | .cancel r ok => (w.withdraw ops r ok).map fun w => (w, none)
  | .scandir_next r next => (w.scandir_next ops r next).map fun w => (w, none)
  | .event h => w.event ops h
  | .close_cb h => w.luv_handle_close_cb ops h
  | .complete r => w.complete ops r
  | .ret => (w.ret ops).map fun w => (w, none)

/-- The calls of a run, and the world it leaves unless it crashes. -/
def run : World S R F → List (Action F) → List (Option (Value F)) × Option (World S R F)
  | w, [] => ([], some w)
  | w, a :: as =>
    match w.step ops a with
    | none => ([], none)
    | some (w', c) =>
      let p := run w' as
      (c :: p.1, p.2)

end World

end XCore.Luv
