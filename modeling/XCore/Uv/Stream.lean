import Mathlib.Algebra.GroupWithZero.Nat
import XCore.Lua.Str

/-!
# Writing to a stream of libuv (`unix/stream.c`)

`uv_write` appends a request to `write_queue` and tries it at once if there is nothing else; `uv__write` gives the
request at the head to the kernel, which takes a part of it; a request that has ended goes to `write_completed_queue`,
and `uv__write_callbacks` calls back from there. `uv_shutdown` waits until the queue is empty, and closing ends what is
still in it.

- `step` is one call of a program, from a callback or from outside, or one event of the loop, with what the system calls
  answer;
- a function that has called back goes on when the callback returns: what it still has to do is in `stack`;
- a step has no result where an assertion of the source fails, where `write_queue_size` goes below zero, and where a
  system call has not returned yet.

The queues are lists, with the request that is served first at the head. The requests of `uv_write2` with a handle, and
`uv_try_write`, are left out.
-/

set_option linter.style.nameCheck false

namespace XCore.Uv

open XCore.Lua

/-- What `write` or `writev` answers: at most `n` bytes of what is offered are taken, or it fails with the `errno` that
is `e + 1`. -/
inductive Sys
  | takes (n : Nat)
  | EINTR
  | EAGAIN
  | fails (e : Nat)

/-- Why a call has no result. -/
inductive Stop
  | assertion
  | wraps
  | waits
deriving DecidableEq

/-- A request; `bufs` begins at `write_index`, and is `NULL` once they are freed. -/
structure uv_write_t where
  req : Nat
  bufs : Option (List Bytes)
  error : Int

/-- A stream. `fd`: it has a descriptor; `pollout`: `POLLOUT` is in `io_watcher.pevents`; `pending`: the watcher is in
the pending queue of the loop. The rest are fields and flags of the source. -/
structure uv_stream_t where
  fd : Bool
  blocking : Bool
  writable : Bool
  connect_req : Option Nat
  delayed_error : Int
  shutdown_req : Option Nat
  shutting : Bool
  shut : Bool
  closing : Bool
  closed : Bool
  write_queue : List uv_write_t
  write_completed_queue : List uv_write_t
  write_queue_size : Nat
  pollout : Bool
  pending : Bool

/-- What can be seen: `uv_write` has taken a request, the kernel has taken bytes, `shutdown` is called, a callback is
called. -/
inductive Effect
  | write (req : Nat) (data : Bytes)
  | sent (s : Bytes)
  | shutdown
  | write_cb (req : Nat) (status : Int)
  | connect_cb (req : Nat) (status : Int)
  | shutdown_cb (req : Nat) (status : Int)
  | close_cb

/-- What is left to do when a callback returns: the loop of `uv__write_callbacks`, the end of `uv__stream_io`, the end
of `uv__stream_connect`, and the parts of `uv__stream_destroy`. -/
inductive Frame
  | write_callbacks
  | drain
  | connected (error : Int)
  | destroy
  | destroyed
  | finish

structure State where
  stream : uv_stream_t
  stack : List Frame

def EINPROGRESS : Int := 115

def ECANCELED : Nat := 125

def count_bufs (bufs : List Bytes) : Nat := (bufs.map List.length).sum

/-! ## Writing -/

/-- The loop over the buffers that `n` bytes have been taken of: the buffers that are left, and `write_queue_size`. -/
def take_bufs : List Bytes → Nat → Nat → Except Stop (List Bytes × Nat)
  | [], _, _ => .error .assertion
  | buf :: bufs, size, n =>
    if n < buf.length then
      if size < n then .error .wraps else .ok (buf.drop n :: bufs, size - n)
    else if size < buf.length then .error .assertion
    else
      match bufs with
      | [] => if n = buf.length then .ok ([], size - buf.length) else .error .assertion
      | _ :: _ => take_bufs bufs (size - buf.length) (n - buf.length)

/-- The request at the head goes to `write_completed_queue`, with an error or with its buffers freed. -/
def uv__write_req_finish (s : uv_stream_t) (req : uv_write_t) (queue : List uv_write_t) : uv_stream_t :=
  { s with
    write_queue := queue
    write_completed_queue := s.write_completed_queue ++ [if req.error = 0 then { req with bufs := none } else req]
    pending := true }

/-- A round of `uv__write`: a system call has answered for the request at the head. `true`: there is another round. -/
def uv__write_round (iovmax : Nat) (s : uv_stream_t) (req : uv_write_t) (queue : List uv_write_t) (bufs : List Bytes) :
    Sys → Except Stop ((uv_stream_t × List Effect) × Bool)
  | .EINTR => .ok ((s, []), true)
  | .EAGAIN => if s.blocking then .ok ((s, []), true) else .ok (({ s with pollout := true }, []), false)
  | .fails e => .ok (({ uv__write_req_finish s { req with error := -(e + 1) } queue with pollout := false }, []), false)
  | .takes n =>
    let iov := (bufs.take iovmax).flatten
    (take_bufs bufs s.write_queue_size (min n iov.length)).map fun r =>
      let s' := { s with write_queue_size := r.2 }
      match r.1 with
      | [] => ((uv__write_req_finish s' { req with bufs := some [] } queue, [.sent (iov.take n)]), false)
      | _ :: _ =>
        let s' := { s' with write_queue := { req with bufs := some r.1 } :: queue }
        if s.blocking then ((s', [.sent (iov.take n)]), true)
        else (({ s' with pollout := true }, [.sent (iov.take n)]), false)

def uv__write (iovmax : Nat) (s : uv_stream_t) (sys : List Sys) : Except Stop (uv_stream_t × List Effect) :=
  if s.fd then
    match s.write_queue with
    | [] => .ok (s, [])
    | req :: queue =>
      match req.bufs with
      | none => .error .assertion
      | some bufs =>
        match sys with
        | [] => .error .waits
        | a :: sys =>
          (uv__write_round iovmax s req queue bufs a).bind fun r =>
            if r.2 then (uv__write iovmax r.1.1 sys).map fun r' => (r'.1, r.1.2 ++ r'.2) else .ok r.1
  else .error .assertion

/-- A request is appended to `write_queue`. -/
def uv_stream_t.enqueue (s : uv_stream_t) (req : Nat) (bufs : List Bytes) : uv_stream_t :=
  { s with
    write_queue_size := s.write_queue_size + count_bufs bufs
    write_queue := s.write_queue ++ [⟨req, some bufs, 0⟩] }

/-- `uv_write2` without a handle to send. A stream that is closed gives `EBADF`. -/
def uv_write (iovmax : Nat) (s : uv_stream_t) (req : Nat) (bufs : List Bytes) (sys : List Sys) :
    Except Stop (uv_stream_t × List Effect) :=
  if bufs = [] then .error .assertion
  else if s.fd then
    let out := [.write req bufs.flatten]
    if s.connect_req.isSome then .ok (s.enqueue req bufs, out)
    else if s.write_queue_size = 0 then (uv__write iovmax (s.enqueue req bufs) sys).map fun r => (r.1, out ++ r.2)
    else if s.blocking then .error .assertion
    else .ok ({ s.enqueue req bufs with pollout := true }, out)
  else .ok (s, [])

/-- A round of `uv__write_callbacks`, for the request at the head. -/
def uv__write_callback (s : uv_stream_t) (req : uv_write_t) (queue : List uv_write_t) :
    Except Stop (uv_stream_t × List Effect) :=
  let s := { s with write_completed_queue := queue }
  match req.bufs with
  | none => .ok (s, [.write_cb req.req req.error])
  | some bufs =>
    if s.write_queue_size < count_bufs bufs then .error .assertion
    else .ok ({ s with write_queue_size := s.write_queue_size - count_bufs bufs }, [.write_cb req.req req.error])

def uv__stream_flush_write_queue (s : uv_stream_t) (error : Int) : uv_stream_t :=
  { s with
    write_queue := []
    write_completed_queue := s.write_completed_queue ++ s.write_queue.map fun req => { req with error } }

/-! ## Shutting down and closing -/

/-- A stream that cannot be shut down gives `ENOTCONN`. -/
def uv_shutdown (s : uv_stream_t) (req : Nat) : Except Stop uv_stream_t :=
  if !s.writable || s.shut || s.shutting || s.closed || s.closing then .ok s
  else if s.fd then .ok { s with shutdown_req := some req, shutting := true, pollout := true }
  else .error .assertion

/-- `sys` is what `shutdown` answers. -/
def uv__drain (s : uv_stream_t) (sys : Option Nat) : Except Stop (uv_stream_t × List Effect) :=
  if s.write_queue.isEmpty then
    let s := { s with pollout := false }
    if s.shutting && !s.closing && !s.shut then
      match s.shutdown_req with
      | none => .error .assertion
      | some req =>
        let err : Int := match sys with | none => 0 | some e => -(e + 1)
        .ok ({ s with shutdown_req := none, shutting := false, shut := s.shut || sys.isNone },
          [.shutdown, .shutdown_cb req err])
    else .ok (s, [])
  else .error .assertion

/-- `uv_close` of a stream, with `uv__stream_close`. -/
def uv_close (s : uv_stream_t) : Except Stop uv_stream_t :=
  if s.closing || s.closed then .error .assertion
  else .ok { s with closing := true, pollout := false, pending := false, fd := false }

/-- `uv__finish_close`, as far as the first callback of `uv__stream_destroy`. -/
def uv__finish_close (s : uv_stream_t) : Except Stop (State × List Effect) :=
  if !s.closing || s.closed || s.pollout then .error .assertion
  else
    .ok (⟨{ s with closed := true }, [.destroy]⟩,
      match s.connect_req with
      | none => []
      | some req => [.connect_cb req (-ECANCELED)])

/-! ## Events -/

/-- As far as the callback; `so_error` is what `getsockopt` gives. -/
def uv__stream_connect (s : uv_stream_t) (req : Nat) (so_error : Nat) : State × List Effect :=
  let error := if s.delayed_error ≠ 0 then s.delayed_error else -so_error
  let s := { s with delayed_error := 0 }
  if error = -EINPROGRESS then (⟨s, []⟩, [])
  else
    (⟨{ s with connect_req := none, pollout := if error < 0 || s.write_queue.isEmpty then false else s.pollout },
      [.connected error]⟩, [.connect_cb req error])

/-- The events `POLLOUT`, `POLLERR` and `POLLHUP`, as far as the first callback. -/
def uv__stream_io (iovmax : Nat) (s : uv_stream_t) (so_error : Nat) (sys : List Sys) :
    Except Stop (State × List Effect) :=
  if s.closing then .error .assertion
  else
    match s.connect_req with
    | some req => .ok (uv__stream_connect s req so_error)
    | none => (uv__write iovmax s sys).map fun r => (⟨r.1, [.write_callbacks, .drain]⟩, r.2)

/-- A function goes on until it calls back again or is at its end. -/
def resume (s : uv_stream_t) (sys : Option Nat) : Frame → List Frame → Except Stop (State × List Effect)
  | .write_callbacks, stack =>
    match s.write_completed_queue with
    | [] => .ok (⟨s, stack⟩, [])
    | req :: queue => (uv__write_callback s req queue).map fun r => (⟨r.1, .write_callbacks :: stack⟩, r.2)
  | .drain, stack =>
    if s.write_queue.isEmpty then (uv__drain s sys).map fun r => (⟨r.1, stack⟩, r.2) else .ok (⟨s, stack⟩, [])
  | .connected error, stack =>
    if s.fd && error < 0 then .ok (⟨uv__stream_flush_write_queue s (-ECANCELED), .write_callbacks :: stack⟩, [])
    else .ok (⟨s, stack⟩, [])
  | .destroy, stack =>
    .ok (⟨uv__stream_flush_write_queue { s with connect_req := none } (-ECANCELED),
      .write_callbacks :: .destroyed :: stack⟩, [])
  | .destroyed, stack =>
    .ok (⟨s, .finish :: stack⟩,
      match s.shutdown_req with
      | none => []
      | some req => [.shutdown_cb req (-ECANCELED)])
  | .finish, stack =>
    if s.write_queue_size = 0 then .ok (⟨{ s with shutdown_req := none }, stack⟩, [.close_cb]) else .error .assertion

/-- What happens. `io fed`: the loop finds the watcher in its pending queue, or the descriptor is ready. -/
inductive Event
  | write (req : Nat) (bufs : List Bytes) (sys : List Sys)
  | shutdown (req : Nat)
  | close
  | io (fed : Bool) (so_error : Nat) (sys : List Sys)
  | finish_close
  | resume (sys : Option Nat)

/-- The loop calls only when it has returned from what it called before. -/
def Enabled (w : State) : Event → Prop
  | .write _ _ _ | .shutdown _ | .close => True
  | .io fed _ _ => w.stack = [] ∧ w.stream.fd ∧ (fed → w.stream.pending)
  | .finish_close => w.stack = [] ∧ w.stream.closing ∧ !w.stream.closed
  | .resume _ => w.stack ≠ []

def step (iovmax : Nat) (w : State) : Event → Except Stop (State × List Effect)
  | .write req bufs sys => (uv_write iovmax w.stream req bufs sys).map fun r => (⟨r.1, w.stack⟩, r.2)
  | .shutdown req => (uv_shutdown w.stream req).map fun s => (⟨s, w.stack⟩, [])
  | .close => (uv_close w.stream).map fun s => (⟨s, w.stack⟩, [])
  | .io fed so_error sys =>
    uv__stream_io iovmax (if fed then { w.stream with pending := false } else w.stream) so_error sys
  | .finish_close => uv__finish_close w.stream
  | .resume sys =>
    match w.stack with
    | [] => .ok (w, [])
    | frame :: stack => resume w.stream sys frame stack

/-- A stream with a socket that is connected, as `uv_accept` leaves it. -/
def accepted (blocking : Bool) : uv_stream_t :=
  ⟨true, blocking, true, none, 0, none, false, false, false, false, [], [], 0, false, false⟩

/-- A stream that connects, as `uv__tcp_connect` leaves it. -/
def connecting (req : Nat) (delayed_error : Int) : uv_stream_t :=
  ⟨true, false, true, some req, delayed_error, none, false, false, false, false, [], [], 0, true, delayed_error ≠ 0⟩

/-- The runs in which every event meets a condition, with what can be seen. -/
inductive Reach (iovmax : Nat) (C : State → Event → Prop) (s : uv_stream_t) : State → List Effect → Prop
  | init : Reach iovmax C s ⟨s, []⟩ []
  | step {w w' : State} {out out' : List Effect} {e : Event} : Reach iovmax C s w out → Enabled w e → C w e →
    Uv.step iovmax w e = .ok (w', out') → Reach iovmax C s w' (out ++ out')

end XCore.Uv
