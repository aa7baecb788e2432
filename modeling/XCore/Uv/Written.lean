import Mathlib.Data.List.Forall2
import XCore.Lib.Tickets
import XCore.Uv.Stream

/-!
# What a stream sends, and what it calls back

- `Shows s b`: the queues of the stream are the tickets of the book that wait and that have ended, and
  `write_queue_size` is what is left of them;
- `Grows b b' out`: what is seen of a call is what the book gains.
-/

set_option linter.style.nameCheck false

namespace XCore.Uv

open XCore.Lua XCore.Tickets

/-- The bytes that the kernel has taken. -/
def sent (out : List Effect) : Bytes := out.flatMap fun
  | .sent s => s
  | _ => []

/-- The requests that `uv_write` has taken. -/
def written (out : List Effect) : List (Nat × Bytes) := out.filterMap fun
  | .write req data => some (req, data)
  | _ => none

/-- The callbacks of requests. -/
def called (out : List Effect) : List (Nat × Int) := out.filterMap fun
  | .write_cb req status => some (req, status)
  | _ => none

theorem sent_append (out out' : List Effect) : sent (out ++ out') = sent out ++ sent out' := List.flatMap_append

theorem written_append (out out' : List Effect) : written (out ++ out') = written out ++ written out' :=
  List.filterMap_append ..

theorem called_append (out out' : List Effect) : called (out ++ out') = called out ++ called out' :=
  List.filterMap_append ..

/-! ## The loop over the buffers -/

theorem count_bufs_eq (bufs : List Bytes) : count_bufs bufs = bufs.flatten.length := List.length_flatten.symm

/-- What is left of the buffers is what was not taken, and nothing is left exactly if all was taken and the last buffer
is done with. -/
theorem take_bufs_eq : ∀ {bufs : List Bytes} {size n : Nat}, bufs ≠ [] → n ≤ count_bufs bufs → count_bufs bufs ≤ size →
    ∃ left, take_bufs bufs size n = .ok (left, size - n) ∧ bufs.flatten = bufs.flatten.take n ++ left.flatten
  | buf :: bufs, size, n, _, hn, hsize => by
    have hcount : count_bufs (buf :: bufs) = buf.length + count_bufs bufs := by simp [count_bufs]
    rw [hcount] at hn hsize
    unfold take_bufs
    by_cases hlt : n < buf.length
    · refine ⟨buf.drop n :: bufs, by rw [if_pos hlt, if_neg (by omega)], ?_⟩
      rw [List.flatten_cons, List.take_append_of_le_length hlt.le, List.flatten_cons, ← List.append_assoc,
        List.take_append_drop]
    · rw [if_neg hlt, if_neg (by omega)]
      cases bufs with
      | nil =>
        have hzero : count_bufs [] = 0 := rfl
        have hall : n = buf.length := by omega
        exact ⟨[], by simp [hall], by simp [hall]⟩
      | cons buf' bufs =>
        have hle : n - buf.length ≤ count_bufs (buf' :: bufs) := by omega
        have hle' : count_bufs (buf' :: bufs) ≤ size - buf.length := by omega
        obtain ⟨left, htake, hleft⟩ := take_bufs_eq (by simp) hle hle'
        refine ⟨left, by dsimp only; rw [htake, show size - buf.length - (n - buf.length) = size - n by omega], ?_⟩
        rw [List.flatten_cons, List.take_append, List.take_of_length_le (by omega), List.append_assoc, ← hleft]

/-! ## The queues and the tickets -/

/-- The status of a callback; `errno` is `e + 1`. -/
def status : Option Nat → Int
  | none => 0
  | some e => -(e + 1)

theorem status_eq_zero {r : Option Nat} : status r = 0 ↔ r = none := by
  cases r with
  | none => simp [status]
  | some e => simp only [status, reduceCtorEq, iff_false]; omega

/-- What is left of a request. -/
def left (r : uv_write_t) : Nat := count_bufs (r.bufs.getD [])

/-- A request that waits: its buffers are what has not been taken. -/
structure Serves (r : uv_write_t) (t : Ticket Nat UInt8) : Prop where
  req : r.req = t.id
  error : r.error = 0
  bufs : ∃ bufs, r.bufs = some bufs ∧ bufs ≠ [] ∧ t.data = t.taken ++ bufs.flatten

/-- A request that has ended. -/
structure Ended (r : uv_write_t) (p : Ticket Nat UInt8 × Option Nat) : Prop where
  req : r.req = p.1.id
  error : r.error = status p.2

structure Shows (s : uv_stream_t) (b : Book Nat UInt8 Nat) : Prop where
  queue : List.Forall₂ Serves s.write_queue b.waiting
  completed : List.Forall₂ Ended s.write_completed_queue b.ended
  size : s.write_queue_size = ((s.write_queue ++ s.write_completed_queue).map left).sum
  sound : b.Sound

/-- The flags do not matter. -/
theorem Shows.congr {s s' : uv_stream_t} {b : Book Nat UInt8 Nat} (h : Shows s b) (hq : s'.write_queue = s.write_queue)
    (hc : s'.write_completed_queue = s.write_completed_queue) (hn : s'.write_queue_size = s.write_queue_size) :
    Shows s' b :=
  ⟨hq ▸ h.queue, hc ▸ h.completed, by rw [hn, hq, hc, h.size], h.sound⟩

/-- What is seen of a step is what the book gains. -/
structure Grows (b b' : Book Nat UInt8 Nat) (out : List Effect) : Prop where
  wire : b'.wire = b.wire ++ sent out
  tickets : b'.tickets.map (fun t => (t.id, t.data)) = b.tickets.map (fun t => (t.id, t.data)) ++ written out
  told : b'.told.map (fun p => (p.1.id, status p.2)) = b.told.map (fun p => (p.1.id, status p.2)) ++ called out

theorem Grows.refl (b : Book Nat UInt8 Nat) : Grows b b [] := ⟨by simp [sent], by simp [written], by simp [called]⟩

theorem Grows.trans {b₁ b₂ b₃ : Book Nat UInt8 Nat} {out out' : List Effect} (h : Grows b₁ b₂ out)
    (h' : Grows b₂ b₃ out') :
    Grows b₁ b₃ (out ++ out') where
  wire := by rw [h'.wire, h.wire, sent_append, List.append_assoc]
  tickets := by rw [h'.tickets, h.tickets, written_append, List.append_assoc]
  told := by rw [h'.told, h.told, called_append, List.append_assoc]

/-- The tickets that wait and those that have ended are moved, and nothing is seen. -/
theorem Grows.silent {b b' : Book Nat UInt8 Nat} (ht : b'.tickets = b.tickets) (hw : b'.told = b.told)
    {out : List Effect} (hout : sent out = [] ∧ written out = [] ∧ called out = []) : Grows b b' out where
  wire := by rw [Book.wire, ht, hout.1, List.append_nil, Book.wire]
  tickets := by rw [ht, hout.2.1, List.append_nil]
  told := by rw [hw, hout.2.2, List.append_nil]

/-! ## A round of `uv__write` -/

/-- What writing does not touch. -/
def uv_stream_t.control (s : uv_stream_t) : uv_stream_t :=
  { s with write_queue := [], write_completed_queue := [], write_queue_size := 0, pollout := false, pending := false }

/-- The descriptor and the flags stay. -/
theorem flags_of_control {s s' : uv_stream_t} (h : s'.control = s.control) : s'.fd = s.fd ∧ s'.blocking = s.blocking ∧
    s'.connect_req = s.connect_req ∧ s'.shutdown_req = s.shutdown_req ∧ s'.shutting = s.shutting ∧ s'.shut = s.shut ∧
    s'.closing = s.closing ∧ s'.closed = s.closed := by
  simp only [uv_stream_t.control, uv_stream_t.mk.injEq] at h
  simp [h]

/-- What writing keeps: a request that has ended wakes the loop. -/
structure Kept (s s' : uv_stream_t) : Prop where
  control : s'.control = s.control
  completed : s'.write_completed_queue ≠ s.write_completed_queue → s'.pending
  pending : s.pending → s'.pending
  pollout : s.pollout → s'.pollout ∨ s'.pending

theorem Kept.refl (s : uv_stream_t) : Kept s s := ⟨rfl, fun h => absurd rfl h, id, .inl⟩

theorem Kept.trans {s₁ s₂ s₃ : uv_stream_t} (h : Kept s₁ s₂) (h' : Kept s₂ s₃) : Kept s₁ s₃ where
  control := h'.control.trans h.control
  completed hne := by
    by_cases h23 : s₃.write_completed_queue = s₂.write_completed_queue
    · exact h'.pending (h.completed (h23 ▸ hne))
    · exact h'.completed h23
  pending := h'.pending ∘ h.pending
  pollout hp := (h.pollout hp).elim h'.pollout fun hp => .inr (h'.pending hp)

/-- What writing does. `ok`: no system call has failed. -/
structure Advances (s s' : uv_stream_t) (b b' : Book Nat UInt8 Nat) (out : List Effect) (ok : Prop) : Prop where
  shows : Shows s' b'
  grows : Grows b b' out
  kept : Kept s s'
  told : b'.told = b.told
  fine : ok → (∀ p ∈ b.ended, p.2 = none) → ∀ p ∈ b'.ended, p.2 = none
  quiet : .shutdown ∉ out

theorem Advances.refl {s : uv_stream_t} {b : Book Nat UInt8 Nat} (h : Shows s b) (ok : Prop) : Advances s s b b [] ok :=
  ⟨h, .refl b, .refl s, rfl, fun _ => id, by simp⟩

theorem Advances.trans {s₁ s₂ s₃ : uv_stream_t} {b₁ b₂ b₃ : Book Nat UInt8 Nat} {out out' : List Effect} {ok ok' : Prop}
    (h : Advances s₁ s₂ b₁ b₂ out ok) (h' : Advances s₂ s₃ b₂ b₃ out' ok') :
    Advances s₁ s₃ b₁ b₃ (out ++ out') (ok ∧ ok') where
  shows := h'.shows
  grows := h.grows.trans h'.grows
  kept := h.kept.trans h'.kept
  told := h'.told.trans h.told
  fine hok := h'.fine hok.2 ∘ h.fine hok.1
  quiet := by simp [h.quiet, h'.quiet]

theorem left_of_serves {r : uv_write_t} {bufs : List Bytes} (h : r.bufs = some bufs) : left r = count_bufs bufs := by
  simp [left, h]

/-- What the system call is offered begins the buffers. -/
theorem iov_begins (iovmax : Nat) (bufs : List Bytes) : (bufs.take iovmax).flatten <+: bufs.flatten :=
  ⟨(bufs.drop iovmax).flatten, by rw [← List.flatten_append, List.take_append_drop]⟩

theorem take_begins {iov s : Bytes} (h : iov <+: s) (n : Nat) : iov.take n = s.take (min n iov.length) := by
  obtain ⟨t, rfl⟩ := h
  rw [List.take_append_of_le_length (Nat.min_le_right ..), ← List.take_eq_take_min]

section Round

variable {s : uv_stream_t} {b : Book Nat UInt8 Nat} {req : uv_write_t} {queue : List uv_write_t} {bufs : List Bytes}

/-- The request at the head ends. -/
theorem Shows.finish {t : Ticket Nat UInt8} {ts : List (Ticket Nat UInt8)} (h : Shows s b)
    (hs : s.write_queue = req :: queue)
    (hb : b.waiting = t :: ts) {r : Option Nat} (hr : r = none → t.taken = t.data) {req' : uv_write_t}
    (hid : req'.req = req.req)
    (herror : req'.error = status r) (hleft : r ≠ none → left req' = left req) (hzero : r = none → left req = 0) :
    Shows (uv__write_req_finish s req' queue) (b.finish r) := by
  have hqueue := h.queue
  rw [hs, hb] at hqueue
  obtain ⟨hserves, hqueue⟩ := List.forall₂_cons.1 hqueue
  have hfinish : b.finish r = { b with ended := b.ended ++ [(t, r)], waiting := ts } := by simp [Book.finish, hb]
  refine ⟨?_, ?_, ?_, h.sound.finish hb hr⟩
  · rw [hfinish]
    exact hqueue
  · rw [hfinish]
    refine List.rel_append h.completed (List.forall₂_cons.2 ⟨⟨?_, ?_⟩, .nil⟩)
    · rw [apply_ite uv_write_t.req, ite_self, hid, hserves.req]
    · rw [apply_ite uv_write_t.error, ite_self, herror]
  · have hsize := h.size
    rw [hs] at hsize
    have hlast : left (if req'.error = 0 then { req' with bufs := none } else req') = left req := by
      rw [herror]
      by_cases hnone : r = none
      · rw [if_pos (status_eq_zero.2 hnone), hzero hnone]
        rfl
      · rw [if_neg (mt status_eq_zero.1 hnone), hleft hnone]
    simp only [uv__write_req_finish, List.map_append, List.sum_append, List.map_cons, List.sum_cons, List.map_nil,
      List.sum_nil, hlast]
      at hsize ⊢
    omega

/-- Bytes are taken of the request at the head, of which something is left. -/
theorem Shows.take {t : Ticket Nat UInt8} {ts : List (Ticket Nat UInt8)} (h : Shows s b)
    (hs : s.write_queue = req :: queue)
    (hb : b.waiting = t :: ts) (hbufs : req.bufs = some bufs) {bs : Bytes} {bufs' : List Bytes} (hne : bufs' ≠ [])
    (hdata : bufs.flatten = bs ++ bufs'.flatten) {size : Nat} (hsize : size + bs.length = s.write_queue_size) :
    Shows { s with write_queue := { req with bufs := some bufs' } :: queue, write_queue_size := size } (b.take bs) := by
  have hqueue := h.queue
  rw [hs, hb] at hqueue
  obtain ⟨⟨hid, herror, bufs₀, hbufs₀, -, ht⟩, hqueue⟩ := List.forall₂_cons.1 hqueue
  obtain rfl : bufs = bufs₀ := Option.some.inj (hbufs.symm.trans hbufs₀)
  have htake : b.take bs = { b with waiting := { t with taken := t.taken ++ bs } :: ts } := by simp [Book.take, hb]
  have hdata' : t.data = (t.taken ++ bs) ++ bufs'.flatten := by rw [ht, hdata, List.append_assoc]
  refine ⟨?_, ?_, ?_, h.sound.take hb ⟨_, hdata'.symm⟩⟩
  · rw [htake]
    exact List.forall₂_cons.2 ⟨⟨hid, herror, bufs', rfl, hne, hdata'⟩, hqueue⟩
  · rw [htake]
    exact h.completed
  · have hwhole := h.size
    have hlen := congrArg List.length hdata
    rw [List.length_append, ← count_bufs_eq, ← count_bufs_eq] at hlen
    rw [hs] at hwhole
    simp only [List.cons_append, List.map_cons, List.sum_cons, left, hbufs, Option.getD_some] at hwhole ⊢
    omega

/-- All that is left of the request at the head is taken. -/
theorem Shows.done {t : Ticket Nat UInt8} {ts : List (Ticket Nat UInt8)} (h : Shows s b)
    (hs : s.write_queue = req :: queue)
    (hb : b.waiting = t :: ts) (hbufs : req.bufs = some bufs) {bs : Bytes} (hdata : bufs.flatten = bs) {size : Nat}
    (hsize : size + bs.length = s.write_queue_size) :
    Shows (uv__write_req_finish { s with write_queue_size := size } { req with bufs := some [] } queue)
    ((b.take bs).finish none) := by
  have hqueue := h.queue
  rw [hs, hb] at hqueue
  obtain ⟨hid, herror, bufs₀, hbufs₀, -, ht⟩ := (List.forall₂_cons.1 hqueue).1
  obtain rfl : bufs = bufs₀ := Option.some.inj (hbufs.symm.trans hbufs₀)
  -- an empty buffer stands for what is left
  have htake : Shows { s with write_queue := { req with bufs := some [[]] } :: queue, write_queue_size := size }
    (b.take bs) :=
    h.take hs hb hbufs (by simp) (by simpa using hdata) hsize
  have hb' : (b.take bs).waiting = { t with taken := t.taken ++ bs } :: ts := by simp [Book.take, hb]
  have hdone : t.taken ++ bs = t.data := by rw [ht, hdata]
  exact htake.finish rfl hb' (fun _ => hdone) rfl herror (by simp) (by simp [left, count_bufs])

/-- **A round of `uv__write`** does not fail; if it is the last, the loop is woken for what is left. -/
theorem uv__write_round_eq (iovmax : Nat) (h : Shows s b) (hs : s.write_queue = req :: queue)
    (hbufs : req.bufs = some bufs) (a : Sys) :
    ∃ s' out more b', uv__write_round iovmax s req queue bufs a = .ok ((s', out), more) ∧
      Advances s s' b b' out (∀ e, a ≠ .fails e) ∧ (more = false → s'.write_queue ≠ [] → s'.pollout ∨ s'.pending) := by
  obtain ⟨t, ts, hb⟩ : ∃ t ts, b.waiting = t :: ts := by
    have hqueue := h.queue
    rw [hs] at hqueue
    cases hw : b.waiting with
    | nil => rw [hw] at hqueue; cases hqueue
    | cons t ts => exact ⟨t, ts, rfl⟩
  have hserves : Serves req t := by
    have hqueue := h.queue
    rw [hs, hb] at hqueue
    exact (List.forall₂_cons.1 hqueue).1
  obtain ⟨hid, herror, bufs₀, hbufs₀, hne, hdata⟩ := hserves
  obtain rfl : bufs = bufs₀ := Option.some.inj (hbufs.symm.trans hbufs₀)
  cases a with
  | EINTR => exact ⟨s, [], true, b, rfl, .refl h _, by simp⟩
  | EAGAIN =>
    by_cases hblocking : s.blocking
    · exact ⟨s, [], true, b, by simp [uv__write_round, hblocking], .refl h _, by simp⟩
    · refine ⟨{ s with pollout := true }, [], false, b, by simp [uv__write_round, hblocking], ?_, by simp⟩
      exact ⟨h.congr rfl rfl rfl, .refl b, ⟨rfl, fun hne => absurd rfl hne, id, fun _ => .inl rfl⟩, rfl, fun _ => id,
        by simp⟩
  | fails e =>
    have hshows : Shows (uv__write_req_finish s { req with error := -(e + 1) } queue) (b.finish (some e)) :=
      h.finish hs hb (by simp) rfl rfl (fun _ => rfl) (by simp)
    refine ⟨_, [], false, b.finish (some e), rfl, ⟨hshows.congr rfl rfl rfl,
      .silent (Book.tickets_finish _) (by simp [Book.finish, hb]) ⟨rfl, rfl, rfl⟩,
      ⟨rfl, fun _ => rfl, fun _ => rfl, fun _ => .inr rfl⟩,
      by simp [Book.finish, hb], fun hok => absurd rfl (hok e), by simp⟩, fun _ _ => .inr rfl⟩
  | takes n =>
    obtain ⟨iov, hiov⟩ : ∃ iov, (bufs.take iovmax).flatten = iov := ⟨_, rfl⟩
    have hbegins : iov <+: bufs.flatten := hiov ▸ iov_begins iovmax bufs
    have hcount : min n iov.length ≤ count_bufs bufs := by
      have hle := hbegins.length_le
      rw [count_bufs_eq]
      omega
    have hsize : count_bufs bufs ≤ s.write_queue_size := by
      have hwhole := h.size
      rw [hs] at hwhole
      simp only [List.cons_append, List.map_cons, List.sum_cons, left, hbufs, Option.getD_some] at hwhole
      omega
    obtain ⟨bufs', htake, hdata'⟩ := take_bufs_eq hne hcount hsize
    rw [← take_begins hbegins] at hdata'
    have hlen : s.write_queue_size - min n iov.length + (iov.take n).length = s.write_queue_size := by
      rw [List.length_take]
      omega
    have hgrows : Grows b (b.take (iov.take n)) [.sent (iov.take n)] :=
      ⟨by simp [h.sound.wire_take hb, sent], by simp [Book.take, hb, Book.tickets, written], by simp [Book.take,
        hb, called]⟩
    cases bufs' with
    | nil =>
      have hround : uv__write_round iovmax s req queue bufs (.takes n) =
          .ok ((uv__write_req_finish { s with write_queue_size := s.write_queue_size - min n iov.length }
            { req with bufs := some [] } queue, [.sent (iov.take n)]), false) := by
        simp only [uv__write_round, hiov, htake, Except.map]
      have hshows := h.done hs hb hbufs (by simpa using hdata') hlen
      have hfinish : Grows (b.take (iov.take n)) ((b.take (iov.take n)).finish none) [] :=
        .silent (Book.tickets_finish _) (by simp [Book.take, Book.finish, hb]) ⟨rfl, rfl, rfl⟩
      refine ⟨_, _, _, _, hround,
        ⟨hshows, hgrows.trans hfinish, ⟨rfl, fun _ => rfl, fun _ => rfl, fun _ => .inr rfl⟩, ?_, ?_,
        by simp⟩, fun _ _ => .inr rfl⟩
      · simp [Book.take, Book.finish, hb]
      · intro _ hended p hp
        have hmem : p ∈ b.ended ∨ p = ({ t with taken := t.taken ++ iov.take n }, none) := by
          simpa [Book.take, Book.finish, hb] using hp
        rcases hmem with hmem | rfl
        · exact hended p hmem
        · rfl
    | cons buf bufs' =>
      have hround : uv__write_round iovmax s req queue bufs (.takes n) =
          .ok (let s' := { s with
            write_queue_size := s.write_queue_size - min n iov.length
            write_queue := { req with bufs := some (buf :: bufs') } :: queue }
          if s.blocking then ((s', [.sent (iov.take n)]), true)
          else (({ s' with pollout := true }, [.sent (iov.take n)]), false)) := by
        simp only [uv__write_round, hiov, htake, Except.map]
      have hshows := h.take hs hb hbufs (by simp) hdata' hlen
      have htold : (b.take (iov.take n)).told = b.told := by simp [Book.take, hb]
      have hended : (b.take (iov.take n)).ended = b.ended := by simp [Book.take, hb]
      by_cases hblocking : s.blocking
      · refine ⟨_, _, true, _, hround.trans (congrArg Except.ok (if_pos hblocking)),
          ⟨hshows, hgrows, ?_, htold, fun _ => hended ▸ id, by simp⟩, by simp⟩
        exact ⟨rfl, fun hne => absurd rfl hne, id, .inl⟩
      · refine ⟨_, _, false, _, hround.trans (congrArg Except.ok (if_neg hblocking)),
          ⟨hshows.congr rfl rfl rfl, hgrows, ?_, htold, fun _ => hended ▸ id, by simp⟩, fun _ _ => .inl rfl⟩
        exact ⟨rfl, fun hne => absurd rfl hne, id, fun _ => .inl rfl⟩

end Round

/-- No system call fails. -/
def Fine (sys : List Sys) : Prop := ∀ e, .fails e ∉ sys

/-- **`uv__write`** returns when the system calls do, and wakes the loop for what is left. -/
theorem uv__write_eq (iovmax : Nat) : ∀ (sys : List Sys) {s : uv_stream_t} {b : Book Nat UInt8 Nat}, Shows s b → s.fd →
    uv__write iovmax s sys = .error .waits ∨ ∃ s' out b', uv__write iovmax s sys = .ok (s', out) ∧
      Advances s s' b b' out (Fine sys) ∧ (s'.write_queue ≠ [] → s'.pollout ∨ s'.pending)
  | sys, s, b, h, hfd => by
    unfold uv__write
    rw [if_pos hfd]
    cases hs : s.write_queue with
    | nil => exact .inr ⟨s, [], b, rfl, .refl h _, fun hne => absurd hs hne⟩
    | cons req queue =>
      obtain ⟨t, ts, hserves, -, -⟩ := List.forall₂_cons_left_iff.1 (hs ▸ h.queue)
      obtain ⟨bufs, hbufs, -, -⟩ := hserves.bufs
      cases sys with
      | nil => exact .inl (by simp [hbufs])
      | cons a sys =>
        obtain ⟨s', out, more, b', hround, hadv, hlast⟩ := uv__write_round_eq iovmax h hs hbufs a
        have hfd' : s'.fd := (flags_of_control hadv.kept.control).1 ▸ hfd
        simp only [hbufs, hround, Except.bind]
        cases more with
        | false =>
          refine .inr ⟨s', out, b', rfl,
            ⟨hadv.shows, hadv.grows, hadv.kept, hadv.told, fun hfine => hadv.fine fun e he => ?_, hadv.quiet⟩,
            hlast rfl⟩
          exact hfine e (by simp [he])
        | true =>
          rcases uv__write_eq iovmax sys hadv.shows hfd' with hwaits | ⟨s'', out', b'', hwrite, hadv', hqueue⟩
          · exact .inl (by simp [hwaits, Except.map])
          · have hboth := hadv.trans hadv'
            refine .inr ⟨s'', out ++ out', b'', by simp [hwrite, Except.map], ?_, hqueue⟩
            exact ⟨hboth.shows, hboth.grows, hboth.kept, hboth.told,
              fun hfine => hboth.fine ⟨fun e he => hfine e (by simp [he]), fun e he => hfine e (by simp [he])⟩,
              hboth.quiet⟩

end XCore.Uv
