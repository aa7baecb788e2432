import XCore.Uv.Written

/-!
# Runs of a stream

`Goes`: every step fails exactly if the program has asked for it (`Asserts`), and else keeps the invariant `Inv`.
-/

set_option linter.style.nameCheck false

namespace XCore.Uv

open XCore.Lua XCore.Tickets

/-! ## The invariant -/

/-- What the functions on the stack have still to do, and what is done when a stream is destroyed. -/
inductive Shape (s : uv_stream_t) : List Frame → Prop
  | idle : (s.closed → s.write_queue = [] ∧ s.write_completed_queue = []) → Shape s []
  | io : s.closed = false → Shape s [.write_callbacks, .drain]
  | drain : s.closed = false → Shape s [.drain]
  | connected (error : Int) : s.closed = false → Shape s [.connected error]
  | failed : s.closed = false → Shape s [.write_callbacks]
  | destroy : s.closed → Shape s [.destroy]
  | destroying : s.closed → s.write_queue = [] → Shape s [.write_callbacks, .destroyed]
  | destroyed : s.closed → s.write_queue = [] → s.write_completed_queue = [] → Shape s [.destroyed]
  | finish : s.closed → s.write_queue = [] → s.write_completed_queue = [] → Shape s [.finish]

/-- A stream that is not closed keeps its shape, whatever happens to the queues. -/
theorem Shape.congr {s s' : uv_stream_t} {stack : List Frame} (h : Shape s stack) (hs : s.closed = false)
    (hs' : s'.closed = false) :
    Shape s' stack := by
  cases h with
  | idle _ => exact .idle (by simp [hs'])
  | io _ => exact .io hs'
  | drain _ => exact .drain hs'
  | connected error _ => exact .connected error hs'
  | failed _ => exact .failed hs'
  | destroy hc | destroying hc _ | destroyed hc _ _ | finish hc _ _ => simp [hs] at hc

/-- A connection has failed, and the queue will be flushed. -/
def Failing (stack : List Frame) : Prop := ∃ e < 0, .connected e ∈ stack

structure Inv (w : State) (b : Book Nat UInt8 Nat) : Prop where
  shows : Shows w.stream b
  shape : Shape w.stream w.stack
  opened : w.stream.closing = !w.stream.fd
  closed : w.stream.closed → w.stream.fd = false
  quiet : w.stream.fd = false → w.stream.pollout = false ∧ w.stream.pending = false
  shutting : w.stream.fd → w.stream.shutting → w.stream.shut = false ∧ w.stream.shutdown_req.isSome
  connecting : w.stream.fd → w.stream.connect_req.isSome → w.stream.pollout ∧ w.stream.write_completed_queue = [] ∧
    w.stack = []
  busy : w.stream.fd → w.stream.connect_req = none → w.stream.write_queue ≠ [] →
    w.stream.pollout ∨ w.stream.pending ∨ Failing w.stack
  completed : w.stream.fd → w.stream.write_completed_queue ≠ [] → w.stream.pending ∨ .write_callbacks ∈ w.stack

/-! ## Steps -/

/-- The calls that end the process: no buffers, a stream that blocks and has something left, and a stream that is closed
already. -/
def Asserts (w : State) : Event → Prop
  | .write _ bufs _ => bufs = [] ∨ w.stream.fd ∧ w.stream.connect_req = none ∧ w.stream.write_queue_size ≠ 0 ∧
      w.stream.blocking
  | .close => w.stream.closing
  | _ => False

/-- The events in which no system call fails. -/
def Works (w : State) : Event → Prop
  | .write _ _ sys => Fine sys
  | .io _ so_error sys => Fine sys ∧ (so_error = 0 ∨ (so_error : Int) = EINPROGRESS) ∧ w.stream.delayed_error = 0
  | _ => True

/-- Nothing has failed, and nothing will. -/
def Straight (w : State) (b : Book Nat UInt8 Nat) : Prop :=
  w.stream.fd → (∀ p ∈ b.told ++ b.ended, p.2 = none) ∧ ¬ Failing w.stack

/-- The loop will come to what `uv_shutdown` has asked for. -/
def Watched (w : State) : Prop :=
  w.stream.fd → w.stream.shutting → w.stream.connect_req = none ∧
    (w.stream.pollout ∨ w.stream.pending ∨ .drain ∈ w.stack)

/-- What a step does. -/
structure Next (w w' : State) (b b' : Book Nat UInt8 Nat) (out : List Effect) (e : Event) : Prop where
  inv : Inv w' b'
  grows : Grows b b' out
  silent : w'.stream.fd = false → sent out = [] ∧ written out = []
  straight : Works w e → Straight w b → Straight w' b'
  watched : (∀ req, e = .shutdown req → w.stream.connect_req = none) → Watched w → Watched w'
  last : .shutdown ∈ out → w.stream.fd ∧ w.stream.write_queue = []

/-- A step fails where `Asserts` says so, or waits, or goes on. -/
def Goes (w : State) (b : Book Nat UInt8 Nat) (e : Event) (r : Except Stop (State × List Effect)) : Prop :=
  (r = .error .assertion ∧ Asserts w e) ∨
    (¬ Asserts w e ∧ (r = .error .waits ∨ ∃ w' out b', r = .ok (w', out) ∧ Next w w' b b' out e))

section Steps

variable {iovmax : Nat} {s : uv_stream_t} {stack : List Frame} {b : Book Nat UInt8 Nat}

/-- Nothing happens. -/
theorem Inv.stay (h : Inv ⟨s, stack⟩ b) (e : Event) : Next ⟨s, stack⟩ ⟨s, stack⟩ b b [] e :=
  ⟨h, .refl b, fun _ => ⟨rfl, rfl⟩, fun _ => id, fun _ => id, by simp⟩

theorem Inv.notClosed (h : Inv ⟨s, stack⟩ b) (hfd : s.fd) : s.closed = false := by
  by_contra hc
  have := h.closed (by simpa using hc)
  simp_all

/-- Something is written, and the flags stay. -/
theorem Inv.writes (h : Inv ⟨s, stack⟩ b) (hfd : s.fd) {s' : uv_stream_t} {b' : Book Nat UInt8 Nat}
    {out : List Effect} {ok : Prop}
    (hadv : Advances s s' b b' out ok) (hconnect : s.connect_req.isSome → s'.pollout ∧ s'.write_completed_queue = [])
    (hqueue : s.connect_req = none → s'.write_queue ≠ [] → s'.pollout ∨ s'.pending) {e : Event}
    (hok : Works ⟨s, stack⟩ e → ok) :
    Next ⟨s, stack⟩ ⟨s', stack⟩ b b' out e := by
  obtain ⟨hfd', -, hreq, hshutdown, hshutting, hshut, hclosing, hclosed⟩ := flags_of_control hadv.kept.control
  have hnc := h.notClosed hfd
  have hopen : s'.fd := hfd'.trans hfd
  refine ⟨⟨hadv.shows, h.shape.congr hnc (hclosed.trans hnc), ?_, ?_, ?_, ?_, ?_, ?_, ?_⟩, hadv.grows, ?_, ?_, ?_,
    fun hmem => absurd hmem hadv.quiet⟩
  · simpa [hclosing, hfd'] using h.opened
  · simp [hclosed, hnc]
  · simp [hopen]
  · intro _ hs
    simpa [hshut, hshutdown] using h.shutting hfd (hshutting ▸ hs)
  · intro _ hs
    have hs : s.connect_req.isSome := hreq ▸ hs
    exact ⟨(hconnect hs).1, (hconnect hs).2, (h.connecting hfd hs).2.2⟩
  · intro _ hs hne
    exact (hqueue (hreq ▸ hs) hne).imp_right .inl
  · intro _ hne
    by_cases hsame : s'.write_completed_queue = s.write_completed_queue
    · exact (h.completed hfd (hsame ▸ hne)).imp_left hadv.kept.pending
    · exact .inl (hadv.kept.completed hsame)
  · simp [hopen]
  · intro hworks hstraight _
    obtain ⟨hall, hfailing⟩ := hstraight hfd
    refine ⟨fun p hp => ?_, hfailing⟩
    rw [hadv.told, List.mem_append] at hp
    rcases hp with hp | hp
    · exact hall p (List.mem_append_left _ hp)
    · exact hadv.fine (hok hworks) (fun p hp => hall p (List.mem_append_right _ hp)) p hp
  · intro _ hwatched _ hs
    obtain ⟨hnone, hwoken⟩ := hwatched hfd (hshutting ▸ hs)
    refine ⟨hreq.trans hnone, ?_⟩
    rcases hwoken with hwoken | hwoken | hwoken
    · rcases hadv.kept.pollout hwoken with hwoken | hwoken
      · exact .inl hwoken
      · exact .inr (.inl hwoken)
    · exact .inr (.inl (hadv.kept.pending hwoken))
    · exact .inr (.inr hwoken)

/-- A request is taken. -/
theorem Shows.enqueue (h : Shows s b) (req : Nat) {bufs : List Bytes} (hne : bufs ≠ []) :
    Advances s (s.enqueue req bufs) b (b.submit req bufs.flatten) [.write req bufs.flatten] True where
  shows := by
    refine ⟨List.rel_append h.queue (List.forall₂_cons.2 ⟨⟨rfl, rfl, bufs, rfl, hne, by simp⟩, .nil⟩), h.completed, ?_,
      h.sound.submit ..⟩
    have hsize := h.size
    simp only [uv_stream_t.enqueue, List.map_append, List.sum_append, List.map_cons, List.map_nil, List.sum_cons,
      List.sum_nil, left, Option.getD_some] at hsize ⊢
    omega
  grows := ⟨by simp [Book.wire_submit, sent], by simp [Book.tickets_submit, written], by simp [Book.submit, called]⟩
  kept := ⟨rfl, fun hne => absurd rfl hne, id, .inl⟩
  told := rfl
  fine _ := id
  quiet := by simp

/-- `POLLOUT` is watched. -/
theorem Advances.watch {s' : uv_stream_t} {b' : Book Nat UInt8 Nat} {out : List Effect} {ok : Prop}
    (h : Advances s s' b b' out ok) :
    Advances s { s' with pollout := true } b b' out ok :=
  ⟨h.shows.congr rfl rfl rfl, h.grows, ⟨h.kept.control, h.kept.completed, h.kept.pending,
    fun _ => .inl rfl⟩, h.told, h.fine, h.quiet⟩

theorem uv_write_goes (h : Inv ⟨s, stack⟩ b) (req : Nat) (bufs : List Bytes) (sys : List Sys) :
    Goes ⟨s, stack⟩ b (.write req bufs sys) (step iovmax ⟨s, stack⟩ (.write req bufs sys)) := by
  dsimp only [step]
  unfold uv_write
  by_cases hnil : bufs = []
  · exact .inl ⟨by simp [hnil, Except.map], .inl hnil⟩
  rw [if_neg hnil]
  by_cases hfd : s.fd
  · have hsub := h.shows.enqueue req hnil
    rw [if_pos hfd]
    by_cases hreq : s.connect_req.isSome
    · rw [if_pos hreq]
      refine .inr ⟨?_, .inr ⟨_, _, _, rfl, h.writes hfd hsub (fun _ => ?_) (fun hs => ?_) fun _ => trivial⟩⟩
      · rintro (hb | ⟨-, hb, -⟩)
        · exact hnil hb
        · have hb : s.connect_req = none := hb
          simp [hb] at hreq
      · exact (h.connecting hfd hreq).imp_right And.left
      · simp [hs] at hreq
    · rw [if_neg hreq]
      by_cases hzero : s.write_queue_size = 0
      · rw [if_pos hzero]
        have hasserts : ¬ Asserts ⟨s, stack⟩ (.write req bufs sys) := by
          rintro (hb | ⟨-, -, hb, -⟩)
          · exact hnil hb
          · exact hb hzero
        rcases uv__write_eq iovmax sys hsub.shows hfd with hwaits | ⟨s', out, b', hwrite, hadv, hqueue⟩
        · exact .inr ⟨hasserts, .inl (by simp [hwaits, Except.map])⟩
        · refine .inr
            ⟨hasserts, .inr ⟨_, _, _, by rw [hwrite]; rfl, h.writes hfd (hsub.trans hadv) (fun hs => absurd hs hreq)
            (fun _ => hqueue) fun hworks => ⟨trivial, hworks⟩⟩⟩
      · rw [if_neg hzero]
        have hnone : s.connect_req = none := by simpa using hreq
        by_cases hblocking : s.blocking
        · rw [if_pos hblocking]
          exact .inl ⟨rfl, .inr ⟨hfd, hnone, hzero, hblocking⟩⟩
        · rw [if_neg hblocking]
          refine .inr
            ⟨?_, .inr ⟨_, _, _, rfl, h.writes hfd hsub.watch (fun hs => absurd hs hreq) (fun _ _ => .inl rfl)
              fun _ => trivial⟩⟩
          rintro (hb | ⟨-, -, -, hb⟩)
          · exact hnil hb
          · exact hblocking hb
  · rw [if_neg hfd]
    refine .inr ⟨?_, .inr ⟨_, _, _, rfl, h.stay _⟩⟩
    rintro (hb | ⟨hb, -⟩)
    · exact hnil hb
    · exact hfd hb

theorem uv_shutdown_goes (h : Inv ⟨s, stack⟩ b) (req : Nat) :
    Goes ⟨s, stack⟩ b (.shutdown req) (step iovmax ⟨s, stack⟩ (.shutdown req)) := by
  refine .inr ⟨id, .inr ?_⟩
  dsimp only [step]
  unfold uv_shutdown
  split_ifs with hno hfd
  · exact ⟨_, _, _, rfl, h.stay _⟩
  · have hshut : s.shut = false := by simp_all
    refine ⟨_, _, b, rfl, ⟨⟨h.shows.congr rfl rfl rfl, ?_, h.opened, h.closed, ?_, ?_, ?_, ?_, h.completed⟩,
      .refl b, fun _ => ⟨rfl, rfl⟩, fun _ => id, ?_, by simp⟩⟩
    · exact h.shape.congr (h.notClosed hfd) (h.notClosed hfd)
    · simp [hfd]
    · exact fun _ _ => ⟨hshut, rfl⟩
    · exact fun _ hs => ⟨rfl, (h.connecting hfd hs).2⟩
    · exact fun _ _ _ => .inl rfl
    · exact fun hnone _ _ _ => ⟨hnone req rfl, .inl rfl⟩
  · have := h.opened
    simp_all

theorem uv_close_goes (h : Inv ⟨s, stack⟩ b) : Goes ⟨s, stack⟩ b .close (step iovmax ⟨s, stack⟩ .close) := by
  dsimp only [step]
  unfold uv_close
  by_cases hclosing : s.closing
  · exact .inl ⟨by simp [hclosing, Except.map], hclosing⟩
  · have hfd : s.fd := by simpa [hclosing] using h.opened
    have hnc := h.notClosed hfd
    rw [if_neg (by simp [hclosing, hnc])]
    refine .inr ⟨hclosing, .inr ⟨_, _, b, rfl, ⟨⟨h.shows.congr rfl rfl rfl, h.shape.congr hnc hnc, rfl,
      ?_, ?_, ?_, ?_, ?_, ?_⟩, .refl b, fun _ => ⟨rfl, rfl⟩, ?_, ?_, by simp⟩⟩⟩
    · simp
    · simp
    all_goals simp [Straight, Watched]

/-- The watcher leaves the pending queue, and what is written is called back. -/
theorem uv__stream_io_write (h : Inv ⟨s, []⟩ b) (hfd : s.fd) (hreq : s.connect_req = none) {s₀ s' : uv_stream_t}
    {b' : Book Nat UInt8 Nat}
    {out : List Effect} {ok : Prop} (hs₀ : s₀.control = s.control) (hadv : Advances s₀ s' b b' out ok)
    (hqueue : s'.write_queue ≠ [] → s'.pollout ∨ s'.pending) {e : Event} (hok : Works ⟨s, []⟩ e → ok) :
    Next ⟨s, []⟩ ⟨s', [.write_callbacks, .drain]⟩ b b' out e := by
  obtain ⟨hfd', -, hreq', hshutdown, hshutting, hshut, hclosing, hclosed⟩ :=
    flags_of_control (hadv.kept.control.trans hs₀)
  have hnc := h.notClosed hfd
  have hopen : s'.fd := hfd'.trans hfd
  refine ⟨⟨hadv.shows, .io (hclosed.trans hnc), ?_, ?_, ?_, ?_, ?_, ?_, ?_⟩, hadv.grows, ?_, ?_, ?_,
    fun hmem => absurd hmem hadv.quiet⟩
  · simpa [hclosing, hfd'] using h.opened
  · simp_all
  · simp [hopen]
  · intro _ hs
    simpa [hshut, hshutdown] using h.shutting hfd (hshutting ▸ hs)
  · simp_all
  · exact fun _ _ hne => (hqueue hne).imp_right .inl
  · simp
  · simp [hopen]
  · intro hworks hstraight _
    obtain ⟨hall, -⟩ := hstraight hfd
    refine ⟨fun p hp => ?_, by simp [Failing]⟩
    rw [hadv.told, List.mem_append] at hp
    rcases hp with hp | hp
    · exact hall p (List.mem_append_left _ hp)
    · exact hadv.fine (hok hworks) (fun p hp => hall p (List.mem_append_right _ hp)) p hp
  · simp_all [Watched]

/-- The connection is made, or has failed. -/
theorem uv__stream_connect_next (h : Inv ⟨s, []⟩ b) (hfd : s.fd) {req : Nat} (hreq : s.connect_req = some req)
    {pending : Bool}
    (so_error : Nat) {e : Event} (hworks : Works ⟨s, []⟩ e → (so_error = 0 ∨ (so_error : Int) = EINPROGRESS) ∧
      s.delayed_error = 0) :
    Next ⟨s, []⟩ (uv__stream_connect { s with pending } req so_error).1 b b
    (uv__stream_connect { s with pending } req so_error).2 e := by
  have hnc := h.notClosed hfd
  obtain ⟨hpollout, hcompleted⟩ : s.pollout ∧ s.write_completed_queue = [] :=
    (h.connecting hfd (by simp [hreq])).imp_right And.left
  have hnot : Watched ⟨s, []⟩ → s.shutting = false := by
    intro hwatched
    by_contra hs
    have hnone := (hwatched hfd (by simpa using hs)).1
    simp [hreq] at hnone
  unfold uv__stream_connect
  dsimp only
  generalize herror : (if s.delayed_error ≠ 0 then s.delayed_error else -(so_error : Int)) = error
  by_cases hprogress : error = -EINPROGRESS
  · rw [if_pos hprogress]
    refine ⟨⟨h.shows.congr rfl rfl rfl, .idle (by simp [hnc]), h.opened, h.closed, ?_, h.shutting, ?_,
      ?_, ?_⟩, .refl b, fun _ => ⟨rfl, rfl⟩, fun _ => id, ?_, by simp⟩
    · simp [hfd]
    · exact fun _ _ => ⟨hpollout, hcompleted, rfl⟩
    · simp [hreq]
    · simp [hcompleted]
    · intro _ hwatched
      simp [Watched, hnot hwatched]
  · rw [if_neg hprogress]
    refine ⟨⟨h.shows.congr rfl rfl rfl, .connected error hnc, h.opened, h.closed, ?_, h.shutting, ?_,
      ?_, ?_⟩, .silent rfl rfl ⟨rfl, rfl, rfl⟩, fun _ => ⟨rfl, rfl⟩, ?_, ?_, by simp⟩
    · simp [hfd]
    · simp
    · intro _ _ hne
      by_cases hneg : error < 0
      · exact .inr (.inr ⟨error, hneg, by simp⟩)
      · have hne : s.write_queue.isEmpty = false := by simpa using hne
        exact .inl (by simp [hneg, hne, hpollout])
    · simp [hcompleted]
    · intro hw hstraight _
      obtain ⟨hso, hdelayed⟩ := hworks hw
      refine ⟨(hstraight hfd).1, ?_⟩
      rintro ⟨e', hneg, hmem⟩
      obtain rfl : e' = error := by simpa using hmem
      rw [if_neg (by simpa using hdelayed)] at herror
      rcases hso with rfl | hso
      · omega
      · rw [hso] at herror
        exact hprogress herror.symm
    · intro _ hwatched
      simp [Watched, hnot hwatched]

theorem uv__stream_io_goes (h : Inv ⟨s, stack⟩ b) (fed : Bool) (so_error : Nat) (sys : List Sys)
    (he : Enabled ⟨s, stack⟩ (.io fed so_error sys)) :
    Goes ⟨s, stack⟩ b (.io fed so_error sys) (step iovmax ⟨s, stack⟩ (.io fed so_error sys)) := by
  obtain ⟨rfl, hfd, -⟩ := he
  have hfd : s.fd := hfd
  have hclosing : s.closing = false := by
    have := h.opened
    simp_all
  refine .inr ⟨id, ?_⟩
  have hfed : (if fed then { s with pending := false } else s) =
    { s with pending := if fed then false else s.pending } := by
    cases fed <;> rfl
  dsimp only [step]
  rw [hfed]
  generalize (if fed then false else s.pending) = pending
  obtain ⟨s₀, hs₀⟩ : ∃ s₀, s₀ = { s with pending } := ⟨_, rfl⟩
  have hclosing₀ : s₀.closing = false := hs₀ ▸ hclosing
  have hreq₀ : s₀.connect_req = s.connect_req := hs₀ ▸ rfl
  rw [← hs₀]
  unfold uv__stream_io
  rw [if_neg (by simp [hclosing₀])]
  obtain hreq | ⟨req, hreq⟩ : s.connect_req = none ∨ ∃ req, s.connect_req = some req := by
    cases s.connect_req <;> simp
  · have hshows : Shows s₀ b := hs₀ ▸ h.shows.congr rfl rfl rfl
    rw [hreq₀.trans hreq]
    rcases uv__write_eq iovmax sys hshows (hs₀ ▸ hfd) with hwaits | ⟨s', out, b', hwrite, hadv, hqueue⟩
    · exact .inl (by simp [hwaits, Except.map])
    · exact .inr ⟨_, _, b', by simp only [hwrite]; rfl, uv__stream_io_write h hfd hreq (hs₀ ▸ rfl) hadv hqueue And.left⟩
  · rw [hreq₀.trans hreq]
    subst hs₀
    exact .inr ⟨_, _, b, rfl, uv__stream_connect_next h hfd hreq so_error And.right⟩

theorem uv__finish_close_goes (h : Inv ⟨s, stack⟩ b) (he : Enabled ⟨s, stack⟩ .finish_close) :
    Goes ⟨s, stack⟩ b .finish_close (step iovmax ⟨s, stack⟩ .finish_close) := by
  obtain ⟨rfl, hclosing, hnc⟩ := he
  have hclosing : s.closing := hclosing
  have hnc : s.closed = false := by simpa using hnc
  have hfd : s.fd = false := by simpa [hclosing] using h.opened
  have hpollout : s.pollout = false := (h.quiet hfd).1
  dsimp only [step]
  unfold uv__finish_close
  rw [if_neg (by simp [hclosing, hnc, hpollout])]
  refine .inr ⟨id, .inr ⟨_, _, b, rfl, ⟨⟨h.shows.congr rfl rfl rfl, .destroy rfl, h.opened, fun _ => hfd,
    h.quiet, h.shutting, ?_, ?_, ?_⟩, .silent rfl rfl ?_, fun _ => ?_, ?_, ?_, ?_⟩⟩⟩
  · simp [hfd]
  · simp [hfd]
  · simp [hfd]
  · cases s.connect_req <;> exact ⟨rfl, rfl, rfl⟩
  · cases s.connect_req <;> exact ⟨rfl, rfl⟩
  · simp [Straight, hfd]
  · simp [Watched, hfd]
  · cases s.connect_req <;> simp

/-- A request that has ended is called back. -/
theorem Shows.callback (h : Shows s b) {req : uv_write_t} {queue : List uv_write_t}
    (hs : s.write_completed_queue = req :: queue) :
    ∃ size, uv__write_callback s req queue =
        .ok ({ s with write_completed_queue := queue, write_queue_size := size }, [.write_cb req.req req.error]) ∧
      Shows { s with write_completed_queue := queue, write_queue_size := size } b.tell ∧
      Grows b b.tell [.write_cb req.req req.error] := by
  obtain ⟨p, ps, hended, hps, hb⟩ := List.forall₂_cons_left_iff.1 (hs ▸ h.completed)
  have hsize := h.size
  simp only [hs, List.map_append, List.sum_append, List.map_cons, List.sum_cons] at hsize
  have htell : b.tell = { b with told := b.told ++ [p], ended := ps } := by simp [Book.tell, hb]
  have hgrows : Grows b b.tell [.write_cb req.req req.error] :=
    ⟨by simp [Book.wire_tell, sent], by simp [Book.tickets_tell, written], by simp [htell, called, hended.req,
      hended.error]⟩
  have hshows : Shows
      { s with write_completed_queue := queue, write_queue_size := s.write_queue_size - left req } b.tell := by
    refine ⟨?_, ?_, ?_, h.sound.tell⟩
    · rw [htell]
      exact h.queue
    · rw [htell]
      exact hps
    · simp only [List.map_append, List.sum_append]
      omega
  refine ⟨_, ?_, hshows, hgrows⟩
  unfold uv__write_callback
  cases hbufs : req.bufs with
  | none => simp [left, hbufs, count_bufs]
  | some bufs =>
    have hleft : left req = count_bufs bufs := left_of_serves hbufs
    dsimp only
    rw [if_neg (by omega), hleft]

/-- A function that has called back goes on with the queues. -/
theorem Inv.continues (h : Inv ⟨s, stack⟩ b) (hstack : stack ≠ []) {queue completed : List uv_write_t} {size : Nat}
    {stack' : List Frame} {b' : Book Nat UInt8 Nat} {out : List Effect} {e : Event}
    (hshows : Shows { s with write_queue := queue, write_completed_queue := completed, write_queue_size := size } b')
    (hshape : Shape { s with write_queue := queue, write_completed_queue := completed, write_queue_size :=
      size } stack')
    (hgrows : Grows b b' out) (hsilent : sent out = [] ∧ written out = [] ∧ .shutdown ∉ out)
    (hbusy : s.fd → queue ≠ [] → s.pollout ∨ s.pending ∨ Failing stack')
    (hcompleted : s.fd → completed ≠ [] → s.pending ∨ .write_callbacks ∈ stack')
    (hstraight : s.fd → Straight ⟨s, stack⟩ b → (∀ p ∈ b'.told ++ b'.ended, p.2 = none) ∧ ¬ Failing stack')
    (hdrain : s.fd → s.shutting → .drain ∈ stack → s.pollout ∨ s.pending ∨ .drain ∈ stack') :
    Next ⟨s, stack⟩ ⟨{ s with write_queue := queue, write_completed_queue := completed, write_queue_size := size },
      stack'⟩ b b' out e := by
  have hnone : s.fd → ¬ s.connect_req.isSome := fun hfd hs => hstack (h.connecting hfd hs).2.2
  refine ⟨⟨hshows, hshape, h.opened, h.closed, h.quiet, h.shutting, ?_, fun hfd _ => hbusy hfd, hcompleted⟩, hgrows,
    fun _ => ⟨hsilent.1, hsilent.2.1⟩, fun _ hs hfd => hstraight hfd hs, ?_, fun hmem => absurd hmem hsilent.2.2⟩
  · exact fun hfd hs => absurd hs (hnone hfd)
  · intro _ hwatched hfd hs
    obtain ⟨hnone, hwoken⟩ := hwatched hfd hs
    refine ⟨hnone, ?_⟩
    rcases hwoken with hwoken | hwoken | hwoken
    · exact .inl hwoken
    · exact .inr (.inl hwoken)
    · exact hdrain hfd hs hwoken

/-- What waits has woken the loop, unless the connection has failed. -/
theorem Inv.woken (h : Inv ⟨s, stack⟩ b) (hstack : stack ≠ []) (hnot : ¬ Failing stack) (hfd : s.fd)
    (hne : s.write_queue ≠ []) :
    s.pollout ∨ s.pending := by
  have hnone : s.connect_req = none := by
    by_contra hsome
    exact hstack (h.connecting hfd (Option.isSome_iff_ne_none.2 hsome)).2.2
  rcases h.busy hfd hnone hne with hwoken | hwoken | hwoken
  · exact .inl hwoken
  · exact .inr hwoken
  · exact absurd hwoken hnot

/-- `uv__write_callbacks` calls back for the next request, or is done. -/
theorem write_callbacks_goes (h : Inv ⟨s, .write_callbacks :: stack⟩ b) (sys : Option Nat) :
    ∃ w' out b', resume s sys .write_callbacks stack = .ok (w', out) ∧
    Next ⟨s, .write_callbacks :: stack⟩ w' b b' out (.resume sys) := by
  have hshows : Shows s b := h.shows
  have hnot : ¬ Failing (.write_callbacks :: stack) := by
    have hshape := h.shape
    rintro ⟨e, -, hmem⟩
    cases hshape <;> simp at hmem
  have hbusy := h.woken (by simp) hnot
  have hall : s.fd → Straight ⟨s, .write_callbacks :: stack⟩ b → (∀ p ∈ b.told ++ b.ended, p.2 = none) ∧
      ¬ Failing stack := by
    intro hfd hstraight
    refine (hstraight hfd).imp_right fun hnot ⟨e, hneg, hmem⟩ => hnot ⟨e, hneg, List.mem_cons_of_mem _ hmem⟩
  unfold resume
  cases hs : s.write_completed_queue with
  | nil =>
    have hshape : Shape s stack := by
      have hshape := h.shape
      cases hshape with
      | io hc => exact .drain hc
      | failed hc => exact .idle fun hclosed => absurd hclosed (by simpa using hc)
      | destroying hc hq => exact .destroyed hc hq hs
    have hnext : Next ⟨s, .write_callbacks :: stack⟩ ⟨s, stack⟩ b b [] (.resume sys) :=
      h.continues (by simp) hshows hshape (.refl b) ⟨rfl, rfl, by simp⟩ (fun hfd hne => (hbusy hfd hne).imp_right .inl)
        (fun _ hne => absurd hs hne) hall (fun _ _ hmem => .inr (.inr (by simpa using hmem)))
    exact ⟨_, _, b, rfl, hnext⟩
  | cons req queue =>
    obtain ⟨size, hcall, hshows', hgrows⟩ := hshows.callback hs
    have hshape : Shape { s with write_completed_queue := queue, write_queue_size := size }
      (.write_callbacks :: stack) := by
      have hshape := h.shape
      cases hshape with
      | io hc => exact .io hc
      | failed hc => exact .failed hc
      | destroying hc hq => exact .destroying hc hq
    have htell : ∀ p ∈ b.tell.told ++ b.tell.ended, p ∈ b.told ++ b.ended := by
      unfold Book.tell
      split <;> simp_all
    refine ⟨_, _, b.tell, by simp only [hcall]; rfl, h.continues (by simp) hshows' hshape hgrows ⟨rfl, rfl, by simp⟩
      (fun hfd hne => (hbusy hfd hne).imp_right .inl) (fun _ _ => .inr (by simp)) (fun hfd hstraight => ?_)
      (fun _ _ hmem => .inr (.inr hmem))⟩
    exact (hstraight hfd).imp_left fun hp p hmem => hp p (htell p hmem)

/-- The end of `uv__stream_io`. -/
theorem drain_goes (h : Inv ⟨s, .drain :: stack⟩ b) (sys : Option Nat) :
    ∃ w' out b', resume s sys .drain stack = .ok (w', out) ∧ Next ⟨s, .drain :: stack⟩ w' b b' out (.resume sys) := by
  have hshows : Shows s b := h.shows
  obtain ⟨rfl, hc⟩ : stack = [] ∧ s.closed = false := by
    have hshape := h.shape
    cases hshape with
    | drain hc => exact ⟨rfl, hc⟩
  have hidle {s' : uv_stream_t} (hs' : s'.closed = false) : Shape s' [] :=
    .idle fun hclosed => absurd hclosed (by simpa using hs')
  have hcompleted : s.fd → s.write_completed_queue ≠ [] → s.pending := by
    intro hfd hne
    simpa using h.completed hfd hne
  dsimp only [resume]
  by_cases hempty : s.write_queue.isEmpty
  · have hnil : s.write_queue = [] := by simpa using hempty
    rw [if_pos hempty]
    unfold uv__drain
    rw [if_pos hempty]
    dsimp only
    by_cases hshut : s.shutting && !s.closing && !s.shut
    · have hfd : s.fd := by
        have := h.opened
        simp_all
      have hshutting : s.shutting := by simp_all
      obtain ⟨req, hreq⟩ := Option.isSome_iff_exists.1 (h.shutting hfd hshutting).2
      have hreq : s.shutdown_req = some req := hreq
      rw [if_pos hshut]
      simp only [hreq]
      refine ⟨_, _, b, rfl, ⟨⟨hshows.congr rfl rfl rfl, hidle hc, h.opened, h.closed, ?_, ?_, ?_, ?_, ?_⟩,
        .silent rfl rfl ⟨rfl, rfl, rfl⟩, fun _ => ⟨rfl, rfl⟩, ?_, ?_, fun _ => ⟨hfd, hnil⟩⟩⟩
      · simp [hfd]
      · simp
      · exact fun hfd hs => absurd (h.connecting hfd hs).2.2 (by simp)
      · exact fun _ _ hne => absurd hnil hne
      · exact fun hfd hne => .inl (hcompleted hfd hne)
      · exact fun _ hstraight hfd => (hstraight hfd).imp_right fun _ => by simp [Failing]
      · simp [Watched]
    · rw [if_neg hshut]
      have hnot : s.fd → s.shutting = false := by
        intro hfd
        by_contra hs
        have hs : s.shutting := by simpa using hs
        have hopen := h.opened
        have hne : s.shut = false := (h.shutting hfd hs).1
        simp_all
      refine ⟨_, _, b, rfl, ⟨⟨hshows.congr rfl rfl rfl, hidle hc, h.opened, h.closed, ?_, h.shutting, ?_, ?_,
        ?_⟩, .refl b, fun _ => ⟨rfl, rfl⟩, ?_, ?_, by simp⟩⟩
      · exact fun hfd => ⟨rfl, (h.quiet hfd).2⟩
      · exact fun hfd hs => absurd (h.connecting hfd hs).2.2 (by simp)
      · exact fun _ _ hne => absurd hnil hne
      · exact fun hfd hne => .inl (hcompleted hfd hne)
      · exact fun _ hstraight hfd => (hstraight hfd).imp_right fun _ => by simp [Failing]
      · intro _ _ hfd hs
        simp [hnot hfd] at hs
  · have hne : s.write_queue ≠ [] := by simpa using hempty
    rw [if_neg hempty]
    have hbusy := fun hfd => h.woken (by simp) (by simp [Failing]) hfd hne
    have hnext : Next ⟨s, [.drain]⟩ ⟨s, []⟩ b b [] (.resume sys) :=
      h.continues (by simp) hshows (hidle hc) (.refl b) ⟨rfl, rfl, by simp⟩ (fun hfd _ => (hbusy hfd).imp_right .inl)
        (fun hfd hne => .inl (hcompleted hfd hne)) (fun hfd hstraight => (hstraight hfd).imp_right fun _ => by
          simp [Failing])
        (fun hfd _ _ => (hbusy hfd).imp_right .inl)
    exact ⟨_, _, b, rfl, hnext⟩

/-- What waits is cancelled. -/
theorem Shows.flush (h : Shows s b) : Shows (uv__stream_flush_write_queue s (-ECANCELED)) (b.abandon 124) where
  queue := .nil
  completed := by
    refine List.rel_append h.completed ?_
    rw [List.forall₂_map_left_iff, List.forall₂_map_right_iff]
    exact h.queue.imp fun _ _ hserves => ⟨hserves.req, by simp [status, ECANCELED]⟩
  size := by
    have hsize := h.size
    have hleft : left ∘ (fun req : uv_write_t => { req with error := -ECANCELED }) = left := rfl
    simp only [uv__stream_flush_write_queue, List.map_append, List.sum_append, List.map_map, hleft,
      List.nil_append] at hsize ⊢
    omega
  sound := h.sound.abandon 124

theorem Shows.grows_flush (b : Book Nat UInt8 Nat) : Grows b (b.abandon 124) [] :=
  .silent (Book.tickets_abandon 124) rfl ⟨rfl, rfl, rfl⟩

/-- The end of `uv__stream_connect`: after a failure the queue is flushed. -/
theorem connected_goes {error : Int} (h : Inv ⟨s, .connected error :: stack⟩ b) (sys : Option Nat) :
    ∃ w' out b', resume s sys (.connected error) stack = .ok (w', out) ∧
      Next ⟨s, .connected error :: stack⟩ w' b b' out (.resume sys) := by
  have hshows : Shows s b := h.shows
  obtain ⟨rfl, hc⟩ : stack = [] ∧ s.closed = false := by
    have hshape := h.shape
    cases hshape with
    | connected _ hc => exact ⟨rfl, hc⟩
  dsimp only [resume]
  by_cases hfail : s.fd && error < 0
  · obtain ⟨hfd, hneg⟩ : s.fd ∧ error < 0 := by simpa using hfail
    rw [if_pos hfail]
    have hnext : Next ⟨s, [.connected error]⟩ ⟨uv__stream_flush_write_queue s (-ECANCELED), [.write_callbacks]⟩ b
        (b.abandon 124) []
        (.resume sys) :=
      h.continues (by simp) hshows.flush (.failed hc) (Shows.grows_flush b) ⟨rfl, rfl, by simp⟩
        (fun _ hne => absurd rfl hne)
        (fun _ _ => .inr (by simp)) (fun hfd hstraight => absurd ⟨error, hneg, by simp⟩ (hstraight hfd).2)
        (fun _ _ hmem => by simp at hmem)
    exact ⟨_, _, _, rfl, hnext⟩
  · have hnot : s.fd → ¬ Failing [.connected error] := by
      rintro hfd ⟨e, hneg, hmem⟩
      obtain rfl : e = error := by simpa using hmem
      simp [hfd, hneg] at hfail
    rw [if_neg hfail]
    have hnext : Next ⟨s, [.connected error]⟩ ⟨s, []⟩ b b [] (.resume sys) :=
      h.continues (by simp) hshows (.idle fun hclosed => absurd hclosed (by simpa using hc)) (.refl b)
        ⟨rfl, rfl, by simp⟩
        (fun hfd hne => (h.woken (by simp) (hnot hfd) hfd hne).imp_right .inl)
        (fun hfd hne => by simpa using h.completed hfd hne)
        (fun hfd hstraight => (hstraight hfd).imp_right fun _ => by simp [Failing]) (fun _ _ hmem => by simp at hmem)
    exact ⟨_, _, b, rfl, hnext⟩

/-- The parts of `uv__stream_destroy`. -/
theorem destroy_goes (h : Inv ⟨s, .destroy :: stack⟩ b) (sys : Option Nat) :
    ∃ w' out b', resume s sys .destroy stack = .ok (w', out) ∧
    Next ⟨s, .destroy :: stack⟩ w' b b' out (.resume sys) := by
  have hshows : Shows s b := h.shows
  obtain ⟨rfl, hc⟩ : stack = [] ∧ s.closed := by
    have hshape := h.shape
    cases hshape with
    | destroy hc => exact ⟨rfl, hc⟩
  have hfd : s.fd = false := h.closed hc
  have hshows' : Shows { s with connect_req := none } b := hshows.congr rfl rfl rfl
  refine ⟨_, _, b.abandon 124, rfl,
    ⟨⟨hshows'.flush, .destroying hc rfl, h.opened, h.closed, h.quiet, h.shutting, ?_, ?_, ?_⟩,
    Shows.grows_flush b, fun _ => ⟨rfl, rfl⟩, ?_, ?_, by simp⟩⟩
  all_goals simp [uv__stream_flush_write_queue, Straight, Watched, hfd]

theorem destroyed_goes (h : Inv ⟨s, .destroyed :: stack⟩ b) (sys : Option Nat) :
    ∃ w' out b', resume s sys .destroyed stack = .ok (w', out) ∧
    Next ⟨s, .destroyed :: stack⟩ w' b b' out (.resume sys) := by
  have hshows : Shows s b := h.shows
  obtain ⟨rfl, hc, hq, hcomp⟩ : stack = [] ∧ s.closed ∧ s.write_queue = [] ∧ s.write_completed_queue = [] := by
    have hshape := h.shape
    cases hshape with
    | destroyed hc hq hcomp => exact ⟨rfl, hc, hq, hcomp⟩
  have hfd : s.fd = false := h.closed hc
  refine ⟨_, _, b, rfl, ⟨⟨hshows, .finish hc hq hcomp, h.opened, h.closed, h.quiet, h.shutting, ?_, ?_, ?_⟩,
    .silent rfl rfl ?_, fun _ => ?_, ?_, ?_, ?_⟩⟩
  · simp [hfd]
  · simp [hfd]
  · simp [hfd]
  · cases s.shutdown_req <;> exact ⟨rfl, rfl, rfl⟩
  · cases s.shutdown_req <;> exact ⟨rfl, rfl⟩
  · simp [Straight, hfd]
  · simp [Watched, hfd]
  · cases s.shutdown_req <;> simp

theorem finish_goes (h : Inv ⟨s, .finish :: stack⟩ b) (sys : Option Nat) :
    ∃ w' out b', resume s sys .finish stack = .ok (w', out) ∧ Next ⟨s, .finish :: stack⟩ w' b b' out (.resume sys) := by
  have hshows : Shows s b := h.shows
  obtain ⟨rfl, hc, hq, hcomp⟩ : stack = [] ∧ s.closed ∧ s.write_queue = [] ∧ s.write_completed_queue = [] := by
    have hshape := h.shape
    cases hshape with
    | finish hc hq hcomp => exact ⟨rfl, hc, hq, hcomp⟩
  have hfd : s.fd = false := h.closed hc
  have hsize : s.write_queue_size = 0 := by
    have hsize := hshows.size
    simpa [hq, hcomp] using hsize
  dsimp only [resume]
  rw [if_pos hsize]
  refine ⟨_, _, b, rfl, ⟨⟨hshows.congr rfl rfl rfl, .idle fun _ => ⟨hq, hcomp⟩, h.opened, h.closed, h.quiet,
    ?_, ?_, ?_, ?_⟩, .silent rfl rfl ⟨rfl, rfl, rfl⟩, fun _ => ⟨rfl, rfl⟩, ?_, ?_, by simp⟩⟩
  all_goals simp [Straight, Watched, hfd]

/-- **What a step does.** -/
theorem step_goes (iovmax : Nat) {w : State} (h : Inv w b) {e : Event} (he : Enabled w e) :
    Goes w b e (step iovmax w e) := by
  obtain ⟨s, stack⟩ := w
  cases e with
  | write req bufs sys => exact uv_write_goes h req bufs sys
  | shutdown req => exact uv_shutdown_goes h req
  | close => exact uv_close_goes h
  | io fed so_error sys => exact uv__stream_io_goes h fed so_error sys he
  | finish_close => exact uv__finish_close_goes h he
  | resume sys =>
    refine .inr ⟨id, .inr ?_⟩
    cases stack with
    | nil => exact absurd rfl he
    | cons frame stack =>
      cases frame with
      | write_callbacks => exact write_callbacks_goes h sys
      | drain => exact drain_goes h sys
      | connected error => exact connected_goes h sys
      | destroy => exact destroy_goes h sys
      | destroyed => exact destroyed_goes h sys
      | finish => exact finish_goes h sys

end Steps

/-! ## Runs -/

/-- A stream before anything is written to it. -/
inductive Starts : uv_stream_t → Prop
  | accepted (blocking : Bool) : Starts (accepted blocking)
  | connecting (req : Nat) (delayed_error : Int) : Starts (connecting req delayed_error)

theorem Starts.inv {s : uv_stream_t} (h : Starts s) : Inv ⟨s, []⟩ .empty := by
  cases h with
  | accepted blocking =>
    refine ⟨⟨.nil, .nil, rfl, Book.sound_empty⟩, .idle ?_, rfl, ?_, ?_, ?_, ?_, ?_, ?_⟩
    all_goals simp [Uv.accepted]
  | connecting req delayed_error =>
    refine ⟨⟨.nil, .nil, rfl, Book.sound_empty⟩, .idle ?_, rfl, ?_, ?_, ?_, ?_, ?_, ?_⟩
    all_goals simp [Uv.connecting]

section Runs

variable {iovmax : Nat} {C : State → Event → Prop} {s : uv_stream_t} {w : State} {out : List Effect}

/-- The invariant of a step that goes on. -/
theorem Inv.next {b : Book Nat UInt8 Nat} (h : Inv w b) {e : Event} (he : Enabled w e) {w' : State} {out' : List Effect}
    (hstep : step iovmax w e = .ok (w', out')) : ∃ b', Next w w' b b' out' e := by
  rcases step_goes iovmax h he with ⟨hassert, -⟩ | ⟨-, hwaits | ⟨w'', out'', b', hok, hnext⟩⟩
  · rw [hassert] at hstep
    cases hstep
  · rw [hwaits] at hstep
    cases hstep
  · obtain ⟨rfl, rfl⟩ : w'' = w' ∧ out'' = out' := Prod.mk.inj (Except.ok.inj (hok.symm.trans hstep))
    exact ⟨b', hnext⟩

/-- The invariant holds in every run, with a book of what has been seen. -/
theorem Reach.inv (hs : Starts s) (h : Reach iovmax C s w out) : ∃ b, Inv w b ∧ Grows .empty b out := by
  induction h with
  | init => exact ⟨.empty, hs.inv, .refl _⟩
  | step _ he _ hstep ih =>
    obtain ⟨b, hinv, hgrows⟩ := ih
    obtain ⟨b', hnext⟩ := hinv.next he hstep
    exact ⟨b', hnext.inv, hgrows.trans hnext.grows⟩

/-- If no system call fails, nothing has failed, and what is sent begins what is written. -/
theorem Reach.straight (hs : Starts s) (h : Reach iovmax Works s w out) :
    ∃ b, Inv w b ∧ Grows .empty b out ∧ Straight w b ∧ b.wire <+: b.tickets.flatMap Ticket.data := by
  induction h with
  | init => exact ⟨.empty, hs.inv, .refl _, fun _ => ⟨by simp [Book.empty], by simp [Failing]⟩, List.nil_prefix⟩
  | @step w w' out out' e _ he hworks hstep ih =>
    obtain ⟨b, hinv, hgrows, hstraight, hbegins⟩ := ih
    obtain ⟨b', hnext⟩ := hinv.next he hstep
    have hstraight' := hnext.straight hworks hstraight
    refine ⟨b', hnext.inv, hgrows.trans hnext.grows, hstraight', ?_⟩
    cases hfd : w'.stream.fd with
    | true => exact hnext.inv.shows.sound.wire_begins (hstraight' hfd).1
    | false =>
      obtain ⟨hsent, hwritten⟩ := hnext.silent hfd
      have hwire : b'.wire = b.wire := by simp [hnext.grows.wire, hsent]
      have htickets := congrArg (List.flatMap Prod.snd) hnext.grows.tickets
      simp only [hwritten, List.append_nil, List.flatMap_map] at htickets
      rw [hwire]
      exact htickets ▸ hbegins

/-- The tickets of a run are what was written. -/
theorem Grows.written {b : Book Nat UInt8 Nat} (h : Grows .empty b out) :
    written out = b.tickets.map fun t => (t.id, t.data) := by
  simpa [Book.empty, Book.tickets] using h.tickets.symm

theorem Grows.called {b : Book Nat UInt8 Nat} (h : Grows .empty b out) :
    called out = b.told.map fun p => (p.1.id, status p.2) := by
  simpa [Book.empty] using h.told.symm

theorem Grows.sent {b : Book Nat UInt8 Nat} (h : Grows .empty b out) : sent out = b.wire := by
  simpa [Book.empty, Book.wire, Book.tickets] using h.wire.symm

/-! ## What is sent and called back -/

/-- A request of which the kernel takes two bytes, and then the rest. -/
def partlyTaken : List Effect := [.write 7 [1, 2, 3], .sent [1, 2], .sent [3], .write_cb 7 0]

theorem partlyTaken_reach (hC : ∀ w e, Works w e → (∀ req, e ≠ .shutdown req) → C w e) :
    ∃ w, Reach 1024 C (accepted false) w partlyTaken ∧ w.stack = [] := by
  have hwrite {w : State} {req n : Nat} {bufs : List Bytes} : C w (.write req bufs [.takes n]) :=
    hC _ _ (by simp [Works, Fine]) (by simp)
  have hio {w : State} (hw : w.stream.delayed_error = 0) : C w (.io false 0 [.takes 5]) :=
    hC _ _ (by simp [Works, Fine, hw]) (by simp)
  have hresume {w : State} : C w (.resume none) := hC _ _ trivial (by simp)
  have h₁ : Reach 1024 C (accepted false) _ _ := .step .init (e := .write 7 [[1, 2], [3]] [.takes 2]) trivial hwrite rfl
  have h₂ := h₁.step (e := .io false 0 [.takes 5]) ⟨rfl, rfl, by simp⟩ (hio rfl) rfl
  have h₃ := h₂.step (e := .resume none) (by simp [Enabled]) hresume rfl
  have h₄ := h₃.step (e := .resume none) (by simp [Enabled]) hresume rfl
  have h₅ := h₄.step (e := .resume none) (by simp [Enabled]) hresume rfl
  exact ⟨_, h₅, rfl⟩

/-- **Writes in order**: in every run the kernel has taken a prefix of each request, one after the other; the callbacks
are called in the same order, once each, and a request whose callback says so has been taken as a whole. -/
theorem writes_in_order (hs : Starts s) (h : Reach iovmax C s w out) :
    ∃ parts : List Bytes, sent out = parts.flatten ∧ List.Forall₂ (fun part p => part <+: p.2) parts (written out) ∧
      (called out).map Prod.fst <+: (written out).map Prod.fst ∧
      ∀ (i req : Nat), (called out)[i]? = some (req, 0) → ∃ data :
      Bytes, (written out)[i]? = some (req, data) ∧ parts[i]? = some data := by
  obtain ⟨b, hinv, hgrows⟩ := h.inv hs
  have hsound := hinv.shows.sound
  have htickets : ∀ t ∈ b.tickets, t.taken <+: t.data := by
    intro t ht
    have hmem : (∃ p ∈ b.told ++ b.ended, p.1 = t) ∨ t ∈ b.waiting := by
      simpa [Book.tickets, or_assoc, or_and_right, exists_or] using ht
    rcases hmem with ⟨p, hp, rfl⟩ | hmem
    · exact (hsound.settled p hp).1
    · exact hsound.waiting t hmem
  refine ⟨b.tickets.map Ticket.taken, ?_, ?_, ?_, ?_⟩
  · rw [hgrows.sent, Book.wire, List.flatMap_def]
  · rw [hgrows.written, List.forall₂_map_left_iff, List.forall₂_map_right_iff, List.forall₂_same]
    exact htickets
  · rw [hgrows.called, hgrows.written, List.map_map, List.map_map]
    refine ⟨(b.ended.map Prod.fst ++ b.waiting).map Ticket.id, ?_⟩
    simp [Book.tickets, Function.comp_def]
  · intro i req hcalled
    rw [hgrows.called, List.getElem?_map] at hcalled
    obtain ⟨p, hp, hreq⟩ := Option.map_eq_some_iff.1 hcalled
    obtain ⟨rfl, hstatus⟩ := Prod.mk.inj hreq
    have hwhole : p.1.taken = p.1.data :=
      (hsound.settled p (List.mem_append_left _ (List.mem_of_getElem? hp))).2 (status_eq_zero.1 hstatus)
    have hticket : b.tickets[i]? = some p.1 := by
      have hlt := (List.getElem?_eq_some_iff.1 hp).1
      rw [Book.tickets, List.append_assoc, List.getElem?_append_left (by simpa using hlt), List.getElem?_map, hp]
      rfl
    exact ⟨p.1.data,
      by rw [hgrows.written, List.getElem?_map, hticket]; rfl, by rw [List.getElem?_map, hticket, ← hwhole]; rfl⟩

theorem writes_in_order_partly :
    ∃ parts : List Bytes, sent partlyTaken = parts.flatten ∧
    List.Forall₂ (fun part p => part <+: p.2) parts (written partlyTaken) ∧
      (called partlyTaken).map Prod.fst <+: (written partlyTaken).map Prod.fst ∧
      ∀ (i req : Nat), (called partlyTaken)[i]? = some (req, 0) →
        ∃ data : Bytes, (written partlyTaken)[i]? = some (req, data) ∧ parts[i]? = some data := by
  obtain ⟨_, h, -⟩ := partlyTaken_reach (C := Works) fun _ _ hworks _ => hworks
  exact writes_in_order (.accepted false) h

/-- **Nothing is forgotten**: when the loop has returned from what it called, every request has been called back, or the
loop will come to the stream again: the descriptor is watched, the stream is in the pending queue, or it is about to be
destroyed. -/
theorem none_forgotten (hs : Starts s) (h : Reach iovmax C s w out) (hidle : w.stack = []) :
    (called out).map Prod.fst = (written out).map Prod.fst ∨ w.stream.pollout ∨ w.stream.pending ∨
      w.stream.closing ∧ w.stream.closed = false := by
  obtain ⟨b, hinv, hgrows⟩ := h.inv hs
  have hall : w.stream.write_queue = [] → w.stream.write_completed_queue = [] →
      (Uv.called out).map Prod.fst = (Uv.written out).map Prod.fst := by
    intro hqueue hcompleted
    have hwaiting : b.waiting = [] := List.forall₂_nil_left_iff.1 (hqueue ▸ hinv.shows.queue)
    have hended : b.ended = [] := List.forall₂_nil_left_iff.1 (hcompleted ▸ hinv.shows.completed)
    rw [hgrows.called, hgrows.written]
    simp [Book.tickets, hwaiting, hended, Function.comp_def]
  have hshape := hinv.shape
  rw [hidle] at hshape
  cases hshape with
  | idle hclosed =>
    by_cases hfd : w.stream.fd
    · by_cases hreq : w.stream.connect_req.isSome
      · exact .inr (.inl (hinv.connecting hfd hreq).1)
      · have hnone : w.stream.connect_req = none := by simpa using hreq
        by_cases hqueue : w.stream.write_queue = []
        · by_cases hcompleted : w.stream.write_completed_queue = []
          · exact .inl (hall hqueue hcompleted)
          · have hpending := hinv.completed hfd hcompleted
            simp [hidle] at hpending
            exact .inr (.inr (.inl hpending))
        · have hwoken := hinv.busy hfd hnone hqueue
          simp [hidle, Failing] at hwoken
          tauto
    · have hclosing : w.stream.closing := by simpa [hfd] using hinv.opened
      cases hc : w.stream.closed with
      | true => exact .inl (hall (hclosed hc).1 (hclosed hc).2)
      | false => exact .inr (.inr (.inr ⟨hclosing, rfl⟩))

theorem none_forgotten_partly :
    ∃ w : State, w.stack = [] ∧ ((called partlyTaken).map Prod.fst = (written partlyTaken).map Prod.fst ∨
    w.stream.pollout ∨ w.stream.pending ∨ w.stream.closing ∧ w.stream.closed = false) := by
  obtain ⟨w, h, hidle⟩ := partlyTaken_reach (C := Works) fun _ _ hworks _ => hworks
  exact ⟨w, hidle, none_forgotten (.accepted false) h hidle⟩

/-- Where no system call fails, what is sent begins what is written. -/
theorem Reach.sent_begins (hs : Starts s) (h : Reach iovmax Works s w out) :
    sent out <+: (written out).flatMap Prod.snd := by
  obtain ⟨b, hinv, hgrows, hstraight, hbegins⟩ := h.straight hs
  rw [hgrows.sent, hgrows.written, List.flatMap_map]
  exact hbegins

/-- **Shutting down** comes last: where no system call fails, what is sent begins what is written, and all of it has
been sent when `shutdown` is called. -/
theorem shutdown_last (hs : Starts s) (h : Reach iovmax Works s w out) :
    sent out <+: (written out).flatMap Prod.snd ∧
      ∀ e w' out', Enabled w e → step iovmax w e = .ok (w', out') → .shutdown ∈ out' →
      sent out = (written out).flatMap Prod.snd := by
  refine ⟨h.sent_begins hs, fun e w' out' he hstep hmem => ?_⟩
  obtain ⟨b, hinv, hgrows, hstraight, -⟩ := h.straight hs
  rw [hgrows.sent, hgrows.written, List.flatMap_map]
  obtain ⟨b', hnext⟩ := hinv.next he hstep
  obtain ⟨hfd, hqueue⟩ := hnext.last hmem
  have hwaiting : b.waiting = [] := List.forall₂_nil_left_iff.1 (hqueue ▸ hinv.shows.queue)
  exact hinv.shows.sound.wire_all (hstraight hfd).1 hwaiting

theorem shutdown_last_partly : ∃ w, sent partlyTaken <+: (written partlyTaken).flatMap Prod.snd ∧
    ∀ e w' out', Enabled w e → step 1024 w e = .ok (w', out') → .shutdown ∈ out' →
      sent partlyTaken = (written partlyTaken).flatMap Prod.snd := by
  obtain ⟨w, h, -⟩ := partlyTaken_reach (C := Works) fun _ _ hworks _ => hworks
  exact ⟨w, shutdown_last (.accepted false) h⟩

/-- A program that shuts a stream down only when it is connected. -/
def Patient (w : State) (e : Event) : Prop := ∀ req, e = .shutdown req → w.stream.connect_req = none

/-- **A shutdown is not forgotten** if the stream is connected when it is asked for. -/
theorem shutdown_watched (hs : Starts s) (h : Reach iovmax Patient s w out) (hidle : w.stack = []) (hfd : w.stream.fd)
    (hshutting : w.stream.shutting) : w.stream.pollout ∨ w.stream.pending := by
  have hwatched : ∃ b, Inv w b ∧ Watched w := by
    clear hidle hfd hshutting
    induction h with
    | init =>
      refine ⟨.empty, hs.inv, fun _ hshutting => ?_⟩
      cases hs <;> cases hshutting
    | step _ he hpatient hstep ih =>
      obtain ⟨b, hinv, hwatched⟩ := ih
      obtain ⟨b', hnext⟩ := hinv.next he hstep
      exact ⟨b', hnext.inv, hnext.watched hpatient hwatched⟩
  obtain ⟨b, -, hwatched⟩ := hwatched
  simpa [hidle] using (hwatched hfd hshutting).2

theorem shutdown_watched_idle : ∃ w : State, w.stream.shutting ∧ (w.stream.pollout ∨ w.stream.pending) := by
  have h : Reach 1024 Patient (accepted false) _ _ := .step .init (e := .shutdown 1) trivial (fun _ _ => rfl) rfl
  exact ⟨_, rfl, shutdown_watched (.accepted false) h rfl rfl rfl⟩

/-- While the stream connects, it is: when it is connected, and has nothing to write, it is not watched any more. -/
example : ((step 1024 ⟨connecting 0 0, []⟩ (.shutdown 1)).bind fun r => (step 1024 r.1 (.io false 0 [])).bind fun r =>
    (step 1024 r.1 (.resume none)).map fun r =>
      (r.1.stack.length, r.1.stream.shutting, r.1.stream.pollout, r.1.stream.pending)) =
      .ok (0, true, false, false) := rfl

/-- **Assertions** fail exactly where a program writes no buffers, writes to a stream that blocks and has something
left, or closes a stream twice; and `write_queue_size` never goes below zero. -/
theorem asserts_iff (hs : Starts s) (h : Reach iovmax C s w out) {e : Event} (he : Enabled w e) :
    (step iovmax w e = .error .assertion ↔ Asserts w e) ∧ step iovmax w e ≠ .error .wraps := by
  obtain ⟨b, hinv, -⟩ := h.inv hs
  rcases step_goes iovmax hinv he with ⟨hassert, hasserts⟩ | ⟨hasserts, hwaits | ⟨w', out', b', hok, -⟩⟩
  · simp [hassert, hasserts]
  · simp [hwaits, hasserts]
  · simp [hok, hasserts]

theorem asserts_iff_partly : ∃ w, (step 1024 w .close = .error .assertion ↔ Asserts w .close) ∧
    step 1024 w .close ≠ .error .wraps := by
  obtain ⟨w, h, -⟩ := partlyTaken_reach (C := Works) fun _ _ hworks _ => hworks
  exact ⟨w, asserts_iff (.accepted false) h trivial⟩

/-- A stream that blocks is written to twice, and the first write fails. -/
example :
    ((step 1024 ⟨accepted true, []⟩ (.write 0 [[1]] [.fails 4])).bind fun r => step 1024 r.1 (.write 1 [[2]] [])) =
    .error .assertion := rfl

end Runs

end XCore.Uv
