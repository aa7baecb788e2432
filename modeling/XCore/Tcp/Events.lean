import XCore.Lib.Monitor
import XCore.Tcp.Calls

/-!
# The events of a client

A run of a server in its event loop: clients connect, libuv calls the read callbacks of the clients whose handles are
open, with data or at the end of the connection, and the application calls `CloseClient`.

The events that a server emits for a number are `accept`, any number of `recv`s and `close`, or the beginning of that,
exactly when the application closes only clients that are connected (`events_disciplined_iff`): `CloseClient` emits
`close` for every number it is given.
-/

namespace XCore.Tcp

open XCore.Lua XCore.Run XCore.Monitor

/-- An event of a client. -/
inductive Event
  | accept
  | recv
  | close
  deriving DecidableEq

/-- The events of a client are `accept`, `recv`s and `close`, or a prefix of that. -/
def Disciplined (es : List Event) : Prop := ∃ n, es <+: .accept :: (List.replicate n .recv ++ [.close])

/-! ## A monitor of the discipline -/

/-- What has happened to a client. -/
inductive Phase
  | unborn
  | live
  | gone
  deriving DecidableEq

/-- The event that may come next. -/
def Phase.next : Phase → Event → Option Phase
  | .unborn, .accept => some .live
  | .live, .recv => some .live
  | .live, .close => some .gone
  | _, _ => none

theorem watch_gone (es : List Event) : (watch Phase.next .gone es).isSome ↔ es = [] := by
  cases es with
  | nil => simp [watch]
  | cons e es => cases e <;> simp [watch, Phase.next]

theorem watch_live (es : List Event) :
    (watch Phase.next .live es).isSome ↔ ∃ n, es <+: List.replicate n .recv ++ [.close] := by
  induction es with
  | nil => simp [watch]
  | cons e es ih =>
    cases e with
    | accept =>
      refine iff_of_false (by simp [watch, Phase.next]) ?_
      rintro ⟨n, h⟩
      cases n <;> simp [List.replicate_succ] at h
    | recv =>
      rw [watch, Phase.next, Option.bind_some, ih]
      constructor
      · rintro ⟨n, h⟩
        exact ⟨n + 1, by rw [List.replicate_succ, List.cons_append]; exact (List.prefix_cons_inj _).2 h⟩
      · rintro ⟨n, h⟩
        cases n with
        | zero => simp at h
        | succ n =>
          rw [List.replicate_succ, List.cons_append, List.prefix_cons_inj] at h
          exact ⟨n, h⟩
    | close =>
      rw [watch, Phase.next, Option.bind_some, watch_gone]
      constructor
      · rintro rfl
        exact ⟨0, List.prefix_rfl⟩
      · rintro ⟨n, h⟩
        cases n with
        | zero => simpa using h
        | succ n => simp [List.replicate_succ] at h

/-- The monitor reads exactly the disciplined lists. -/
theorem watch_unborn (es : List Event) : (watch Phase.next .unborn es).isSome ↔ Disciplined es := by
  cases es with
  | nil => simp [watch, Disciplined]
  | cons e es =>
    cases e with
    | accept => simp [watch, Phase.next, Disciplined, watch_live]
    | recv => simp [watch, Phase.next, Disciplined]
    | close => simp [watch, Phase.next, Disciplined]

/-! ## Runs of the event loop -/

/-- A server and the read callbacks that libuv may call: for the handle of a client, the number that its callback has
been given. -/
structure Node (P : Type) where
  server : CTcpServer P
  reading : Nat → Option Nat

/-- A turn of the event loop. `read` is a call of the read callback of a client, with data, or without at the end of the
connection or after an error. -/
inductive Turn
  | connection (client : Nat) (time : Int)
  | read (fuel client : Nat) (data : Option Bytes)
  | closeClient (vfd : Nat)

/-- The event of an effect, for a number. -/
def eventOf {P : Type} (vfd : Nat) : ServerEffect P → Option Event
  | .onAccept v => if v = vfd then some .accept else none
  | .onRecv v _ => if v = vfd then some .recv else none
  | .onClose v => if v = some vfd then some .close else none
  | _ => none

namespace Node

variable {P : Type}

/-- The callback of a handle is not called after the handle is closed. -/
def closed (reading : Nat → Option Nat) : ServerEffect P → Nat → Option Nat
  | .close client => Function.update reading client none
  | _ => reading

/-- A method of the server has been called. -/
def done (n : Node P) (r : CTcpServer P × List (ServerEffect P)) : Node P × List (ServerEffect P) :=
  (⟨r.1, r.2.foldl closed n.reading⟩, r.2)

/-- A turn: `uv.tcp_new` does not return the handle of a client, and a package loop that is not left within its bound is
no turn. -/
def turn (n : Node P) : Turn → Node P × List (ServerEffect P)
  | .connection client time =>
    if n.reading client = none then
      let r := n.done (n.server.Accept client time)
      ({ r.1 with reading := Function.update r.1.reading client (some (n.server.m_ClientVfd + 1)) }, r.2)
    else (n, [])
  | .read fuel client data =>
    match n.reading client, data with
    | none, _ => (n, [])
    | some _, none => n.done (n.server.OnClientLost client)
    | some vfd, some str =>
      match n.server.Recv fuel vfd str with
      | none => (n, [])
      | some (server, out, _) => n.done (server, out)
  | .closeClient vfd => n.done (n.server.CloseClient vfd)

/-- A server that has just been created, perhaps with a package parser. -/
def start (parser : Option (PackageParser Empty P)) : Node P := ⟨CTcpServer.listening parser, fun _ => none⟩

/-- The application closes clients that are connected. -/
def Closes (n : Node P) : Turn → Prop
  | .closeClient vfd => n.server.Connected vfd
  | _ => True

/-! ## The invariant -/

/-- The tables fit together, and the open handles are those of the clients. -/
structure Inv (n : Node P) : Prop where
  tables : n.server.Tables
  handles : n.reading = n.server.m_ClientObj2Vfd

theorem inv_start (parser : Option (PackageParser Empty P)) : (start parser).Inv :=
  ⟨CTcpServer.tables_listening parser, rfl⟩

/-- What `Recv` emits. -/
theorem Recv_out {fuel vfd : Nat} {s s' : CTcpServer P} {str : Bytes} {out : List (ServerEffect P)}
    {err : Option LuaError} (h : s.Recv fuel vfd str = some (s', out, err)) :
    ∃ payloads : List (Payload P), out = payloads.map (.onRecv vfd) := by
  have hd : (s.Decode vfd str).1.RecvDecoded fuel vfd (s.Decode vfd str).2 = some (s', out, err) := h
  unfold CTcpServer.RecvDecoded at hd
  split at hd
  · cases hd
    exact ⟨[_], rfl⟩
  · obtain ⟨r, -, hr⟩ := Option.map_eq_some_iff.1 hd
    cases hr
    exact ⟨r.paks.map .pak, by simp⟩

theorem closed_recvs (vfd : Nat) (reading : Nat → Option Nat) (payloads : List (Payload P)) :
    (payloads.map (ServerEffect.onRecv vfd)).foldl closed reading = reading := by
  induction payloads with
  | nil => rfl
  | cons p ps ih => exact ih

variable {n : Node P}

/-- The turns keep it. -/
theorem Inv.turn (h : n.Inv) (t : Turn) : (n.turn t).1.Inv := by
  cases t with
  | connection client time =>
    simp only [Node.turn]
    split
    · rename_i hnew
      have hnew' : n.server.m_ClientObj2Vfd client = none := by rw [← h.handles]; exact hnew
      refine ⟨h.tables.accept hnew' time, ?_⟩
      simp [done, CTcpServer.Accept, CTcpServer.SendKey, closed, h.handles]
    · exact h
  | read fuel client data =>
    simp only [Node.turn]
    split
    · exact h
    · rename_i vfd hvfd
      refine ⟨h.tables.lost client, ?_⟩
      have hvfd' : n.server.m_ClientObj2Vfd client = some vfd := by rw [← h.handles]; exact hvfd
      simp [done, CTcpServer.OnClientLost, hvfd', closed, h.handles]
    · split
      · exact h
      · rename_i hr
        obtain ⟨payloads, rfl⟩ := Recv_out hr
        refine ⟨h.tables.recv hr, ?_⟩
        simp only [done, closed_recvs]
        rw [h.handles, (CTcpServer.Recv_fields hr).2.2.1]
  | closeClient vfd =>
    refine ⟨h.tables.close vfd, ?_⟩
    simp only [Node.turn, done, CTcpServer.CloseClient]
    split
    · exact h.handles
    · simp [closed, h.handles]

/-! ## Phases -/

/-- What has happened to a number. -/
def phase (vfd : Nat) (n : Node P) : Phase :=
  if n.server.Connected vfd then .live
  else if 1 ≤ vfd ∧ vfd ≤ n.server.m_ClientVfd then .gone
  else .unborn

theorem phase_live {vfd : Nat} (h : n.server.Connected vfd) : phase vfd n = .live := if_pos h

theorem phase_gone {vfd : Nat} (h : ¬n.server.Connected vfd) (h1 : 1 ≤ vfd) (h2 : vfd ≤ n.server.m_ClientVfd) :
    phase vfd n = .gone := by
  rw [phase, if_neg h, if_pos ⟨h1, h2⟩]

theorem phase_unborn {vfd : Nat} (h : ¬n.server.Connected vfd) (h2 : n.server.m_ClientVfd < vfd) :
    phase vfd n = .unborn := by
  rw [phase, if_neg h, if_neg (by omega)]

theorem phase_eq_of {m : Node P} {vfd : Nat} (hconn : m.server.Connected vfd ↔ n.server.Connected vfd)
    (hcount : vfd ≤ m.server.m_ClientVfd ↔ vfd ≤ n.server.m_ClientVfd) : phase vfd m = phase vfd n := by
  simp only [phase, hconn, hcount]

theorem watch_recvs (k : Nat) : watch Phase.next .live (List.replicate k .recv) = some .live := by
  induction k with
  | zero => rfl
  | succ k ih => rw [List.replicate_succ, watch, Phase.next, Option.bind_some, ih]

theorem events_recvs (v vfd : Nat) (payloads : List (Payload P)) :
    (payloads.map (ServerEffect.onRecv vfd)).filterMap (eventOf v) =
      if vfd = v then List.replicate payloads.length .recv else [] := by
  induction payloads with
  | nil => simp
  | cons p ps ih =>
    rw [List.map_cons, List.filterMap_cons, ih]
    by_cases h : vfd = v <;> simp [eventOf, h, List.replicate_succ]

theorem watch_connection (h : n.Inv) {client : Nat} {time : Int} (hnew : n.reading client = none) (vfd : Nat) :
    watch Phase.next (phase vfd n) ((n.turn (.connection client time)).2.filterMap (eventOf vfd)) =
      some (phase vfd (n.turn (.connection client time)).1) := by
  have hconn : (n.server.Accept client time).1.Connected vfd ↔ _ := CTcpServer.connected_accept client time vfd
  by_cases hv : vfd = n.server.m_ClientVfd + 1
  · subst hv
    have hnot : ¬n.server.Connected (n.server.m_ClientVfd + 1) := fun hc => absurd (h.tables.range _ hc).2 (by omega)
    have hafter : (n.turn (.connection client time)).1.server.Connected (n.server.m_ClientVfd + 1) := by
      simp only [turn, if_pos hnew]
      exact hconn.2 (Or.inl rfl)
    rw [phase_unborn hnot (by omega), phase_live hafter]
    simp [turn, hnew, done, CTcpServer.Accept, CTcpServer.SendKey, List.filterMap_cons, eventOf, watch, Phase.next]
  · have hafter : phase vfd (n.turn (.connection client time)).1 = phase vfd n := by
      simp only [turn, if_pos hnew, done]
      refine phase_eq_of ?_ ?_
      · simp only [hconn, hv, false_or]
      · simp only [CTcpServer.Accept, CTcpServer.SendKey]
        omega
    rw [hafter]
    simp [turn, hnew, done, CTcpServer.Accept, CTcpServer.SendKey, List.filterMap_cons, eventOf, Ne.symm hv, watch]

/-- Closing a client that is connected. -/
theorem watch_closing (h : n.Inv) {s : CTcpServer P} {v client : Nat} (hv : n.server.Connected v)
    (hconn : ∀ vfd, s.Connected vfd ↔ n.server.Connected vfd ∧ v ≠ vfd) (hcount : s.m_ClientVfd = n.server.m_ClientVfd)
    (vfd : Nat) :
    watch Phase.next (phase vfd n) ([ServerEffect.close (P := P) client, .onClose (some v)].filterMap (eventOf vfd)) =
      some (phase vfd (n.done (s, [.close client, .onClose (some v)])).1) := by
  by_cases hvfd : v = vfd
  · subst hvfd
    have hnot : ¬s.Connected v := fun hc => ((hconn v).1 hc).2 rfl
    have hrange := h.tables.range v hv
    have hafter : phase v (n.done (s, [.close client, .onClose (some v)])).1 = .gone :=
      phase_gone hnot hrange.1 (hrange.2.trans_eq hcount.symm)
    rw [phase_live hv, hafter]
    simp [List.filterMap_cons, eventOf, watch, Phase.next]
  · have hafter : phase vfd (n.done (s, [.close client, .onClose (some v)])).1 = phase vfd n :=
      phase_eq_of (by simp [done, hconn, hvfd]) (by simp [done, hcount])
    rw [hafter]
    simp [List.filterMap_cons, eventOf, hvfd, watch]

/-- **A turn in which the application closes a client that is connected, or none**: the events of every number are
allowed. -/
theorem watch_turn (h : n.Inv) {t : Turn} (hc : n.Closes t) (vfd : Nat) :
    watch Phase.next (phase vfd n) ((n.turn t).2.filterMap (eventOf vfd)) = some (phase vfd (n.turn t).1) := by
  cases t with
  | connection client time =>
    by_cases hnew : n.reading client = none
    · exact watch_connection h hnew vfd
    · simp [turn, hnew, watch]
  | read fuel client data =>
    cases hclient : n.reading client with
    | none => simp [turn, hclient, watch]
    | some v =>
      have hobj : n.server.m_ClientObj2Vfd client = some v := by rw [← h.handles, hclient]
      have hv : n.server.Connected v := ⟨client, (h.tables.inverse v client).2 hobj⟩
      cases data with
      | none =>
        have hlost : n.server.OnClientLost client =
            ((n.server.OnClientLost client).1, [.close client, .onClose (some v)]) := by
          simp [CTcpServer.OnClientLost, hobj]
        simp only [turn, hclient]
        rw [hlost]
        refine watch_closing h hv (fun vfd => ?_) ?_ vfd
        · rw [CTcpServer.connected_lost, hobj]
          simp
        · simp [CTcpServer.OnClientLost, hobj]
      | some str =>
        cases hr : n.server.Recv fuel v str with
        | none => simp [turn, hclient, hr, watch]
        | some r =>
          obtain ⟨server, out, err⟩ := r
          obtain ⟨payloads, rfl⟩ := Recv_out hr
          obtain ⟨hcount, hv2o, -⟩ := CTcpServer.Recv_fields hr
          simp only [turn, hclient, hr]
          have hafter : phase vfd (n.done (server, payloads.map (.onRecv v))).1 = phase vfd n :=
            phase_eq_of (by simp only [done, CTcpServer.Connected, hv2o]) (by simp only [done, hcount])
          rw [hafter]
          simp only [done, events_recvs]
          split
          · rename_i hvfd
            subst hvfd
            rw [phase_live hv, watch_recvs]
          · rfl
  | closeClient v =>
    obtain ⟨client, hclient⟩ := hc
    have hclose : n.server.CloseClient v = ((n.server.CloseClient v).1, [.close client, .onClose (some v)]) := by
      simp [CTcpServer.CloseClient, hclient]
    simp only [turn]
    rw [hclose]
    refine watch_closing h ⟨client, hclient⟩ (CTcpServer.connected_close v) ?_ vfd
    simp [CTcpServer.CloseClient, hclient]

/-- **A turn in which it closes one that is not**: its `close` is not allowed. -/
theorem watch_turn_none {t : Turn} (hc : ¬n.Closes t) :
    ∃ vfd, watch Phase.next (phase vfd n) ((n.turn t).2.filterMap (eventOf vfd)) = none := by
  cases t with
  | connection client time => exact absurd trivial hc
  | read fuel client data => exact absurd trivial hc
  | closeClient vfd =>
    refine ⟨vfd, ?_⟩
    have hnone : n.server.m_ClientVfd2Obj vfd = none := by
      by_contra hne
      exact hc (Option.ne_none_iff_exists'.1 hne)
    have hout : (n.turn (.closeClient vfd)).2.filterMap (eventOf vfd) = [.close] := by
      simp [Node.turn, done, CTcpServer.CloseClient, hnone, eventOf]
    have hnot : ¬n.server.Connected vfd := hc
    rw [hout, phase, if_neg hnot]
    split <;> rfl

/-- **The events of every client** are `accept`, `recv`s and `close`, or a prefix of that, exactly when the application
closes only clients that are connected. -/
theorem events_disciplined_iff (parser : Option (PackageParser Empty P)) (ts : List Turn) :
    (∀ vfd, Disciplined ((trace turn (start parser) ts).filterMap (eventOf vfd))) ↔
      Along (fun n t => (n.turn t).1) Closes (start parser) ts := by
  have hphase : ∀ vfd, phase vfd (start parser) = .unborn := by
    intro vfd
    rw [phase, if_neg (by rintro ⟨c, hc⟩; cases hc), if_neg]
    rintro ⟨h1, h2⟩
    exact absurd (h1.trans h2) (by simp [start, CTcpServer.listening, CTcpServer.Create])
  have hwatch := watch_iff_along (fun n t (h : Inv n) _ => h.turn t) (fun n t h hc vfd => watch_turn h hc vfd)
    (fun n t _ hc => watch_turn_none hc) ts (inv_start parser)
  simpa only [hphase, watch_unborn] using hwatch

/-- A client that is closed twice. -/
theorem events_not_disciplined : ¬∀ (ts : List Turn) (vfd : Nat),
    Disciplined ((trace turn (start (P := Unit) none) ts).filterMap (eventOf vfd)) := by
  intro h
  have hclosed := (watch_unborn _).2 (h [.connection 7 0, .closeClient 1, .closeClient 1] 1)
  revert hclosed
  decide

end Node

end XCore.Tcp
