import XCore.Net.Frame
import XCore.Tcp.Cipher
import XCore.Tcp.Events

/-!
# What a server buffers

Every byte string is a list of complete frames and a rest that does not begin with a frame (`exists_frames`), and these
are all the frames it begins with (`frames_longest`). On a chunk, the package loop with `netParser` comes to its end and
leaves the rest of what is buffered (`Recv_rest`).

So in every run of the event loop, what is buffered for a client is what follows the longest prefix of complete frames
in the decrypted stream that it has sent, at most 65536 bytes, however the stream came in chunks (`buffer_rest`).
-/

namespace XCore.Net

open XCore.Lua XCore.Tcp XCore.Tcp.CTcpServer

/-! ## Frames and a rest -/

/-- What follows the longest prefix that consists of complete frames. -/
def Rest (d p : Bytes) : Prop :=
  ∃ bs, d = stream bs ++ p ∧ ∀ bs' p', d = stream bs' ++ p' → (stream bs').length ≤ (stream bs).length

/-- A buffer begins with a frame, or the parser waits. -/
theorem UnpackHead_cases (m : Bytes) :
    UnpackHead m = .ok none ∧ m.length ≤ 65536 ∨ ∃ b s, m = frame b ++ s := by
  have hmin : PACKET_SIZE_MIN = 2 := rfl
  by_cases hlen : m.length < 2
  · refine Or.inl ⟨?_, by omega⟩
    simp only [UnpackHead]
    rw [if_pos (by omega)]
  · have hunpack := unpackU_eq (n := 2) (s := m) (p := 0) (by omega)
    rw [List.drop_zero] at hunpack
    have hsize := leNat_lt (m.take 2)
    have htake : (m.take 2).length = 2 := by rw [List.length_take]; omega
    rw [htake] at hsize
    by_cases hshort : m.length < 2 + leNat (m.take 2)
    · refine Or.inl ⟨?_, by omega⟩
      simp only [UnpackHead]
      rw [if_neg (by omega)]
      simp only [Nat.cast_zero, zero_add] at hunpack
      simp only [hunpack]
      rw [if_pos (by omega)]
    · have hbody : ((m.drop 2).take (leNat (m.take 2))).length = leNat (m.take 2) := by
        rw [List.length_take, List.length_drop]
        omega
      refine Or.inr ⟨⟨(m.drop 2).take (leNat (m.take 2)), by omega⟩, (m.drop 2).drop (leNat (m.take 2)), ?_⟩
      have hback := leBytes_leNat (m.take 2)
      rw [htake] at hback
      simp only [frame, hbody, hback]
      rw [List.append_assoc, List.take_append_drop, List.take_append_drop]

/-- Where the parser waits, there is no frame. -/
theorem not_frame_of_wait {p : Bytes} (h : UnpackHead p = .ok none) (b : Body) (s : Bytes) : p ≠ frame b ++ s := by
  rintro rfl
  rw [UnpackHead_frame] at h
  cases h

/-- Every buffer is a list of complete frames and a rest. -/
theorem exists_frames (m : Bytes) : ∃ bs p, m = stream bs ++ p ∧ UnpackHead p = .ok none ∧ p.length ≤ 65536 := by
  induction hn : m.length using Nat.strongRecOn generalizing m with
  | _ n ih =>
    rcases UnpackHead_cases m with ⟨hwait, hlen⟩ | ⟨b, s, rfl⟩
    · exact ⟨[], m, rfl, hwait, hlen⟩
    · have hlt : s.length < n := by
        rw [List.length_append, length_frame] at hn
        omega
      obtain ⟨bs, p, rfl, hwait, hlen⟩ := ih s.length hlt s rfl
      exact ⟨b :: bs, p, by simp, hwait, hlen⟩

/-- The first frame of a buffer. -/
theorem frame_inj {b b' : Body} {s s' : Bytes} (h : frame b ++ s = frame b' ++ s') : frame b = frame b' ∧ s = s' := by
  have hhead := UnpackHead_frame b s
  rw [h, UnpackHead_frame] at hhead
  refine List.append_inj h ?_
  simp only [Except.ok.injEq, Option.some.injEq, Prod.mk.injEq, true_and] at hhead
  simp only [length_frame]
  omega

/-- It begins with no other frames. -/
theorem frames_longest {d p : Bytes} (hp : UnpackHead p = .ok none) : ∀ {bs : List Body}, d = stream bs ++ p →
    ∀ bs' p', d = stream bs' ++ p' → (stream bs').length ≤ (stream bs).length := by
  intro bs
  induction bs generalizing d with
  | nil =>
    rintro rfl bs' p' h
    cases bs' with
    | nil => exact Nat.le_refl _
    | cons b bs' =>
      rw [stream_cons, List.append_assoc] at h
      exact absurd h (not_frame_of_wait hp b _)
  | cons b bs ih =>
    rintro rfl bs' p' h
    cases bs' with
    | nil => exact Nat.zero_le _
    | cons b' bs' =>
      rw [stream_cons, stream_cons, List.append_assoc, List.append_assoc] at h
      obtain ⟨hframe, hrest⟩ := frame_inj h
      have hle := ih rfl bs' p' hrest
      rw [stream_cons, stream_cons, List.length_append, List.length_append, hframe]
      omega

theorem rest_of_wait {d p : Bytes} {bs : List Body} (hd : d = stream bs ++ p) (hp : UnpackHead p = .ok none) :
    Rest d p :=
  ⟨bs, hd, frames_longest hp hd⟩

/-! ## One chunk -/

/-- More rounds do not change what is received. -/
theorem Recv_unique {n k vfd : Nat} {s : CTcpServer Bytes} {str : Bytes}
    {r r' : CTcpServer Bytes × List (ServerEffect Bytes) × Option LuaError} (h : s.Recv n vfd str = some r)
    (h' : s.Recv k vfd str = some r') : r = r' := by
  have h1 := RecvDecoded_mono (Nat.le_max_left n k) (show (s.Decode vfd str).1.RecvDecoded n vfd _ = _ from h)
  have h2 := RecvDecoded_mono (Nat.le_max_right n k) (show (s.Decode vfd str).1.RecvDecoded k vfd _ = _ from h')
  exact Option.some.inj (h1.symm.trans h2)

/-- **A chunk**: the package loop ends, and what is left is the rest of the buffer. -/
theorem Recv_rest {s : CTcpServer Bytes} {vfd : Nat} {m : Bytes} (hp : s.m_PackageParser = some netParser)
    (hb : s.Buffered vfd m) (str : Bytes) : ∃ fuel out p bs,
      s.Recv fuel vfd str = some ((s.Decode vfd str).1.setCached vfd ⟨p, none, none⟩, out, none) ∧
        m ++ (s.Decode vfd str).2 = stream bs ++ p ∧ UnpackHead p = .ok none ∧ p.length ≤ 65536 := by
  obtain ⟨bs, p, hm, hwait, hlen⟩ := exists_frames (m ++ (s.Decode vfd str).2)
  obtain ⟨hparser, hcache, -⟩ := Decode_fields s vfd str
  have hb' : (s.Decode vfd str).1.Buffered vfd m := by
    simpa only [Buffered, cached, hcache] using hb
  have hparse := parses_frames hwait bs
  rw [← hm] at hparse
  obtain ⟨fuel, hrun⟩ := RecvDecoded_of_parses (hparser.trans hp) hb' hparse
  exact ⟨fuel, _, p, bs, hrun, hm, hwait, hlen⟩

/-! ## Runs of the event loop -/

/-- A connection: the key that was sent when the client was accepted, and the bytes received since then. -/
structure Link where
  key : Int
  received : Bytes

/-- The plain stream of a connection. -/
def Link.plain (l : Link) : Bytes := (decodeLoop l.key l.received).1

/-- The connections after a turn. -/
def link (n : Node Bytes) (g : Nat → Link) : Turn → Nat → Link
  | .connection client time =>
    if n.reading client = none then Function.update g (n.server.m_ClientVfd + 1) ⟨time, []⟩ else g
  | .read fuel client (some str) =>
    match n.reading client with
    | none => g
    | some vfd =>
      if (n.server.Recv fuel vfd str).isSome then
        Function.update g vfd { g vfd with received := (g vfd).received ++ str }
      else g
  | _ => g

/-- The node and the connections after a run. -/
def run : Node Bytes → (Nat → Link) → List Turn → Node Bytes × (Nat → Link)
  | n, g, [] => (n, g)
  | n, g, t :: ts => run (n.turn t).1 (link n g t) ts

/-- A client's buffer is the rest of its plain stream, and its key the one after it. -/
def Holds (s : CTcpServer Bytes) (vfd : Nat) (l : Link) : Prop :=
  ∃ m bs, s.Buffered vfd m ∧ UnpackHead m = .ok none ∧ m.length ≤ 65536 ∧ l.plain = stream bs ++ m ∧
    s.m_ClientKey vfd = some (decodeLoop l.key l.received).2

/-- The invariant of the event loop. -/
structure Buffers (n : Node Bytes) (g : Nat → Link) : Prop where
  inv : n.Inv
  parser : n.server.m_PackageParser = some netParser
  fresh : ∀ vfd, n.server.m_ClientVfd < vfd → n.server.cached vfd = none
  holds : ∀ vfd, n.server.Connected vfd → Holds n.server vfd (g vfd)

theorem buffers_start (g : Nat → Link) : Buffers (Node.start (some netParser)) g where
  inv := Node.inv_start _
  parser := rfl
  fresh _ _ := rfl
  holds vfd := by rintro ⟨client, h⟩; cases h

/-- What is buffered for a client, and its key, do not depend on the other tables. -/
theorem Holds.of_eq {s s' : CTcpServer Bytes} {vfd : Nat} {l : Link} (h : Holds s vfd l)
    (hcached : s'.cached vfd = s.cached vfd) (hkey : s'.m_ClientKey vfd = s.m_ClientKey vfd) : Holds s' vfd l := by
  obtain ⟨m, bs, hm, hwait, hlen, hplain, hk⟩ := h
  exact ⟨m, bs, by simpa only [Buffered, hcached] using hm, hwait, hlen, hplain, hkey.trans hk⟩

/-- A client that has just been accepted. -/
theorem Buffers.connection {n : Node Bytes} {g : Nat → Link} (h : Buffers n g) (client : Nat) (time : Int) (vfd : Nat)
    (hvfd : (n.server.Accept client time).1.Connected vfd) :
    Holds (n.server.Accept client time).1 vfd (Function.update g (n.server.m_ClientVfd + 1) ⟨time, []⟩ vfd) := by
  by_cases hv : vfd = n.server.m_ClientVfd + 1
  · subst hv
    rw [Function.update_self]
    refine ⟨[], [], Or.inl ⟨h.fresh _ (Nat.lt_succ_self _), rfl⟩, rfl, Nat.zero_le _, rfl, ?_⟩
    simp [Accept, SendKey, decodeLoop]
  · have hconn := ((connected_accept client time vfd).1 hvfd).resolve_left hv
    rw [Function.update_of_ne hv]
    refine (h.holds vfd hconn).of_eq rfl ?_
    simp [Accept, SendKey, Function.update_of_ne hv]

/-- `Recv` leaves the keys of the other clients alone. -/
theorem Recv_key {fuel v : Nat} {s s' : CTcpServer Bytes} {str : Bytes} {out : List (ServerEffect Bytes)}
    {err : Option LuaError} (hr : s.Recv fuel v str = some (s', out, err)) {vfd : Nat} (hv : vfd ≠ v) :
    s'.m_ClientKey vfd = s.m_ClientKey vfd := by
  have hd : (s.Decode v str).1.RecvDecoded fuel v (s.Decode v str).2 = some (s', out, err) := hr
  rw [(RecvDecoded_tables hd).2.2]
  unfold Decode
  split
  · rfl
  · simp [Function.update_of_ne hv]

/-- A client after a chunk. -/
theorem Buffers.recv {n : Node Bytes} {g : Nat → Link} (h : Buffers n g) {fuel v : Nat} {str : Bytes}
    {s : CTcpServer Bytes} {out : List (ServerEffect Bytes)} {err : Option LuaError}
    (hr : n.server.Recv fuel v str = some (s, out, err)) (vfd : Nat) (hvfd : n.server.Connected vfd) :
    Holds s vfd (Function.update g v { g v with received := (g v).received ++ str } vfd) := by
  by_cases hv : vfd = v
  · subst hv
    obtain ⟨m, bs, hm, -, -, hplain, hkey⟩ := h.holds vfd hvfd
    obtain ⟨fuel', out', p, bs', hrun, hsplit, hwait, hlen⟩ := Recv_rest h.parser hm str
    cases Recv_unique hr hrun
    rw [Function.update_self]
    have hdecode := Decode_eq n.server _ str hkey
    rw [← decodeLoop_eq] at hdecode
    have happend : decodeLoop (g vfd).key ((g vfd).received ++ str) =
        ((g vfd).plain ++ (n.server.Decode vfd str).2,
          (decodeLoop (decodeLoop (g vfd).key (g vfd).received).2 str).2) := by
      rw [hdecode.1, decodeLoop_eq, Mealy.run_append]
      simp only [← decodeLoop_eq, Link.plain]
    refine ⟨p, bs ++ bs', buffered_setCached _ vfd p, hwait, hlen, ?_, ?_⟩
    · rw [Link.plain, happend, hplain, List.append_assoc, hsplit, stream_append, List.append_assoc]
    · rw [happend]
      exact hdecode.2
  · rw [Function.update_of_ne hv]
    exact (h.holds vfd hvfd).of_eq ((Recv_fields hr).2.2.2.2.2 vfd hv) (Recv_key hr hv)

/-- A client after another one has been closed. -/
theorem Holds.lost {s : CTcpServer Bytes} {client vfd : Nat} {l : Link} (h : Holds s vfd l)
    (hv : s.m_ClientObj2Vfd client ≠ some vfd) : Holds (s.OnClientLost client).1 vfd l := by
  refine h.of_eq (cached_lost client vfd) ?_
  unfold OnClientLost
  split
  · rfl
  · rename_i v hv'
    have hne : vfd ≠ v := fun he => hv (he ▸ hv')
    simp [Function.update_of_ne hne]

theorem Holds.close {s : CTcpServer Bytes} {v vfd : Nat} {l : Link} (h : Holds s vfd l) (hv : v ≠ vfd) :
    Holds (s.CloseClient v).1 vfd l := by
  refine h.of_eq (cached_close v vfd) ?_
  unfold CloseClient
  split
  · rfl
  · simp [Function.update_of_ne hv.symm]

/-- **A turn keeps the invariant.** -/
theorem Buffers.turn {n : Node Bytes} {g : Nat → Link} (h : Buffers n g) (t : Turn) :
    Buffers (n.turn t).1 (link n g t) := by
  have hinv := h.inv.turn t
  cases t with
  | connection client time =>
    by_cases hnew : n.reading client = none
    · simp only [Node.turn, link, if_pos hnew] at hinv ⊢
      refine ⟨hinv, h.parser, fun vfd hvfd => ?_, h.connection client time⟩
      exact h.fresh vfd (Nat.lt_of_succ_lt hvfd)
    · simp only [Node.turn, link, if_neg hnew]
      exact h
  | read fuel client data =>
    cases hclient : n.reading client with
    | none =>
      cases data <;> simpa only [Node.turn, link, hclient] using h
    | some v =>
      have hobj : n.server.m_ClientObj2Vfd client = some v := by rw [← h.inv.handles, hclient]
      cases data with
      | none =>
        simp only [Node.turn, link, hclient] at hinv ⊢
        refine ⟨hinv, ?_, fun vfd hvfd => ?_, fun vfd hvfd => ?_⟩
        · simpa only [Node.done, CTcpServer.OnClientLost, hobj] using h.parser
        · rw [Node.done, cached_lost]
          simp only [Node.done, CTcpServer.OnClientLost, hobj] at hvfd
          exact h.fresh vfd hvfd
        · obtain ⟨hconn, hne⟩ := (connected_lost client vfd).1 hvfd
          exact (h.holds vfd hconn).lost hne
      | some str =>
        cases hr : n.server.Recv fuel v str with
        | none => simpa only [Node.turn, link, hclient, hr, Option.isSome_none, Bool.false_eq_true, if_false] using h
        | some r =>
          obtain ⟨s, out, err⟩ := r
          have hv : n.server.Connected v := ⟨client, (h.inv.tables.inverse v client).2 hobj⟩
          obtain ⟨hcount, hv2o, -, hparser, -, hcached⟩ := Recv_fields hr
          simp only [Node.turn, link, hclient, hr, Option.isSome_some, if_true] at hinv ⊢
          refine ⟨hinv, hparser.trans h.parser, fun vfd hvfd => ?_, fun vfd hvfd => ?_⟩
          · have hlt : n.server.m_ClientVfd < vfd := hcount ▸ hvfd
            have hne : vfd ≠ v := by
              have hle := (h.inv.tables.range v hv).2
              omega
            exact (hcached vfd hne).trans (h.fresh vfd hlt)
          · have hconn : n.server.Connected vfd := by
              simpa only [Node.done, Connected, hv2o] using hvfd
            exact h.recv hr vfd hconn
  | closeClient v =>
    simp only [Node.turn, link] at hinv ⊢
    refine ⟨hinv, ?_, fun vfd hvfd => ?_, fun vfd hvfd => ?_⟩
    · simp only [Node.done, CTcpServer.CloseClient]
      split <;> exact h.parser
    · rw [Node.done, cached_close]
      refine h.fresh vfd ?_
      simp only [Node.done, CTcpServer.CloseClient] at hvfd
      split at hvfd <;> exact hvfd
    · obtain ⟨hconn, hne⟩ := (connected_close v vfd).1 hvfd
      exact (h.holds vfd hconn).close hne

theorem Buffers.run {n : Node Bytes} {g : Nat → Link} (h : Buffers n g) (ts : List Turn) :
    Buffers (run n g ts).1 (run n g ts).2 := by
  induction ts generalizing n g with
  | nil => exact h
  | cons t ts ih => exact ih (h.turn t)

/-- **What is buffered for a client**: after every run, `Recv` comes to its end on whatever it sends next, and what is
buffered is what follows the complete frames in its plain stream, at most 65536 bytes. -/
theorem buffer_rest (g : Nat → Link) (ts : List Turn) {client vfd : Nat}
    (h : (run (Node.start (some netParser)) g ts).1.reading client = some vfd) :
    let n := (run (Node.start (some netParser)) g ts).1
    let l := (run (Node.start (some netParser)) g ts).2 vfd
    (∀ str, ∃ fuel s out, n.server.Recv fuel vfd str = some (s, out, none)) ∧
      ∃ m, n.server.Buffered vfd m ∧ Rest l.plain m ∧ m.length ≤ 65536 := by
  have hrun := (buffers_start g).run ts
  rw [hrun.inv.handles] at h
  obtain ⟨m, bs, hm, hwait, hlen, hplain, -⟩ := hrun.holds vfd ⟨client, (hrun.inv.tables.inverse vfd client).2 h⟩
  refine ⟨fun str => ?_, m, hm, rest_of_wait hplain hwait, hlen⟩
  obtain ⟨fuel, out, p, bs', hrecv, -⟩ := Recv_rest hrun.parser hm str
  exact ⟨fuel, _, out, hrecv⟩

/-- A client that has sent a frame with one byte and the first byte of another one, in two chunks. -/
theorem buffer_rest_one :
    let n := (run (Node.start (some netParser)) (fun _ => ⟨0, []⟩)
      [.connection 7 0, .read 3 7 (some [1, 1]), .read 3 7 (some [6, 6])]).1
    Link.plain ⟨0, [1, 1, 6, 6]⟩ = [1, 0, 7, 2] ∧
      (∀ str, ∃ fuel s out, n.server.Recv fuel 1 str = some (s, out, none)) ∧
      ∃ m, n.server.Buffered 1 m ∧ Rest (Link.plain ⟨0, [1, 1, 6, 6]⟩) m ∧ m.length ≤ 65536 := by
  have hreading : (run (Node.start (some netParser)) (fun _ => ⟨0, []⟩)
      [.connection 7 0, .read 3 7 (some [1, 1]), .read 3 7 (some [6, 6])]).1.reading 7 = some 1 := by decide +kernel
  have hlink : (run (Node.start (some netParser)) (fun _ => ⟨0, []⟩)
      [.connection 7 0, .read 3 7 (some [1, 1]), .read 3 7 (some [6, 6])]).2 1 = ⟨0, [1, 1, 6, 6]⟩ := by rfl
  have h := buffer_rest (fun _ => ⟨0, []⟩) [.connection 7 0, .read 3 7 (some [1, 1]), .read 3 7 (some [6, 6])] hreading
  rw [hlink] at h
  exact ⟨by decide +kernel, h⟩

end XCore.Net
