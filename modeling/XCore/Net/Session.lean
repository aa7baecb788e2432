import XCore.Net.Buffer
import XCore.Net.Codec
import XCore.Net.Unpack

/-!
# Sessions of a server

From the bytes that a client sends to the calls of the handlers, with other clients in between: `Recv` decodes a chunk,
`netParser` cuts the frames out of what is buffered, and each payload goes to `net.UnpackBody`.

- `netParser` leaves the first byte of what follows a frame behind its payload, and the readers do not look at it
  (`UnpackBody_trails`);
- in every run of the event loop the payloads of a client are those of the complete frames in its plain stream (`Logs`);
- so every message of numbers that has arrived completely is handed to its handler once, in the order in which they were
  sent, with the values that were sent (`session_delivers`).
-/

namespace XCore.Net

open XCore.Lua XCore.Tcp XCore.Tcp.CTcpServer XCore.Scanning

/-! ## Values that are read back anywhere -/

/-- A number of fixed width, or a list of at least two of them. -/
def FirmBase (prim : Prim) (isarray : Bool) (b : Base) : Prop :=
  b.isarray = isarray ∧ (∃ fmt, fmtOf prim = some fmt ∧ FixedValue fmt b) ∧ ∀ l, b = .arr l → 2 ≤ l.length

/-- The primitives, with these values. -/
def firm : Prims Base UInt8 := { typed with Valid := FirmBase }

/-- The bytes before the cursor, and those behind what stands there. -/
theorem carries_place {d : ReadData} {s : Bytes} (hd : d.Carries s) (hs : s ≠ []) : ∃ u t, d = place u s t := by
  obtain ⟨hpos, t, ht⟩ := hd
  have hle : d.Pos - 1 ≤ d.Data.length := by
    by_contra hlt
    rw [List.drop_eq_nil_of_le (by omega)] at ht
    exact hs (List.append_eq_nil_iff.1 ht).1
  refine ⟨d.Data.take (d.Pos - 1), t, ?_⟩
  have hdata : d.Data.take (d.Pos - 1) ++ s ++ t = d.Data := by rw [List.append_assoc, ht, List.take_append_drop]
  have hlen : (d.Data.take (d.Pos - 1)).length + 1 = d.Pos := by
    rw [List.length_take]
    omega
  unfold place cursor
  rw [hdata, hlen]

theorem firm_bytes_list {prim : Prim} {fmt : Fmt} (hf : fmtOf prim = some fmt) {xs : List Number}
    (hlen : xs.length ≤ 255) (h : ∀ x ∈ xs, fmt.Holds x) :
    firm.bytes prim (.arr (xs.map .num)) = leBytes 1 xs.length ++ xs.flatMap (fixedBytes fmt) := by
  have hwrite : firm.write prim (some (.base (.arr (xs.map .num)))) =
      .ok ((⟨[some (leBytes 1 xs.length)], 1⟩ :: xs.map fun x => ⟨[some (fixedBytes fmt x)], fmt.size⟩ :
        List Append).flatMap Append.bytes) :=
    congrArg (Except.map _) (writeX_list hf hlen h)
  rw [Writes.bytes, hwrite]
  simp [Append.bytes, List.flatMap_map]

theorem firm_readable : firm.Readable where
  write {prim isarray b} h := by
    obtain ⟨-, ⟨fmt, hf, ⟨x, rfl, hx⟩ | ⟨xs, rfl, hlen, hxs⟩⟩, -⟩ := h
    · exact fixed_readable.write (show fixed.Valid prim false (.one (.num x)) from ⟨rfl, fmt, x, hf, rfl, hx⟩)
    · have hbytes := firm_bytes_list hf hlen hxs
      unfold Writes.bytes at hbytes
      split at hbytes
      · rename_i s hs
        refine ⟨s, hs, fun hnil => ?_⟩
        rw [hnil] at hbytes
        have := congrArg List.length hbytes
        simp at this
        omega
      · have := congrArg List.length hbytes
        simp at this
        omega
  count {n} hn := ⟨rfl, ⟨.H, rfl, .inl ⟨.int n, rfl, by omega, by omega⟩⟩, nofun⟩
  read {prim isarray b} h d hd := by
    obtain ⟨hb, ⟨fmt, hf, ⟨x, rfl, hx⟩ | ⟨xs, rfl, hlen, hxs⟩⟩, htwo⟩ := h
    · exact fixed_readable.read ⟨hb.symm, fmt, x, hf, rfl, hx⟩ hd
    · have hbytes := firm_bytes_list hf hlen hxs
      rw [hbytes] at hd ⊢
      obtain ⟨u, t, hplace⟩ := carries_place hd (by simp [leBytes])
      have htwo := htwo _ rfl
      rw [List.length_map] at htwo
      have hread := (ReadPtoNumber_list hlen hxs d hplace).2 ⟨by omega, by rintro rfl; simp at htwo⟩
      rw [show firm.read prim = readX prim from rfl, readX_fmt hf, ← hb]
      exact hread
  rounds n := rfl

/-! ## Messages -/

/-- A message that the server handles: its protocol, and a value for each field. -/
structure Msg (P : Prims Base UInt8) (Γ : NetType) (net : Receiver) where
  id : Nat
  info : Pto
  vals : Tuple P Γ info.args
  small : id < 65536
  pto : net.ptoHandle id = some info
  receives : net.role.receives info = true
  handled : net.handle info.name = .func
  counted : vals.Counted
  fits : 2 + vals.enc.length ≤ 65535

namespace Msg

variable {P : Prims Base UInt8} {Γ : NetType} {net : Receiver}

/-- The id in front of the fields, as `net.PackSimple` writes it. -/
def body (m : Msg P Γ net) : Body :=
  ⟨leBytes 2 m.id ++ m.vals.enc, by rw [List.length_append, length_leBytes]; exact m.fits⟩

/-- `net[name](vfd, ..)`. -/
def call (vfd : Nat) (m : Msg P Γ net) : HandlerCall := ⟨false, vfd, m.info.name, m.vals.vals.map some⟩

end Msg

section Unpack

variable {P : Prims Base UInt8} {Γ : NetType} {net : Receiver}

theorem ptoOf_body (m : Msg P Γ net) (e : Bytes) : net.ptoOf (m.body.bytes ++ e) = some m.info := by
  have huint : uint (m.body.bytes ++ e) 2 0 = m.id := by
    have htake : (m.body.bytes ++ e).take 2 = leBytes 2 m.id := by simp [Msg.body]
    unfold uint
    rw [List.drop_zero, htake, leNat_leBytes]
    exact Nat.mod_eq_of_lt m.small
  have hlen : 2 ≤ (m.body.bytes ++ e).length := by
    rw [Msg.body, List.append_assoc, List.length_append, length_leBytes]
    exact Nat.le_add_right _ _
  rw [Receiver.ptoOf, if_neg (Nat.not_lt.2 hlen), huint]
  exact m.pto

/-- The protocol of a message that can be read has few lists of structures. -/
theorem Msg.structArrays_le (hnet : net.Exported Γ) (m : Msg P Γ net) : structArrays m.info.args ≤ 97 := by
  have hinfo := ptoOf_body m []
  have hloaded := hnet.readers m.info (mem_of_ptoOf _ hinfo) m.receives
  rw [ConvertReader_eq] at hloaded
  by_contra hlt
  rw [if_neg hlt] at hloaded
  cases hloaded

/-- **What trails a message** is not looked at. -/
theorem UnpackBody_trails (hP : P.Readable) (hlua : P.toReads = luaReads) (hnet : net.Exported Γ)
    (m : Msg P Γ net) (e : Bytes) {depth : Nat} (hdepth : m.vals.depth ≤ depth) (border : TableBorder) (vfd : Nat) :
    ∃ d, UnpackBody depth border net vfd (m.body.bytes ++ e) = .ok ([m.call vfd], d) := by
  have hinfo := ptoOf_body m e
  have hargs := m.structArrays_le hnet
  have hcarries : (cursor (m.body.bytes ++ e) 2).Carries m.vals.enc := by
    refine ⟨Nat.le_add_left 1 2, e, ?_⟩
    simp [cursor, Msg.body]
  have hread := Tuple.read_enc hP hnet.types m.vals m.counted (keys_false_nodup m.info.args 1) (not_key_nil _)
    hdepth hcarries
  rw [hlua] at hread
  rw [UnpackBody_of_some depth border vfd _ hinfo, handOver, Receiver.reader, if_pos m.receives, ConvertReader_eq,
    if_pos hargs]
  dsimp only
  rw [readingAt, hread, m.handled]
  refine ⟨some ((cursor (m.body.bytes ++ e) 2).skip m.vals.enc.length), ?_⟩
  simp only [bind, Except.bind, List.nil_append]
  rw [Tuple.table_eq, (unpack_eq_iff border (by simp) (by simp)).2 rfl]
  rfl

end Unpack

/-! ## Payloads -/

/-- The payload of a body: what trails it is not part of it. -/
def Trails (b : Body) (p : Bytes) : Prop := ∃ e, p = b.bytes ++ e

/-- The payloads are those of the complete frames of a stream. -/
def Delivered (plain : Bytes) (log : List Bytes) : Prop :=
  ∃ bs m, plain = stream bs ++ m ∧ UnpackHead m = .ok none ∧ List.Forall₂ Trails bs log

theorem emitted_trails (p : Bytes) : ∀ bs : List Body, List.Forall₂ Trails bs (emitted p bs)
  | [] => .nil
  | _ :: bs => .cons ⟨_, rfl⟩ (emitted_trails p bs)

theorem frame_injective : Function.Injective frame := by
  rintro ⟨b, hb⟩ ⟨b', hb'⟩ h
  have hdrop := congrArg (List.drop 2) h
  simp only [frame, List.drop_left' (length_leBytes 2 _)] at hdrop
  subst hdrop
  rfl

/-- The frames of a stream, and what follows them. -/
theorem frames_unique : ∀ {bs bs' : List Body} {m m' : Bytes}, UnpackHead m = .ok none → UnpackHead m' = .ok none →
    stream bs ++ m = stream bs' ++ m' → bs = bs' ∧ m = m'
  | [], [], _, _, _, _, h => ⟨rfl, h⟩
  | [], b :: bs', _, _, hm, _, h => by
    rw [stream_nil, List.nil_append, stream_cons, List.append_assoc] at h
    exact absurd h (not_frame_of_wait hm b _)
  | b :: bs, [], _, _, _, hm', h => by
    rw [stream_nil, List.nil_append, stream_cons, List.append_assoc] at h
    exact absurd h.symm (not_frame_of_wait hm' b _)
  | b :: bs, b' :: bs', m, m', hm, hm', h => by
    rw [stream_cons, stream_cons, List.append_assoc, List.append_assoc] at h
    obtain ⟨hframe, hrest⟩ := frame_inj h
    obtain ⟨rfl, rfl⟩ := frames_unique hm hm' hrest
    exact ⟨congrArg (· :: bs) (frame_injective hframe), rfl⟩

/-- The plain stream goes on where it was. -/
theorem Link.plain_append (l : Link) (str : Bytes) : ({ l with received := l.received ++ str } : Link).plain =
    l.plain ++ (decodeLoop (decodeLoop l.key l.received).2 str).1 := by
  unfold Link.plain
  rw [decodeLoop_eq, Mealy.run_append]
  simp only [← decodeLoop_eq]

/-- **A chunk**: the payloads that it emits are those of the frames that it completes. -/
theorem Recv_emits {s : CTcpServer Bytes} {vfd : Nat} {m : Bytes} (hp : s.m_PackageParser = some netParser)
    (hb : s.Buffered vfd m)
    {fuel : Nat} {str : Bytes} {s' : CTcpServer Bytes} {out : List (ServerEffect Bytes)} {err : Option LuaError}
    (hr : s.Recv fuel vfd str = some (s', out, err)) :
    ∃ bs p, m ++ (s.Decode vfd str).2 = stream bs ++ p ∧ UnpackHead p = .ok none ∧
      out = (emitted p bs).map (onPak vfd) := by
  obtain ⟨bs, p, hm, hwait, -⟩ := exists_frames (m ++ (s.Decode vfd str).2)
  obtain ⟨hparser, hcache, -⟩ := Decode_fields s vfd str
  have hb' : (s.Decode vfd str).1.Buffered vfd m := by simpa only [Buffered, cached, hcache] using hb
  have hparse := parses_frames hwait bs
  rw [← hm] at hparse
  obtain ⟨fuel', hrun⟩ := RecvDecoded_of_parses (hparser.trans hp) hb' hparse
  have heq := Recv_unique hr (show s.Recv fuel' vfd str = _ from hrun)
  refine ⟨bs, p, hm, hwait, ?_⟩
  rw [show out = _ from congrArg (·.2.1) heq]

/-! ## Runs of the event loop -/

/-- The payload of an effect, for a client. -/
def pakOf (vfd : Nat) : ServerEffect Bytes → Option Bytes
  | .onRecv v (.pak p) => if v = vfd then some p else none
  | _ => none

/-- The payloads of a client among what a server does. -/
def payloads (vfd : Nat) (out : List (ServerEffect Bytes)) : List Bytes := out.filterMap (pakOf vfd)

theorem payloads_append (vfd : Nat) (out out' : List (ServerEffect Bytes)) :
    payloads vfd (out ++ out') = payloads vfd out ++ payloads vfd out' := List.filterMap_append ..

theorem payloads_onPak (v vfd : Nat) (ps : List Bytes) :
    payloads vfd (ps.map (onPak v)) = if v = vfd then ps else [] := by
  unfold payloads
  rw [List.filterMap_map]
  by_cases h : v = vfd
  · simp [h, pakOf]
  · simp [h, pakOf]

/-- The payloads so far are those of the complete frames in what has been received. -/
structure Logs (n : Node Bytes) (g : Nat → Link) (log : Nat → List Bytes) : Prop where
  delivered : ∀ vfd, Delivered (g vfd).plain (log vfd)
  fresh : ∀ vfd, n.server.m_ClientVfd < vfd → log vfd = []

theorem logs_start (parser : Option (PackageParser Empty Bytes)) :
    Logs (Node.start parser) (fun _ => ⟨0, []⟩) fun _ => [] where
  delivered _ := ⟨[], [], rfl, rfl, .nil⟩
  fresh _ _ := rfl

/-- A turn in which nothing is received. -/
theorem Logs.quiet {n n' : Node Bytes} {g : Nat → Link} {log : Nat → List Bytes} (h : Logs n g log)
    {out : List (ServerEffect Bytes)}
    (hout : ∀ vfd, payloads vfd out = []) (hcount : n.server.m_ClientVfd ≤ n'.server.m_ClientVfd) :
    Logs n' g fun vfd => log vfd ++ payloads vfd out where
  delivered vfd := by
    rw [hout, List.append_nil]
    exact h.delivered vfd
  fresh vfd hvfd := by
    rw [hout, List.append_nil]
    exact h.fresh vfd (Nat.lt_of_le_of_lt hcount hvfd)

/-- A chunk of a client. -/
theorem Delivered.recv {s : CTcpServer Bytes} {vfd : Nat} {l : Link} {log : List Bytes} (h : Delivered l.plain log)
    (hl : Holds s vfd l)
    (hp : s.m_PackageParser = some netParser) {fuel : Nat} {str : Bytes} {s' : CTcpServer Bytes}
    {out : List (ServerEffect Bytes)}
    {err : Option LuaError} (hr : s.Recv fuel vfd str = some (s', out, err)) :
    Delivered ({ l with received := l.received ++ str } : Link).plain (log ++ payloads vfd out) := by
  obtain ⟨m, bs, hm, hwait, -, hplain, hkey⟩ := hl
  obtain ⟨bs₀, m₀, hplain₀, hwait₀, htrails⟩ := h
  obtain ⟨rfl, rfl⟩ := frames_unique hwait hwait₀ (hplain.symm.trans hplain₀)
  obtain ⟨bs', p, hsplit, hwait', rfl⟩ := Recv_emits hp hm hr
  have hdecode := (Decode_eq s _ str hkey).1
  rw [← decodeLoop_eq] at hdecode
  refine ⟨bs ++ bs', p, ?_, hwait', ?_⟩
  · rw [Link.plain_append, ← hdecode, hplain, List.append_assoc, hsplit, stream_append, List.append_assoc]
  · rw [payloads_onPak, if_pos rfl]
    exact List.rel_append htrails (emitted_trails p bs')

/-- **A turn** logs what it delivers. -/
theorem Logs.turn {n : Node Bytes} {g : Nat → Link} {log : Nat → List Bytes} (hb : Buffers n g) (h : Logs n g log)
    (t : Turn) :
    Logs (n.turn t).1 (link n g t) fun vfd => log vfd ++ payloads vfd (n.turn t).2 := by
  cases t with
  | connection client time =>
    by_cases hnew : n.reading client = none
    · simp only [Node.turn, link, if_pos hnew]
      have hout : ∀ vfd, payloads vfd (n.done (n.server.Accept client time)).2 = [] := fun _ => rfl
      have hcount : (n.server.Accept client time).1.m_ClientVfd = n.server.m_ClientVfd + 1 := rfl
      refine ⟨fun vfd => ?_, fun vfd hvfd => ?_⟩
      · rw [hout, List.append_nil]
        by_cases hv : vfd = n.server.m_ClientVfd + 1
        · subst hv
          rw [Function.update_self, h.fresh _ (Nat.lt_succ_self _)]
          exact ⟨[], [], rfl, rfl, .nil⟩
        · rw [Function.update_of_ne hv]
          exact h.delivered vfd
      · have hlt : n.server.m_ClientVfd + 1 < vfd :=
          hcount ▸ show (n.server.Accept client time).1.m_ClientVfd < vfd from hvfd
        rw [hout, List.append_nil]
        exact h.fresh vfd (Nat.lt_of_succ_lt hlt)
    · simp only [Node.turn, link, if_neg hnew]
      exact h.quiet (fun _ => rfl) (Nat.le_refl _)
  | read fuel client data =>
    cases hclient : n.reading client with
    | none =>
      cases data <;> simp only [Node.turn, link, hclient] <;> exact h.quiet (fun _ => rfl) (Nat.le_refl _)
    | some v =>
      have hobj : n.server.m_ClientObj2Vfd client = some v := by rw [← hb.inv.handles, hclient]
      cases data with
      | none =>
        simp only [Node.turn, link, hclient]
        refine h.quiet (fun vfd => ?_) ?_ <;> simp only [Node.done, CTcpServer.OnClientLost, hobj]
        · rfl
        · exact Nat.le_refl _
      | some str =>
        cases hr : n.server.Recv fuel v str with
        | none =>
          simp only [Node.turn, link, hclient, hr, Option.isSome_none, Bool.false_eq_true, if_false]
          exact h.quiet (fun _ => rfl) (Nat.le_refl _)
        | some r =>
          obtain ⟨s, out, err⟩ := r
          have hv : n.server.Connected v := ⟨client, (hb.inv.tables.inverse v client).2 hobj⟩
          obtain ⟨hcount, -⟩ := Recv_fields hr
          obtain ⟨m, bs, hm, -⟩ := hb.holds v hv
          obtain ⟨bs', p, -, -, hout⟩ := Recv_emits hb.parser hm hr
          simp only [Node.turn, link, hclient, hr, Option.isSome_some, if_true, Node.done]
          refine ⟨fun vfd => ?_, fun vfd hvfd => ?_⟩
          · by_cases hvfd : vfd = v
            · subst hvfd
              rw [Function.update_self]
              exact (h.delivered vfd).recv (hb.holds vfd hv) hb.parser hr
            · rw [Function.update_of_ne hvfd, hout, payloads_onPak, if_neg (Ne.symm hvfd), List.append_nil]
              exact h.delivered vfd
          · have hlt : n.server.m_ClientVfd < vfd := hcount ▸ hvfd
            have hle := (hb.inv.tables.range v hv).2
            rw [hout, payloads_onPak, if_neg (by omega), List.append_nil]
            exact h.fresh vfd hlt
  | closeClient v =>
    simp only [Node.turn, link]
    refine h.quiet (fun vfd => ?_) ?_ <;> simp only [Node.done, CTcpServer.CloseClient] <;> split
    · rfl
    · rfl
    · exact Nat.le_refl _
    · exact Nat.le_refl _

/-- **A run**: the payloads of every client. -/
theorem Logs.run {n : Node Bytes} {g : Nat → Link} {log : Nat → List Bytes} (hb : Buffers n g) (h : Logs n g log)
    (ts : List Turn) :
    Logs (run n g ts).1 (run n g ts).2 fun vfd => log vfd ++ payloads vfd (Monitor.trace Node.turn n ts) := by
  induction ts generalizing n g log with
  | nil =>
    refine h.quiet (fun _ => ?_) (show n.server.m_ClientVfd ≤ n.server.m_ClientVfd from Nat.le_refl _)
    rfl
  | cons t ts ih =>
    have hrest := ih (hb.turn t) (h.turn hb t)
    simp only [List.append_assoc, ← payloads_append] at hrest
    exact hrest

/-! ## From messages to handlers -/

/-- What arrives of a coded stream is decoded to a part of it. -/
theorem Link.plain_prefix {l : Link} {key : Int} (hkey : key ≡ l.key [ZMOD 256]) {s : Bytes}
    (h : l.received <+: (encodeLoop key s).1) :
    ∃ d, l.plain ++ d = s ∧ l.plain.length = l.received.length := by
  obtain ⟨d, hd⟩ := h
  have hinv := (Mealy.run_inverse decodeByte_encodeByte hkey s).1
  rw [← encodeLoop_eq, ← hd, Mealy.run_append, ← decodeLoop_eq] at hinv
  have hlen : ∀ (key : Int) (c : Bytes), (decodeLoop key c).1.length = c.length := by
    intro key c
    induction c generalizing key with
    | nil => rfl
    | cons c cs ih => rw [decodeLoop, List.length_cons, List.length_cons, ih]
  exact ⟨_, hinv, hlen _ _⟩

/-- The payloads of a part of a stream are those of its first frames. -/
theorem Delivered.frames {plain d : Bytes} {log : List Bytes} (h : Delivered plain log) {bs : List Body}
    (hbs : plain ++ d = stream bs) :
    ∃ k ≤ bs.length, (stream (bs.take k)).length ≤ plain.length ∧
    (k < bs.length → plain.length < (stream (bs.take (k + 1))).length) ∧
      List.Forall₂ Trails (bs.take k) log := by
  obtain ⟨bs₀, m, rfl, hwait, htrails⟩ := h
  obtain ⟨done, rest, p, rfl, hplain, hpd, hp⟩ := split_frames bs hbs
  obtain ⟨rfl, rfl⟩ := frames_unique hwait (UnpackHead_rest hpd hp) hplain
  refine ⟨bs₀.length, by simp, by simp, fun hk => ?_, by simpa using htrails⟩
  cases rest with
  | nil => simp at hk
  | cons b rest =>
    have hlt := hp b rest rfl
    rw [length_stream_take_append, List.length_append]
    simpa using hlt

/-- The messages that have arrived completely are handed to their handlers. -/
theorem Delivered.handed {P : Prims Base UInt8} (hP : P.Readable) (hlua : P.toReads = luaReads) {Γ : NetType}
    {net : Receiver}
    (hnet : net.Exported Γ) {plain d : Bytes} {log : List Bytes} (h : Delivered plain log) {msgs : List (Msg P Γ net)}
    (hmsgs : plain ++ d = stream (msgs.map Msg.body)) {depth : Nat} (hdepth : ∀ m ∈ msgs, m.vals.depth ≤ depth)
    (border : TableBorder)
    (vfd : Nat) : ∃ k ≤ msgs.length, (stream ((msgs.take k).map Msg.body)).length ≤ plain.length ∧
      (k < msgs.length → plain.length < (stream ((msgs.take (k + 1)).map Msg.body)).length) ∧
      List.Forall₂ (fun m p => ∃ d, UnpackBody depth border net vfd p = .ok ([m.call vfd], d)) (msgs.take k) log := by
  obtain ⟨k, hk, hle, hlt, htrails⟩ := h.frames hmsgs
  rw [List.length_map] at hk hlt
  rw [← List.map_take] at hle hlt htrails
  refine ⟨k, hk, hle, hlt, ?_⟩
  rw [List.forall₂_map_left_iff] at htrails
  have hboth := (List.forall₂_and_left _ _).2 ⟨fun m hm => hdepth m (List.mem_of_mem_take hm), htrails⟩
  apply hboth.imp
  rintro m _ ⟨hm, e, rfl⟩
  exact UnpackBody_trails hP hlua hnet m e hm border vfd

/-- **Sessions**: in every run of the event loop, if what has been received from a client is the beginning of its
messages as they are framed and coded, under a key that is its key in the last byte, then the payloads of the client are
handed over one by one: the messages that have arrived completely, in their order, each to its own handler with the
values of its fields. The fields are numbers of fixed width and lists of two or more of them, alone, in structures and
in arrays of structures; a string is not read back everywhere. -/
theorem session_delivers {Γ : NetType} {net : Receiver} (hnet : net.Exported Γ) (ts : List Turn) (vfd : Nat)
    (msgs : List (Msg firm Γ net)) (key : Int)
    (hkey : key ≡ ((run (Node.start (some netParser)) (fun _ => ⟨0, []⟩) ts).2 vfd).key [ZMOD 256])
    (hsent : ((run (Node.start (some netParser)) (fun _ => ⟨0, []⟩) ts).2 vfd).received <+:
      (encodeLoop key (stream (msgs.map Msg.body))).1)
    {depth : Nat} (hdepth : ∀ m ∈ msgs, m.vals.depth ≤ depth) (border : TableBorder) :
    ∃ k ≤ msgs.length,
      (stream ((msgs.take k).map Msg.body)).length ≤
          ((run (Node.start (some netParser)) (fun _ => ⟨0, []⟩) ts).2 vfd).received.length ∧
      (k < msgs.length → ((run (Node.start (some netParser)) (fun _ => ⟨0, []⟩) ts).2 vfd).received.length <
        (stream ((msgs.take (k + 1)).map Msg.body)).length) ∧
      List.Forall₂ (fun m p => ∃ d, UnpackBody depth border net vfd p = .ok ([m.call vfd], d)) (msgs.take k)
        (payloads vfd (Monitor.trace Node.turn (Node.start (some netParser)) ts)) := by
  have hlogs := (logs_start (some netParser)).run (buffers_start _) ts
  obtain ⟨d, hplain, hlen⟩ := Link.plain_prefix hkey hsent
  have hhanded := (hlogs.delivered vfd).handed firm_readable rfl hnet hplain hdepth border vfd
  simpa only [List.nil_append, hlen] using hhanded

/-- `s_move(5, 7)`. -/
def moveMsg : Msg firm noTypes moveServer where
  id := 1
  info := ⟨"s_move", [⟨"x", "uint16", none⟩, ⟨"y", "uint16", none⟩]⟩
  vals := .cons (.base .Uint16 rfl (.int 5) ⟨rfl, ⟨.H, rfl, .inl ⟨.int 5, rfl, by decide, by decide⟩⟩, nofun⟩)
    (.cons (.base .Uint16 rfl (.int 7) ⟨rfl, ⟨.H, rfl, .inl ⟨.int 7, rfl, by decide, by decide⟩⟩, nofun⟩) .nil)
  small := by decide
  pto := rfl
  receives := rfl
  handled := rfl
  counted := by simp [Tuple.Counted, Value.Counted]
  fits := by decide

/-- The coded frames of two such messages. -/
def twoMoves : Bytes := (encodeLoop 3 (stream ([moveMsg, moveMsg].map Msg.body))).1

/-- They come in two chunks, with another client in between, whose key is the same in the last byte. -/
def movesRun : List Turn :=
  [.connection 7 3, .connection 8 515, .read 9 7 (some (twoMoves.take 5)), .read 9 8 (some [1, 2]),
    .read 9 7 (some (twoMoves.drop 5))]

theorem session_delivers_two :
    List.Forall₂ (fun m p => ∃ d, UnpackBody 1 TableBorder.first moveServer 1 p = .ok ([m.call 1], d)) [moveMsg,
      moveMsg]
      (payloads 1 (Monitor.trace Node.turn (Node.start (some netParser)) movesRun)) := by
  have hdepth : ∀ m ∈ [moveMsg, moveMsg], m.vals.depth ≤ 1 := by simp [moveMsg, Tuple.depth, Value.depth]
  obtain ⟨k, hk, hle, hlt, h⟩ := session_delivers moveServer_exported movesRun 1 [moveMsg, moveMsg] 515
    (by decide +kernel) (by decide +kernel) hdepth TableBorder.first
  have hlen : ((run (Node.start (some netParser)) (fun _ => ⟨0, []⟩) movesRun).2 1).received.length = 16 := by
    decide +kernel
  rw [hlen] at hlt
  have htwo : k = 2 := by
    by_contra hne
    have hlt := hlt (by simp at hk ⊢; omega)
    have : (stream (([moveMsg, moveMsg].take (k + 1)).map Msg.body)).length ≤ 16 := by
      match k with
      | 0 => decide +kernel
      | 1 => decide +kernel
      | k + 2 => simp at hk; omega
    omega
  rw [htwo] at h
  exact h

end XCore.Net
