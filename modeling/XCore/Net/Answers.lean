import XCore.Net.Session
import XCore.Net.Wire
import XCore.Uv.Runs

/-!
# Answers of a server

From the calls `net.<protocol>(vfd, ..)` of a server to the handlers of its clients: the generated function hands a
frame to `CTcpServer:Send`, which writes it to the client's stream, and libuv gives the bytes of a stream to the kernel
as it takes them.

- `Answer.call_eq`: a call hands over one frame;
- `writes_eq`: in every run, what is written to the stream of a client is its key and then the frames of the answers
  that were given while it was connected, in their order;
- `answers_arrive`: so what arrives begins with the key, and of what follows the answers that have arrived completely
  are handed to the handlers of the client, each with the values that it was given.
-/

namespace XCore.Net

open XCore.Lua XCore.Tcp XCore.Tcp.CTcpServer

/-! ## One call -/

section All

set_option linter.unusedSectionVars false

variable {B O : Type} {P : Prims B O} {Γ : NetType} {V : Prim → Bool → B → Prop}
  (hV : ∀ {prim isarray b}, P.Valid prim isarray b → V prim isarray b)
include hV

mutual

/-- What all valid values are, the base values of a tuple are. -/
theorem Tuple.all_of_valid : ∀ {args : List Arg} (v : Tuple P Γ args), v.All V
  | _, .nil => trivial
  | _, .cons v vs => ⟨Value.all_of_valid v, Tuple.all_of_valid vs⟩

theorem Value.all_of_valid : ∀ {a : Arg} (v : Value P Γ a), v.All V
  | _, .base _ _ _ hb => hV hb
  | _, .struct _ _ _ v => Tuple.all_of_valid v
  | _, .list _ _ _ vs => Elems.all_of_valid vs

theorem Elems.all_of_valid : ∀ {args : List Arg} (vs : Elems P Γ args), vs.All V
  | _, .nil => trivial
  | _, .cons v vs => ⟨Tuple.all_of_valid v, Elems.all_of_valid vs⟩

end

end All

/-- A message that a server sends: a protocol with content, and outside of arrays no structures with content. -/
structure Answer (Γ : NetType) (net : Receiver) (depth : Nat) extends Msg firm Γ net where
  client : net.role = .client
  named : net.loaded.Name2ID info.name ≠ none
  structs : vals.StructsEmpty
  content : ¬vals.Empty
  shallow : vals.depth ≤ depth

theorem sendableBase_of_firm {prim : Prim} {isarray : Bool} {b : Base} (h : FirmBase prim isarray b) :
    SendableBase prim isarray b := by
  obtain ⟨hb, ⟨fmt, hf, hvalue⟩, -⟩ := h
  have hsend : ∀ x, fmt.Holds x → Sendable prim (.num x) := by
    intro x hx
    simp only [Sendable, hf]
    exact ⟨_, (packFmt_bits hx).1⟩
  rcases hvalue with ⟨x, rfl, hx⟩ | ⟨xs, rfl, hlen, hxs⟩
  · subst hb
    have hne : prim ≠ .String := by
      rintro rfl
      cases hf
    exact ⟨hne, hsend x hx⟩
  · subst hb
    refine ⟨by rwa [List.length_map], fun x hx => ?_⟩
    obtain ⟨y, hy, rfl⟩ := List.mem_map.1 hx
    exact hsend y (hxs y hy)

/-- The entries of the writer are the bytes of the encoding. -/
theorem sending_bytes (prim : Prim) (b : Base) : (sending.bytes prim b).flatMap Append.bytes = typed.bytes prim b := by
  rw [Writes.bytes, Writes.bytes, show typed.write prim (some (.base b)) =
    (sending.write prim (some (.base b))).map fun as => as.flatMap Append.bytes from rfl]
  cases sending.write prim (some (.base b)) <;> rfl

section Call

variable {Γ : NetType} {net : Receiver}

theorem Answer.net_s2c {depth : Nat} (a : Answer Γ net depth) : net.loaded.NetS2C a.id = some a.info := by
  have hpto := a.pto
  rwa [Receiver.ptoHandle, a.client] at hpto

/-- **A call** hands over one frame, and leaves no message behind. -/
theorem Answer.call_eq (hnet : net.Exported Γ) (M : Machine) (a : Answer Γ net M.depth) (vfd : Nat) (g : Globals) :
    Net.call M net.loaded .server ⟨a.id, .one vfd, a.vals.vals⟩ g =
        .ok ([(vfd, frame a.body)], ⟨g.ReadData, none⟩) := by
  have hall : a.vals.All sending.Valid := a.vals.all_of_valid sendableBase_of_firm
  have hpayload : (a.vals.recast sending hall).payload = a.vals.enc :=
    Tuple.enc_recast (P := firm) (Q := sending) sending_bytes (fun _ => rfl) a.vals hall
  have hlen : (a.vals.recast sending hall).payload.length + 2 < 65536 := by
    have hfits := a.fits
    rw [hpayload]
    omega
  have hsent : s2c M net.loaded a.id a.info (.one vfd) (a.vals.recast sending hall).vals g = _ :=
    s2c_sound hnet.types a.small a.named (a.structArrays_le hnet) (a.vals.counted_recast hall a.counted)
      (a.vals.structsEmpty_recast hall a.structs) (fun he => a.content ((a.vals.empty_recast hall).1 he))
      ((a.vals.depth_recast hall).trans_le a.shallow) hlen g
  rw [a.vals.vals_recast hall, hpayload] at hsent
  simp only [Net.call, a.net_s2c]
  exact hsent

end Call

/-! ## Runs of a server -/

/-- The process of a server: its network node, and the state of `net`. -/
structure Host where
  node : Node Bytes
  globals : Globals

/-- A turn of the event loop, or a call `net.<protocol>(vfd, ..)`. -/
inductive Act (Γ : NetType) (net : Receiver) (depth : Nat)
  | turn (t : Turn)
  | answer (vfd : Nat) (a : Answer Γ net depth)

/-- What an effect writes to the stream of a client. -/
def writeOf (s : CTcpServer Bytes) (vfd : Nat) : ServerEffect Bytes → Option Bytes
  | .write client data => if s.m_ClientObj2Vfd client = some vfd then some data else none
  | _ => none

/-- The packet of `SendKey`. -/
def keyPacket (key : Int) : Bytes :=
  [4, lowByte key, lowByte (key / 256), lowByte (key / 256 ^ 2), lowByte (key / 256 ^ 3)]

section Run

variable {Γ : NetType} {net : Receiver}

namespace Host

/-- The network node of `InitStart`. -/
def start : Host := ⟨Node.start (some netParser), ⟨none, none⟩⟩

/-- An act; `Send2Net` gives the frames of a call to `m_NetNode:Send`. -/
def act (M : Machine) (h : Host) : Act Γ net M.depth → Except LuaError (Host × List (ServerEffect Bytes))
  | .turn t => .ok (⟨(h.node.turn t).1, h.globals⟩, (h.node.turn t).2)
  | .answer vfd a => (call M net.loaded .server ⟨a.id, .one vfd, a.vals.vals⟩ h.globals).map fun r =>
    (⟨h.node, r.2⟩, r.1.flatMap fun p => h.node.server.Send p.1 p.2)

/-- A run, with what it writes to the stream of a client. -/
def run (M : Machine) (vfd : Nat) : Host → List (Act Γ net M.depth) → Except LuaError (Host × List Bytes)
  | h, [] => .ok (h, [])
  | h, a :: as => (h.act M a).bind fun r =>
    (run M vfd r.1 as).map fun r' => (r'.1, r.2.filterMap (writeOf r.1.node.server vfd) ++ r'.2)

end Host

/-- The turns of a run. -/
def turnsOf {depth : Nat} : List (Act Γ net depth) → List Turn
  | [] => []
  | .turn t :: as => t :: turnsOf as
  | .answer _ _ :: as => turnsOf as

/-- The answers to a client while it is connected. -/
def answersTo {depth : Nat} (vfd : Nat) : Node Bytes → List (Act Γ net depth) → List (Msg firm Γ net)
  | _, [] => []
  | n, .turn t :: as => answersTo vfd (n.turn t).1 as
  | n, .answer v a :: as =>
    if v = vfd ∧ (n.server.m_ClientVfd2Obj v).isSome then a.toMsg :: answersTo vfd n as else answersTo vfd n as

theorem answersTo_shallow {depth : Nat} (vfd : Nat) (as : List (Act Γ net depth)) (n : Node Bytes) :
    ∀ m ∈ answersTo vfd n as, m.vals.depth ≤ depth := by
  induction as generalizing n with
  | nil => simp [answersTo]
  | cons act as ih =>
    cases act with
    | turn t => exact ih _
    | answer v a =>
      rw [answersTo]
      split
      · exact List.forall_mem_cons.2 ⟨a.shallow, ih n⟩
      · exact ih n

/-- **What a turn writes**: nothing, or the key of the client that it accepts. -/
theorem turn_writes (n : Node Bytes) (t : Turn) (g : Nat → Link) (vfd : Nat) :
    ((n.turn t).2.filterMap (writeOf (n.turn t).1.server vfd) = [] ∧
      (vfd ≤ (n.turn t).1.server.m_ClientVfd ↔ vfd ≤ n.server.m_ClientVfd) ∧ (link n g t vfd).key = (g vfd).key) ∨
    (n.turn t).2.filterMap (writeOf (n.turn t).1.server vfd) = [keyPacket (link n g t vfd).key] ∧
      n.server.m_ClientVfd < vfd ∧ vfd ≤ (n.turn t).1.server.m_ClientVfd := by
  cases t with
  | connection client time =>
    by_cases hnew : n.reading client = none
    · by_cases hv : vfd = n.server.m_ClientVfd + 1
      · subst hv
        right
        simp [Node.turn, link, hnew, Node.done, Accept, SendKey, writeOf, keyPacket]
      · left
        have hne : n.server.m_ClientVfd + 1 ≠ vfd := Ne.symm hv
        simp [Node.turn, link, hnew, Node.done, Accept, SendKey, writeOf, hne, Function.update_of_ne hv]
        omega
    · left
      simp [Node.turn, link, hnew]
  | read fuel client data =>
    left
    cases hclient : n.reading client with
    | none => cases data <;> simp [Node.turn, link, hclient]
    | some v =>
      cases data with
      | none =>
        simp only [Node.turn, link, hclient, Node.done, OnClientLost]
        split <;> simp [writeOf]
      | some str =>
        cases hr : n.server.Recv fuel v str with
        | none => simp [Node.turn, link, hclient, hr]
        | some r =>
          obtain ⟨s, out, err⟩ := r
          obtain ⟨payloads, rfl⟩ := Node.Recv_out hr
          obtain ⟨hcount, -⟩ := Recv_fields hr
          have hkey : (Function.update g v { g v with received := (g v).received ++ str } vfd).key = (g vfd).key := by
            by_cases hv : vfd = v
            · simp [hv]
            · rw [Function.update_of_ne hv]
          simp [Node.turn, link, hclient, hr, Node.done, List.filterMap_map, Function.comp_def, writeOf, hcount, hkey]
  | closeClient v =>
    left
    simp only [Node.turn, link, Node.done, CloseClient]
    split <;> simp [writeOf]

/-- What `Send` writes to the stream of a client. -/
theorem send_writes {n : Node Bytes} (h : n.Inv) (v : Nat) (data : Bytes) (vfd : Nat) :
    (n.server.Send v data).filterMap (writeOf n.server vfd) =
      if v = vfd ∧ (n.server.m_ClientVfd2Obj v).isSome then [data] else [] := by
  cases hobj : n.server.m_ClientVfd2Obj v with
  | none => simp [Send, hobj]
  | some client =>
    have hvfd : n.server.m_ClientObj2Vfd client = some v := (h.tables.inverse v client).1 hobj
    by_cases hv : v = vfd
    · subst hv
      simp [Send, hobj, writeOf, hvfd]
    · simp [Send, hobj, writeOf, hvfd, hv]

/-- A call in a run. -/
theorem act_answer (hnet : net.Exported Γ) (M : Machine) (h : Host) (v : Nat) (a : Answer Γ net M.depth) :
    h.act M (.answer v a) = .ok (⟨h.node, ⟨h.globals.ReadData, none⟩⟩, h.node.server.Send v (frame a.body)) := by
  rw [Host.act, a.call_eq hnet M v h.globals]
  simp [Except.map]

/-- A run after the client has been accepted. -/
theorem writes_known (hnet : net.Exported Γ) (M : Machine) (vfd : Nat) (as : List (Act Γ net M.depth)) {h : Host}
    (hinv : h.node.Inv) (hvfd : vfd ≤ h.node.server.m_ClientVfd) (g : Nat → Link) :
    (∃ h', h.run M vfd as = .ok (h', (answersTo vfd h.node as).map fun m => frame m.body)) ∧
      ((run h.node g (turnsOf as)).2 vfd).key = (g vfd).key := by
  induction as generalizing h g with
  | nil => exact ⟨⟨h, rfl⟩, rfl⟩
  | cons act as ih =>
    cases act with
    | turn t =>
      rcases turn_writes h.node t g vfd with ⟨hnothing, hcount, hkey⟩ | ⟨-, hlt, -⟩
      · obtain ⟨⟨h', hrun⟩, hlast⟩ := ih (h := ⟨(h.node.turn t).1, h.globals⟩) (hinv.turn t) (hcount.2 hvfd)
          (link h.node g t)
        refine ⟨⟨h', ?_⟩, hlast.trans hkey⟩
        simp only [Host.run, Host.act, Except.bind, hrun, Except.map, hnothing, List.nil_append, answersTo]
      · omega
    | answer v a =>
      obtain ⟨⟨h', hrun⟩, hlast⟩ := ih (h := ⟨h.node, ⟨h.globals.ReadData, none⟩⟩) hinv hvfd g
      refine ⟨⟨h', ?_⟩, hlast⟩
      simp only [Host.run, act_answer hnet, Except.bind, hrun, Except.map, send_writes hinv, answersTo]
      split <;> rfl

/-- **What is written to the stream of a client**: nothing before it is accepted, then its key, and then the frames of
its answers. -/
theorem writes_eq (hnet : net.Exported Γ) (M : Machine) (vfd : Nat) (as : List (Act Γ net M.depth)) {h : Host}
    (hinv : h.node.Inv) (hvfd : h.node.server.m_ClientVfd < vfd) (g : Nat → Link) :
    ∃ h' out, h.run M vfd as = .ok (h', out) ∧ (out = [] ∧ answersTo vfd h.node as = [] ∨
      out = keyPacket ((run h.node g (turnsOf as)).2 vfd).key :: (answersTo vfd h.node as).map fun m =>
      frame m.body) := by
  induction as generalizing h g with
  | nil => exact ⟨h, [], rfl, .inl ⟨rfl, rfl⟩⟩
  | cons act as ih =>
    cases act with
    | turn t =>
      rcases turn_writes h.node t g vfd with ⟨hnothing, hcount, -⟩ | ⟨hpacket, -, hle⟩
      · have hlt : (h.node.turn t).1.server.m_ClientVfd < vfd := by
          rw [← Nat.not_le, hcount]
          exact Nat.not_le.2 hvfd
        obtain ⟨h', out, hrun, hout⟩ := ih (h := ⟨(h.node.turn t).1, h.globals⟩) (hinv.turn t) hlt (link h.node g t)
        refine ⟨h', out, ?_, hout⟩
        simp only [Host.run, Host.act, Except.bind, hrun, Except.map, hnothing, List.nil_append]
      · obtain ⟨⟨h', hrun⟩, hkey⟩ :=
          writes_known hnet M vfd as (h := ⟨(h.node.turn t).1, h.globals⟩) (hinv.turn t) hle (link h.node g t)
        refine ⟨h', _, ?_, .inr rfl⟩
        simp only [Host.run, Host.act, Except.bind, hrun, Except.map, hpacket, turnsOf, answersTo]
        rw [show run h.node g (t :: turnsOf as) = run (h.node.turn t).1 (link h.node g t) (turnsOf as) from rfl, hkey]
        rfl
    | answer v a =>
      obtain ⟨h', out, hrun, hout⟩ := ih (h := ⟨h.node, ⟨h.globals.ReadData, none⟩⟩) hinv hvfd g
      -- nobody has this number yet
      have hnobody : ¬(v = vfd ∧ (h.node.server.m_ClientVfd2Obj v).isSome) := by
        rintro ⟨rfl, hsome⟩
        have hrange := hinv.tables.range v (Option.isSome_iff_exists.1 hsome)
        omega
      refine ⟨h', out, ?_, ?_⟩
      · simp only [Host.run, act_answer hnet, Except.bind, hrun, Except.map, send_writes hinv, if_neg hnobody,
          List.nil_append]
      · rw [answersTo, if_neg hnobody]
        exact hout

/-- **Answers arrive**: in every run of a server, and of the stream of a client in which no system call fails, what
arrives begins with the key of the client, and of what follows the answers that have arrived completely are handed to
its handlers one by one, in their order, each with the values that it was given. -/
theorem answers_arrive (hnet : net.Exported Γ) (M : Machine) (as : List (Act Γ net M.depth)) {vfd : Nat}
    (hvfd : 0 < vfd) {iovmax : Nat}
    {w : Uv.State} {out : List Uv.Effect} (hreach : Uv.Reach iovmax Uv.Works (Uv.accepted false) w out)
    (hwrites : (Host.start.run M vfd as).map Prod.snd = .ok ((Uv.written out).map Prod.snd)) {s : Bytes}
    (hs : s <+: Uv.sent out)
    {msgs : List (Msg firm Γ net)} (hmsgs : answersTo vfd (Node.start (some netParser)) as = msgs)
    (border : TableBorder) (self : Nat) :
    s.take 5 <+: keyPacket ((run (Node.start (some netParser)) (fun _ => ⟨0, []⟩) (turnsOf as)).2 vfd).key ∧
      ∀ log, Delivered (s.drop 5) log → ∃ k ≤ msgs.length, (stream ((msgs.take k).map Msg.body)).length ≤ s.length - 5 ∧
        (k < msgs.length → s.length - 5 < (stream ((msgs.take (k + 1)).map Msg.body)).length) ∧
        List.Forall₂ (fun m p => ∃ d, UnpackBody M.depth border net self p = .ok ([m.call self], d))
        (msgs.take k) log := by
  have hshallow := answersTo_shallow vfd as (Node.start (some netParser))
  obtain ⟨h', frames, hrun, hframes⟩ := writes_eq hnet M vfd as (h := .start) (Node.inv_start _) hvfd fun _ => ⟨0, []⟩
  rw [show Host.start.node = Node.start (some netParser) from rfl, hmsgs] at hframes
  generalize ((run (Node.start (some netParser)) (fun _ => ⟨0, []⟩) (turnsOf as)).2 vfd).key = key at hframes ⊢
  rw [hmsgs] at hshallow
  obtain ⟨d, hd⟩ : s <+: frames.flatten := by
    have hwritten : frames = (Uv.written out).map Prod.snd := by
      rw [hrun] at hwrites
      exact Except.ok.inj hwrites
    rw [hwritten, ← List.flatMap_def]
    exact hs.trans (hreach.sent_begins (.accepted false))
  have hparts : s.take 5 <+: keyPacket key ∧ ∃ rest, s.drop 5 ++ rest = stream (msgs.map Msg.body) := by
    rcases hframes with ⟨rfl, rfl⟩ | hframes
    · have hnil : s = [] := (List.append_eq_nil_iff.1 hd).1
      simp [hnil]
    · have hstream : s ++ d = keyPacket key ++ stream (msgs.map Msg.body) := by
        rw [hd, hframes, stream, List.map_map, List.flatten_cons]
        rfl
      refine ⟨?_, d.drop (5 - s.length), ?_⟩
      · have hbegins : s.take 5 <+: s ++ d := (List.take_prefix 5 s).trans (List.prefix_append s d)
        rw [hstream] at hbegins
        exact List.prefix_of_prefix_length_le hbegins (List.prefix_append _ _) (by simp [keyPacket])
      · rw [← List.drop_append, hstream]
        exact List.drop_left' rfl
  obtain ⟨htake, rest, hrest⟩ := hparts
  refine ⟨htake, fun log hlog => ?_⟩
  have hhanded := hlog.handed firm_readable rfl hnet hrest hshallow border self
  rwa [List.length_drop] at hhanded

/-- A client with a handler for a protocol of two numbers. -/
def moveClient : Receiver :=
  ⟨⟨[], [⟨"c_move", [⟨"x", "uint16", none⟩, ⟨"y", "uint16", none⟩]⟩]⟩, .client, fun _ => .func, false⟩

theorem moveClient_exported : moveClient.Exported noTypes where
  types := rfl
  readers p hp _ := by
    obtain rfl := List.mem_singleton.1 hp
    rfl

theorem moveMsg_spec : moveMsg.vals.StructsEmpty ∧ ¬moveMsg.vals.Empty ∧ moveMsg.vals.depth ≤ 1 := by
  simp [moveMsg, Tuple.StructsEmpty, Value.StructsEmpty, Tuple.Empty, Value.Empty, Tuple.depth, Value.depth]

/-- `c_move(5, 7)`, with the values of `moveMsg`. -/
def moveAnswer : Answer noTypes moveClient 1 where
  id := moveMsg.id
  info := ⟨"c_move", moveMsg.info.args⟩
  vals := moveMsg.vals
  small := moveMsg.small
  pto := rfl
  receives := rfl
  handled := rfl
  counted := moveMsg.counted
  fits := moveMsg.fits
  client := rfl
  named := Option.some_ne_none 1
  structs := moveMsg_spec.1
  content := moveMsg_spec.2.1
  shallow := moveMsg_spec.2.2

/-- A client is accepted and answered; another number is answered in vain. -/
def moveActs : List (Act noTypes moveClient 1) :=
  [.turn (.connection 7 515), .answer 2 moveAnswer, .answer 1 moveAnswer]

/-- The key and the answer, each taken at once. -/
def moveSent : List Uv.Effect :=
  [.write 0 [4, 3, 2, 0, 0], .sent [4, 3, 2, 0, 0], .write 1 [6, 0, 1, 0, 5, 0, 7, 0], .sent [6, 0, 1, 0, 5, 0, 7, 0]]

theorem answers_arrive_move :
    ∃ d, UnpackBody 1 TableBorder.first moveClient 9 [1, 0, 5, 0, 7, 0] = .ok ([moveAnswer.call 9], d) := by
  have hworks {w : Uv.State} {req n : Nat} {bufs : List Bytes} : Uv.Works w (.write req bufs [.takes n]) := by
    simp [Uv.Works, Uv.Fine]
  have h₁ : Uv.Reach 1024 Uv.Works (Uv.accepted false) _ _ :=
    .step .init (e := .write 0 [[4, 3, 2, 0, 0]] [.takes 5]) trivial hworks rfl
  have h₂ : Uv.Reach 1024 Uv.Works (Uv.accepted false) _ moveSent :=
    h₁.step (e := .write 1 [[6, 0, 1, 0, 5, 0, 7, 0]] [.takes 8]) trivial hworks rfl
  have hlog : Delivered [6, 0, 1, 0, 5, 0, 7, 0] [[1, 0, 5, 0, 7, 0]] :=
    ⟨[moveAnswer.body], [], by decide, rfl, .cons ⟨[], by decide⟩ .nil⟩
  have hanswers : answersTo 1 (Node.start (some netParser)) moveActs = [moveAnswer.toMsg] := rfl
  obtain ⟨-, harrive⟩ := answers_arrive moveClient_exported ⟨1, Border.first⟩ moveActs Nat.one_pos h₂
    (by decide +kernel)
    (List.prefix_refl _) hanswers TableBorder.first 9
  obtain ⟨k, hk, -, -, hhanded⟩ := harrive _ hlog
  cases k with
  | zero => cases hhanded
  | succ k =>
    cases hhanded with
    | cons h _ => exact h

end Run

end XCore.Net
