import XCore.Lua.Pack
import XCore.Tcp.Server

/-!
# Frames on a client connection

A frame is the two-byte length of a body followed by the body (`pack.lua`). `netParser` is the package parser that
`server.lua` installs in `InitStart`: it asks `UnpackHead` for the positions of the body and cuts it out of `meta`.

- `netParser` on a frame followed by `s` leaves exactly `s`, but emits the body with the first byte of `s` behind it
  (`netParser_frame`);
- fed chunk by chunk, `CTcpServer:Recv` therefore emits exactly the bodies of a stream of frames if and only if every
  frame but the last ends where a chunk ends (`recv_bodies_iff`).
-/

namespace XCore.Net

open XCore.Lua XCore.Tcp XCore.Tcp.CTcpServer

/-! ## The parser of the source -/

def PACKET_SIZE_MIN : Int := 2

/-- `net.UnpackHead`: the first position of the body and the position after it. -/
def UnpackHead (pkg : Bytes) : Except LuaError (Option (Int × Int)) :=
  let len : Int := pkg.length
  if len < PACKET_SIZE_MIN then .ok none
  else match unpackU 2 pkg 1 with
    | .error e => .error e
    | .ok (bodysize, bodystart) =>
      if bodystart + bodysize - 1 > len then .ok none else .ok (some (bodystart, bodystart + bodysize))

/-- The package parser of `InitStart`. -/
def netParser : PackageParser Empty Bytes := fun data =>
  match UnpackHead data.metaStr with
  | .error e => ⟨data, .error e⟩
  | .ok none => ⟨data, .ok false⟩
  | .ok (some (start, stop)) =>
    ⟨{ data with pak := some (sub data.metaStr start stop), metaStr := subFrom data.metaStr stop }, .ok true⟩

/-! ## Streams of frames -/

/-- A message body: at most 65535 bytes. -/
structure Body where
  bytes : Bytes
  fits : bytes.length ≤ 65535

/-- A body with its length in front, as `net.Pack` writes it. -/
def frame (b : Body) : Bytes := leBytes 2 b.bytes.length ++ b.bytes

/-- The frames of a list of bodies. -/
def stream (bs : List Body) : Bytes := (bs.map frame).flatten

/-- `string.pack("H", string.len(out))..out` of `net.Pack`. -/
theorem packU_frame (b : Body) : (packU 2 b.bytes.length).map (· ++ b.bytes) = .ok (frame b) := by
  have := b.fits
  rw [packU, if_pos (by omega)]
  rfl

@[simp] theorem length_frame (b : Body) : (frame b).length = 2 + b.bytes.length := by simp [frame]

@[simp] theorem stream_nil : stream [] = [] := rfl

@[simp] theorem stream_cons (b : Body) (bs : List Body) : stream (b :: bs) = frame b ++ stream bs := rfl

@[simp] theorem stream_append (bs bs' : List Body) : stream (bs ++ bs') = stream bs ++ stream bs' := by
  simp [stream]

/-! ## The parser on frames -/

/-- The announced length of a frame is read back. -/
theorem unpackU_frame {b : Body} {m d s : Bytes} (hm : m ++ d = frame b ++ s) (hl : 2 ≤ m.length) :
    unpackU 2 m 1 = .ok (b.bytes.length, 3) := by
  have h2 : m.take 2 = leBytes 2 b.bytes.length := by
    have h := congrArg (List.take 2) hm
    rw [List.take_append_of_le_length hl] at h
    simpa [frame] using h
  have hf := b.fits
  have h := unpackU_eq (n := 2) (s := m) (p := 0) (by omega)
  simp only [List.drop_zero, h2, leNat_leBytes] at h
  rw [Nat.mod_eq_of_lt (by omega)] at h
  simpa using h

/-- Before the last byte of a frame the parser waits. -/
theorem UnpackHead_short {b : Body} {m d s : Bytes} (hm : m ++ d = frame b ++ s) (hl : m.length < (frame b).length) :
    UnpackHead m = .ok none := by
  unfold UnpackHead
  simp only
  split
  · rfl
  · rename_i h
    have hmin : PACKET_SIZE_MIN = 2 := rfl
    rw [unpackU_frame hm (by omega)]
    simp only [length_frame] at hl
    simp only
    rw [if_pos (by omega)]

theorem UnpackHead_frame (b : Body) (s : Bytes) :
    UnpackHead (frame b ++ s) = .ok (some (3, 3 + b.bytes.length)) := by
  have hl : (frame b ++ s).length = 2 + b.bytes.length + s.length := by simp
  have hmin : PACKET_SIZE_MIN = 2 := rfl
  unfold UnpackHead
  simp only
  rw [if_neg (by omega), unpackU_frame (List.append_nil _) (by omega)]
  simp only
  rw [if_neg (by omega)]

/-- **A frame**: the rest is left, but the emitted body has the first byte of the rest behind it. -/
theorem netParser_frame (b : Body) (s : Bytes) :
    netParser ⟨frame b ++ s, none, none⟩ = ⟨⟨s, none, some (b.bytes ++ s.take 1)⟩, .ok true⟩ := by
  have hdrop : (frame b ++ s).drop 2 = b.bytes ++ s := by simp [frame]
  have hsub : sub (frame b ++ s) 3 (3 + b.bytes.length) = b.bytes ++ s.take 1 := by
    have h := sub_eq (frame b ++ s) (i := 3) (by omega) (3 + b.bytes.length)
    rw [show 3 - 1 = 2 by rfl, hdrop, show 3 + b.bytes.length + 1 - 3 = b.bytes.length + 1 by omega] at h
    push_cast at h
    rw [h, List.take_append, List.take_of_length_le (by omega), Nat.add_sub_cancel_left]
  have hrest : subFrom (frame b ++ s) (3 + b.bytes.length) = s := by
    have h := subFrom_eq (frame b ++ s) (i := 3 + b.bytes.length) (by omega)
    push_cast at h
    rw [h, show 3 + b.bytes.length - 1 = 2 + b.bytes.length by omega, ← List.drop_drop, hdrop]
    simp
  simp only [netParser, UnpackHead_frame, hsub, hrest]

theorem netParser_wait {m : Bytes} (h : UnpackHead m = .ok none) :
    netParser ⟨m, none, none⟩ = ⟨⟨m, none, none⟩, .ok false⟩ := by simp [netParser, h]

/-! ## The loop on a buffer of frames -/

/-- What is emitted for frames followed by `p`: each body with the next byte of the buffer behind it. -/
def emitted (p : Bytes) : List Body → List Bytes
  | [] => []
  | b :: bs => (b.bytes ++ (stream bs ++ p).take 1) :: emitted p bs

@[simp] theorem length_emitted (p : Bytes) (bs : List Body) : (emitted p bs).length = bs.length := by
  induction bs with
  | nil => rfl
  | cons b bs ih => simp [emitted, ih]

theorem parses_frames {p : Bytes} (hp : UnpackHead p = .ok none) : ∀ bs : List Body,
    Parses netParser ⟨stream bs ++ p, none, none⟩ ⟨⟨p, none, none⟩, emitted p bs, none⟩
  | [] => (parses_stop (p := ⟨p, none, none⟩) (netParser_wait hp)).2 rfl
  | b :: bs => by
    have hpar := netParser_frame b (stream bs ++ p)
    refine (parses_more (p := ⟨stream (b :: bs) ++ p, none, none⟩) (by simpa using hpar)).2
      ⟨_, parses_frames hp bs, ?_⟩
    simp [Received.after, emitted]

/-- A buffer is a list of whole frames and a proper part of the next one. -/
theorem split_frames : ∀ (bs : List Body) {m d : Bytes}, m ++ d = stream bs →
    ∃ done rest p, bs = done ++ rest ∧ m = stream done ++ p ∧ p ++ d = stream rest ∧
      (∀ b rest', rest = b :: rest' → p.length < (frame b).length)
  | [], m, d, h => by
    have hm : m = [] := (List.append_eq_nil_iff.1 h).1
    exact ⟨[], [], [], rfl, by simp [hm], by simpa [hm] using h, fun _ _ h => by cases h⟩
  | b :: bs, m, d, h => by
    by_cases hl : m.length < (frame b).length
    · exact ⟨[], b :: bs, m, rfl, by simp, h, fun b' _ hb => by cases hb; exact hl⟩
    · rw [stream_cons] at h
      obtain ⟨m', rfl⟩ : ∃ m', m = frame b ++ m' := by
        have hpre : frame b <+: m := prefix_of_append h (by omega)
        exact hpre.imp fun _ h => h.symm
      rw [List.append_assoc] at h
      obtain ⟨done, rest, p, rfl, rfl, hd, hp⟩ := split_frames bs (List.append_cancel_left h)
      exact ⟨b :: done, rest, p, rfl, by simp, hd, hp⟩

/-- The proper part of a frame that is left over makes the parser wait. -/
theorem UnpackHead_rest {p d : Bytes} {rest : List Body} (h : p ++ d = stream rest)
    (hp : ∀ b rest', rest = b :: rest' → p.length < (frame b).length) : UnpackHead p = .ok none := by
  cases rest with
  | nil => rw [(List.append_eq_nil_iff.1 h).1]; rfl
  | cons b rest => exact UnpackHead_short h (hp b rest rfl)

theorem frame_ne_nil (b : Body) : ∃ c t, frame b = c :: t :=
  List.exists_cons_of_ne_nil (List.ne_nil_of_length_pos (by simp))

/-- The emitted payloads are the bodies only when the buffer ends with its first frame. -/
theorem emitted_eq_iff (p : Bytes) : ∀ bs : List Body,
    emitted p bs = bs.map Body.bytes ↔ bs = [] ∨ (bs.length = 1 ∧ p = [])
  | [] => by simp [emitted]
  | [b] => by simp [emitted]
  | b :: b' :: bs => by
    obtain ⟨c, t, ht⟩ := frame_ne_nil b'
    simp [emitted, ht]

/-! ## Chunks -/

/-- Every frame but the last ends where a chunk ends; `n` bytes were received before the first chunk. -/
def FramesEndAtChunks (n : Nat) (bs : List Body) (cs : List Bytes) : Prop :=
  ∀ k, 0 < k → k < bs.length → ∃ j, n + (cs.take j).flatten.length = (stream (bs.take k)).length

/-- Before the first chunk, no frame of the list has ended. -/
theorem length_lt_stream_take {n k : Nat} {bs : List Body} (hn : ∀ b rest, bs = b :: rest → n < (frame b).length)
    (h0 : 0 < k) (hk : k < bs.length) : n < (stream (bs.take k)).length := by
  cases bs with
  | nil => cases hk
  | cons b rest =>
    have hlt := hn b rest rfl
    obtain ⟨k, rfl⟩ := Nat.exists_eq_add_one_of_ne_zero (Nat.ne_of_gt h0)
    rw [List.take_succ_cons, stream_cons, List.length_append]
    omega

theorem length_stream_take_append (done rest : List Body) (k : Nat) :
    (stream ((done ++ rest).take (done.length + k))).length = (stream done).length + (stream (rest.take k)).length := by
  rw [List.take_append, List.take_of_length_le (by omega), stream_append, List.length_append, Nat.add_sub_cancel_left]

/-- The first chunk completes at most one frame, and then nothing is left over. -/
theorem done_of_framesEndAtChunks {n : Nat} {done rest : List Body} {c p : Bytes} {cs : List Bytes}
    (h : FramesEndAtChunks n (done ++ rest) (c :: cs)) (hlen : n + c.length = (stream done).length + p.length)
    (hn : ∀ b bs, done ++ rest = b :: bs → n < (frame b).length) (hp : rest = [] → p = []) :
    done = [] ∨ (done.length = 1 ∧ p = []) := by
  cases done with
  | nil => exact Or.inl rfl
  | cons b ds =>
    right
    by_cases h1 : 1 < (b :: ds ++ rest).length
    · -- the second frame begins where a chunk ends, and this is the first one
      obtain ⟨j, hj⟩ := h 1 (by omega) h1
      have hlt := length_lt_stream_take hn (by omega) h1
      have htake : (b :: ds ++ rest).take 1 = [b] := by simp
      rw [htake] at hj hlt
      cases j with
      | zero => exact absurd (by simpa using hj) hlt.ne
      | succ j =>
        simp only [List.take_succ_cons, List.flatten_cons, List.length_append, stream_cons, stream_nil,
          List.length_nil] at hj hlen
        cases ds with
        | nil => exact ⟨rfl, List.eq_nil_of_length_eq_zero (by simp at hlen hj; omega)⟩
        | cons b' ds => simp only [stream_cons, List.length_append, length_frame] at hlen hj; omega
    · have hds : ds = [] ∧ rest = [] := by
        simp only [List.cons_append, List.length_cons, List.length_append] at h1
        exact ⟨List.eq_nil_of_length_eq_zero (by omega), List.eq_nil_of_length_eq_zero (by omega)⟩
      exact ⟨by simp [hds.1], hp hds.2⟩

/-- The condition over one chunk: the frames completed by it, and the rest. -/
theorem framesEndAtChunks_cons {n : Nat} {done rest : List Body} {c p : Bytes} {cs : List Bytes}
    (hlen : n + c.length = (stream done).length + p.length)
    (hn : ∀ b bs, done ++ rest = b :: bs → n < (frame b).length)
    (hp : rest = [] → p = []) :
    FramesEndAtChunks n (done ++ rest) (c :: cs) ↔
      (done = [] ∨ (done.length = 1 ∧ p = [])) ∧ FramesEndAtChunks p.length rest cs := by
  constructor
  · intro h
    refine ⟨done_of_framesEndAtChunks h hlen hn hp, fun k h0 hk => ?_⟩
    have hk' : done.length + k < (done ++ rest).length := by
      rw [List.length_append]
      omega
    obtain ⟨j, hj⟩ := h (done.length + k) (by omega) hk'
    cases j with
    | zero => exact absurd (by simpa using hj) (length_lt_stream_take hn (by omega) hk').ne
    | succ j =>
      rw [length_stream_take_append] at hj
      exact ⟨j, by simp only [List.take_succ_cons, List.flatten_cons, List.length_append] at hj; omega⟩
  · rintro ⟨hd, hr⟩ k h0 hk
    by_cases hkd : k ≤ done.length
    · rcases hd with rfl | ⟨hd1, rfl⟩
      · simp at hkd; omega
      · obtain rfl : k = 1 := by omega
        obtain ⟨b, rfl⟩ := List.length_eq_one_iff.1 hd1
        exact ⟨1, by simpa using hlen⟩
    · obtain ⟨k', rfl⟩ : ∃ k', k = done.length + k' := ⟨k - done.length, by omega⟩
      obtain ⟨j, hj⟩ := hr k' (by omega) (by simp at hk; omega)
      refine ⟨j + 1, ?_⟩
      rw [length_stream_take_append]
      simp only [List.take_succ_cons, List.flatten_cons, List.length_append]
      omega

/-! ## Runs -/

/-- The emission of a payload for a client. -/
abbrev onPak (vfd : Nat) (p : Bytes) : ServerEffect Bytes := .onRecv vfd (.pak p)

/-- A run over the chunks of a stream, from a buffer that holds a proper part of the next frame: it emits one payload
for each body, and these are the bodies exactly when the frames end where chunks end. -/
theorem recv_run (vfd : Nat) : ∀ (cs : List Bytes) {m : Bytes} {bs : List Body} {s : CTcpServer Bytes},
    s.m_PackageParser = some netParser → s.Buffered vfd m → m ++ cs.flatten = stream bs →
    (∀ b rest, bs = b :: rest → m.length < (frame b).length) →
    ∃ fuel self' out, s.RecvChunks fuel vfd cs = some (self', out.map (onPak vfd)) ∧
      (out = bs.map Body.bytes ↔ FramesEndAtChunks m.length bs cs)
  | [], m, bs, self, _, _, hm, hlt => by
    have hbs : bs = [] := by
      cases bs with
      | nil => rfl
      | cons b rest =>
        have h1 := hlt b rest rfl
        have h2 := congrArg List.length hm
        simp only [List.flatten_nil, List.append_nil, stream_cons, List.length_append] at h2
        omega
    subst hbs
    exact ⟨0, self, [], rfl, by simp [FramesEndAtChunks]⟩
  | c :: cs, m, bs, self, hp, hb, hm, hlt => by
    obtain ⟨done, rest, p, rfl, hmc, hpd, hplt⟩ := split_frames bs (m := m ++ c) (d := cs.flatten) (by simpa using hm)
    have hparse := parses_frames (UnpackHead_rest hpd hplt) done
    rw [← hmc] at hparse
    obtain ⟨n₁, h₁⟩ := RecvDecoded_of_parses hp hb hparse
    obtain ⟨n₂, self', out, h₂, hiff⟩ := recv_run vfd cs (s := self.setCached vfd ⟨p, none, none⟩) hp
      (buffered_setCached self vfd p) hpd hplt
    refine ⟨max n₁ n₂, self', emitted p done ++ out, ?_, ?_⟩
    · simp only [RecvChunks, RecvDecoded_mono (Nat.le_max_left n₁ n₂) h₁,
        RecvChunks_mono (Nat.le_max_right n₁ n₂) h₂, Option.map_some, List.map_append]
    · have hlen := congrArg List.length hmc
      simp only [List.length_append] at hlen
      have hrest : rest = [] → p = [] := by
        rintro rfl; exact (List.append_eq_nil_iff.1 hpd).1
      rw [framesEndAtChunks_cons hlen hlt hrest, ← emitted_eq_iff, ← hiff, List.map_append]
      constructor
      · intro h; exact List.append_inj h (by simp)
      · rintro ⟨h1, h2⟩; rw [h1, h2]

/-- **The bodies of a stream of frames**: the payloads received from a new client are exactly the bodies sent, if and
only if every frame but the last ends where a chunk ends. -/
theorem recv_bodies_iff {self : CTcpServer Bytes} {vfd : Nat} (hp : self.m_PackageParser = some netParser)
    (hf : self.cached vfd = none) (bs : List Body) (cs : List Bytes) (hcs : cs.flatten = stream bs) :
    (∃ fuel self', self.RecvChunks fuel vfd cs = some (self', (bs.map Body.bytes).map (onPak vfd))) ↔
      FramesEndAtChunks 0 bs cs := by
  obtain ⟨n, self', out, hrun, hiff⟩ := recv_run vfd cs (m := []) hp (Or.inl ⟨hf, rfl⟩) hcs (by simp)
  rw [List.length_nil] at hiff
  rw [← hiff]
  constructor
  · rintro ⟨n', self'', h⟩
    have heq := congrArg Prod.snd (RecvChunks_unique h hrun)
    have hinj : Function.Injective (onPak vfd) := fun _ _ h => by cases h; rfl
    exact (hinj.list_map heq).symm
  · rintro rfl
    exact ⟨n, self', hrun⟩

/-- The server of `InitStart` with one client, number 1. -/
def oneClient : CTcpServer Bytes := ((Create.SetPackageParser netParser).Accept 0 0).1

/-- The empty body. -/
def emptyBody : Body := ⟨[], by decide⟩

/-- Two empty bodies, each in its own chunk, are received as sent. -/
theorem recv_bodies_two_chunks :
    ∃ fuel self', oneClient.RecvChunks fuel 1 [frame emptyBody, frame emptyBody] =
      some (self', ([emptyBody, emptyBody].map Body.bytes).map (onPak 1)) :=
  (recv_bodies_iff (show oneClient.m_PackageParser = some netParser from rfl) rfl [emptyBody, emptyBody] _ rfl).2
    fun k h0 hk => by
    obtain rfl : k = 1 := by simp at hk; omega
    exact ⟨1, rfl⟩

/-- Two empty bodies in one chunk are not: the first payload has the first byte of the second frame. -/
theorem recv_bodies_one_chunk :
    ¬∃ fuel self', oneClient.RecvChunks fuel 1 [stream [emptyBody, emptyBody]] =
      some (self', ([emptyBody, emptyBody].map Body.bytes).map (onPak 1)) := by
  rintro ⟨n, self', h⟩
  have hrun : (oneClient.RecvChunks 3 1 [stream [emptyBody, emptyBody]]).map Prod.snd =
      some [onPak 1 [0], onPak 1 []] := by decide
  obtain ⟨r, hr, hout⟩ := Option.map_eq_some_iff.1 hrun
  rw [RecvChunks_unique hr h] at hout
  simp [emptyBody] at hout

end XCore.Net
