import XCore.Redis.Resp

/-!
# Replies in one chunk

What `CTcpClient:Recv` emits for the encodings of a list of replies that arrive together. The parser decodes a reply
when it is `Readable`: it is no bulk string, and an array has no null element and takes its minimum of seven bytes for
each element, counted to the end of the chunk. A bulk string never decodes: the payload takes the carriage return after
it.

- `respParser_readable`, `respParser_unreadable`: one call on a buffer that starts with a reply;
- `parses_replies_iff`: the loop;
- `recv_replies_iff`: the client.
-/

namespace XCore.Redis

open XCore.Lua XCore.Tcp

/-- The parser decodes the reply when `n` bytes follow it in the buffer. -/
def Reply.Readable (n : Nat) : Reply → Prop
  | bulk _ => False
  | array es => none ∉ es ∧ 7 * es.length ≤ (encodeElems es).length + n
  | _ => True

instance (n : Nat) : ∀ r : Reply, Decidable (r.Readable n)
  | .status _ => isTrue trivial
  | .error _ => isTrue trivial
  | .integer _ => isTrue trivial
  | .bulk _ => isFalse id
  | .array es => inferInstanceAs (Decidable (none ∉ es ∧ _ ≤ _))

/-- Every reply of the list is decoded. -/
def Readable : List Reply → Prop
  | [] => True
  | r :: rs => r.Readable (encodeAll rs).length ∧ Readable rs

/-- A list without null is a list of strings. -/
theorem exists_map_some : ∀ {es : List (Option Bytes)}, none ∉ es → ∃ bs : List Bytes, es = bs.map some
  | [], _ => ⟨[], rfl⟩
  | none :: es, h => absurd (by simp) h
  | some b :: es, h => by
    obtain ⟨bs, rfl⟩ := exists_map_some fun (hn : none ∈ es) => h (by simp [hn])
    exact ⟨b :: bs, rfl⟩

/-! ## One reply -/

theorem length_le_encode (r : Reply) (m : Bytes) : r.body.length + m.length ≤ (r.encode ++ m).length := by
  simp only [Reply.encode, List.length_append]
  omega

/-- A reply without a body is a line. -/
theorem respParser_line {r : Reply} (hb : r.body = []) (m : Bytes) :
    respParser ⟨r.encode ++ m, none, none⟩ =
      afterHead ⟨r.flag ++ r.head ++ crlf ++ m, none, none⟩ ⟨some r.flag, none, none⟩ (.str r.head)
        ((r.flag ++ r.head ++ crlf).length + 1 : Nat) ((r.flag ++ r.head ++ crlf ++ m).length + 1 : Nat) := by
  obtain ⟨c, hc⟩ := r.flag_eq
  have h := respParser_fresh c r.plain_head m
  rw [← hc] at h
  rw [← h, Reply.encode, hb, List.append_nil]

/-- An array, with what follows it, is open. -/
theorem openArray_encode {es : List (Option Bytes)} {m : Bytes}
    (hlen : ((Reply.array es).encode ++ m).length < addressable) :
    OpenArray es.length none ⟨(Reply.array es).encode ++ m, none, none⟩ (encodeElems es ++ m) := by
  have h1 := length_le_encodeElems es
  have h2 := length_le_encode (.array es) m
  have hn : es.length ≤ addressable := by simp only [Reply.body] at h2; omega
  have h := openArray_fresh hn (encodeElems es ++ m)
  rwa [← List.append_assoc] at h

/-- A bulk reply, with what follows it, is open. -/
theorem openBulk_encode {b : Option Bytes} {m : Bytes} (hlen : ((Reply.bulk b).encode ++ m).length < addressable) :
    bulkNext b ≤ addressable ∧ OpenBulk b ⟨(Reply.bulk b).encode ++ m, none, none⟩ (bulkBody b ++ m) := by
  have h1 : bulkNext b ≤ (bulkBody b).length := by cases b <;> simp [bulkNext, bulkBody, crlf]
  have h2 := length_le_encode (.bulk b) m
  have hb : bulkNext b ≤ addressable := by simp only [Reply.body] at h2; omega
  have h := openBulk_fresh hb (bulkBody b ++ m)
  rw [← List.append_assoc] at h
  exact ⟨hb, h⟩

/-- **A readable reply** is decoded, and cut off the buffer. -/
theorem respParser_readable {r : Reply} {m : Bytes} (hr : r.Readable m.length)
    (hlen : (r.encode ++ m).length < addressable) :
    respParser ⟨r.encode ++ m, none, none⟩ = ⟨⟨m, none, some r.pak⟩, .ok true⟩ := by
  have hrest : ∀ pre : Bytes, subFrom (pre ++ m) (pre.length + 1 : Nat) = m := fun pre => by
    rw [subFrom_at _ _ (by omega)]; simp
  cases r with
  | status t =>
    rw [respParser_line rfl]
    exact afterHead_true_iff.2 ⟨_, _, .status rfl, by rw [hrest]; rfl⟩
  | error t =>
    rw [respParser_line rfl]
    exact afterHead_true_iff.2 ⟨_, _, .error rfl, by rw [hrest]; rfl⟩
  | integer n =>
    have hn : tonumber (dec n) = some (.int n) := tonumber_dec_nil n.2
    rw [respParser_line rfl]
    exact afterHead_true_iff.2 ⟨_, _, .integer rfl, by rw [hrest]; simp only [Head.tonumber, Reply.head, hn]; rfl⟩
  | bulk b => exact hr.elim
  | array es =>
    obtain ⟨hnone, hfull⟩ := hr
    obtain ⟨bs, rfl⟩ := exists_map_some hnone
    have hopen := openArray_encode hlen
    rw [encodeElems_map_some, List.length_map] at hopen hfull
    rcases hopen.call (d := []) (s := m) (by simp) (by simpa using hlen) (by simpa using hfull) with
      ⟨m', hm', -, h⟩ | ⟨done, b, rest, p, -, -, hs, hlt, -⟩
    · rw [h, ← List.append_cancel_left hm']
      rfl
    · -- all of the elements are in the buffer
      have := congrArg List.length hs
      rw [List.append_nil, encodeList_cons, List.length_append, List.length_append] at this
      omega

/-- **A reply that is not readable** is not decoded: no call gives its payload and goes on. -/
theorem respParser_unreadable {r : Reply} {m : Bytes} (hr : ¬r.Readable m.length)
    (hlen : (r.encode ++ m).length < addressable) {pkg' : Data} (hpak : pkg'.pak = some r.pak) :
    respParser ⟨r.encode ++ m, none, none⟩ ≠ ⟨pkg', .ok true⟩ := by
  intro h
  cases r with
  | status t => exact hr trivial
  | error t => exact hr trivial
  | integer n => exact hr trivial
  | bulk b =>
    obtain ⟨hb, hopen⟩ := openBulk_encode hlen
    rw [hopen.call hlen hb] at h
    split at h
    · simp at h
    · cases h
      cases b with
      | none => simp [Reply.pak] at hpak
      | some b =>
        -- the text has the carriage return behind it
        have htake : (bulkBody (some b) ++ m).take (bulkNext (some b)) = b := by simpa [Reply.pak] using hpak
        have := congrArg List.length htake
        simp only [bulkNext, bulkBody, List.length_take, List.length_append, crlf, List.length_cons,
          List.length_nil] at this
        omega
  | array es =>
    have hopen := openArray_encode hlen
    by_cases hnone : none ∈ es
    · -- the given list has no null
      obtain ⟨pre, -, hcall⟩ := hopen
      obtain ⟨n, p, body, -, -, rfl⟩ := multiBulk_true_iff.1 (hcall.symm.trans h)
      have heq : body.map some = es := by simpa [Reply.pak] using hpak
      rw [← heq] at hnone
      simp at hnone
    · have hshort : (encodeElems es ++ m).length < 7 * es.length := by
        rw [List.length_append]
        by_contra hge
        exact hr ⟨hnone, by omega⟩
      have h1 := length_le_encodeElems es
      have h2 := length_le_encode (.array es) m
      rw [hopen.wait hlen (by simp only [Reply.body] at h2; omega) hshort] at h
      simp at h

/-! ## A chunk -/

/-- **The loop on a list of replies** emits their payloads and leaves nothing, if and only if all are readable. -/
theorem parses_replies_iff : ∀ rs : List Reply, (encodeAll rs).length < addressable →
    (Parses respParser ⟨encodeAll rs, none, none⟩ ⟨⟨[], none, none⟩, rs.map Reply.pak, none⟩ ↔ Readable rs)
  | [], _ => by
    simp only [Readable, iff_true]
    exact (parses_stop (respParser_nil none)).2 rfl
  | r :: rs, hlen => by
    have hlen' : (encodeAll rs).length < addressable := by
      rw [encodeAll_cons, List.length_append] at hlen; omega
    have ih := parses_replies_iff rs hlen'
    obtain ⟨pkg', flag, hcall⟩ : ∃ pkg' flag, respParser ⟨r.encode ++ encodeAll rs, none, none⟩ = ⟨pkg', flag⟩ :=
      ⟨_, _, rfl⟩
    by_cases hr : r.Readable (encodeAll rs).length
    · rw [encodeAll_cons, parses_more (respParser_readable hr hlen), Readable, and_iff_right hr, ← ih]
      constructor
      · rintro ⟨r', hr', heq⟩
        obtain rfl : r' = ⟨⟨[], none, none⟩, rs.map Reply.pak, none⟩ := by
          obtain ⟨pkg, paks, err⟩ := r'
          simpa [Received.after, @eq_comm _ _ pkg, @eq_comm _ _ paks, @eq_comm _ _ err] using heq
        exact hr'
      · intro h
        exact ⟨_, h, rfl⟩
    · simp only [Readable, hr, false_and, iff_false, encodeAll_cons]
      intro h
      cases flag with
      | error e =>
        rw [parses_raise hcall] at h
        simp at h
      | ok found =>
        cases found with
        | false =>
          have hpak := respParser_false hcall
          rw [parses_stop hcall, hpak] at h
          simp at h
        | true =>
          obtain ⟨r', -, heq⟩ := (parses_more hcall).1 h
          obtain ⟨-, head, curpos, -, hah⟩ := respParser_true_iff.1 hcall
          obtain ⟨p, q, -, rfl⟩ := afterHead_true_iff.1 hah
          have hq : some q = some r.pak := by
            have := congrArg Received.paks heq
            simp only [Received.after, Option.toList_some, List.map_cons, List.singleton_append,
              List.cons.injEq] at this
            rw [this.1]
          exact respParser_unreadable hr hlen hq hcall

/-- **Replies that arrive together**: a client with nothing buffered emits exactly their payloads and has nothing left,
if and only if all are readable. -/
theorem recv_replies_iff {self : CTcpClient Left Pak} (hp : self.m_PackageParser = some respParser)
    (hd : self.Drained) (rs : List Reply) (hlen : (encodeAll rs).length < addressable) :
    (∃ fuel, self.Recv fuel (encodeAll rs) =
      some ({ self with m_CacheData := some ⟨[], none, none⟩ }, (rs.map Reply.pak).map CTcpClient.onPak, none)) ↔
      Readable rs := by
  rw [← parses_replies_iff rs hlen, ← hd.append (encodeAll rs)]
  exact CTcpClient.Recv_iff hp (encodeAll rs) ⟨⟨[], none, none⟩, rs.map Reply.pak, none⟩

/-- The status `OK`, the integer `1` and the array of `foobar`. -/
def okOneFoobar : List Reply :=
  [.status ⟨[79, 75], by decide⟩, .integer ⟨1, by decide⟩, .array [some [102, 111, 111, 98, 97, 114]]]

/-- They are received as sent. -/
theorem recv_replies_okOneFoobar :
    ∃ fuel, started.Recv fuel (encodeAll okOneFoobar) =
      some ({ started with m_CacheData := some ⟨[], none, none⟩ },
        (okOneFoobar.map Reply.pak).map CTcpClient.onPak, none) :=
  (recv_replies_iff rfl (Or.inl rfl) okOneFoobar (by
      simp [okOneFoobar, Reply.encode, Reply.flag, Reply.head, Reply.body, dec, decNat, decDigits, encodeBulk, bulkSize,
        bulkBody, fPlus, fColon, fStar, fDollar, crlf, addressable])).2
    ⟨trivial, trivial, ⟨by decide, by
      simp [encodeBulk, bulkSize, bulkBody, dec, decNat, decDigits, fDollar, crlf]⟩, trivial⟩

/-- The bulk string `foo` is not: the payload is `foo` and a carriage return. -/
theorem recv_replies_foo :
    ¬∃ fuel, started.Recv fuel (encodeAll [.bulk (some [102, 111, 111])]) =
      some ({ started with m_CacheData := some ⟨[], none, none⟩ },
        (List.map Reply.pak [.bulk (some [102, 111, 111])]).map CTcpClient.onPak, none) := by
  rw [CTcpClient.Recv_iff (show started.m_PackageParser = some respParser from rfl) _ ⟨⟨[], none, none⟩, _, none⟩]
  exact fun h => ((parses_replies_iff _ (by
    simp [Reply.encode, Reply.flag, Reply.head, Reply.body, dec, decNat, decDigits, bulkSize, bulkBody, fDollar, crlf,
      addressable])).1 h).1

end XCore.Redis
