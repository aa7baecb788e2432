import XCore.Redis.Decode

/-!
# Replies cut into chunks

Two ways of cutting a stream of replies give the same payloads and leave the same data behind when every chunk begins
where the parser can go on (`Resumable`): at the start of a reply, or after its head while the parser has nothing else
of it in hand. A cut in a head line is not such a place, since the line is read again with its flag in front, and
neither is a cut after the first element of an array, since the elements are counted from the start again.

- `outcome`: what a stream leaves that arrives in one chunk;
- `Pending`, `Astray`: the data between two chunks, after a good and after a bad cut;
- `parses_pending`: one chunk, from a good cut on;
- `run_pending`, `run_astray`: the chunks after a good and after a bad cut;
- `recv_cuts_iff`: two ways of cutting.
-/

namespace XCore.Redis

open XCore.Lua XCore.Tcp

/-! ## Cuts -/

namespace Reply

/-- The flag and the head line, with its end. -/
def opening (r : Reply) : Bytes := r.flag ++ r.head ++ crlf

/-- The parser waits, with the head of the reply read and `n` bytes after it. -/
def Waits (n : Nat) : Reply → Prop
  | bulk b => n < bulkNext b + 1
  | array [] => False
  | array (e :: es) => n < 7 * (e :: es).length ∨ n < (encodeBulk e).length
  | _ => False

instance (n : Nat) : ∀ r : Reply, Decidable (r.Waits n)
  | .status _ => isFalse id
  | .error _ => isFalse id
  | .integer _ => isFalse id
  | .bulk b => inferInstanceAs (Decidable (n < bulkNext b + 1))
  | .array [] => isFalse id
  | .array (e :: es) => inferInstanceAs (Decidable (n < 7 * (e :: es).length ∨ n < (encodeBulk e).length))

/-- The payload that the parser gives for a reply: the text of a bulk string has the carriage return behind it. -/
def given : Reply → Pak
  | bulk (some b) => ⟨true, .str (b ++ [CR])⟩
  | r => r.pak

/-- `left`, with the head of the reply read. -/
def left : Reply → Left
  | bulk b => bulkLeft b
  | array es => arrayLeft es.length none
  | r => ⟨some r.flag, none, none⟩

/-- A reply with no null in it. -/
def NoNull : Reply → Prop
  | bulk b => b ≠ none
  | array es => none ∉ es
  | _ => True

theorem encode_eq (r : Reply) : r.encode = r.opening ++ r.body := rfl

theorem Waits.anti {r : Reply} {n m : Nat} (hnm : n ≤ m) (h : r.Waits m) : r.Waits n := by
  unfold Waits at h ⊢
  split <;> simp_all <;> omega

end Reply

/-- Nulls are at the end of the stream only: a null bulk string is the last reply, and arrays have no null element. -/
def NullLast : List Reply → Prop
  | [] => True
  | r :: rs => (r.NoNull ∨ (r = .bulk none ∧ rs = [])) ∧ NullLast rs

/-- The parser can go on after the first `n` bytes of the stream. -/
def CutOk : List Reply → Nat → Prop
  | [], _ => True
  | r :: rs, n => n = 0 ∨ r.opening.length ≤ n ∧
      (r.Waits (n - r.opening.length) ∨ r.encode.length ≤ n ∧ CutOk rs (n - r.encode.length))

/-- Every chunk begins where the parser can go on; `n` bytes were received before the first. -/
def Resumable (rs : List Reply) : Nat → List Bytes → Prop
  | _, [] => True
  | n, c :: cs => CutOk rs n ∧ Resumable rs (n + c.length) cs

/-- What a stream of replies leaves that arrives in one chunk. -/
def outcome : List Reply → Received Left Pak
  | [] => ⟨⟨[], none, none⟩, [], none⟩
  | r :: rs =>
    if r.Waits (r.body.length + (encodeAll rs).length) then ⟨⟨r.body ++ encodeAll rs, some r.left, none⟩, [], none⟩
    else (outcome rs).after [r.given]

/-- The data between two chunks, after a cut at which the parser can go on: `d` is still to come of the replies `rs`, of
which `n` bytes were received. -/
inductive Pending : List Reply → Bytes → Data → Nat → Prop
  | idle (rs : List Reply) : Pending rs (encodeAll rs) ⟨[], none, none⟩ 0
  | kept {r : Reply} {rs : List Reply} {left : Left} {m d : Bytes} (hw : r.Waits m.length)
      (hm : m ++ d = r.body ++ encodeAll rs)
      (hl : left = r.left ∨ ∃ es, r = .array es ∧ left = arrayLeft es.length (some []) ∧ 7 * es.length ≤ m.length) :
      Pending (r :: rs) d ⟨m, some left, none⟩ (r.opening.length + m.length)

/-- The data between two chunks, after another cut: a flag without its head, or an array with a part of its elements. -/
inductive Astray : List Reply → Bytes → Data → Prop
  | head {r : Reply} {rs : List Reply} {c : UInt8} {t d : Bytes} (hc : r.flag = [c])
      (ht : idxOf crlf (c :: t) = none)
      (hm : c :: t ++ d = encodeAll (r :: rs)) : Astray (r :: rs) d ⟨c :: t, some ⟨some [c], none, none⟩, none⟩
  | elems {es : List (Option Bytes)} {rs : List Reply} {b : Bytes} {body : List Bytes} {m d : Bytes}
      (hfull : 7 * es.length ≤ (encodeElems es).length + (encodeAll rs).length) :
      Astray (.array es :: rs) d ⟨m, some (arrayLeft es.length (some (b :: body))), none⟩

/-! ## One call -/

/-- What a call does on a reply whose head is read, with `m` of what follows it in the buffer. -/
inductive Called (r : Reply) (data : Data) (m : Bytes) : Prop
  | waits (left : Left) (hw : r.Waits m.length)
      (hl : left = r.left ∨ ∃ es, r = .array es ∧ left = arrayLeft es.length (some []) ∧ 7 * es.length ≤ m.length)
      (hcall : respParser data = ⟨⟨m, some left, none⟩, .ok false⟩)
  | taken (m' : Bytes) (hw : ¬r.Waits m.length) (hm : m = r.body ++ m')
      (hcall : respParser data = ⟨⟨m', none, some r.given⟩, .ok true⟩)
  | parted (es : List (Option Bytes)) (b : Bytes) (body : List Bytes) (p : Bytes) (hr : r = .array es)
      (hw : ¬r.Waits m.length) (hm : m.length < r.body.length) (hfull : 7 * es.length ≤ m.length)
      (hcall : respParser data = ⟨⟨p, some (arrayLeft es.length (some (b :: body))), none⟩, .ok false⟩)

theorem called_bulk {b : Option Bytes} {rs : List Reply} {data : Data} {m d : Bytes} (h : OpenBulk b data m)
    (hnull : b ≠ none ∨ rs = []) (hm : m ++ d = bulkBody b ++ encodeAll rs) (hlen : data.metaStr.length < addressable)
    (hb : bulkNext b ≤ addressable) : Called (.bulk b) data m := by
  have hcall := h.call hlen hb
  by_cases hw : m.length < bulkNext b + 1
  · rw [if_pos hw] at hcall
    exact .waits _ hw (Or.inl rfl) hcall
  · rw [if_neg hw] at hcall
    cases b with
    | none =>
      -- nothing follows a null bulk string
      obtain rfl := hnull.resolve_left (fun h => h rfl)
      have := congrArg List.length hm
      simp only [bulkBody, encodeAll_nil, List.append_nil, List.length_append, List.length_nil] at this
      omega
    | some b =>
      obtain ⟨m', rfl⟩ : bulkBody (some b) <+: m :=
        prefix_of_append (by rw [hm]) (by simp only [bulkBody, bulkNext, List.length_append, crlf] at hw ⊢; simp; omega)
      refine .taken m' hw rfl (hcall.trans ?_)
      have htake : (bulkBody (some b) ++ m').take (bulkNext (some b)) = b ++ [CR] := by
        simp [bulkBody, bulkNext, crlf, List.append_assoc, List.take_append]
      have hdrop : (bulkBody (some b) ++ m').drop (bulkNext (some b) + 1) = m' := by
        rw [show bulkNext (some b) + 1 = b.length + 2 from rfl, bulkBody, List.append_assoc,
          List.drop_length_add_append]
        rfl
      rw [htake, hdrop]
      rfl

theorem waits_cons {e : Option Bytes} {es : List (Option Bytes)} {n : Nat} :
    (Reply.array (e :: es)).Waits n ↔ n < 7 * (e :: es).length ∨ n < (encodeBulk e).length := Iff.rfl

theorem called_array {es : List (Option Bytes)} {rs : List Reply} {body : Option (List Bytes)} {data : Data}
    {m d : Bytes}
    (h : OpenArray es.length body data m) (hbody : body = none ∨ (body = some [] ∧ 7 * es.length ≤ m.length))
    (hnull : none ∉ es) (hm : m ++ d = encodeElems es ++ encodeAll rs)
    (hlen : (data.metaStr ++ d).length < addressable) (hes : es.length ≤ addressable) : Called (.array es) data m := by
  have hlen' : data.metaStr.length < addressable := by
    rw [List.length_append] at hlen; omega
  by_cases hfull : 7 * es.length ≤ m.length
  · obtain ⟨bs, rfl⟩ := exists_map_some hnull
    have hempty : body.getD [] = [] := by rcases hbody with rfl | ⟨rfl, -⟩ <;> rfl
    rw [List.length_map] at h hfull
    rcases h.call hm hlen hfull with ⟨m', rfl, -, hcall⟩ | ⟨done, b, rest, p, rfl, rfl, -, hlt, hcall⟩
    · refine .taken m' ?_ rfl (by rw [hcall, hempty]; rfl)
      cases bs with
      | nil => exact id
      | cons b bs =>
        rw [List.map_cons, waits_cons]
        simp only [encodeList_cons, List.length_append, List.length_cons, List.length_map] at hfull ⊢
        omega
    · rw [hempty, List.nil_append] at hcall
      cases done with
      | nil =>
        -- the first element is not complete
        exact .waits _ (Or.inr hlt) (Or.inr ⟨_, rfl, by simp, by simpa using hfull⟩) hcall
      | cons b' done =>
        refine .parted _ b' done p rfl ?_ ?_ (by simpa using hfull) (by simpa using hcall)
        · rw [List.cons_append, List.map_cons, waits_cons]
          simp only [encodeList_cons, List.length_append, List.length_cons, List.length_map] at hfull ⊢
          omega
        · simp only [Reply.body, encodeElems_map_some, encodeList_append, encodeList_cons, List.length_append]
          omega
  · obtain rfl : body = none := hbody.resolve_right fun hb => hfull hb.2
    refine .waits _ ?_ (Or.inl rfl) (h.wait hlen' hes (by omega))
    cases es with
    | nil => simp at hfull
    | cons e es => exact Or.inl (by omega)

theorem NullLast.array {es : List (Option Bytes)} {rs : List Reply} (h : NullLast (.array es :: rs)) : none ∉ es :=
  h.1.resolve_right fun h => by cases h.1

theorem NullLast.bulk {b : Option Bytes} {rs : List Reply} (h : NullLast (.bulk b :: rs)) : b ≠ none ∨ rs = [] :=
  h.1.imp_right And.right

/-- The length fields of a stream fit in its length. -/
theorem bulkNext_le {b : Option Bytes} {rs : List Reply} (hlen : (encodeAll (.bulk b :: rs)).length < addressable) :
    bulkNext b ≤ addressable := (openBulk_encode hlen).1

theorem length_le {es : List (Option Bytes)} {rs : List Reply}
    (hlen : (encodeAll (.array es :: rs)).length < addressable) : es.length ≤ addressable := by
  have h1 := length_le_encodeElems es
  have h2 := length_le_encode (.array es) (encodeAll rs)
  simp only [Reply.body] at h2
  rw [encodeAll_cons] at hlen
  omega

/-- The head of the reply is in the buffer. -/
theorem called_fresh {r : Reply} {rs : List Reply} {m d : Bytes} (hn : NullLast (r :: rs))
    (hlen : (encodeAll (r :: rs)).length < addressable) (hm : m ++ d = r.body ++ encodeAll rs) :
    Called r ⟨r.opening ++ m, none, none⟩ m := by
  have hall : r.opening ++ m ++ d = encodeAll (r :: rs) := by
    rw [List.append_assoc, hm, encodeAll_cons, Reply.encode_eq, List.append_assoc]
  have hlen' : (r.opening ++ m).length < addressable := by
    rw [← hall, List.length_append] at hlen; omega
  have hline : r.body = [] → r.Readable m.length → ¬r.Waits m.length → r.given = r.pak →
      Called r ⟨r.opening ++ m, none, none⟩ m := by
    intro hb hr hw hg
    have he : r.encode = r.opening := by rw [Reply.encode_eq, hb, List.append_nil]
    refine .taken m hw (by rw [hb]; rfl) ?_
    rw [hg, ← he]
    exact respParser_readable hr (by rwa [he])
  cases r with
  | status t => exact hline rfl trivial id rfl
  | error t => exact hline rfl trivial id rfl
  | integer n => exact hline rfl trivial id rfl
  | bulk b => exact called_bulk (openBulk_fresh (bulkNext_le hlen) m) hn.bulk hm hlen' (bulkNext_le hlen)
  | array es =>
    exact called_array (openArray_fresh (length_le hlen) m) (Or.inl rfl) hn.array hm (by rwa [hall]) (length_le hlen)

/-- The head of the reply was read before. -/
theorem called_kept {r : Reply} {rs : List Reply} {left : Left} {m m₀ d : Bytes} (hn : NullLast (r :: rs))
    (hlen : (encodeAll (r :: rs)).length < addressable) (hw : r.Waits m₀.length) (hm₀ : m₀ <+: m)
    (hl : left = r.left ∨ ∃ es, r = .array es ∧ left = arrayLeft es.length (some []) ∧ 7 * es.length ≤ m₀.length)
    (hm : m ++ d = r.body ++ encodeAll rs) : Called r ⟨m, some left, none⟩ m := by
  have hle := hm₀.length_le
  have hlen' : (m ++ d).length < addressable := by
    rw [encodeAll_cons, Reply.encode_eq, List.append_assoc, ← hm, List.length_append] at hlen
    omega
  by_cases hempty : m = []
  · subst hempty
    obtain rfl := List.prefix_nil.1 hm₀
    exact .waits left hw hl (respParser_nil _)
  · cases r with
    | status t => exact hw.elim
    | error t => exact hw.elim
    | integer n => exact hw.elim
    | bulk b =>
      obtain rfl : left = bulkLeft b := by
        rcases hl with rfl | ⟨es, hes, -⟩
        · rfl
        · cases hes
      exact called_bulk (openBulk_resume b hempty) hn.bulk hm (by rw [List.length_append] at hlen'; simp only; omega)
        (bulkNext_le hlen)
    | array es =>
      rcases hl with rfl | ⟨es', hes, rfl, hfull⟩
      · exact called_array (openArray_resume es.length none hempty) (Or.inl rfl) hn.array hm hlen' (length_le hlen)
      · cases hes
        exact called_array (openArray_resume es.length (some []) hempty) (Or.inr ⟨rfl, by omega⟩) hn.array hm hlen'
          (length_le hlen)

/-! ## One chunk -/

/-- The loop on `data`, of which `n` bytes of the stream have been received: it ends with the payloads that come first
in the outcome, and with data from which the parser can go on exactly if `n` is such a place. -/
def Runs (rs : List Reply) (n : Nat) (data : Data) (d : Bytes) : Prop :=
  ∃ pkg paks rest k, Parses respParser data ⟨pkg, paks, none⟩ ∧ outcome rs = (outcome rest).after paks ∧
    NullLast rest ∧ (encodeAll rest).length < addressable ∧ (∀ j, CutOk rs (n + j) ↔ CutOk rest (k + j)) ∧
    (Pending rest d pkg k ∨ Astray rest d pkg ∧ d ≠ [] ∧ ¬CutOk rs n)

theorem cutOk_cons {r : Reply} {rs : List Reply} {n : Nat} :
    CutOk (r :: rs) n ↔ n = 0 ∨ r.opening.length ≤ n ∧
      (r.Waits (n - r.opening.length) ∨ r.encode.length ≤ n ∧ CutOk rs (n - r.encode.length)) := Iff.rfl

theorem Reply.opening_pos (r : Reply) : 0 < r.opening.length := by
  simp [Reply.opening, crlf]

/-- After the call on the first reply. -/
theorem Called.runs {r : Reply} {rs : List Reply} {data : Data} {m d : Bytes} (h : Called r data m)
    (hpak : data.pak = none) (hn : NullLast (r :: rs)) (hlen : (encodeAll (r :: rs)).length < addressable)
    (hm : m ++ d = r.body ++ encodeAll rs)
    (ih : ∀ m, m ++ d = encodeAll rs → Runs rs m.length ⟨m, none, none⟩ d) :
    Runs (r :: rs) (r.opening.length + m.length) data d := by
  obtain ⟨s, l, k⟩ := data
  obtain rfl : k = none := hpak
  have hpos := r.opening_pos
  cases h with
  | waits left hw hl hcall =>
    exact ⟨_, _, r :: rs, _, (parses_stop (p := ⟨s, l, none⟩) hcall).2 rfl, rfl, hn, hlen, fun j => Iff.rfl,
      Or.inl (.kept hw hm hl)⟩
  | taken m' hw hm' hcall =>
    subst hm'
    have hm' : m' ++ d = encodeAll rs := by
      rw [List.append_assoc] at hm
      exact List.append_cancel_left hm
    obtain ⟨pkg, paks, rest, k, hparse, hout, hrest, hlen', hcut, hend⟩ := ih m' hm'
    have hl := congrArg List.length hm'
    have he : r.encode.length = r.opening.length + r.body.length := by rw [Reply.encode_eq, List.length_append]
    simp only [List.length_append] at hl hw ⊢
    have hcut' : ∀ j, CutOk (r :: rs) (r.opening.length + (r.body.length + m'.length) + j) ↔
        CutOk rs (m'.length + j) := by
      intro j
      have hw' : ¬r.Waits (r.opening.length + (r.body.length + m'.length) + j - r.opening.length) :=
        fun h => hw (h.anti (by omega))
      rw [cutOk_cons, show r.opening.length + (r.body.length + m'.length) + j - r.encode.length =
        m'.length + j by omega]
      constructor
      · rintro (h0 | ⟨-, h | ⟨-, h⟩⟩)
        · omega
        · exact absurd h hw'
        · exact h
      · exact fun h => Or.inr ⟨by omega, Or.inr ⟨by omega, h⟩⟩
    refine ⟨pkg, r.given :: paks, rest, k, (parses_more (p := ⟨s, l, none⟩) hcall).2 ⟨_, hparse, rfl⟩, ?_, hrest, hlen',
      fun j => (hcut' j).trans (hcut j), hend.imp_right fun h => ⟨h.1, h.2.1, fun h0 => h.2.2 ((hcut' 0).1 h0)⟩⟩
    rw [outcome, if_neg fun h => hw (h.anti (by omega)), hout]
    rfl
  | parted es b body p hr hw hm' hfull hcall =>
    subst hr
    have hl := congrArg List.length hm
    have he : (Reply.array es).encode.length = (Reply.array es).opening.length + (Reply.array es).body.length := by
      rw [Reply.encode_eq, List.length_append]
    simp only [List.length_append] at hl
    refine ⟨_, _, .array es :: rs, _, (parses_stop (p := ⟨s, l, none⟩) hcall).2 rfl, rfl, hn, hlen, fun j => Iff.rfl,
      Or.inr ⟨.elems ?_, ?_, ?_⟩⟩
    · simp only [Reply.body] at hl hm'
      omega
    · rintro rfl
      simp only [List.length_nil] at hl
      omega
    · rw [cutOk_cons, Nat.add_sub_cancel_left]
      rintro (h0 | ⟨-, h | ⟨h, -⟩⟩)
      · omega
      · exact hw h
      · omega

theorem Reply.plain_opening (r : Reply) : Plain (r.flag ++ r.head) := by
  refine Plain.append ?_ r.plain_head
  cases r with
  | status t => exact (by decide : Plain fPlus)
  | error t => exact (by decide : Plain fMinus)
  | integer n => exact (by decide : Plain fColon)
  | bulk b => exact (by decide : Plain fDollar)
  | array es => exact (by decide : Plain fStar)

theorem idxOf_cons_none {p : Bytes} {c : UInt8} {s : Bytes} (h : idxOf p (c :: s) = none) : idxOf p s = none := by
  simp only [idxOf] at h
  split at h
  · cases h
  · simpa using h

/-- A head line that is not complete is not all. -/
theorem head_ne_nil {r : Reply} {rs : List Reply} {m d : Bytes} (ht : idxOf crlf m = none)
    (hm : m ++ d = encodeAll (r :: rs)) : d ≠ [] := by
  rintro rfl
  rw [List.append_nil, encodeAll_cons, Reply.encode, List.append_assoc] at hm
  rw [hm, idxOf_line _ r.plain_opening] at ht
  cases ht

/-- A buffer in which replies begin. -/
theorem runs_fresh : ∀ (rs : List Reply) {m d : Bytes}, NullLast rs → (encodeAll rs).length < addressable →
    m ++ d = encodeAll rs → Runs rs m.length ⟨m, none, none⟩ d
  | [], m, d, hn, hlen, hm => by
    obtain ⟨rfl, rfl⟩ := List.append_eq_nil_iff.1 hm
    exact ⟨_, _, [], 0, (parses_stop (p := ⟨[], none, none⟩) (respParser_nil none)).2 rfl, rfl, hn, hlen,
      fun j => Iff.rfl, Or.inl (.idle [])⟩
  | r :: rs, m, d, hn, hlen, hm => by
    have hlen' : (encodeAll rs).length < addressable := by
      rw [encodeAll_cons, List.length_append] at hlen; omega
    have hm' : m ++ d = r.flag ++ r.head ++ crlf ++ (r.body ++ encodeAll rs) := by
      rw [hm, encodeAll_cons, Reply.encode, List.append_assoc]
    rcases crlf_cut r.plain_opening hm' with hno | ⟨m', rfl, hm₁⟩
    · cases m with
      | nil =>
        -- nothing has come of the reply
        obtain rfl : d = encodeAll (r :: rs) := hm
        exact ⟨_, _, r :: rs, 0, (parses_stop (p := ⟨[], none, none⟩) (respParser_nil none)).2 rfl, rfl, hn, hlen,
          fun j => Iff.rfl, Or.inl (.idle _)⟩
      | cons c t =>
        -- a part of the head line
        obtain ⟨c', hc'⟩ := r.flag_eq
        obtain rfl : c = c' := by
          rw [hc'] at hm'
          simpa using congrArg List.head? hm'
        refine ⟨_, _, r :: rs, _, (parses_stop (p := ⟨c :: t, none, none⟩) (respParser_open c (idxOf_cons_none hno))).2
          rfl, rfl, hn, hlen, fun j => Iff.rfl, Or.inr ⟨.head hc' hno hm, head_ne_nil hno hm, ?_⟩⟩
        rw [cutOk_cons]
        rintro (h0 | ⟨hle, -⟩)
        · simp at h0
        · obtain ⟨m', hm₁⟩ : r.flag ++ r.head ++ crlf <+: c :: t :=
            prefix_of_append hm' hle
          rw [← hm₁, idxOf_line m' r.plain_opening] at hno
          cases hno
    · have hc := called_fresh hn hlen hm₁
      have hl : (r.flag ++ r.head ++ crlf ++ m').length = r.opening.length + m'.length := List.length_append
      rw [hl]
      exact hc.runs rfl hn hlen hm₁ fun m hm => runs_fresh rs hn.2 hlen' hm

/-- **One chunk**, from a good cut on. -/
theorem parses_pending {rs : List Reply} {pkg : Data} {c d : Bytes} {n : Nat} (h : Pending rs (c ++ d) pkg n)
    (hn : NullLast rs) (hlen : (encodeAll rs).length < addressable) :
    Runs rs (n + c.length) { pkg with metaStr := pkg.metaStr ++ c } d := by
  generalize hd : c ++ d = e at h
  cases h with
  | idle => simpa using runs_fresh rs hn hlen hd
  | @kept r rs left m _ hw hm hl =>
    rw [← hd, ← List.append_assoc] at hm
    have hlen' : (encodeAll rs).length < addressable := by
      rw [encodeAll_cons, List.length_append] at hlen; omega
    have hc := called_kept hn hlen hw (List.prefix_append m c) hl hm
    rw [Nat.add_assoc, ← List.length_append]
    exact hc.runs rfl hn hlen hm fun m hm => runs_fresh rs hn.2 hlen' hm

/-! ## Runs -/

theorem Reply.encode_ne_nil (r : Reply) : r.encode ≠ [] := by
  obtain ⟨c, hc⟩ := r.flag_eq
  simp [Reply.encode, hc]

/-- After the last chunk, the data is that of the outcome. -/
theorem Pending.outcome_eq {rs : List Reply} {pkg : Data} {n : Nat} (h : Pending rs [] pkg n) :
    outcome rs = ⟨pkg, [], none⟩ := by
  generalize hd : ([] : Bytes) = d at h
  cases h with
  | idle =>
    cases rs with
    | nil => rfl
    | cons r rs => exact absurd (List.append_eq_nil_iff.1 hd.symm).1 r.encode_ne_nil
  | @kept r rs left m _ hw hm hl =>
    subst hd
    rw [List.append_nil] at hm
    subst hm
    rw [List.length_append] at hw
    rcases hl with rfl | ⟨es, rfl, rfl, hfull⟩
    · rw [outcome, if_pos hw]
    · -- an array of which no element is read has its first element to come
      cases es with
      | nil => exact hw.elim
      | cons e es =>
        simp only [waits_cons, Reply.body, encodeElems_cons, List.length_append] at hw hfull
        omega

theorem Pending.cutOk {rs : List Reply} {d : Bytes} {pkg : Data} {n : Nat} (h : Pending rs d pkg n) : CutOk rs n := by
  cases h with
  | idle => cases rs with
    | nil => trivial
    | cons r rs => exact Or.inl rfl
  | kept hw hm hl =>
    rw [cutOk_cons, Nat.add_sub_cancel_left]
    exact Or.inr ⟨by omega, Or.inl hw⟩

/-- Cuts of a stream and of what is left of it. -/
theorem Resumable.shift {rs rest : List Reply} {n k : Nat} (h : ∀ j, CutOk rs (n + j) ↔ CutOk rest (k + j)) :
    ∀ {cs : List Bytes} {i : Nat}, Resumable rs (n + i) cs ↔ Resumable rest (k + i) cs
  | [], i => Iff.rfl
  | c :: cs, i => by
    simp only [Resumable, h i, Nat.add_assoc]
    rw [Resumable.shift h]

/-- **The chunks after a good cut**, all of them begun at good cuts: they give the rest of the outcome. -/
theorem run_pending : ∀ (cs : List Bytes) {s : CTcpClient Left Pak} {rs : List Reply} {n : Nat},
    s.m_PackageParser = some respParser → Pending rs cs.flatten s.buffered n → NullLast rs →
    (encodeAll rs).length < addressable → Resumable rs n cs →
    ∃ fuel self', s.RecvChunks fuel cs = some (self', (outcome rs).paks.map CTcpClient.onPak, []) ∧
      self'.buffered = (outcome rs).pkg
  | [], self, rs, n, hp, h, hn, hlen, _ => ⟨0, self, by rw [h.outcome_eq]; rfl, by rw [h.outcome_eq]⟩
  | c :: cs, self, rs, n, hp, h, hn, hlen, hr => by
    obtain ⟨pkg, paks, rest, k, hparse, hout, hrest, hlen', hcut, hend⟩ := parses_pending h hn hlen
    rw [← self.append_eq] at hparse
    obtain ⟨f₁, h₁⟩ := (CTcpClient.Recv_iff hp c _).2 hparse
    rcases hend with hpend | ⟨hastray, hne, hbad⟩
    · have hr' : Resumable rest k cs := (Resumable.shift hcut (i := 0)).1 hr.2
      obtain ⟨f₂, self', h₂, hbuf⟩ :=
        run_pending cs (s := { self with m_CacheData := some pkg }) hp hpend hrest hlen' hr'
      refine ⟨max f₁ f₂, self', ?_, by rw [hbuf, hout]; rfl⟩
      rw [CTcpClient.RecvChunks_of_cons h₁ h₂, hout]
      simp [Received.after]
    · cases cs with
      | nil => exact absurd rfl hne
      | cons c' cs => exact absurd hr.2.1 hbad

/-! ## After a bad cut -/

/-- The head line is read with its flag in front. -/
theorem respParser_reread (r : Reply) (m : Bytes) :
    respParser ⟨r.opening ++ m, some ⟨some r.flag, none, none⟩, none⟩ =
      afterHead ⟨r.opening ++ m, some ⟨some r.flag, none, none⟩, none⟩ ⟨some r.flag, none, none⟩
        (.str (r.flag ++ r.head)) (r.opening.length + 1 : Nat) ((r.opening ++ m).length + 1 : Nat) := by
  have hfind : find (r.opening ++ m) crlf 1 =
      some ((((r.flag ++ r.head).length + 1 : Nat) : Int), (((r.flag ++ r.head).length + 2 : Nat) : Int)) := by
    have h := find_at [] (r.opening ++ m)
    rw [Reply.opening, idxOf_line m r.plain_opening] at h
    simpa [Reply.opening] using h
  have hsub : sub (r.opening ++ m) 1 (r.flag ++ r.head).length = r.flag ++ r.head := by
    rw [show (1 : Int) = (1 : Nat) from rfl, sub_eq _ (by omega), Reply.opening, List.append_assoc (r.flag ++ r.head)]
    simp only [Nat.sub_self, List.drop_zero, Nat.add_sub_cancel, List.take_left]
  have hpos : ¬(((r.opening ++ m).length : Int) ≤ 0) := by
    have := r.opening_pos
    rw [List.length_append]; omega
  simp only [respParser, hpos, ↓reduceIte, Option.getD_some, readFlag, readHead, hfind]
  rw [show (((r.flag ++ r.head).length + 1 : Nat) : Int) - 1 = (r.flag ++ r.head).length by omega, hsub]
  congr 1
  simp [Reply.opening, crlf]; omega

/-- So a line has the flag in its text, or is no number, and the length field of another reply is no number. -/
theorem reread_wrong (r : Reply) (m : Bytes) :
    (∃ pkg' e, respParser ⟨r.opening ++ m, some ⟨some r.flag, none, none⟩, none⟩ = ⟨pkg', .error e⟩) ∨
      ∃ rest q, respParser ⟨r.opening ++ m, some ⟨some r.flag, none, none⟩, none⟩ = ⟨⟨rest, none, some q⟩, .ok true⟩ ∧
        q ≠ r.given ∧ ∀ n, ¬r.Waits n := by
  rw [respParser_reread]
  cases r with
  | status t =>
    refine Or.inr ⟨_, _, rfl, ?_, fun _ => id⟩
    simp [Head.data, Reply.given, Reply.pak, Reply.flag, Reply.head, fPlus]
  | error t =>
    refine Or.inr ⟨_, _, rfl, ?_, fun _ => id⟩
    simp [Head.data, Reply.given, Reply.pak, Reply.flag, Reply.head, fMinus]
  | integer n =>
    have hno : tonumber (fColon ++ dec n) = none :=
      tonumber_none _ (by decide) (by decide) (by decide) (by decide) (by decide)
    refine Or.inr ⟨_, _, rfl, ?_, fun _ => id⟩
    simp [Head.tonumber, Reply.given, Reply.pak, Reply.flag, Reply.head, hno, numData]
  | bulk b =>
    have hno : tonumber (fDollar ++ dec (bulkSize b)) = none :=
      tonumber_none _ (by decide) (by decide) (by decide) (by decide) (by decide)
    simp only [Reply.flag, Reply.head, afterHead_dollar, Head.tonumber, hno]
    exact Or.inl ⟨_, _, rfl⟩
  | array es =>
    have hno : tonumber (fStar ++ dec es.length) = none :=
      tonumber_none _ (by decide) (by decide) (by decide) (by decide) (by decide)
    simp only [Reply.flag, Reply.head, afterHead_star, Head.tonumber, hno]
    exact Or.inl ⟨_, _, rfl⟩

/-- The head line is not complete yet. -/
theorem respParser_open_again (f : Bytes) {m : Bytes} (hm : idxOf crlf m = none) (hne : m ≠ []) :
    respParser ⟨m, some ⟨some f, none, none⟩, none⟩ = ⟨⟨m, some ⟨some f, none, none⟩, none⟩, .ok false⟩ := by
  have hfind : find m crlf 1 = none := by
    have h := find_at [] m
    rw [hm] at h
    exact h
  have hpos : ¬((m.length : Int) ≤ 0) := by
    have := List.length_pos_of_ne_nil hne
    omega
  simp only [respParser, hpos, ↓reduceIte, Option.getD_some, readFlag, readHead, hfind]

/-- A call on an array of which a part of the elements was read: it goes on so, or gives a list that is too long. -/
theorem respParser_parted (n : Nat) (b : Bytes) (body : List Bytes) (m : Bytes) :
    (∃ pkg' e, respParser ⟨m, some (arrayLeft n (some (b :: body))), none⟩ = ⟨pkg', .error e⟩) ∨
    (∃ m' b' body', respParser ⟨m, some (arrayLeft n (some (b :: body))), none⟩ =
      ⟨⟨m', some (arrayLeft n (some (b' :: body'))), none⟩, .ok false⟩) ∨
    ∃ rest l, respParser ⟨m, some (arrayLeft n (some (b :: body))), none⟩ =
      ⟨⟨rest, none, some ⟨true, .list l⟩⟩, .ok true⟩ ∧ n < l.length := by
  by_cases hm : m = []
  · subst hm
    exact Or.inr (Or.inl ⟨_, _, _, respParser_nil _⟩)
  · obtain ⟨pre, -, hcall⟩ := openArray_resume n (some (b :: body)) hm
    obtain ⟨pkg', flag, ho⟩ : ∃ pkg' flag, respParser ⟨m, some (arrayLeft n (some (b :: body))), none⟩ = ⟨pkg', flag⟩ :=
      ⟨_, _, rfl⟩
    rw [ho] at hcall ⊢
    match flag with
    | .error e => exact Or.inl ⟨_, _, rfl⟩
    | .ok false =>
      obtain ⟨hpak, hleft⟩ := multiBulk_false hcall.symm
      obtain ⟨m', left', pak'⟩ := pkg'
      obtain rfl : pak' = none := hpak
      rcases hleft with rfl | ⟨q, body', rfl, k, -, hel⟩
      · exact Or.inr (Or.inl ⟨_, _, _, rfl⟩)
      · have hlen := (length_elements hel).1
        cases body' with
        | nil => simp [arrayLeft] at hlen
        | cons b' body' => exact Or.inr (Or.inl ⟨_, _, _, rfl⟩)
    | .ok true =>
      obtain ⟨k, p, l, hk, ⟨-, q, hel, -⟩, rfl⟩ := multiBulk_true_iff.1 hcall.symm
      cases hk
      have hlen := (length_elements hel).2 rfl
      refine Or.inr (Or.inr ⟨_, _, rfl, ?_⟩)
      simp only [arrayLeft, Option.getD_some, List.length_cons, Number.forCount_int, Int.toNat_natCast] at hlen
      rw [List.length_map]
      omega

theorem outcome_cons {r : Reply} {rs : List Reply} (h : ¬r.Waits (r.body.length + (encodeAll rs).length)) :
    (outcome (r :: rs)).paks = r.given :: (outcome rs).paks := by
  rw [outcome, if_neg h]
  rfl

theorem outcome_array {es : List (Option Bytes)} {rs : List Reply}
    (hfull : 7 * es.length ≤ (encodeElems es).length + (encodeAll rs).length) :
    (outcome (.array es :: rs)).paks = ⟨true, .list es⟩ :: (outcome rs).paks := by
  refine outcome_cons ?_
  cases es with
  | nil => exact id
  | cons e es =>
    simp only [waits_cons, Reply.body, encodeElems_cons, List.length_append] at hfull ⊢
    omega

/-- **One chunk after a bad cut**: without an error, it gives nothing, or something else than what is to come. -/
theorem parses_astray {rs : List Reply} {pkg : Data} {c d : Bytes} {r : Received Left Pak} (h : Astray rs (c ++ d) pkg)
    (hparse : Parses respParser { pkg with metaStr := pkg.metaStr ++ c } r) (herr : r.err = none) :
    (r.paks = [] ∧ Astray rs d r.pkg) ∨ ∃ q qs, r.paks = q :: qs ∧ (outcome rs).paks.head? ≠ some q := by
  generalize hd : c ++ d = e at h
  cases h with
  | @head r₁ rs c₁ t _ hc ht hm =>
    subst hd
    have hm' : c₁ :: (t ++ c) ++ d = r₁.flag ++ r₁.head ++ crlf ++ (r₁.body ++ encodeAll rs) := by
      rw [encodeAll_cons, Reply.encode, List.append_assoc] at hm
      rw [← hm]; simp
    rcases crlf_cut r₁.plain_opening hm' with hno | ⟨m', hsplit, -⟩
    · rw [parses_stop (respParser_open_again [c₁] hno (by simp))] at hparse
      subst hparse
      exact Or.inl ⟨rfl, .head hc hno (by rw [← hm]; simp)⟩
    · have hbuf : c₁ :: t ++ c = r₁.opening ++ m' := hsplit
      simp only [hbuf, ← hc] at hparse
      rcases reread_wrong r₁ m' with ⟨pkg', e, hcall⟩ | ⟨rest, q, hcall, hq, hw⟩
      · rw [parses_raise hcall] at hparse
        subst hparse
        cases herr
      · obtain ⟨r', -, rfl⟩ := (parses_more hcall).1 hparse
        refine Or.inr ⟨q, r'.paks, rfl, ?_⟩
        rw [outcome_cons (hw _)]
        exact fun h => hq (Option.some.inj h).symm
  | @elems es rs b body m _ hfull =>
    rcases respParser_parted es.length b body (m ++ c) with
      ⟨pkg', e, hcall⟩ | ⟨m', b', body', hcall⟩ | ⟨rest, l, hcall, hl⟩
    · rw [parses_raise hcall] at hparse
      subst hparse
      cases herr
    · rw [parses_stop hcall] at hparse
      subst hparse
      exact Or.inl ⟨rfl, .elems hfull⟩
    · obtain ⟨r', -, rfl⟩ := (parses_more hcall).1 hparse
      refine Or.inr ⟨_, r'.paks, rfl, ?_⟩
      rw [outcome_array hfull]
      rintro h
      cases h
      omega

/-- **The chunks after a bad cut** do not give what is to come without an error. -/
theorem run_astray : ∀ (cs : List Bytes) {s self' : CTcpClient Left Pak} {rs : List Reply} {fuel : Nat},
    s.m_PackageParser = some respParser → Astray rs cs.flatten s.buffered →
    s.RecvChunks fuel cs ≠ some (self', (outcome rs).paks.map CTcpClient.onPak, [])
  | [], self, self', rs, fuel, hp, h => by
    intro hrun
    generalize self.buffered = pkg at h
    generalize hd : ([] : List Bytes).flatten = d at h
    cases h with
    | head hc ht hm => exact head_ne_nil ht hm hd.symm
    | elems hfull =>
      rw [outcome_array hfull] at hrun
      simp [CTcpClient.RecvChunks] at hrun
  | c :: cs, self, self', rs, fuel, hp, h => by
    intro hrun
    obtain ⟨self₁, out₁, err₁, r', hr₁, hr', heq⟩ := CTcpClient.RecvChunks_cons.1 hrun
    simp only [Prod.mk.injEq] at heq
    obtain ⟨rfl, hout, herr⟩ := heq
    obtain ⟨herr₁, herr₂⟩ := List.append_eq_nil_iff.1 herr.symm
    simp only [CTcpClient.Recv, hp] at hr₁
    obtain ⟨r, hloop, hr⟩ := Option.map_eq_some_iff.1 hr₁
    simp only [Prod.mk.injEq] at hr
    obtain ⟨rfl, rfl, rfl⟩ := hr
    have hparse := parseLoop_parses hloop
    rw [self.append_eq] at hparse
    rcases parses_astray h hparse (Option.toList_eq_nil_iff.1 herr₁) with ⟨hnil, hnext⟩ | ⟨q, qs, hq, hne⟩
    · obtain ⟨self₂, out₂, errs₂⟩ := r'
      simp only [hnil, List.map_nil, List.nil_append] at hout herr₂
      subst hout herr₂
      exact run_astray cs rfl hnext hr'
    · rw [hq] at hout
      cases hpaks : (outcome rs).paks with
      | nil => simp [hpaks] at hout
      | cons p ps =>
        simp only [hpaks, List.map_cons, List.cons_append, List.cons.injEq] at hout
        cases hout.1
        exact hne (by rw [hpaks]; rfl)

/-- If the chunks after a good cut give the rest of the outcome, all of them are begun at good cuts. -/
theorem resumable_of_run : ∀ (cs : List Bytes) {s self' : CTcpClient Left Pak} {rs : List Reply} {n fuel : Nat},
    s.m_PackageParser = some respParser → Pending rs cs.flatten s.buffered n → NullLast rs →
    (encodeAll rs).length < addressable →
    s.RecvChunks fuel cs = some (self', (outcome rs).paks.map CTcpClient.onPak, []) → Resumable rs n cs
  | [], self, self', rs, n, fuel, hp, h, hn, hlen, hrun => trivial
  | c :: cs, self, self', rs, n, fuel, hp, h, hn, hlen, hrun => by
    refine ⟨h.cutOk, ?_⟩
    obtain ⟨pkg, paks, rest, k, hparse, hout, hrest, hlen', hcut, hend⟩ := parses_pending h hn hlen
    rw [← self.append_eq] at hparse
    obtain ⟨f₁, h₁⟩ := (CTcpClient.Recv_iff hp c _).2 hparse
    obtain ⟨self₁, out₁, err₁, r', hr₁, hr', heq⟩ := CTcpClient.RecvChunks_cons.1 hrun
    have huniq := (CTcpClient.Recv_mono (Nat.le_max_left f₁ fuel) h₁).symm.trans
      (CTcpClient.Recv_mono (Nat.le_max_right f₁ fuel) hr₁)
    cases huniq
    obtain ⟨self₂, out₂, errs₂⟩ := r'
    simp only [Prod.mk.injEq, hout, Received.after, List.map_append, Option.toList_none, List.nil_append] at heq
    obtain ⟨rfl, hout₂, herr⟩ := heq
    obtain rfl := List.append_cancel_left hout₂
    subst herr
    rcases hend with hpend | ⟨hastray, hne, hbad⟩
    · exact (Resumable.shift hcut (i := 0)).2 (resumable_of_run cs (s := { self with m_CacheData := some pkg }) hp hpend
        hrest hlen' hr')
    · exact absurd hr' (run_astray cs (s := { self with m_CacheData := some pkg }) hp hastray)

/-- **Two ways of cutting a stream**: against chunks that begin at good cuts, other chunks give the same payloads, leave
the same data behind and raise no error, if and only if they begin at good cuts as well. -/
theorem recv_cuts_iff {self : CTcpClient Left Pak} (hp : self.m_PackageParser = some respParser)
    (hf : self.m_CacheData = none) {rs : List Reply} (hn : NullLast rs) (hlen : (encodeAll rs).length < addressable)
    {cs₁ cs₂ : List Bytes} (h₁ : cs₁.flatten = encodeAll rs) (h₂ : cs₂.flatten = encodeAll rs)
    (hr₁ : Resumable rs 0 cs₁) :
    (∃ fuel self₁ self₂ out, self.RecvChunks fuel cs₁ = some (self₁, out, []) ∧
      self.RecvChunks fuel cs₂ = some (self₂, out, []) ∧ self₁.buffered = self₂.buffered) ↔ Resumable rs 0 cs₂ := by
  have hbuf : self.buffered = ⟨[], none, none⟩ := by rw [CTcpClient.buffered, hf]; rfl
  have hpend : ∀ {cs : List Bytes}, cs.flatten = encodeAll rs → Pending rs cs.flatten self.buffered 0 := by
    intro cs h
    rw [h, hbuf]
    exact .idle rs
  obtain ⟨f₁, self₁, hrun₁, hout₁⟩ := run_pending cs₁ hp (hpend h₁) hn hlen hr₁
  constructor
  · rintro ⟨fuel, s₁, s₂, out, hs₁, hs₂, -⟩
    cases CTcpClient.RecvChunks_unique hrun₁ hs₁
    exact resumable_of_run cs₂ hp (hpend h₂) hn hlen hs₂
  · intro hr₂
    obtain ⟨f₂, self₂, hrun₂, hout₂⟩ := run_pending cs₂ hp (hpend h₂) hn hlen hr₂
    exact ⟨max f₁ f₂, self₁, self₂, _, CTcpClient.RecvChunks_mono (Nat.le_max_left f₁ f₂) hrun₁,
      CTcpClient.RecvChunks_mono (Nat.le_max_right f₁ f₂) hrun₂, by rw [hout₁, hout₂]⟩

/-- The array of `foobar`, cut after its head. -/
theorem recv_cuts_foobar :
    ∃ fuel self₁ self₂ out,
      started.RecvChunks fuel [encodeAll [.array [some [102, 111, 111, 98, 97, 114]]]] = some (self₁, out, []) ∧
      started.RecvChunks fuel [[42, 49, 13, 10], [36, 54, 13, 10, 102, 111, 111, 98, 97, 114, 13, 10]] =
        some (self₂, out, []) ∧ self₁.buffered = self₂.buffered :=
  have hdec1 : dec 1 = [49] := by simp [dec, decNat, decDigits, digitByte]
  have hdec6 : dec 6 = [54] := by simp [dec, decNat, decDigits, digitByte]
  have henc : encodeAll [.array [some [102, 111, 111, 98, 97, 114]]] =
      [42, 49, 13, 10, 36, 54, 13, 10, 102, 111, 111, 98, 97, 114, 13, 10] := by
    simp [Reply.encode, Reply.flag, Reply.head, Reply.body, encodeBulk, bulkSize, bulkBody, hdec1, hdec6,
      fStar, fDollar, crlf, CR, LF]
  have h₁ : [encodeAll [.array [some [102, 111, 111, 98, 97, 114]]]].flatten =
      encodeAll [.array [some [102, 111, 111, 98, 97, 114]]] := by simp
  have h₂ : [[42, 49, 13, 10], [36, 54, 13, 10, 102, 111, 111, 98, 97, 114, 13, 10]].flatten =
      encodeAll [.array [some [102, 111, 111, 98, 97, 114]]] := by rw [henc]; rfl
  have hn : NullLast [.array [some [102, 111, 111, 98, 97, 114]]] := ⟨Or.inl (by simp [Reply.NoNull]), trivial⟩
  (recv_cuts_iff rfl rfl hn (by rw [henc]; decide) h₁ h₂ ⟨Or.inl rfl, trivial⟩).2
    ⟨Or.inl rfl, Or.inr ⟨by simp [Reply.opening, Reply.flag, Reply.head, hdec1, fStar, crlf],
      Or.inl (Or.inl (by simp [Reply.opening, Reply.flag, Reply.head, hdec1, fStar, crlf]))⟩, trivial⟩

/-- The status `OK`, cut after its flag, is received as `+OK`. -/
theorem recv_cuts_ok :
    ¬∃ fuel self₁ self₂ out,
      started.RecvChunks fuel [encodeAll [.status ⟨[79, 75], by decide⟩]] = some (self₁, out, []) ∧
      started.RecvChunks fuel [[43], [79, 75, 13, 10]] = some (self₂, out, []) ∧ self₁.buffered = self₂.buffered := by
  rintro ⟨fuel, self₁, self₂, out, h₁, h₂, -⟩
  have hrun₁ : (started.RecvChunks 2 [encodeAll [.status ⟨[79, 75], by decide⟩]]).map (·.2.1) =
      some [CTcpClient.onPak ⟨true, .str [79, 75]⟩] := by rfl
  have hrun₂ : (started.RecvChunks 2 [[43], [79, 75, 13, 10]]).map (·.2.1) =
      some [CTcpClient.onPak ⟨true, .str [43, 79, 75]⟩] := by rfl
  obtain ⟨r₁, hr₁, ho₁⟩ := Option.map_eq_some_iff.1 hrun₁
  obtain ⟨r₂, hr₂, ho₂⟩ := Option.map_eq_some_iff.1 hrun₂
  cases CTcpClient.RecvChunks_unique hr₁ h₁
  cases CTcpClient.RecvChunks_unique hr₂ h₂
  rw [ho₁] at ho₂
  simp at ho₂

end XCore.Redis
