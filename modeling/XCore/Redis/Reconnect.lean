import XCore.Redis.Decode
import XCore.Redis.Progress

/-!
# Reconnecting

`CTcpClient:ReStart` makes a new socket and leaves `m_CacheData` as it is. So what the old connection left of a reply
that was not complete is read in front of the bytes of the new one.

- `respParser_left`: what a call leaves in `left`;
- `sub_marker`, `find_marker`: a status line of a text that is longer than what was buffered before it;
- `marker_lost`: it is not the first payload if anything was buffered;
- `reconnect_isolated_iff`: the payloads of the new connection are those of a fresh client for every stream, if and only
  if nothing was buffered.
-/

namespace XCore.Redis

open XCore.Lua XCore.Tcp

/-- What happens to the connection of a client. -/
inductive LinkEvent
  | connected
  | error
  | close
  | stop
  | reStart

/-- One event. -/
def linkStep (self : CTcpClient Left Pak) : LinkEvent → CTcpClient Left Pak × List (ClientEffect Pak)
  | .connected => self.Connected
  | .error => self.Error
  | .close => self.Close
  | .stop => self.Stop
  | .reStart => self.ReStart

/-- The client after events. -/
def linkRun (self : CTcpClient Left Pak) (ts : List LinkEvent) : CTcpClient Left Pak :=
  ts.foldl (fun c t => (linkStep c t).1) self

/-- The payloads that a client emits for the chunks of a connection, on all of which its loop ends. -/
def Emits (self : CTcpClient Left Pak) (cs : List Bytes) (paks : List Pak) : Prop :=
  ∃ fuel self' errs, self.RecvChunks fuel cs = some (self', paks.map CTcpClient.onPak, errs)

/-- No bytes and no part of a reply are buffered. -/
def NothingKept (self : CTcpClient Left Pak) : Prop := self.buffered.metaStr = [] ∧ self.buffered.left = none

/-! ## What is buffered -/

/-- The events keep the parser and the buffered data. -/
theorem linkRun_keep (self : CTcpClient Left Pak) (ts : List LinkEvent) :
    (linkRun self ts).m_PackageParser = self.m_PackageParser ∧ (linkRun self ts).m_CacheData = self.m_CacheData := by
  induction ts generalizing self with
  | nil => exact ⟨rfl, rfl⟩
  | cons t ts ih =>
    obtain ⟨h1, h2⟩ := ih (linkStep self t).1
    have ht : (linkStep self t).1.m_PackageParser = self.m_PackageParser ∧
        (linkStep self t).1.m_CacheData = self.m_CacheData := by
      cases t <;> exact ⟨rfl, rfl⟩
    exact ⟨h1.trans ht.1, h2.trans ht.2⟩

/-- A partial reply has its flag. -/
def Flagged (left : Option Left) : Prop := ∀ pak, left = some pak → pak.flag ≠ none

/-- **What a call leaves**: what it found, nothing, or a reply with the flag it has read. -/
theorem respParser_left (data : Data) :
    (respParser data).pkg.left = data.left ∨ (respParser data).pkg.left = none ∨
    ∃ head body, (respParser data).pkg.left =
      some ⟨(readFlag data.metaStr (data.left.getD ⟨none, none, none⟩)).1.flag, head, body⟩ := by
  simp only [respParser]
  split
  · exact Or.inl rfl
  · generalize readFlag data.metaStr (data.left.getD ⟨none, none, none⟩) = r
    obtain ⟨pak, pos⟩ := r
    simp only
    cases readHead data.metaStr pak pos with
    | none => exact Or.inr (Or.inr ⟨_, _, rfl⟩)
    | some r =>
      obtain ⟨head, curpos⟩ := r
      simp only [afterHead, line]
      split
      · exact Or.inr (Or.inl rfl)
      split
      · exact Or.inr (Or.inl rfl)
      split
      · exact Or.inr (Or.inl rfl)
      split
      · rcases bulk_left { data with left := some { pak with head := head.tonumber.map .num } } head.tonumber curpos
          (data.metaStr.length + 1) with hl | hl
        · exact Or.inr (Or.inr ⟨_, _, hl⟩)
        · exact Or.inr (Or.inl hl)
      split
      · rcases multiBulk_left { data with left := some { pak with head := head.tonumber.map .num } }
          { pak with head := head.tonumber.map .num } head.tonumber curpos (data.metaStr.length + 1)
          with hl | hl | ⟨body, hl⟩
        · exact Or.inr (Or.inr ⟨_, _, hl⟩)
        · exact Or.inr (Or.inl hl)
        · exact Or.inr (Or.inr ⟨_, _, hl⟩)
      · exact Or.inr (Or.inr ⟨_, _, rfl⟩)

theorem flagged_respParser (data : Data) (h : Flagged data.left) : Flagged (respParser data).pkg.left := by
  rcases respParser_left data with hl | hl | ⟨head, body, hl⟩
  · rwa [hl]
  · rw [hl]
    exact fun _ h => by cases h
  · rw [hl]
    rintro _ ⟨⟩
    exact readFlag_flag _ _

/-! ## The marker -/

/-- A text of `n` letters `A`. -/
def letters (n : Nat) : Text := ⟨List.replicate n 65, fun c hc => by
  rw [(List.mem_replicate.1 hc).2]
  decide⟩

/-- Their status line. -/
def marker (n : Nat) : Reply := .status (letters n)

theorem encode_marker (n : Nat) : (marker n).encode = 43 :: (List.replicate n 65 ++ crlf) := by
  simp [marker, letters, Reply.encode, Reply.flag, Reply.head, Reply.body, fPlus]

section Marker

variable {m : Bytes} {n : Nat}

/-- The letters are not cut out of the buffer from a position before them. -/
theorem sub_marker (hn : m.length < n) {i : Int} (hi : 1 ≤ i) (him : i ≤ m.length + 1) (j : Int) :
    sub (m ++ (marker n).encode) i j ≠ List.replicate n 65 := by
  obtain ⟨i, rfl⟩ : ∃ k : Nat, i = (k + 1 : Nat) := ⟨i.toNat - 1, by omega⟩
  intro h
  have hlen := congrArg List.length h
  simp only [sub, posrelat_nat, List.length_replicate] at h hlen
  split at h
  · rename_i hle
    rw [if_pos hle, List.length_take] at hlen
    have hat := congrArg (fun l => l[m.length - i]?) h
    -- the flag of the marker is one of the bytes
    rw [List.getElem?_take_of_lt (by omega), List.getElem?_drop,
      show (max 1 ((i + 1 : Nat) : Int) - 1).toNat + (m.length - i) = m.length by omega, encode_marker,
      List.getElem?_append_right (Nat.le_refl _), List.getElem?_replicate_of_lt (by omega)] at hat
    simp at hat
  · rw [if_neg (by assumption)] at hlen
    simp at hlen
    omega

/-- A line ends before the marker or with it. -/
theorem find_marker {pos stop stop' : Int} (hpos : 1 ≤ pos)
    (h : find (m ++ (marker n).encode) crlf pos = some (stop, stop')) :
    1 ≤ stop ∧ (stop + 2 ≤ m.length + 1 ∨ stop + 2 = (m ++ (marker n).encode).length + 1) := by
  obtain ⟨pos, rfl⟩ : ∃ k : Nat, pos = (k + 1 : Nat) := ⟨pos.toNat - 1, by omega⟩
  simp only [find, posrelat_nat, show (max 1 ((pos + 1 : Nat) : Int) - 1).toNat = pos by omega] at h
  split at h
  · cases h
  · obtain ⟨k, hk, heq⟩ := Option.map_eq_some_iff.1 h
    obtain ⟨b, hb, hlen⟩ := idxOf_split hk
    have hstop : stop = (pos + 1 + k : Nat) := by
      simp only [Prod.mk.injEq] at heq
      omega
    rw [List.length_drop] at hlen
    simp only [crlf, List.length_cons, List.length_nil] at hlen
    have hat : ∀ i, i < 2 → (m ++ (marker n).encode)[pos + k + i]? = crlf[i]? := by
      intro i hi
      rw [Nat.add_assoc, ← List.getElem?_drop, hb, List.append_assoc, List.getElem?_append_right (by simp),
        List.length_take, List.length_drop, show k + i - min k ((m ++ (marker n).encode).length - pos) = i by omega,
        List.getElem?_append_left (by simpa [crlf] using hi)]
    have hcr := hat 0 (by omega)
    have hlf := hat 1 (by omega)
    refine ⟨by omega, ?_⟩
    rw [encode_marker] at hcr hlf hlen ⊢
    simp only [crlf, List.length_append, List.length_cons, List.length_replicate, List.length_nil] at hlen ⊢
    by_contra hno
    -- the carriage return is the last byte before the marker, or in it
    by_cases hm : pos + k + 1 = m.length
    · rw [hm, List.getElem?_append_right (Nat.le_refl _)] at hlf
      simp [crlf, LF] at hlf
    · obtain ⟨i, hi⟩ : ∃ i, pos + k + 0 = m.length + i := ⟨pos + k - m.length, by omega⟩
      rw [hi, List.getElem?_append_right (by omega), Nat.add_sub_cancel_left] at hcr
      cases i with
      | zero => simp [crlf, CR] at hcr
      | succ i =>
        rw [List.getElem?_cons_succ, List.getElem?_append_left (by simp; omega),
          List.getElem?_replicate_of_lt (by omega)] at hcr
        simp [crlf, CR] at hcr

end Marker

/-- A client with nothing buffered gives the marker. -/
theorem parses_marker (n : Nat) :
    Parses respParser ⟨(marker n).encode, none, none⟩ ⟨⟨[], none, none⟩, [(marker n).pak], none⟩ := by
  have hcall : respParser ⟨(marker n).encode ++ [], none, none⟩ = ⟨⟨[], none, some (marker n).pak⟩, .ok true⟩ := by
    rw [respParser_line (r := marker n) rfl []]
    refine afterHead_true_iff.2 ⟨_, _, .status rfl, ?_⟩
    rw [subFrom_eq _ (by omega), Nat.add_sub_cancel, List.append_nil, List.drop_length]
    rfl
  rw [List.append_nil] at hcall
  exact (parses_more hcall).2 ⟨_, (parses_stop (respParser_nil none)).2 rfl, rfl⟩

/-- **The marker is lost**: after what was buffered it is not the payload of the call. -/
theorem marker_lost {m : Bytes} {left : Option Left} {n : Nat} {pkg' : Data} (hk : HeadKept left) (hf : Flagged left)
    (hkept : ¬(m = [] ∧ left = none)) (hn : m.length < n)
    (h : respParser ⟨m ++ (marker n).encode, left, none⟩ = ⟨pkg', .ok true⟩) : pkg'.pak ≠ some (marker n).pak := by
  obtain ⟨-, head, curpos, hhead, hah⟩ := respParser_true_iff.1 h
  obtain ⟨p, q, hend, rfl⟩ := afterHead_true_iff.1 hah
  -- the head begins in what was buffered
  have hpos : 1 ≤ (readFlag (m ++ (marker n).encode) (left.getD ⟨none, none, none⟩)).2 ∧
      (readFlag (m ++ (marker n).encode) (left.getD ⟨none, none, none⟩)).2 ≤ m.length + 1 := by
    cases left with
    | none =>
      have hne : m ≠ [] := fun hm => hkept ⟨hm, rfl⟩
      have := List.length_pos_of_ne_nil hne
      simp only [readFlag, Option.getD_none]
      omega
    | some pak =>
      obtain ⟨flag, hflag⟩ := Option.ne_none_iff_exists'.1 (hf pak rfl)
      simp only [readFlag, Option.getD_some, hflag]
      omega
  have hcur : 1 ≤ curpos ∧ (curpos ≤ m.length + 1 ∨ curpos = (m ++ (marker n).encode).length + 1) := by
    simp only [readHead] at hhead
    split at hhead
    · cases hhead
      exact ⟨hpos.1, Or.inl hpos.2⟩
    · split at hhead
      · cases hhead
      · rename_i hfind
        obtain ⟨h1, h2⟩ := find_marker hpos.1 hfind
        cases hhead
        exact ⟨by omega, h2⟩
  intro hsome
  have hq : q = ⟨true, .str (List.replicate n 65)⟩ := Option.some.inj hsome
  clear hsome h hah
  cases hend with
  | status hplus =>
    obtain ⟨hnone, -⟩ := hk.head_none hplus (Or.inl rfl)
    simp only [readHead, hnone] at hhead
    split at hhead
    · cases hhead
    · cases hhead
      exact sub_marker hn hpos.1 hpos.2 _ (by simpa [Head.data] using hq)
  | error => cases hq
  | integer => cases ht : head.tonumber <;> simp [numData, ht] at hq
  | bulk _ _ _ =>
    simp only [Pak.mk.injEq, RData.str.injEq, true_and] at hq
    rcases hcur.2 with hle | heq
    · exact sub_marker hn hcur.1 hle _ hq
    · -- nothing is left for the body
      have hlen := congrArg List.length hq
      rw [heq, sub, if_neg (by simp only [posrelat]; omega)] at hlen
      simp at hlen
      omega
  | array => cases hq

/-! ## Runs -/

/-- Receiving one chunk is running the package loop on it. -/
theorem emits_one {self : CTcpClient Left Pak} (hp : self.m_PackageParser = some respParser) {c : Bytes}
    {paks : List Pak} :
    Emits self [c] paks ↔ ∃ r, Parses respParser (self.append c) r ∧ r.paks = paks := by
  have hinj : Function.Injective (CTcpClient.onPak (P := Pak)) := fun _ _ h => by cases h; rfl
  constructor
  · rintro ⟨fuel, self', errs, h⟩
    obtain ⟨next, out, err, r, hr, hrs, heq⟩ := CTcpClient.RecvChunks_cons.1 h
    cases hrs
    simp only [CTcpClient.Recv, hp] at hr
    obtain ⟨r, hrun, hr⟩ := Option.map_eq_some_iff.1 hr
    cases hr
    simp only [List.append_nil, Prod.mk.injEq] at heq
    exact ⟨r, parseLoop_parses hrun, (hinj.list_map heq.2.1).symm⟩
  · rintro ⟨r, hr, rfl⟩
    obtain ⟨fuel, h⟩ := (CTcpClient.Recv_iff hp c r).2 hr
    have hnil (c : CTcpClient Left Pak) : c.RecvChunks 0 [] = some (c, [], []) := rfl
    exact ⟨_, _, _, by simpa using CTcpClient.RecvChunks_of_cons h (hnil _)⟩

/-- With anything buffered, the marker is not what is emitted. -/
theorem not_emits_marker {self : CTcpClient Left Pak} (hp : self.m_PackageParser = some respParser)
    (hk : HeadKept self.buffered.left) (hf : Flagged self.buffered.left) (hkept : ¬NothingKept self) {n : Nat}
    (hn : self.buffered.metaStr.length < n) : ¬Emits self [(marker n).encode] [(marker n).pak] := by
  rw [emits_one hp, CTcpClient.append_eq]
  rintro ⟨r, hr, hpaks⟩
  obtain ⟨pkg', flag, hcall⟩ : ∃ pkg' flag, respParser
      ⟨self.buffered.metaStr ++ (marker n).encode, self.buffered.left, none⟩ = ⟨pkg', flag⟩ := ⟨_, _, rfl⟩
  match flag with
  | .error e =>
    rw [parses_raise hcall] at hr
    rw [hr] at hpaks
    cases hpaks
  | .ok false =>
    rw [parses_stop hcall, respParser_false hcall] at hr
    rw [hr] at hpaks
    cases hpaks
  | .ok true =>
    obtain ⟨r', -, rfl⟩ := (parses_more hcall).1 hr
    have hlost := marker_lost hk hf hkept hn hcall
    obtain ⟨-, head, curpos, -, hah⟩ := respParser_true_iff.1 hcall
    obtain ⟨p, q, -, rfl⟩ := afterHead_true_iff.1 hah
    simp only [Received.after, Option.toList_some, List.singleton_append, List.cons.injEq] at hpaks
    exact hlost (congrArg some hpaks.1)

/-- Clients that differ at most in the connection and in a payload that has been taken. -/
structure Alike (s o : CTcpClient Left Pak) : Prop where
  parser : s.m_PackageParser = o.m_PackageParser
  metaStr : s.buffered.metaStr = o.buffered.metaStr
  left : s.buffered.left = o.buffered.left

theorem Alike.symm {self other : CTcpClient Left Pak} (h : Alike self other) : Alike other self :=
  ⟨h.parser.symm, h.metaStr.symm, h.left.symm⟩

/-- The loop begins by taking the payload out. -/
theorem Alike.parseLoop {self other : CTcpClient Left Pak} (h : Alike self other) (parser : PackageParser Left Pak)
    (fuel : Nat) (c : Bytes) : parseLoop parser fuel (self.append c) = Tcp.parseLoop parser fuel (other.append c) := by
  cases fuel with
  | zero => rfl
  | succ fuel => simp only [Tcp.parseLoop, Loop.run, parseRound, CTcpClient.append_eq, h.metaStr, h.left]

theorem Alike.recvChunks {fuel : Nat} {cs : List Bytes} {self other self' : CTcpClient Left Pak}
    {out : List (ClientEffect Pak)} {errs : List LuaError} (h : Alike self other)
    (hr : self.RecvChunks fuel cs = some (self', out, errs)) :
    ∃ other', other.RecvChunks fuel cs = some (other', out, errs) := by
  induction cs generalizing self other self' out errs with
  | nil =>
    cases hr
    exact ⟨other, rfl⟩
  | cons c cs ih =>
    obtain ⟨next, out₁, err, ⟨last, outs, errs₁⟩, hrecv, hrs, heq⟩ := CTcpClient.RecvChunks_cons.1 hr
    obtain ⟨next', hrecv', halike⟩ : ∃ next', other.Recv fuel c = some (next', out₁, err) ∧ Alike next next' := by
      have hparser := h.parser
      cases hp : other.m_PackageParser with
      | none =>
        rw [hp] at hparser
        simp only [CTcpClient.Recv, hparser, hp] at hrecv ⊢
        cases hrecv
        exact ⟨other, rfl, h⟩
      | some parser =>
        rw [hp] at hparser
        simp only [CTcpClient.Recv, hparser, hp, h.parseLoop] at hrecv ⊢
        obtain ⟨r', hrun, hr'⟩ := Option.map_eq_some_iff.1 hrecv
        cases hr'
        exact ⟨_, Option.map_eq_some_iff.2 ⟨r', hrun, rfl⟩, rfl, rfl, rfl⟩
    obtain ⟨other', hrs'⟩ := ih halike hrs
    cases heq
    exact ⟨other', CTcpClient.RecvChunks_cons.2 ⟨next', out₁, err, _, hrecv', hrs', rfl⟩⟩

theorem Alike.emits {self other : CTcpClient Left Pak} (h : Alike self other) {cs : List Bytes} {paks : List Pak} :
    Emits self cs paks ↔ Emits other cs paks := by
  constructor
  · rintro ⟨fuel, self', errs, hr⟩
    obtain ⟨other', hr'⟩ := h.recvChunks hr
    exact ⟨fuel, other', errs, hr'⟩
  · rintro ⟨fuel, other', errs, hr⟩
    obtain ⟨self', hr'⟩ := h.symm.recvChunks hr
    exact ⟨fuel, self', errs, hr'⟩

/-- A client that has connected for the first time. -/
def fresh : CTcpClient Left Pak := started.Connected.1

/-- What a run on the first connection leaves buffered has its flag, and a head only if the flag is that of a reply with
a body. -/
theorem fresh_kept {fuel : Nat} {old : List Bytes} {self : CTcpClient Left Pak} {out : List (ClientEffect Pak)}
    {errs : List LuaError} (h : fresh.RecvChunks fuel old = some (self, out, errs)) :
    self.m_PackageParser = some respParser ∧ HeadKept self.buffered.left ∧ Flagged self.buffered.left :=
  have hnone : HeadKept (fresh.buffered).left ∧ Flagged (fresh.buffered).left := ⟨headKept_none, fun _ h => by cases h⟩
  CTcpClient.RecvChunks_left_inv (I := fun left => HeadKept left ∧ Flagged left)
    (fun data h => ⟨headKept_respParser data h.1, flagged_respParser data h.2⟩) rfl hnone h

/-- **Reconnecting**: after a run over chunks and any events of the connection, the payloads emitted for every stream
are those of a client that has received nothing before, if and only if the run has left nothing behind. -/
theorem reconnect_isolated_iff {fuel : Nat} {old : List Bytes} {self : CTcpClient Left Pak}
    {out : List (ClientEffect Pak)}
    {errs : List LuaError} (h : fresh.RecvChunks fuel old = some (self, out, errs)) (ts : List LinkEvent) :
    (∀ new paks, Emits (linkRun self ts) new paks ↔ Emits (linkRun fresh ts) new paks) ↔ NothingKept self := by
  obtain ⟨hp, hk, hf⟩ := fresh_kept h
  obtain ⟨hparser, hcache⟩ := linkRun_keep self ts
  obtain ⟨hparser', hcache'⟩ := linkRun_keep fresh ts
  have hbuf : (linkRun self ts).buffered = self.buffered := by rw [CTcpClient.buffered, hcache]; rfl
  have hbuf' : (linkRun fresh ts).buffered = ⟨[], none, none⟩ := by rw [CTcpClient.buffered, hcache']; rfl
  constructor
  · intro hall
    by_contra hkept
    have hemits : Emits (linkRun fresh ts) [(marker (self.buffered.metaStr.length + 1)).encode]
        [(marker (self.buffered.metaStr.length + 1)).pak] := by
      rw [emits_one hparser', CTcpClient.append_eq, hbuf']
      exact ⟨_, parses_marker _, rfl⟩
    refine not_emits_marker (hparser.trans hp) ?_ ?_ ?_ ?_ ((hall _ _).2 hemits)
    · rwa [hbuf]
    · rwa [hbuf]
    · rwa [NothingKept, hbuf]
    · rw [hbuf]
      exact Nat.lt_succ_self _
  · rintro ⟨hm, hl⟩ new paks
    refine Alike.emits ⟨?_, ?_, ?_⟩
    · rw [hparser, hparser', hp]
      rfl
    · rw [hbuf, hbuf', hm]
    · rw [hbuf, hbuf', hl]

/-- A connection that is lost after the status `OK` leaves nothing behind. -/
theorem reconnect_isolated_ok :
    fresh.RecvChunks 2 [[43, 79, 75, 13, 10]] =
      some ({ fresh with m_CacheData := some ⟨[], none, none⟩ }, [.onRecv (.pak ⟨true, .str [79, 75]⟩)], []) ∧
    ∀ new paks,
    Emits (linkRun { fresh with m_CacheData := some ⟨[], none, none⟩ } [.close, .reStart, .connected]) new paks ↔
      Emits (linkRun fresh [.close, .reStart, .connected]) new paks := by
  have hrun : fresh.RecvChunks 2 [[43, 79, 75, 13, 10]] =
    some ({ fresh with m_CacheData := some ⟨[], none, none⟩ }, [.onRecv (.pak ⟨true, .str [79, 75]⟩)], []) := rfl
  exact ⟨hrun, (reconnect_isolated_iff hrun [.close, .reStart, .connected]).2 ⟨rfl, rfl⟩⟩

/-- A connection that is lost after the first byte of a status: the text of the next status has two bytes more. -/
theorem reconnect_not_isolated :
    ¬∀ (fuel : Nat) (old : List Bytes) (self : CTcpClient Left Pak) (out : List (ClientEffect Pak))
    (errs : List LuaError),
      fresh.RecvChunks fuel old = some (self, out, errs) → ∀ new paks,
        Emits (linkRun self [.close, .reStart, .connected]) new paks ↔
          Emits (linkRun fresh [.close, .reStart, .connected]) new paks := by
  intro h
  have hold := (h 1 [[43]] _ _ _ rfl [[43, 79, 75, 13, 10]] [⟨true, .str [79, 75]⟩]).2 ⟨2, _, _, rfl⟩
  obtain ⟨fuel, self', errs, hrun⟩ := hold
  have hother := CTcpClient.RecvChunks_unique (m := 2) hrun rfl
  cases hother

end XCore.Redis
