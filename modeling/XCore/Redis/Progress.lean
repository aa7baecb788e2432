import XCore.Redis.Parser

/-!
# Termination of the package loop on replies

The loop of `CTcpClient:Recv` comes to its end when every call of the parser that returns true shortens the buffer. A
reply without a body always does. A bulk reply or an array moves the start of the buffer by the length fields that the
server sends, which may be negative or wrap; `LeadsBack` says that they lead to a position that cuts nothing off.

- `elements_walk`: the loop over the elements follows the length fields (`Walk`);
- `shortens_iff`: one call;
- `recv_terminates_iff`: a run over chunks.
-/

namespace XCore.Redis

open XCore.Lua XCore.Tcp

/-! ## Where the length fields lead -/

/-- The rest from position `p` on is the whole of `s`. -/
def Stays (s : Bytes) (p : Int) : Prop := p = 0 ∨ p = 1 ∨ p ≤ -s.length

/-- An element of an array stands at `p`: a line, whose length field leads to `q`, which is in the buffer. -/
def ElementAt (s : Bytes) (maxpos : Int) (p q : Number) : Prop :=
  ∃ i i' stop stop' size, p.toInteger = some i ∧ (p.add (.int 1)).toInteger = some i' ∧
    find s crlf i = some (stop, stop') ∧ tonumber (Lua.sub s i' stop) = some size ∧
    ((Number.int (stop + 2)).add size).add (.int 2) = q ∧ (Number.int maxpos).lt q = false ∧
    (((Number.int (stop + 2)).add size).sub (.int 1)).toInteger ≠ none

/-- Elements stand one after another from `p` to `q`. -/
inductive Walk (s : Bytes) (maxpos : Int) : Nat → Number → Number → Prop
  | nil (p : Number) : Walk s maxpos 0 p p
  | cons {n : Nat} {p q r : Number} (h : ElementAt s maxpos p q) (t : Walk s maxpos n q r) : Walk s maxpos (n + 1) p r

/-- The loop over the elements comes to its end at the end of a walk. -/
theorem elements_walk {s : Bytes} {maxpos : Int} : ∀ {n : Nat} {p r : Number} {b : List Bytes},
    (∃ body, elements s maxpos n p b = ⟨r, body, .ok true⟩) ↔ Walk s maxpos n p r
  | 0, p, r, before => by
    constructor
    · rintro ⟨body, h⟩
      cases h
      exact .nil p
    · intro h
      cases h
      exact ⟨before, rfl⟩
  | n + 1, p, r, before => by
    constructor
    · rintro ⟨body, h⟩
      unfold elements at h
      split at h
      · rename_i i i' hi hi'
        split at h
        · cases h
        · rename_i stop stop' hf
          split at h
          · cases h
          · rename_i size hsize
            dsimp only at h
            split at h
            · cases h
            · rename_i hlt
              split at h
              · cases h
              · rename_i e he
                refine .cons ⟨i, i', stop, stop', size, hi, hi', hf, hsize, rfl, by simpa using hlt, ?_⟩
                  (elements_walk.1 ⟨body, h⟩)
                intro hno
                simp [subNum, hno] at he
      · cases h
    · rintro (_ | ⟨⟨i, i', stop, stop', size, hi, hi', hf, hsize, rfl, hlt, hstop⟩, ht⟩)
      obtain ⟨j, hj⟩ := Option.ne_none_iff_exists'.1 hstop
      have := elements_walk (b := before ++ [sub s (stop + 2) j]).2 ht
      simpa only [elements, hi, hi', hf, hsize, hlt, subNum, Number.toInteger_int, hj, Bool.false_eq_true,
        ↓reduceIte] using this

/-- The length fields of the reply that ends in the buffer lead back: the rest is the whole buffer. -/
def LeadsBack (data : Data) : Prop :=
  let maxpos : Int := data.metaStr.length + 1
  let r := readFlag data.metaStr (data.left.getD ⟨none, none, none⟩)
  data.metaStr ≠ [] ∧ ∃ head curpos n p, readHead data.metaStr r.1 r.2 = some (head, curpos) ∧ head.tonumber = some n ∧
    Stays data.metaStr p ∧
    ((r.1.flag = some fDollar ∧ ∃ stop, BulkEnd n curpos maxpos stop p) ∨
      (r.1.flag = some fStar ∧ (Number.int maxpos).lt ((Number.int curpos).add (n.mul (.int 7))) = false ∧
        ∃ q, Walk data.metaStr maxpos n.forCount (.int curpos) q ∧ q.toInteger = some p))

/-! ## `left` between the calls -/

/-- A head that is kept is the head of a bulk reply or an array, or of a reply with an unknown flag. -/
def HeadKept (left : Option Left) : Prop :=
  ∀ pak, left = some pak → pak.head ≠ none → pak.flag ≠ none ∧ pak.flag ≠ some fPlus ∧ pak.flag ≠ some fMinus ∧
    pak.flag ≠ some fColon

theorem headKept_none : HeadKept none := fun _ h => by cases h

theorem bulk_left (data : Data) (head : Option Number) (curpos maxpos : Int) :
    (bulk data head curpos maxpos).pkg.left = data.left ∨ (bulk data head curpos maxpos).pkg.left = none := by
  cases head with
  | none => exact Or.inl rfl
  | some n =>
    simp only [bulk]
    split
    · exact Or.inl rfl
    · split
      · exact Or.inl rfl
      · split <;> exact Or.inr rfl

theorem multiBulk_left (data : Data) (pak : Left) (head : Option Number) (curpos maxpos : Int) :
    (multiBulk data pak head curpos maxpos).pkg.left = data.left ∨
      (multiBulk data pak head curpos maxpos).pkg.left = none ∨
      ∃ body, (multiBulk data pak head curpos maxpos).pkg.left = some { pak with body := some body } := by
  cases head with
  | none => exact Or.inl rfl
  | some n =>
    simp only [multiBulk]
    split
    · exact Or.inl rfl
    · split
      · exact Or.inr (Or.inr ⟨_, rfl⟩)
      · split <;> exact Or.inr (Or.inr ⟨_, rfl⟩)
      · split <;> exact Or.inr (Or.inl rfl)

theorem readFlag_flag (s : Bytes) (pak : Left) : (readFlag s pak).1.flag ≠ none := by
  unfold readFlag
  cases h : pak.flag <;> simp [h]

/-- Every call keeps `HeadKept`. -/
theorem headKept_respParser (data : Data) (h : HeadKept data.left) : HeadKept (respParser data).pkg.left := by
  have hflag := readFlag_flag data.metaStr (data.left.getD ⟨none, none, none⟩)
  simp only [respParser]
  split
  · exact h
  · generalize readFlag data.metaStr (data.left.getD ⟨none, none, none⟩) = r at hflag
    obtain ⟨pak, pos⟩ := r
    simp only at hflag ⊢
    cases hr : readHead data.metaStr pak pos with
    | none =>
      rintro _ ⟨⟩ hhead
      unfold readHead at hr
      split at hr
      · cases hr
      · rename_i hno; exact absurd hno hhead
    | some r =>
      simp only [afterHead, line]
      split
      · exact headKept_none
      split
      · exact headKept_none
      split
      · exact headKept_none
      rename_i h1 h2 h3
      -- with another flag, the head that is kept is that of this call
      have hpak : ∀ (n : Option Number) (body : Option (List Bytes)), HeadKept (some ⟨pak.flag, n.map .num, body⟩) := by
        rintro n body _ ⟨⟩ -
        exact ⟨hflag, h1, h2, h3⟩
      split
      · rcases bulk_left { data with left := some { pak with head := r.1.tonumber.map .num } } r.1.tonumber r.2
          (data.metaStr.length + 1) with hl | hl
        · rw [hl]; exact hpak _ _
        · rw [hl]; exact headKept_none
      split
      · rcases multiBulk_left { data with left := some { pak with head := r.1.tonumber.map .num } }
          { pak with head := r.1.tonumber.map .num } r.1.tonumber r.2 (data.metaStr.length + 1)
          with hl | hl | ⟨body, hl⟩
        · rw [hl]; exact hpak _ _
        · rw [hl]; exact headKept_none
        · rw [hl]; exact hpak _ _
      · exact hpak _ _

/-- A reply without a body has no head before the call that reads it. -/
theorem HeadKept.head_none {left : Option Left} (h : HeadKept left) {s : Bytes} {f : Bytes}
    (hf : (readFlag s (left.getD ⟨none, none, none⟩)).1.flag = some f) (hline : f = fPlus ∨ f = fMinus ∨ f = fColon) :
    (readFlag s (left.getD ⟨none, none, none⟩)).1.head = none ∧ 0 ≤ (readFlag s (left.getD ⟨none, none, none⟩)).2 := by
  cases left with
  | none => exact ⟨rfl, by simp [readFlag]⟩
  | some pak =>
    obtain ⟨flag, head, body⟩ := pak
    have hhead : head = none := by
      by_contra hne
      obtain ⟨h0, h1, h2, h3⟩ := h _ rfl hne
      cases flag with
      | none => exact h0 rfl
      | some g =>
        obtain rfl : g = f := by simpa [readFlag] using hf
        rcases hline with rfl | rfl | rfl
        · exact h1 rfl
        · exact h2 rfl
        · exact h3 rfl
    subst hhead
    cases flag <;> exact ⟨rfl, by simp [readFlag]⟩

/-! ## One call -/

/-- A match does not begin before the position the search starts at. -/
theorem le_find {s p : Bytes} {init i j : Int} (h : find s p init = some (i, j)) (hi : 0 ≤ init) : max 1 init ≤ i := by
  simp only [find, posrelat, hi, ↓reduceIte] at h
  split at h
  · cases h
  · obtain ⟨k, -, heq⟩ := Option.map_eq_some_iff.1 h
    simp only [Prod.mk.injEq] at heq
    omega

/-- A head that is read by this call ends after the terminator of its line. -/
theorem readHead_pos {s : Bytes} {pak : Left} {pos curpos : Int} {head : Head} (hnone : pak.head = none)
    (hpos : 0 ≤ pos) (h : readHead s pak pos = some (head, curpos)) : 3 ≤ curpos := by
  simp only [readHead, hnone] at h
  split at h
  · cases h
  · rename_i hf
    have := le_find hf hpos
    cases h
    omega

/-- **One call** that returns true shortens the buffer, unless the length fields lead back. -/
theorem shortens_iff {data : Data} (hk : HeadKept data.left) : Shortens respParser data ↔ ¬LeadsBack data := by
  constructor
  · rintro h ⟨hne, head, curpos, n, p, hhead, hn, hstay, hend⟩
    have hcall : ∃ q, respParser data = ⟨⟨subFrom data.metaStr p, none, some q⟩, .ok true⟩ := by
      rcases hend with ⟨hf, stop, hb⟩ | ⟨hf, hlt, q, hw, hq⟩
      · exact ⟨_, respParser_true_iff.2 ⟨hne, head, curpos, hhead, afterHead_true_iff.2 ⟨p, _, .bulk hf hn hb, rfl⟩⟩⟩
      · obtain ⟨body, hbody⟩ := elements_walk.2 hw
        exact ⟨_, respParser_true_iff.2 ⟨hne, head, curpos, hhead, afterHead_true_iff.2
          ⟨p, _, .array hf hn ⟨hlt, q, hbody, hq⟩, rfl⟩⟩⟩
    obtain ⟨q, hcall⟩ := hcall
    exact (length_subFrom_lt data.metaStr hne p).1 (h _ hcall) hstay
  · intro h out hcall
    obtain ⟨hne, head, curpos, hhead, hah⟩ := respParser_true_iff.1 hcall
    obtain ⟨p, q, hend, rfl⟩ := afterHead_true_iff.1 hah
    refine (length_subFrom_lt data.metaStr hne p).2 fun hstay => ?_
    -- a line begins with a head that this call has read
    have hline : ∀ f, (readFlag data.metaStr (data.left.getD ⟨none, none, none⟩)).1.flag = some f →
        (f = fPlus ∨ f = fMinus ∨ f = fColon) → ¬Stays data.metaStr curpos := by
      intro f hf hcase hstay
      obtain ⟨hnone, hpos⟩ := hk.head_none hf hcase
      have hcur := readHead_pos hnone hpos hhead
      rcases hstay with h0 | h1 | hneg
      · omega
      · omega
      · omega
    cases hend with
    | status hf => exact hline _ hf (by simp) hstay
    | error hf => exact hline _ hf (by simp) hstay
    | integer hf => exact hline _ hf (by simp) hstay
    | bulk hf hn hb => exact h ⟨hne, head, curpos, _, p, hhead, hn, hstay, Or.inl ⟨hf, _, hb⟩⟩
    | array hf hn ha =>
      obtain ⟨hlt, q, hel, hq⟩ := ha
      exact h ⟨hne, head, curpos, _, p, hhead, hn, hstay, Or.inr ⟨hf, hlt, q, elements_walk.1 ⟨_, hel⟩, hq⟩⟩

/-- **Termination**: for every run of a client over chunks, all of its loops come to their end and all calls that return
true shorten the buffer, if and only if in no call the length fields lead back. -/
theorem recv_terminates_iff {self : CTcpClient Left Pak} (hp : self.m_PackageParser = some respParser)
    (hd : self.Drained) (cs : List Bytes) :
    ((∃ fuel r, self.RecvChunks fuel cs = some r) ∧
      ∀ data, CTcpClient.Calls respParser self cs data → Shortens respParser data) ↔
      ∀ data, CTcpClient.Calls respParser self cs data → ¬LeadsBack data := by
  have hleft : ∀ c, HeadKept (self.append c).left := fun c => by rw [hd.append]; exact headKept_none
  have hcall : ∀ data, CTcpClient.Calls respParser self cs data → (Shortens respParser data ↔ ¬LeadsBack data) :=
    fun data h => shortens_iff (h.left_inv headKept_respParser hp hleft)
  constructor
  · rintro ⟨-, h⟩ data hc
    exact (hcall data hc).1 (h data hc)
  · intro h
    have hs : ∀ data, CTcpClient.Calls respParser self cs data → Shortens respParser data :=
      fun data hc => (hcall data hc).2 (h data hc)
    exact ⟨CTcpClient.RecvChunks_of_shortens cs hp hs, hs⟩

/-- A call on a reply that is a status leads nowhere back. -/
theorem not_leadsBack_status {data : Data}
    (h : (readFlag data.metaStr (data.left.getD ⟨none, none, none⟩)).1.flag = some fPlus) :
    ¬LeadsBack data := by
  rintro ⟨-, head, curpos, n, p, -, -, -, hend⟩
  rw [h] at hend
  rcases hend with ⟨hflag, -⟩ | ⟨hflag, -⟩
  · exact absurd hflag (by decide)
  · exact absurd hflag (by decide)

/-- The status `OK`, cut after its flag: the condition holds, and the loops come to their end. -/
theorem recv_terminates_ok :
    (∀ data, CTcpClient.Calls respParser started [[43], [79, 75, 13, 10]] data → ¬LeadsBack data) ∧
    (∃ fuel r, started.RecvChunks fuel [[43], [79, 75, 13, 10]] = some r) ∧
      ∀ data, CTcpClient.Calls respParser started [[43], [79, 75, 13, 10]] data → Shortens respParser data := by
  have hflag : respParser ⟨[43], none, none⟩ = ⟨⟨[43], some ⟨some fPlus, none, none⟩, none⟩, .ok false⟩ := by rfl
  have hreply : respParser ⟨[43, 79, 75, 13, 10], some ⟨some fPlus, none, none⟩, none⟩ =
      ⟨⟨[], none, some ⟨true, .str [43, 79, 75]⟩⟩, .ok true⟩ := by rfl
  have hempty : respParser ⟨[], none, none⟩ = ⟨⟨[], none, none⟩, .ok false⟩ := by rfl
  have hfirst : ∀ data, Visits respParser ⟨[43], none, none⟩ data → data = ⟨[43], none, none⟩ := by
    intro data h
    induction h with
    | start => rfl
    | more _ hcall ih =>
      rw [ih, hflag] at hcall
      cases hcall
  have hsecond : ∀ data, Visits respParser ⟨[43, 79, 75, 13, 10], some ⟨some fPlus, none, none⟩, none⟩ data →
      data = ⟨[43, 79, 75, 13, 10], some ⟨some fPlus, none, none⟩, none⟩ ∨ data = ⟨[], none, none⟩ := by
    intro data h
    induction h with
    | start => exact .inl rfl
    | more _ hcall ih =>
      rcases ih with ih | ih
      · rw [ih, hreply] at hcall
        cases hcall
        exact .inr rfl
      · rw [ih, hempty] at hcall
        cases hcall
  have hcond : ∀ data, CTcpClient.Calls respParser started [[43], [79, 75, 13, 10]] data → ¬LeadsBack data := by
    intro data h
    cases h with
    | here h =>
      rw [hfirst data h]
      exact not_leadsBack_status rfl
    | later hr h =>
      have hone : started.Recv 1 [43] =
          some ({ started with m_CacheData := some ⟨[43], some ⟨some fPlus, none, none⟩, none⟩ }, [], none) := by rfl
      have hsame := (CTcpClient.Recv_mono (Nat.le_max_left _ _) hr).symm.trans
        (CTcpClient.Recv_mono (Nat.le_max_right _ _) hone)
      cases hsame
      cases h with
      | here h =>
        rcases hsecond data h with rfl | rfl
        · exact not_leadsBack_status rfl
        · exact fun h => h.1 rfl
      | later _ h => cases h
  exact ⟨hcond, (recv_terminates_iff rfl (Or.inl rfl) _).2 hcond⟩
/-- The bulk string of length `-7` leads back to the start of the buffer, and the loop never ends. -/
theorem recv_forever : ¬∃ fuel r, started.RecvChunks fuel [[36, 45, 55, 13, 10]] = some r := by
  rintro ⟨fuel, r, h⟩
  obtain ⟨self', out, err, r', hr, -, -⟩ := CTcpClient.RecvChunks_cons.1 h
  have hcall : respParser ⟨[36, 45, 55, 13, 10], none, none⟩ =
      ⟨⟨[36, 45, 55, 13, 10], none, some ⟨true, .str []⟩⟩, .ok true⟩ := by rfl
  obtain ⟨r, hrun, -⟩ := Option.map_eq_some_iff.1 hr
  exact not_parses_of_fixed (p := ⟨[36, 45, 55, 13, 10], none, none⟩) hcall rfl (parseLoop_parses hrun)

end XCore.Redis
