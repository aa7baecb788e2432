import XCore.Net.Base

/-!
# The position of the readers

Whatever the packet holds, a reader leaves its bytes alone and never moves the position back, and it moves it forward
when it returns a value.

- `Forward`: the position has moved on in the same packet; it composes;
- one lemma for each reader, up to `readX_forward`;
- `readCalls`: calls one after another, as the result of one may decide on the next;
- `readCalls_advances`: no call comes back to an earlier position, and the calls that return a value are no more than
  the bytes.
-/

namespace XCore.Net

open XCore.Lua

/-- The position is further on by at least `n`, in the same packet. -/
def Forward (n : Nat) (data data' : ReadData) : Prop := data'.Data = data.Data ∧ data.Pos + n ≤ data'.Pos

/-- What a call of a reader with the result `b` does: a value is read within the packet, and the position moves on. -/
def Moves (b : Option Base) (data data' : ReadData) : Prop :=
  Forward 0 data data' ∧ (b ≠ none → Forward 1 data data' ∧ data.Pos ≤ data.Len)

section Forward

variable {n m : Nat} {data data' data'' : ReadData}

theorem Forward.refl : Forward 0 data data := ⟨rfl, le_rfl⟩

theorem Forward.trans (h : Forward n data data') (h' : Forward m data' data'') : Forward (n + m) data data'' := by
  obtain ⟨he, hp⟩ := h
  obtain ⟨he', hp'⟩ := h'
  exact ⟨he'.trans he, by omega⟩

theorem Forward.mono (hm : m ≤ n) (h : Forward n data data') : Forward m data data' := ⟨h.1, by have := h.2; omega⟩

theorem Forward.len (h : Forward n data data') : data'.Len = data.Len := congrArg List.length h.1

theorem moves_nil (h : Forward n data data') : Moves none data data' :=
  ⟨h.mono (Nat.zero_le n), fun hb => absurd rfl hb⟩

theorem moves_value {b : Option Base} (h : Forward 1 data data') (hp : data.Pos ≤ data.Len) : Moves b data data' :=
  ⟨h.mono (Nat.zero_le 1), fun _ => ⟨h, hp⟩⟩

/-- What is read behind the count of an array. -/
theorem Moves.behind {b : Option Base} (h : Forward n data data') (hp : n ≠ 0 → data.Pos ≤ data.Len)
    (hm : Moves b data' data'') :
    Moves b data data'' := by
  refine ⟨(h.trans hm.1).mono (Nat.zero_le _), fun hb => ?_⟩
  obtain ⟨hf, hl⟩ := hm.2 hb
  refine ⟨(h.trans hf).mono (by omega), ?_⟩
  by_cases hn : n = 0
  · have := h.len
    have := h.2
    omega
  · exact hp hn

end Forward

/-! ## One reader after another -/

section Readers

variable {data data' : ReadData}

/-- An item is read within the packet. -/
theorem unpackU_ok {n pos v : Nat} {s : Bytes} {len : Int} (h : unpackU n s pos = .ok (v, len)) :
    len = pos + n ∧ 0 < pos ∧ pos + n ≤ s.length + 1 := by
  have hp : posrelat (pos : Int) s.length = pos := by rw [posrelat, if_pos (Int.natCast_nonneg pos)]
  simp only [unpackU, hp] at h
  split at h
  · cases h
  split at h
  · cases h
  · simp only [Except.ok.injEq, Prod.mk.injEq] at h
    omega

theorem unpackAt_forward {n v : Nat} (h : unpackAt n data = .ok (v, data')) :
    data'.Data = data.Data ∧ data'.Pos = data.Pos + n ∧ 0 < data.Pos ∧ data.Pos + n ≤ data.Len + 1 := by
  obtain ⟨⟨w, len⟩, hu, hr⟩ := bind_eq_ok.1 h
  obtain ⟨hlen, hpos, hle⟩ := unpackU_ok hu
  cases hr
  refine ⟨rfl, ?_, hpos, hle⟩
  show len.toNat = data.Pos + n
  omega

/-- The count of an array is read, or nothing is. -/
theorem readCount_forward {isarray : Bool} {c : Option Nat} (h : readCount isarray data = .ok (c, data')) :
    ∃ n, Forward n data data' ∧ (n ≠ 0 → data.Pos ≤ data.Len) ∧ (c = some 1 ∨ n = 1 ∨ c = none) := by
  unfold readCount at h
  split at h
  · split at h
    · cases h; exact ⟨0, .refl, fun h => absurd rfl h, .inr (.inr rfl)⟩
    · obtain ⟨⟨v, d⟩, hu, hr⟩ := bind_eq_ok.1 h
      obtain ⟨he, hp, -, hle⟩ := unpackAt_forward hu
      cases hr
      exact ⟨1, ⟨he, hp.ge⟩, fun _ => by omega, .inr (.inl rfl)⟩
  · cases h; exact ⟨0, .refl, fun h => absurd rfl h, .inl rfl⟩

/-- A loop of readers that move on by one at least. -/
theorem readMany_forward {α : Type} {read : ReadData → Except LuaError (α × ReadData)}
    (hread : ∀ {d d' x}, read d = .ok (x, d') → Forward 1 d d') : ∀ {n : Nat} {data data' : ReadData} {xs : List α},
    readMany read n data = .ok (xs, data') → Forward n data data'
  | 0, _, _, _, h => by cases h; exact .refl
  | n + 1, _, _, _, h => by
    obtain ⟨⟨x, d⟩, hx, h⟩ := bind_eq_ok.1 h
    obtain ⟨⟨xs, d'⟩, hxs, h⟩ := bind_eq_ok.1 h
    cases h
    exact ((hread hx).trans (readMany_forward hread hxs)).mono (by omega)

/-- The last step of `ReadNumberCore` is the same for all sizes. -/
theorem goto_of_number {f : Nat → Number} {num : Except LuaError Nat} {x : Number}
    (h : (num >>= fun ret => Except.ok (f ret, data)) = .ok (x, data')) : data' = data := by
  obtain ⟨ret, -, h⟩ := bind_eq_ok.1 h
  exact (congrArg Prod.snd (Except.ok.inj h)).symm

theorem ReadNumberCore_forward {x : Number} (h : ReadNumberCore data = .ok (x, data')) :
    Forward 1 data data' ∧ data.Pos ≤ data.Len := by
  obtain ⟨⟨flag, d⟩, hu, h⟩ := bind_eq_ok.1 h
  obtain ⟨he, hp, -, hle⟩ := unpackAt_forward hu
  -- whatever is read as the number, the size in the flag is added to the position behind the flag
  have hgoto : data' = d.goto (d.Pos + flag / 2) := by
    dsimp only at h
    split at h
    · exact goto_of_number h
    split at h
    · exact goto_of_number h
    split at h
    · split at h <;> exact goto_of_number h
    · exact goto_of_number h
  subst hgoto
  refine ⟨⟨he, ?_⟩, by omega⟩
  show data.Pos + 1 ≤ d.Pos + flag / 2
  omega

theorem readFmt_forward {fmt : Fmt} {x : Number} (h : readFmt fmt data = .ok (x, data')) :
    Forward 1 data data' ∧ data.Pos ≤ data.Len := by
  obtain ⟨⟨y, len⟩, hu, h⟩ := bind_eq_ok.1 h
  obtain ⟨⟨v, q⟩, hv, hr⟩ := map_eq_ok.1 hu
  obtain ⟨hq, -, hle⟩ := unpackU_ok hv
  have hlen : q = len := congrArg Prod.snd hr
  have hsize : 0 < fmt.size := by cases fmt <;> decide
  have hl : data.Pos + fmt.size ≤ data.Len + 1 := hle
  cases h
  refine ⟨⟨rfl, ?_⟩, by omega⟩
  show data.Pos + 1 ≤ len.toNat
  omega

/-- After a zero the length stands in two bytes, so that the zero in them moves the position on by two. -/
theorem readStr_forward {s : Bytes} (h : readStr data = .ok (s, data')) :
    Forward 1 data data' ∧ data.Pos ≤ data.Len := by
  obtain ⟨⟨size, d⟩, hu, h⟩ := bind_eq_ok.1 h
  obtain ⟨he, hp, -, hle⟩ := unpackAt_forward hu
  refine ⟨?_, by omega⟩
  have hlast (d' : ReadData) (size' : Nat) (he' : d'.Data = data.Data) (hp' : data.Pos + 2 ≤ d'.Pos + size') :
      Forward 1 data (d'.goto (d'.Pos + ((size' : Int) - 1)).toNat) := by
    refine ⟨he', ?_⟩
    show data.Pos + 1 ≤ (d'.Pos + ((size' : Int) - 1)).toNat
    omega
  dsimp only at h
  split at h
  · obtain ⟨⟨size', d'⟩, hu', h⟩ := bind_eq_ok.1 h
    obtain ⟨he', hp', -, -⟩ := unpackAt_forward hu'
    cases h
    exact hlast d' size' (he'.trans he) (by omega)
  · cases h
    exact hlast d size he (by omega)

theorem readStrs_forward : ∀ {n : Nat} {data data' : ReadData} {ss : Option (List Bytes)},
    readStrs n data = .ok (ss, data') → Forward 0 data data' ∧ (ss ≠ none → Forward n data data')
  | 0, _, _, _, h => by cases h; exact ⟨.refl, fun _ => .refl⟩
  | n + 1, data, data', ss, h => by
    unfold readStrs at h
    split at h
    · cases h; exact ⟨.refl, fun h => absurd rfl h⟩
    · obtain ⟨⟨s, d⟩, hs, h⟩ := bind_eq_ok.1 h
      obtain ⟨⟨rest, d'⟩, hrest, h⟩ := bind_eq_ok.1 h
      have hs' := (readStr_forward hs).1
      obtain ⟨h0, hn⟩ := readStrs_forward hrest
      cases h
      refine ⟨(hs'.trans h0).mono (by omega), fun hss => ?_⟩
      have hrest' : rest ≠ none := fun hr => hss (by rw [hr]; rfl)
      exact (hs'.trans (hn hrest')).mono (by omega)

/-- What is done with the count. -/
theorem moves_of_count {isarray : Bool} {b : Option Base}
    {k : Option Nat × ReadData → Except LuaError (Option Base × ReadData)} (hnone : ∀ d, k (none, d) = .ok (none, d))
    (hsome : ∀ {count d d'} {b : Option Base}, k (some count, d) = .ok (b, d') →
      Forward 0 d d' ∧ (count = 1 → b ≠ none → Forward 1 d d' ∧ d.Pos ≤ d.Len))
    (h : (readCount isarray data >>= k) = .ok (b, data')) : Moves b data data' := by
  obtain ⟨⟨c, d⟩, hc, h⟩ := bind_eq_ok.1 h
  obtain ⟨n, hf, hp, hcase⟩ := readCount_forward hc
  cases c with
  | none =>
    rw [hnone] at h
    cases h
    exact moves_nil hf
  | some count =>
    obtain ⟨h0, h1⟩ := hsome h
    rcases hcase with hone | hn | hnil
    · exact Moves.behind hf hp ⟨h0, h1 (Option.some.inj hone)⟩
    · -- the count itself has moved the position
      refine moves_value ((hf.trans h0).mono (by omega)) (hp (by omega))
    · cases hnil

theorem ReadPtoNumber_moves {fmt : Fmt} {size : Nat} {isarray : Bool} {b : Option Base}
    (h : ReadPtoNumber fmt size isarray data = .ok (b, data')) : Moves b data data' := by
  refine moves_of_count (fun _ => rfl) (fun {count d d' b} h => ?_) h
  dsimp only at h
  split at h
  · cases h; exact ⟨.refl, fun _ hb => absurd rfl hb⟩
  split at h
  · obtain ⟨⟨x, d₁⟩, hx, h⟩ := bind_eq_ok.1 h
    cases h
    have hx := readFmt_forward hx
    exact ⟨hx.1.mono (Nat.zero_le 1), fun _ _ => hx⟩
  · next hcount =>
    obtain ⟨⟨xs, d₁⟩, hxs, h⟩ := bind_eq_ok.1 h
    cases h
    exact ⟨(readMany_forward (fun h => (readFmt_forward h).1) hxs).mono (Nat.zero_le _), fun h => absurd h hcount⟩

theorem ReadNumber_moves {isarray : Bool} {b : Option Base} (h : ReadNumber isarray data = .ok (b, data')) :
    Moves b data data' := by
  refine moves_of_count (fun _ => rfl) (fun {count d d' b} h => ?_) h
  dsimp only at h
  split at h
  · cases h; exact ⟨.refl, fun _ hb => absurd rfl hb⟩
  split at h
  · obtain ⟨⟨x, d₁⟩, hx, h⟩ := bind_eq_ok.1 h
    cases h
    have hx := ReadNumberCore_forward hx
    exact ⟨hx.1.mono (Nat.zero_le 1), fun _ _ => hx⟩
  · next hcount =>
    obtain ⟨⟨xs, d₁⟩, hxs, h⟩ := bind_eq_ok.1 h
    cases h
    exact ⟨(readMany_forward (fun h => (ReadNumberCore_forward h).1) hxs).mono (Nat.zero_le _),
      fun h => absurd h hcount⟩

theorem ReadPtoString_moves {isarray : Bool} {b : Option Base} (h : ReadPtoString isarray data = .ok (b, data')) :
    Moves b data data' := by
  refine moves_of_count (fun _ => rfl) (fun {count d d' b} h => ?_) h
  dsimp only at h
  split at h
  · cases h; exact ⟨.refl, fun _ hb => absurd rfl hb⟩
  split at h
  · obtain ⟨⟨s, d₁⟩, hs, h⟩ := bind_eq_ok.1 h
    cases h
    have hs := readStr_forward hs
    exact ⟨hs.1.mono (Nat.zero_le 1), fun _ _ => hs⟩
  · next hcount =>
    obtain ⟨⟨ss, d₁⟩, hss, h⟩ := bind_eq_ok.1 h
    cases h
    exact ⟨(readStrs_forward hss).1, fun h => absurd h hcount⟩

/-- **One call**: every reader moves the position on. -/
theorem readX_moves {prim : Prim} {isarray : Bool} {b : Option Base} (h : readX prim isarray data = .ok (b, data')) :
    Moves b data data' := by
  cases prim with
  | String => exact ReadPtoString_moves h
  | Number => exact ReadNumber_moves h
  | _ => exact ReadPtoNumber_moves h

end Readers

/-! ## Any sequence of calls -/

/-- The calls of readers one after another, if none raises: what each returns, and `net.ReadData` then. -/
def readCalls : List (Prim × Bool) → ReadData → Except LuaError (List (Option Base × ReadData))
  | [], _ => .ok []
  | (prim, isarray) :: calls, data => do
    let (b, data) ← readX prim isarray data
    let rest ← readCalls calls data
    .ok ((b, data) :: rest)

/-- The calls that returned a value. -/
def values (results : List (Option Base × ReadData)) : List (Option Base × ReadData) :=
  results.filter fun r => r.1.isSome

/-- Every call of a run leaves the position at least where each of the states before it had it, and further on if it
returned a value. -/
def Advances (before : List ReadData) : List (Option Base × ReadData) → Prop
  | [] => True
  | (b, data) :: rest => (∀ d ∈ before, d.Pos ≤ data.Pos ∧ (b ≠ none → d.Pos < data.Pos)) ∧
      Advances (data :: before) rest

section Runs

variable {data : ReadData} {results : List (Option Base × ReadData)}

theorem readCalls_step {calls : List (Prim × Bool)} {prim : Prim} {isarray : Bool}
    (h : readCalls ((prim, isarray) :: calls) data = .ok results) :
    ∃ b data' rest, Moves b data data' ∧ readCalls calls data' = .ok rest ∧ results = (b, data') :: rest := by
  obtain ⟨⟨b, d⟩, hx, h⟩ := bind_eq_ok.1 h
  obtain ⟨rest, hrest, h⟩ := bind_eq_ok.1 h
  cases h
  exact ⟨b, d, rest, readX_moves hx, hrest, rfl⟩

theorem readCalls_before : ∀ {calls : List (Prim × Bool)} {data : ReadData} {results : List (Option Base × ReadData)}
    {before : List ReadData}, data ∈ before → (∀ d ∈ before, d.Pos ≤ data.Pos) → readCalls calls data = .ok results →
    Advances before results
  | [], _, _, _, _, _, h => by cases h; trivial
  | _ :: _, data, _, before, hmem, hbefore, h => by
    obtain ⟨b, d', rest, hm, hrest, rfl⟩ := readCalls_step h
    have hle : ∀ d ∈ before, d.Pos ≤ d'.Pos := fun d hd => (hbefore d hd).trans hm.1.2
    refine ⟨fun d hd => ⟨hle d hd, fun hb => (hbefore d hd).trans_lt (hm.2 hb).1.2⟩, ?_⟩
    refine readCalls_before List.mem_cons_self (fun d hd => ?_) hrest
    rcases List.mem_cons.1 hd with rfl | hd
    · exact le_rfl
    · exact hle d hd

/-- Every value takes a byte of the packet. -/
theorem readCalls_values : ∀ {calls : List (Prim × Bool)} {data : ReadData} {results : List (Option Base × ReadData)},
    readCalls calls data = .ok results → (values results).length ≤ data.Len + 1 - data.Pos
  | [], _, _, h => by cases h; exact Nat.zero_le _
  | _ :: _, data, _, h => by
    obtain ⟨b, d', rest, hm, hrest, rfl⟩ := readCalls_step h
    have ih := readCalls_values hrest
    have hlen := hm.1.len
    have hpos := hm.1.2
    cases b with
    | none =>
      have hv : values ((none, d') :: rest) = values rest := rfl
      rw [hv]
      omega
    | some x =>
      have hv : (values ((some x, d') :: rest)).length = (values rest).length + 1 := rfl
      obtain ⟨hf, hl⟩ := hm.2 (Option.some_ne_none x)
      have hf := hf.2
      rw [hv]
      omega

end Runs

/-- **The position only moves forward**: a call that returns leaves the bytes as they are and the position not smaller,
and larger if it returned a value; so that a sequence of calls does not come back to an earlier position, and returns no
more values than there are bytes from the first position on. -/
theorem readCalls_advances (data : ReadData) :
    (∀ prim isarray b data', readX prim isarray data = .ok (b, data') →
      data'.Data = data.Data ∧ data.Pos ≤ data'.Pos ∧ (b ≠ none → data.Pos < data'.Pos)) ∧
    ∀ calls results, readCalls calls data = .ok results →
      Advances [data] results ∧ (values results).length ≤ data.Len + 1 - data.Pos := by
  refine ⟨fun prim isarray b data' h => ?_, fun calls results h => ⟨?_, readCalls_values h⟩⟩
  · have hm := readX_moves h
    exact ⟨hm.1.1, hm.1.2, fun hb => (hm.2 hb).1.2⟩
  · exact readCalls_before List.mem_cons_self (fun d hd => by rw [List.mem_singleton.1 hd]) h

/-- A byte, a string with a zero for its length in the long form, and an array of no numbers. -/
theorem readCalls_advances_zero :
    let data : ReadData := ⟨[7, 0, 0, 0, 0, 9], 1⟩
    ∃ results, readCalls [(.Uint8, false), (.String, false), (.Number, true)] data = .ok results ∧
      results.map (fun r => r.2.Pos) = [2, 4, 5] ∧ Advances [data] results ∧ (values results).length ≤ 6 := by
  refine ⟨_, rfl, rfl, (readCalls_advances ⟨[7, 0, 0, 0, 0, 9], 1⟩).2 [(.Uint8, false), (.String, false),
    (.Number, true)] _ rfl⟩

end XCore.Net
