import XCore.Lib.Delimit
import XCore.Redis.Client
import XCore.Redis.Resp

/-!
# The texts of commands

A command whose arguments are whole is written as an array of bulk strings (`message_eq_request`), and such a text tells
where it ends, whatever bytes the arguments have: a count and, for each argument, a length are lines of decimal digits.

`Exec` writes an argument with `%s`, which cuts one of less than 100 bytes at a zero, but not its length. An argument
can be told from its text if only its last byte may be such a zero (`Tight`, `tight_iff_unique`). Commands with such
arguments delimit themselves (`delimits_tight`): those with the same text are the same, a text of several is one of a
single sequence, and `m_LockList`, whose keys are texts, never takes one command for another
(`message_uniquely_decodable`).
-/

namespace XCore.Redis

open XCore.Lua XCore.Delimit XCore.CString

theorem decDigits_injective : Function.Injective decDigits := fun a b h => by
  rw [← value_decDigits a, h, value_decDigits]

/-- Decimal numbers are the same only if they are texts of the same digits. -/
theorem decNat_injective : Function.Injective decNat := by
  intro a b h
  refine decDigits_injective ?_
  have hdigit : ∀ {n : Nat}, (decNat n).map digit = (decDigits n).map some := by
    intro n
    unfold decNat
    rw [List.map_map]
    exact List.map_congr_left fun d hd => (digitByte_spec d (decDigits_lt hd)).1
  have hmap : (decDigits a).map some = (decDigits b).map some := by rw [← hdigit, h, hdigit]
  exact List.map_injective_iff.2 (Option.some_injective _) hmap

theorem dec_natCast (n : Nat) : dec n = decNat n := by
  unfold dec
  rw [if_neg (Int.not_lt.2 (Int.natCast_nonneg n)), Int.natAbs_natCast]

/-- A number in a line of its own. -/
theorem delimits_dec : Delimits fun n : Nat => dec n ++ crlf := by
  have hinj : Function.Injective fun n : Nat => dec n := by
    intro a b h
    simp only [dec_natCast] at h
    exact decNat_injective h
  exact delimits_line hinj (fun n hmem => (plain_dec n CR hmem).1 rfl) [LF]

/-! ## Arguments -/

/-- An argument of which `%s` cuts the last byte at most. -/
def Tight (k : Bytes) : Prop := 0 ∈ k.dropLast → 100 ≤ k.length

instance (k : Bytes) : Decidable (Tight k) := inferInstanceAs (Decidable (0 ∈ k.dropLast → 100 ≤ k.length))

/-- An argument that is written as one that meets `P`: the same length, and the same bytes. -/
def WrittenAs (P : Bytes → Prop) (k : Bytes) : Prop := ∃ k₀, P k₀ ∧ k.length = k₀.length ∧ fmtS k = fmtS k₀

theorem tight_of_whole {k : Bytes} (h : Whole k) : Tight k := fun h0 => h (List.dropLast_subset _ h0)

/-- What `%s` writes: the argument, or what it has in front of a zero. -/
theorem fmtS_split (k : Bytes) : fmtS k = k ∨ k.length < 100 ∧ ∃ t, k = fmtS k ++ 0 :: t := by
  by_cases hlen : 100 ≤ k.length
  · exact Or.inl (if_pos hlen)
  · have hcut : fmtS k = k.takeWhile (· ≠ 0) := if_neg hlen
    have hk : k.takeWhile (· ≠ 0) ++ k.dropWhile (· ≠ 0) = k := List.takeWhile_append_dropWhile
    cases hd : k.dropWhile (· ≠ 0) with
    | nil =>
      rw [hd, List.append_nil] at hk
      exact Or.inl (hcut.trans hk)
    | cons b t =>
      -- the byte behind is a zero
      have hb : b = 0 := by
        have := List.head?_dropWhile_not (· ≠ (0 : UInt8)) k
        rw [hd] at this
        simpa using this
      rw [hd, hb, ← hcut] at hk
      exact Or.inr ⟨Nat.lt_of_not_le hlen, t, hk.symm⟩

/-- A text in front of a zero is cut. -/
theorem fmtS_append_zero {c t : Bytes} (hc : 0 ∉ c) (hlen : (c ++ 0 :: t).length < 100) : fmtS (c ++ 0 :: t) = c :=
  (if_neg (Nat.not_le.2 hlen)).trans (cstr_append hc)

theorem zero_not_mem_fmtS {k : Bytes} (hlen : k.length < 100) : 0 ∉ fmtS k := by
  rw [fmtS, if_neg (Nat.not_le.2 hlen)]
  exact zero_not_mem_cstr k

theorem tight_iff {k : Bytes} : Tight k ↔ fmtS k = k ∨ k = fmtS k ++ [0] := by
  rcases fmtS_split k with hk | ⟨hlen, t, hk⟩
  · exact iff_of_true (tight_of_whole (fmtS_eq_self.1 hk)) (Or.inl hk)
  · have hzero := zero_not_mem_fmtS hlen
    have hne : fmtS k ≠ k := fun h => hzero (by rw [h, hk]; simp)
    have htight : Tight k ↔ 0 ∉ k.dropLast := imp_congr_right fun _ => iff_false_intro (Nat.not_le.2 hlen)
    rw [htight, or_iff_right hne]
    generalize fmtS k = c at hk hzero
    subst hk
    cases t with
    | nil => exact iff_of_true (by simpa using hzero) rfl
    | cons b t => exact iff_of_false (by simp) (by simp)

/-- **An argument is told from its text**, among those of its length, exactly if it is tight. -/
theorem tight_iff_unique {k : Bytes} : Tight k ↔ ∀ k', k'.length = k.length → fmtS k' = fmtS k → k' = k := by
  constructor
  · intro hk k' hlen htext
    have hlen' := hlen
    rcases tight_iff.1 hk with hk | hk <;> rcases fmtS_split k' with hk' | ⟨-, t, hk'⟩
    · rw [← hk', htext, hk]
    · -- the text of the other one is shorter
      rw [hk', htext, hk, List.length_append, List.length_cons] at hlen'
      omega
    · rw [hk, ← htext, hk', List.length_append, List.length_singleton] at hlen'
      omega
    · rw [hk', hk, htext, List.length_append, List.length_append, List.length_cons, List.length_singleton] at hlen'
      obtain rfl : t = [] := List.eq_nil_of_length_eq_zero (by omega)
      rw [hk', htext, ← hk]
  · intro hunique
    by_contra hk
    rw [tight_iff, not_or] at hk
    obtain ⟨hlen, t, ht⟩ := (fmtS_split k).resolve_left hk.1
    have hzero := zero_not_mem_fmtS hlen
    cases t with
    | nil => exact hk.2 ht
    | cons b t =>
      -- another byte behind the zero
      have hother : (fmtS k ++ 0 :: (b + 1) :: t).length = k.length := by
        conv_rhs => rw [ht]
        simp
      have heq := hunique (fmtS k ++ 0 :: (b + 1) :: t) hother (fmtS_append_zero hzero (hother ▸ hlen))
      obtain ⟨c, hc⟩ : ∃ c, c = fmtS k := ⟨_, rfl⟩
      rw [← hc] at ht heq
      rw [ht] at heq
      simp at heq

/-! ## Commands -/

theorem delimits_tight_bulk : Delimits fun k : {k : Bytes // Tight k} => bulkText k := by
  rintro ⟨k, hk⟩ ⟨k', hk'⟩ u v h
  simp only [bulkText, List.append_assoc] at h
  have h := List.append_cancel_left h
  simp only [← List.append_assoc (dec _) crlf] at h
  obtain ⟨hlen, h⟩ := delimits_dec h
  rw [Subtype.mk.injEq]
  -- a text that is cut ends one byte earlier, where the other one has no line break
  have hmixed : ∀ {k k' u v : Bytes}, k.length = k'.length → fmtS k = k → k' = fmtS k' ++ [0] →
      fmtS k ++ (crlf ++ u) ≠ fmtS k' ++ (crlf ++ v) := by
    intro k k' u v hlen hk hk' h
    rw [hk', List.length_append, List.length_singleton] at hlen
    have hat := congrArg (fun l => l[k.length]?) h
    rw [hk] at hat
    simp [crlf, CR, LF, hlen] at hat
  rcases tight_iff.1 hk with hk | hk <;> rcases tight_iff.1 hk' with hk' | hk'
  · rw [hk, hk'] at h
    obtain ⟨hkk, h⟩ := List.append_inj h hlen
    exact ⟨hkk, List.append_cancel_left h⟩
  · exact absurd h (hmixed hlen hk hk')
  · exact absurd h.symm (hmixed hlen.symm hk' hk)
  · have hcut : (fmtS k).length = (fmtS k').length := by
      have hlen := hlen
      rw [hk, hk', List.length_append, List.length_append] at hlen
      exact Nat.add_right_cancel hlen
    obtain ⟨hkk, h⟩ := List.append_inj h hcut
    exact ⟨by rw [hk, hk', hkk], List.append_cancel_left h⟩

/-- A command with tight arguments. -/
theorem delimits_tight : Delimits fun cmds : List {k : Bytes // Tight k} => message (cmds.map Subtype.val) := by
  have h := (delimits_dec.const_append fStar).counted delimits_tight_bulk
  simpa only [message, List.length_map, List.flatMap_map, List.append_assoc] using h

theorem message_ne_nil (cmds : List Bytes) : message cmds ≠ [] := by simp [message, fStar]

/-- What Redis takes for a command: an array of bulk strings. -/
def request (cmds : List Bytes) : Bytes := (Reply.array (cmds.map some)).encode

/-- A command as Redis takes it tells where it ends, whatever bytes its arguments have. -/
theorem delimits_request : Delimits request := by
  have hbulk : Delimits fun key : Bytes => encodeBulk (some key) := by
    have h := ((delimits_dec.const_append fDollar).sized).append_const crlf
    simpa only [encodeBulk, bulkSize, bulkBody, List.append_assoc] using h
  have h := (delimits_dec.const_append fStar).counted hbulk
  unfold request
  simpa only [Reply.encode, Reply.flag, Reply.head, Reply.body, encodeElems, List.length_map, List.flatMap_map,
    List.append_assoc] using h

theorem message_eq_request {cmds : List Bytes} (h : ∀ k ∈ cmds, Whole k) : message cmds = request cmds := by
  have hbulk : ∀ k ∈ cmds, bulkText k = encodeBulk (some k) := fun k hk => by
    simp only [bulkText, fmtS_eq_self.2 (h k hk), encodeBulk, bulkSize, bulkBody, List.append_assoc]
  simp only [message, request, Reply.encode, Reply.flag, Reply.head, Reply.body, encodeElems, List.length_map,
    List.flatMap_map]
  rw [List.flatMap_congr hbulk]

/-- The arguments of a command meet `P`. -/
def Args (P : Bytes → Prop) (cmds : List Bytes) : Prop := ∀ k ∈ cmds, P k

instance (P : Bytes → Prop) [DecidablePred P] (cmds : List Bytes) : Decidable (Args P cmds) :=
  inferInstanceAs (Decidable (∀ k ∈ cmds, P k))

/-- Commands with tight arguments and equal texts are equal. -/
theorem message_injective {a b : List Bytes} (ha : Args Tight a) (hb : Args Tight b) (h : message a = message b) :
    a = b := by
  lift a to List {k : Bytes // Tight k} using ha
  lift b to List {k : Bytes // Tight k} using hb
  rw [delimits_tight.injective h]

/-- `Exec` changes no lock but that of the text of its command. -/
theorem Exec_lookup_ne {F : Type} (now : Int) (func : Option (Func F)) (ignore : Bool) (self : CRedis F)
    {a b : List Bytes} (hne : message a ≠ message b) :
    (self.Exec now a func ignore).state.m_LockList.lookup (message b) = self.m_LockList.lookup (message b) := by
  unfold CRedis.Exec
  dsimp only
  split
  · rfl
  · unfold CRedis.Send
    split
    · split
      · rfl
      · split
        · rfl
        · exact AList.lookup_insert_ne hne.symm
    · exact AList.lookup_insert_ne hne.symm

/-- **Unique decoding** of commands whose arguments meet `P`: those with equal texts are equal, no text is a proper
prefix of another, texts one after another come from one sequence of commands, and `Exec` leaves the locks of all other
commands as they are. -/
structure Decodable (P : Bytes → Prop) : Prop where
  injective : ∀ a b, Args P a → Args P b → (message a = message b ↔ a = b)
  no_prefix : ∀ a b, Args P a → Args P b → message a <+: message b → message a = message b
  sequence : ∀ as bs : List (List Bytes), (∀ a ∈ as, Args P a) → (∀ b ∈ bs, Args P b) →
    as.flatMap message = bs.flatMap message → as = bs
  locks : ∀ (F : Type) (now : Int) (func : Option (Func F)) (ignore : Bool) (self : CRedis F) (a b : List Bytes),
    Args P a → Args P b → a ≠ b →
      (self.Exec now a func ignore).state.m_LockList.lookup (message b) = self.m_LockList.lookup (message b)

theorem decodable_of_tight {P : Bytes → Prop} (h : ∀ k, P k → Tight k) : Decodable P where
  injective := fun a b ha hb =>
    ⟨message_injective (fun k hk => h k (ha k hk)) fun k hk => h k (hb k hk), fun h => by rw [h]⟩
  no_prefix := fun a b ha hb hab => by
    lift a to List {k : Bytes // Tight k} using fun k hk => h k (ha k hk)
    lift b to List {k : Bytes // Tight k} using fun k hk => h k (hb k hk)
    rw [delimits_tight.eq_of_prefix hab]
  sequence := fun as bs ha hb hab => by
    have hlift : ∀ {l : List (List Bytes)}, (∀ a ∈ l, Args P a) →
        ∃ l' : List (List {k : Bytes // Tight k}), l'.map (List.map Subtype.val) = l := by
      intro l hl
      exact ⟨l.attach.map fun a => a.1.attach.map fun k => ⟨k.1, h _ (hl a.1 a.2 k.1 k.2)⟩, by
        simp [List.map_map, Function.comp_def]⟩
    obtain ⟨as, rfl⟩ := hlift ha
    obtain ⟨bs, rfl⟩ := hlift hb
    rw [List.flatMap_map, List.flatMap_map] at hab
    rw [delimits_tight.flatMap_injective (fun a => message_ne_nil _) hab]
  locks := fun F now func ignore self a b ha hb hab =>
    Exec_lookup_ne now func ignore self fun heq => hab <|
      message_injective (fun k hk => h k (ha k hk)) (fun k hk => h k (hb k hk)) heq

/-- **The texts of commands** are uniquely decodable, for the arguments that are written as those that meet `P`, exactly
if the arguments that meet `P` are tight. -/
theorem message_uniquely_decodable (P : Bytes → Prop) : Decodable (WrittenAs P) ↔ ∀ k, P k → Tight k := by
  constructor
  · intro h k hk
    refine tight_iff_unique.2 fun k' hlen htext => ?_
    have hargs : Args (WrittenAs P) [k] := List.forall_mem_singleton.2 ⟨k, hk, rfl, rfl⟩
    have hargs' : Args (WrittenAs P) [k'] := List.forall_mem_singleton.2 ⟨k, hk, hlen, htext⟩
    have hmsg : message [k'] = message [k] := by
      simp only [message, List.flatMap_cons, List.flatMap_nil, bulkText, hlen, htext, List.length_singleton]
    exact List.singleton_injective ((h.injective _ _ hargs' hargs).1 hmsg)
  · intro h
    refine decodable_of_tight fun k hk => ?_
    obtain ⟨k₀, hk₀, hlen, htext⟩ := hk
    rw [tight_iff_unique.1 (h k₀ hk₀) k hlen htext]
    exact h k₀ hk₀

/-- `GET` of two keys that begin with a zero: one text, and the callback of the second is added to the lock of the
first. -/
theorem message_not_decodable :
    ¬Decodable (fun _ => True) ∧ message [[71, 69, 84], [0, 97]] = message [[71, 69, 84], [0, 98]] ∧
      (((CRedis.Create [49]).Exec 0 [[71, 69, 84], [0, 97]] (some (.user 0)) true).state.Exec 0 [[71, 69, 84], [0, 98]]
        (some (.user 1)) true).out = [.joined (message [[71, 69, 84], [0, 97]]) (.user 1)] := by
  refine ⟨fun h => ?_, by decide, rfl⟩
  have heq := (h.injective [[71, 69, 84], [0, 97]] [[71, 69, 84], [0, 98]] (fun _ _ => trivial) fun _ _ => trivial).1
    (by decide)
  revert heq
  decide

end XCore.Redis
