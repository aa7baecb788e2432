import XCore.Lib.Loop
import XCore.Lib.Occur
import XCore.Lua.Str

/-!
# `string.split` (`utils.lua`)

The loop of `string.split` goes round once for each separator that it cuts at. What it leaves behind the last one is put
into the result only if it has more than one byte; and with an empty separator a round does not move the position.

- `splitRound`, `Splits`: the loop and its result;
- `find_from`: what a plain `string.find` finds from a position on, in terms of the occurrences;
- `split_pieces`: the result, for a separator that is not empty;
- `split_exact`: when the function terminates and returns the pieces.
-/

namespace XCore.Utils

open XCore.Lua XCore.Loop XCore.Occur

/-! ## The function -/

/-- The local variables of the loop. -/
structure SplitState where
  result : List Bytes
  pos : Int
  step : Nat

/-- The result with what is left behind the position. -/
def splitRest (str : Bytes) (s : SplitState) : List Bytes :=
  if s.pos < str.length then s.result ++ [subFrom str s.pos] else s.result

/-- One round of `while true`. -/
def splitRound (str sep : Bytes) (maxsplit : Nat) (s : SplitState) : Round SplitState (List Bytes) :=
  let step := s.step + 1
  match find str sep s.pos with
  | none => .leave (splitRest str s)
  | some (first, last) =>
    if maxsplit ≠ 0 ∧ maxsplit < step then .leave (splitRest str s)
    else .next ⟨s.result ++ [sub str s.pos (first - 1)], last + 1, step⟩

/-- `string.split(str, sep, maxsplit)` returns `r`. -/
def Splits (str : Bytes) (sep : Option Bytes) (maxsplit : Option Nat) (r : List Bytes) : Prop :=
  if str.length = 0 then r = []
  else Ends (splitRound str (sep.getD [32]) (maxsplit.getD 0)) ⟨[], 1, 0⟩ r

/-! ## `string.find` -/

theorem idxOf_eq_some {p : Bytes} : ∀ {s : Bytes} {k : Nat}, idxOf p s = some k ↔ FirstAt p s k
  | [], k => by
    have hnil : OccursAt p [] k ↔ p = [] ∧ k = 0 := by
      constructor
      · rintro ⟨a, b, h, rfl⟩
        obtain ⟨rfl, hb⟩ := List.append_eq_nil_iff.1 h.symm
        exact ⟨(List.append_eq_nil_iff.1 hb).1, rfl⟩
      · rintro ⟨rfl, rfl⟩
        exact ⟨[], [], rfl, rfl⟩
    unfold idxOf FirstAt
    rw [hnil]
    split
    · next hp => simp only [Option.some.injEq, hp, true_and]; exact ⟨fun h => ⟨h.symm, by simp [← h]⟩,
        fun h => h.1.symm⟩
    · next hp => simp only [reduceCtorEq, hp, false_and]
  | c :: s, k => by
    unfold idxOf
    split
    · next hp =>
      have h0 := occursAt_zero.2 hp
      constructor
      · rintro h
        cases h
        exact ⟨h0, fun m _ => Nat.zero_le m⟩
      · intro h
        rw [Nat.le_zero.1 (h.2 0 h0)]
    · next hp =>
      rw [Option.map_eq_some_iff]
      constructor
      · rintro ⟨j, hj, rfl⟩
        obtain ⟨hocc, hmin⟩ := idxOf_eq_some.1 hj
        refine ⟨occursAt_cons.2 hocc, fun m hm => ?_⟩
        cases m with
        | zero => exact absurd (occursAt_zero.1 hm) hp
        | succ m => exact Nat.succ_le_succ (hmin m (occursAt_cons.1 hm))
      · rintro ⟨hocc, hmin⟩
        cases k with
        | zero => exact absurd (occursAt_zero.1 hocc) hp
        | succ k =>
          refine ⟨k, idxOf_eq_some.2 ⟨occursAt_cons.1 hocc, fun m hm => ?_⟩, rfl⟩
          exact Nat.le_of_succ_le_succ (hmin (m + 1) (occursAt_cons.2 hm))

theorem idxOf_eq_none {p : Bytes} : ∀ {s : Bytes}, idxOf p s = none ↔ ∀ k, ¬OccursAt p s k
  | s => by
    constructor
    · intro h k hk
      classical
      have hex : ∃ k, OccursAt p s k := ⟨k, hk⟩
      have hfirst : FirstAt p s (Nat.find hex) := ⟨Nat.find_spec hex, fun m hm => Nat.find_min' hex hm⟩
      rw [idxOf_eq_some.2 hfirst] at h
      cases h
    · intro h
      cases hi : idxOf p s with
      | none => rfl
      | some k => exact absurd (idxOf_eq_some.1 hi).1 (h k)

/-- The search in what stands behind the first `n` bytes. -/
theorem find_from {str p : Bytes} {n : Nat} (hn : n ≤ str.length) :
    find str p (n + 1 : Nat) =
      (idxOf p (str.drop n)).map fun k : Nat => ((n : Int) + 1 + k, (n : Int) + k + p.length) := by
  have hstart : max (1 : Int) (posrelat (n + 1 : Nat) str.length) = n + 1 := by
    rw [posrelat_nat]
    omega
  simp only [find, hstart]
  rw [if_neg (by omega), show ((n : Int) + 1 - 1).toNat = n by omega]
  congr 1
  funext k
  rw [Prod.mk.injEq]
  exact ⟨rfl, by omega⟩

/-! ## The result -/

/-- The pieces without the last one, if that has less than two bytes. -/
def kept : List Bytes → List Bytes
  | [] => []
  | [p] => if 1 < p.length then [p] else []
  | p :: ps => p :: kept ps

/-- The cuts that are left. -/
def cutsLeft (maxsplit step : Nat) : Option Nat := if maxsplit = 0 then none else some (maxsplit - step)

section Loop

variable {str sep : Bytes} {maxsplit : Nat}

theorem cutsLeft_pred {step : Nat} : (cutsLeft maxsplit step).map Nat.pred = cutsLeft maxsplit (step + 1) := by
  unfold cutsLeft
  split
  · rfl
  · rw [Option.map_some, Nat.pred_eq_sub_one, Nat.sub_sub]

theorem splitRest_eq {result : List Bytes} {n step : Nat} :
    splitRest str ⟨result, (n + 1 : Nat), step⟩ = result ++ kept [str.drop n] := by
  unfold splitRest kept
  dsimp only
  rw [subFrom_eq str (by omega), Nat.add_sub_cancel, List.length_drop]
  by_cases h : n + 1 < str.length
  · rw [if_pos (by omega), if_pos (by omega)]
  · rw [if_neg (by omega), if_neg (by omega), List.append_nil]

/-- **The loop**: from a position on it puts the pieces of the rest into the result. -/
theorem ends_splitRound (str : Bytes) (maxsplit : Nat) (hsep : sep ≠ []) (result : List Bytes) (n step : Nat)
    (hn : n ≤ str.length)
    (hstep : maxsplit = 0 ∨ step ≤ maxsplit) : ∃ ps, Pieces sep (cutsLeft maxsplit step) (str.drop n) ps ∧
      Ends (splitRound str sep maxsplit) ⟨result, (n + 1 : Nat), step⟩ (result ++ kept ps) := by
  -- what is left of the string gets shorter
  induction hd : str.length - n using Nat.strongRecOn generalizing n step result with
  | _ d ih =>
  have hfind := find_from (p := sep) hn
  -- leaving the loop: the rest is the last piece
  have hleave (hround : splitRound str sep maxsplit ⟨result, (n + 1 : Nat), step⟩ = .leave
      (splitRest str ⟨result, (n + 1 : Nat), step⟩)) :
      Ends (splitRound str sep maxsplit) ⟨result, (n + 1 : Nat), step⟩ (result ++ kept [str.drop n]) := by
    rw [splitRest_eq] at hround
    exact (ends_leave hround).2 rfl
  cases hi : idxOf sep (str.drop n) with
  | none =>
    rw [hi, Option.map_none] at hfind
    refine ⟨_, .rest (idxOf_eq_none.1 hi), hleave ?_⟩
    simp only [splitRound, hfind]
  | some k =>
    rw [hi, Option.map_some] at hfind
    by_cases hlast : maxsplit ≠ 0 ∧ maxsplit < step + 1
    · have hfull : cutsLeft maxsplit step = some 0 := by
        rw [cutsLeft, if_neg hlast.1]
        exact congrArg some (by omega)
      refine ⟨_, hfull ▸ .full, hleave ?_⟩
      simp only [splitRound, hfind]
      rw [if_pos hlast]
    · have hfirst := idxOf_eq_some.1 hi
      obtain ⟨a, b, hab, hk⟩ := hfirst.1
      have hlen := congrArg List.length hab
      rw [List.length_drop, List.length_append, List.length_append, hk] at hlen
      have hpos := List.length_pos_of_ne_nil hsep
      have hb : str.drop (n + k + sep.length) = b := by
        rw [Nat.add_assoc, ← List.drop_drop, hab, ← List.append_assoc]
        exact List.drop_left' (by rw [List.length_append, hk])
      have ha : sub str (n + 1 : Nat) (n + k : Nat) = a := by
        rw [sub_eq str (by omega), Nat.add_sub_cancel, hab, show n + k + 1 - (n + 1) = k by omega]
        exact List.take_left' hk
      have hround : splitRound str sep maxsplit ⟨result, (n + 1 : Nat), step⟩ =
          .next ⟨result ++ [a], (n + k + sep.length + 1 : Nat), step + 1⟩ := by
        simp only [splitRound, hfind]
        rw [if_neg hlast, show (n : Int) + 1 + k - 1 = (n + k : Nat) by omega, ha]
        rfl
      obtain ⟨ps, hps, hends⟩ := ih (str.length - (n + k + sep.length)) (by omega) (result ++ [a])
        (n + k + sep.length) (step + 1)
        (by omega) (by omega) rfl
      refine ⟨a :: ps, ?_, (ends_next hround).2 ?_⟩
      · rw [hab]
        refine .cut (fun h => ?_) ?_ ?_
        · rw [cutsLeft] at h
          split at h
          · cases h
          · have := Option.some.inj h
            omega
        · rw [← hab, hk]
          exact hfirst
        · rw [cutsLeft_pred, ← hb]
          exact hps
      · obtain ⟨qs, q, rfl⟩ := hps.eq_concat
        have hkept : kept (a :: (qs ++ [q])) = a :: kept (qs ++ [q]) := by cases qs <;> rfl
        rw [List.append_assoc, List.singleton_append] at hends
        rw [hkept]
        exact hends

end Loop

/-- The cuts that a call may make. -/
def limitOf (maxsplit : Option Nat) : Option Nat := if maxsplit.getD 0 = 0 then none else some (maxsplit.getD 0)

/-- **The result of a call**: the pieces, but for a last one of less than two bytes. -/
theorem split_pieces {str sep : Bytes} (hsep : sep ≠ []) (maxsplit : Option Nat) :
    ∃ ps, Pieces sep (limitOf maxsplit) str ps ∧ ∀ r, Splits str (some sep) maxsplit r ↔ r = kept ps := by
  by_cases hstr : str = []
  · subst hstr
    refine ⟨[[]], .rest fun k hk => ?_, fun r => ?_⟩
    · have hle := hk.le
      have hpos := List.length_pos_of_ne_nil hsep
      rw [List.length_nil] at hle
      omega
    · rw [Splits, if_pos List.length_nil]
      rfl
  · obtain ⟨ps, hps, hends⟩ := ends_splitRound str (maxsplit.getD 0) hsep [] 0 0 (Nat.zero_le _) (.inr (Nat.zero_le _))
    refine ⟨ps, ?_, fun r => ?_⟩
    · rwa [cutsLeft, Nat.sub_zero, List.drop_zero] at hps
    · rw [Splits, if_neg fun h => hstr (List.eq_nil_of_length_eq_zero h)]
      exact ⟨fun h => h.unique hends, fun h => h ▸ hends⟩

/-! ## When it is right -/

/-- The function terminates, and with a separator that is not empty it returns the pieces; a last piece that is empty
may be missing. -/
def SplitRight (str sep : Bytes) (maxsplit : Option Nat) : Prop :=
  (∃ r, Splits str (some sep) maxsplit r) ∧
  (sep ≠ [] → ∀ ps, Pieces sep (limitOf maxsplit) str ps → ∀ r, Splits str (some sep) maxsplit r → r = ps ∨
    r ++ [[]] = ps)

theorem kept_concat : ∀ (ps : List Bytes) (q : Bytes), kept (ps ++ [q]) = ps ++ if 1 < q.length then [q] else []
  | [], _ => rfl
  | [_], _ => rfl
  | p :: p' :: ps, q => congrArg (p :: ·) (kept_concat (p' :: ps) q)

/-- Only an empty piece may be missing. -/
theorem kept_right {ps : List Bytes} {q : Bytes} :
    (kept (ps ++ [q]) = ps ++ [q] ∨ kept (ps ++ [q]) ++ [[]] = ps ++ [q]) ↔ q.length ≠ 1 := by
  rw [kept_concat]
  by_cases h : 1 < q.length
  · rw [if_pos h]
    exact iff_of_true (.inl rfl) (by omega)
  · rw [if_neg h, List.append_nil]
    constructor
    · rintro (heq | heq)
      · cases (List.append_right_eq_self.1 heq.symm)
      · rw [← List.singleton_inj.1 (List.append_cancel_left heq)]
        decide
    · intro hq
      have hnil : q = [] := List.eq_nil_of_length_eq_zero (by omega)
      exact .inr (by rw [hnil])

/-- With an empty separator no round moves the position. -/
theorem splitRound_empty {str : Bytes} {maxsplit : Nat} (result : List Bytes) (step : Nat) :
    splitRound str [] maxsplit ⟨result, 1, step⟩ = if maxsplit ≠ 0 ∧ maxsplit < step + 1
      then .leave (splitRest str ⟨result, 1, step⟩) else .next ⟨result ++ [[]], 1, step + 1⟩ := by
  have hfind := find_from (p := []) (Nat.zero_le str.length)
  have hidx : idxOf [] (str.drop 0) = some 0 :=
    idxOf_eq_some.2 ⟨occursAt_zero.2 List.nil_prefix, fun m _ => Nat.zero_le m⟩
  have hsub : sub str 1 0 = [] := by
    have h := sub_eq str (le_refl 1) 0
    rwa [Nat.zero_add, Nat.sub_self, List.take_zero] at h
  rw [hidx] at hfind
  have hfind' : find str [] 1 = some (1, 0) := hfind
  simp only [splitRound, hfind']
  rw [show (1 : Int) - 1 = 0 from rfl, hsub]
  rfl

/-- With a limit the loop is left after so many rounds. -/
theorem ends_empty {str : Bytes} {maxsplit : Nat} (hmax : 0 < maxsplit) (result : List Bytes) (step : Nat) :
    ∃ r, Ends (splitRound str [] maxsplit) ⟨result, 1, step⟩ r := by
  refine ends_of_measure (fun s => s.pos = 1) (fun s => maxsplit - s.step) (fun s s' hs h => ?_) rfl
  obtain ⟨result, pos, step⟩ := s
  obtain rfl : pos = 1 := hs
  rw [splitRound_empty] at h
  split at h
  · cases h
  · cases h
    exact ⟨rfl, by show maxsplit - (step + 1) < maxsplit - step; omega⟩

/-- Without a limit it is not left. -/
theorem not_ends_empty {str : Bytes} (result : List Bytes) (step : Nat) (r : List Bytes) :
    ¬Ends (splitRound str [] 0) ⟨result, 1, step⟩ r := by
  intro h
  obtain ⟨s, hs, hleave⟩ := h.inv (fun s => s.pos = 1) (fun s s' hs h => by
    obtain ⟨result, pos, step⟩ := s
    obtain rfl : pos = 1 := hs
    rw [splitRound_empty, if_neg fun h => h.1 rfl] at h
    cases h
    rfl) rfl
  obtain ⟨result, pos, step⟩ := s
  obtain rfl : pos = 1 := hs
  rw [splitRound_empty, if_neg fun h => h.1 rfl] at hleave
  cases hleave

/-- **Termination**: an empty separator needs a limit. -/
theorem split_returns (str : Bytes) (maxsplit : Option Nat) :
    (∃ r, Splits str (some []) maxsplit r) ↔ str = [] ∨ 0 < maxsplit.getD 0 := by
  by_cases hstr : str = []
  · subst hstr
    exact iff_of_true ⟨[], by rw [Splits, if_pos List.length_nil]⟩ (.inl rfl)
  · have hlen : ¬str.length = 0 := fun h => hstr (List.eq_nil_of_length_eq_zero h)
    simp only [Splits, if_neg hlen, hstr, false_or]
    constructor
    · rintro ⟨r, hr⟩
      by_contra h0
      rw [Nat.eq_zero_of_not_pos h0] at hr
      exact not_ends_empty _ _ _ hr
    · exact fun hmax => ends_empty hmax _ _

/-- **When `string.split` is right**: exactly if an empty separator comes with a limit, or with an empty string; and if
what stands behind the last separator that is cut at is not a single byte. -/
theorem split_exact (str sep : Bytes) (maxsplit : Option Nat) : SplitRight str sep maxsplit ↔
    (sep = [] → str = [] ∨ 0 < maxsplit.getD 0) ∧
    (sep ≠ [] → ∀ ps q, Pieces sep (limitOf maxsplit) str (ps ++ [q]) → q.length ≠ 1) := by
  unfold SplitRight
  by_cases hsep : sep = []
  · subst hsep
    rw [split_returns]
    simp only [ne_eq, not_true_eq_false, false_implies, and_true, true_implies]
  · obtain ⟨ps, hps, hr⟩ := split_pieces hsep maxsplit
    obtain ⟨qs, q, rfl⟩ := hps.eq_concat
    have hret : ∃ r, Splits str (some sep) maxsplit r := ⟨_, (hr _).2 rfl⟩
    constructor
    · rintro ⟨-, h⟩
      refine ⟨fun h => absurd h hsep, fun _ ps' q' hps' => ?_⟩
      have heq := hps.unique hps'
      have := kept_right.1 (h hsep _ hps _ ((hr _).2 rfl))
      obtain ⟨rfl, hq⟩ := List.append_inj' heq rfl
      rwa [← List.singleton_inj.1 hq]
    · rintro ⟨-, h⟩
      refine ⟨hret, fun _ ps' hps' r hsplit => ?_⟩
      rw [← hps.unique hps', (hr r).1 hsplit]
      exact kept_right.2 (h hsep _ _ hps)

/-- `string.split("a,b", ",")` has lost its last piece. -/
theorem split_last_byte : ¬∀ (str sep : Bytes) (maxsplit : Option Nat), SplitRight str sep maxsplit := by
  intro h
  have hpieces : Pieces ([44] : Bytes) (limitOf none) [97, 44, 98] [[97], [98]] := by
    refine .cut (a := [97]) (b := [98]) (fun h => by cases h) ⟨⟨[97], [98], rfl, rfl⟩, fun m hm => ?_⟩
      (.rest fun k hk => ?_)
    · cases m with
      | zero => exact absurd (occursAt_zero.1 hm) (by decide)
      | succ m => exact Nat.succ_le_succ (Nat.zero_le m)
    · have hle := hk.le
      obtain rfl : k = 0 := Nat.le_zero.1 (Nat.le_of_succ_le_succ hle)
      exact absurd (occursAt_zero.1 hk) (by decide)
  have hr : Splits [97, 44, 98] (some [44]) none [[97]] := ⟨3, rfl⟩
  rcases (h [97, 44, 98] [44] none).2 (by decide) _ hpieces _ hr with heq | heq <;> exact absurd heq (by decide)

end XCore.Utils
