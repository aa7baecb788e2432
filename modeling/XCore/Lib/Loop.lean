import Mathlib.Tactic.Common

/-!
# Loops that may run for ever

The body of a `while true do … end` is a function from the loop state to a `Round`: go round again with a new state, or
leave with a result. `run` gives it fuel; `Ends body s r` says that the loop started in `s` is left with `r`.

A loop is left at most once (`Ends.unique`); one round is a step of `Ends` (`ends_next`, `ends_leave`); a loop whose
rounds decrease a measure is left (`ends_of_measure`); an invariant of the rounds holds where the loop is left
(`Ends.inv`).
-/

namespace XCore.Loop

variable {σ ρ : Type*}

/-- One round of a loop body. -/
inductive Round (σ ρ : Type*)
  | next (s : σ)
  | leave (r : ρ)

/-- The loop with a number of rounds. -/
def run (body : σ → Round σ ρ) : Nat → σ → Option ρ
  | 0, _ => none
  | n + 1, s => match body s with
    | .next s' => run body n s'
    | .leave r => some r

/-- The loop started in `s` is left with `r`. -/
def Ends (body : σ → Round σ ρ) (s : σ) (r : ρ) : Prop := ∃ n, run body n s = some r

variable {body : σ → Round σ ρ} {s s' : σ} {r r' : ρ}

/-- More rounds do not change the result. -/
theorem run_mono {n m : Nat} (hnm : n ≤ m) : ∀ {s}, run body n s = some r → run body m s = some r := by
  induction n generalizing m with
  | zero => intro s h; cases h
  | succ n ih =>
    intro s h
    obtain ⟨m, rfl⟩ : ∃ k, m = k + 1 := ⟨m - 1, by omega⟩
    unfold run at h ⊢
    cases hb : body s with
    | next s' => rw [hb] at h; exact ih (by omega) h
    | leave r => rw [hb] at h; exact h

theorem Ends.unique (h : Ends body s r) (h' : Ends body s r') : r = r' := by
  obtain ⟨n, hn⟩ := h
  obtain ⟨m, hm⟩ := h'
  have h1 := run_mono (Nat.le_max_left n m) hn
  have h2 := run_mono (Nat.le_max_right n m) hm
  exact Option.some.inj (h1.symm.trans h2)

/-- Going round once. -/
theorem ends_next (h : body s = .next s') : Ends body s r ↔ Ends body s' r := by
  constructor
  · rintro ⟨n, hn⟩
    cases n with
    | zero => cases hn
    | succ n => exact ⟨n, by simpa [run, h] using hn⟩
  · rintro ⟨n, hn⟩
    exact ⟨n + 1, by simpa [run, h] using hn⟩

/-- Leaving the loop. -/
theorem ends_leave (h : body s = .leave r) : Ends body s r' ↔ r' = r := by
  constructor
  · intro h'
    exact h'.unique ⟨1, by simp [run, h]⟩
  · rintro rfl
    exact ⟨1, by simp [run, h]⟩

/-- **Termination**: an invariant under which every round decreases a measure. -/
theorem ends_of_measure (I : σ → Prop) (μ : σ → Nat)
    (hstep : ∀ s s', I s → body s = .next s' → I s' ∧ μ s' < μ s) (hs : I s) : ∃ r, Ends body s r := by
  induction hn : μ s using Nat.strongRecOn generalizing s with
  | _ n ih =>
    cases hb : body s with
    | leave r => exact ⟨r, (ends_leave hb).2 rfl⟩
    | next s' =>
      obtain ⟨hs', hlt⟩ := hstep s s' hs hb
      obtain ⟨r, hr⟩ := ih (μ s') (by omega) hs' rfl
      exact ⟨r, (ends_next hb).2 hr⟩

/-- **Partial correctness**: an invariant of the rounds holds in the round that leaves the loop. -/
theorem Ends.inv (I : σ → Prop) (hstep : ∀ s s', I s → body s = .next s' → I s') (hs : I s)
    (h : Ends body s r) : ∃ s', I s' ∧ body s' = .leave r := by
  obtain ⟨n, hn⟩ := h
  induction n generalizing s with
  | zero => cases hn
  | succ n ih =>
    cases hb : body s with
    | leave r' => simp only [run, hb, Option.some.injEq] at hn; exact ⟨s, hs, by rw [hb, hn]⟩
    | next s' => exact ih (hstep s s' hs hb) (by simpa [run, hb] using hn)

end XCore.Loop
