import Mathlib.Tactic.Common

/-!
# Coders that work symbol by symbol

A coder is a step `σ → α → β × σ` from a state and a symbol to a symbol and the next state; `run` codes a list, `chunks`
a list of chunks, each from the state that the one before it has left.

- `chunks_eq`: chunks are coded as their concatenation is;
- `run_inverse`: a coder inverts another when it does so on one symbol, under a relation of their states that one symbol
  keeps; with `chunks_eq` the chunks on both sides need not be the same (`chunks_inverse`).
-/

namespace XCore.Mealy

variable {σ τ α β : Type*}

/-- A list, symbol by symbol. -/
def run (step : σ → α → β × σ) : σ → List α → List β × σ
  | s, [] => ([], s)
  | s, a :: as =>
    let r := run step (step s a).2 as
    ((step s a).1 :: r.1, r.2)

/-- Chunks, one after another. -/
def chunks (f : σ → List α → List β × σ) : σ → List (List α) → List (List β) × σ
  | s, [] => ([], s)
  | s, c :: cs =>
    let r := chunks f (f s c).2 cs
    ((f s c).1 :: r.1, r.2)

variable {step : σ → α → β × σ}

theorem run_append (s : σ) (as bs : List α) :
    run step s (as ++ bs) = ((run step s as).1 ++ (run step (run step s as).2 bs).1,
      (run step (run step s as).2 bs).2) := by
  induction as generalizing s with
  | nil => rfl
  | cons a as ih => rw [List.cons_append, run, ih]; rfl

/-- Chunks are coded as their concatenation is. -/
theorem chunks_eq (step : σ → α → β × σ) (s : σ) (cs : List (List α)) :
    ((chunks (run step) s cs).1.flatten, (chunks (run step) s cs).2) = run step s cs.flatten := by
  induction cs generalizing s with
  | nil => rfl
  | cons c cs ih =>
    have ih := ih (run step s c).2
    rw [List.flatten_cons, run_append, ← ih]
    rfl

variable {enc : σ → α → β × σ} {dec : τ → β → α × τ} {R : σ → τ → Prop}

/-- **Inverse coders**: what inverts one symbol inverts a list. -/
theorem run_inverse (h : ∀ s t a, R s t → (dec t (enc s a).1).1 = a ∧ R (enc s a).2 (dec t (enc s a).1).2)
    {s : σ} {t : τ} (hst : R s t) (as : List α) :
    (run dec t (run enc s as).1).1 = as ∧ R (run enc s as).2 (run dec t (run enc s as).1).2 := by
  induction as generalizing s t with
  | nil => exact ⟨rfl, hst⟩
  | cons a as ih =>
    obtain ⟨ha, hst⟩ := h s t a hst
    obtain ⟨has, hst⟩ := ih hst
    exact ⟨by rw [run, run, has, ha], hst⟩

/-- The chunks that are decoded need not be those that were coded. -/
theorem chunks_inverse (h : ∀ s t a, R s t → (dec t (enc s a).1).1 = a ∧ R (enc s a).2 (dec t (enc s a).1).2) {s : σ}
    {t : τ} (hst : R s t) {cs : List (List α)} {ds : List (List β)}
    (hds : ds.flatten = (chunks (run enc) s cs).1.flatten) :
    (chunks (run dec) t ds).1.flatten = cs.flatten ∧ R (chunks (run enc) s cs).2 (chunks (run dec) t ds).2 := by
  obtain ⟨hout, hstate⟩ := run_inverse h hst cs.flatten
  have henc := Prod.mk.inj (chunks_eq enc s cs)
  have hdec := Prod.mk.inj (chunks_eq dec t ds)
  rw [hds, henc.1] at hdec
  rw [hdec.1, hdec.2, henc.2]
  exact ⟨hout, hstate⟩

end XCore.Mealy
