import XCore.Lib.Run

/-!
# Monitors of traces

A monitor reads the events of a trace one after another and stops at one that it does not allow: `next : π → ε → Option
π`. `watch` reads a list of events.

A system that emits events with every action is watched by a family of monitors, each of which sees the events `ev i`.
If their states are functions of the state of the system as long as the actions are good, and a bad action stops one of
them, then all monitors read the whole trace exactly when all actions are good (`watch_iff_along`).
-/

namespace XCore.Monitor

open XCore.Run

variable {π ε σ α ω ι : Type*}

/-- The events of a list, as far as they are allowed. -/
def watch (next : π → ε → Option π) : π → List ε → Option π
  | p, [] => some p
  | p, e :: es => (next p e).bind fun p => watch next p es

/-- What a run emits. -/
def trace (step : σ → α → σ × List ω) : σ → List α → List ω
  | _, [] => []
  | s, a :: as => (step s a).2 ++ trace step (step s a).1 as

variable {next : π → ε → Option π} {step : σ → α → σ × List ω} {ev : ι → ω → Option ε} {f : ι → σ → π} {I : σ → Prop}
  {C : σ → α → Prop}

theorem watch_append (p : π) (es fs : List ε) :
    watch next p (es ++ fs) = (watch next p es).bind fun p => watch next p fs := by
  induction es generalizing p with
  | nil => rfl
  | cons e es ih =>
    rw [List.cons_append, watch, watch]
    cases next p e with
    | none => rfl
    | some q => exact ih q

/-- **Monitored runs**: the monitors read the whole trace exactly when every action is good. -/
theorem watch_iff_along (hI : ∀ s a, I s → C s a → I (step s a).1)
    (hgood : ∀ s a, I s → C s a → ∀ i, watch next (f i s) ((step s a).2.filterMap (ev i)) = some (f i (step s a).1))
    (hbad : ∀ s a, I s → ¬C s a → ∃ i, watch next (f i s) ((step s a).2.filterMap (ev i)) = none) :
    ∀ (as : List α) {s : σ}, I s →
      ((∀ i, (watch next (f i s) ((trace step s as).filterMap (ev i))).isSome) ↔ Along (fun s a => (step s a).1) C s as)
  | [], _, _ => iff_of_true (fun _ => rfl) trivial
  | a :: as, s, hs => by
    have hsplit : ∀ i, watch next (f i s) ((trace step s (a :: as)).filterMap (ev i)) =
        (watch next (f i s) ((step s a).2.filterMap (ev i))).bind fun p =>
          watch next p ((trace step (step s a).1 as).filterMap (ev i)) := by
      intro i
      rw [trace, List.filterMap_append, watch_append]
    by_cases hC : C s a
    · have ih := watch_iff_along hI hgood hbad as (hI s a hs hC)
      constructor
      · intro h
        refine ⟨hC, ih.1 fun i => ?_⟩
        have hi := h i
        rwa [hsplit, hgood s a hs hC i] at hi
      · rintro ⟨-, h⟩ i
        rw [hsplit, hgood s a hs hC i]
        exact ih.2 h i
    · refine iff_of_false (fun h => ?_) fun h => hC h.1
      obtain ⟨i, hi⟩ := hbad s a hs hC
      have hstop := h i
      rw [hsplit, hi] at hstop
      cases hstop

end XCore.Monitor
