import Mathlib.Tactic.Common

/-!
# Runs of a step function

A run is a list of actions; `Along step C s as` says that every action of the run from `s` meets a condition in the
state it is taken in, `Throughout step P s as` that every state of the run has a property.

- `Along.throughout`, `throughout_of_kept`: an invariant that is kept by the actions that meet the condition, or by all;
- `throughout_iff_along`: when the property holds after an action exactly if the action meets the condition;
- `Along.along`: what the actions that meet the condition do under such an invariant;
- `Along.congr`: conditions that agree on the good actions;
- `Throughout.last`: the last state.
-/

namespace XCore.Run

variable {σ α : Type*} {step : σ → α → σ} {C D : σ → α → Prop} {P I : σ → Prop}

/-- Every action meets a condition. -/
def Along (step : σ → α → σ) (C : σ → α → Prop) : σ → List α → Prop
  | _, [] => True
  | s, a :: as => C s a ∧ Along step C (step s a) as

/-- Every state has a property. -/
def Throughout (step : σ → α → σ) (P : σ → Prop) : σ → List α → Prop
  | s, [] => P s
  | s, a :: as => P s ∧ Throughout step P (step s a) as

/-- **Invariants**: what every good action keeps holds throughout a run of good actions. -/
theorem Along.throughout (hI : ∀ s a, I s → C s a → I (step s a)) : ∀ {as : List α} {s : σ}, I s →
    Along step C s as → Throughout step I s as
  | [], _, hs, _ => hs
  | _ :: _, s, hs, h => ⟨hs, Along.throughout hI (hI s _ hs h.1) h.2⟩

/-- What every action keeps holds throughout a run. -/
theorem throughout_of_kept (hI : ∀ s a, I s → I (step s a)) : ∀ (as : List α) {s : σ}, I s → Throughout step I s as
  | [], _, hs => hs
  | a :: as, s, hs => ⟨hs, throughout_of_kept hI as (hI s a hs)⟩

/-- What every good action does under an invariant of the good actions, every action of a good run does. -/
theorem Along.along (hI : ∀ s a, I s → C s a → I (step s a)) (hD : ∀ s a, I s → C s a → D s a) :
    ∀ {as : List α} {s : σ}, I s → Along step C s as → Along step D s as
  | [], _, _, _ => trivial
  | _ :: _, s, hs, h => ⟨hD s _ hs h.1, Along.along hI hD (hI s _ hs h.1) h.2⟩

/-- A condition on actions only. -/
theorem along_forall {P : α → Prop} : ∀ {as : List α} {s : σ}, Along step (fun _ a => P a) s as ↔ ∀ a ∈ as, P a
  | [], _ => iff_of_true trivial fun _ h => absurd h List.not_mem_nil
  | _ :: _, _ => (and_congr_right fun _ => along_forall).trans List.forall_mem_cons.symm

theorem Along.mono (h : ∀ s a, C s a → D s a) : ∀ {as : List α} {s : σ}, Along step C s as → Along step D s as
  | [], _, _ => trivial
  | _ :: _, s, hs => ⟨h s _ hs.1, Along.mono h hs.2⟩

theorem Along.and : ∀ {as : List α} {s : σ}, Along step C s as → Along step D s as →
    Along step (fun s a => C s a ∧ D s a) s as
  | [], _, _, _ => trivial
  | _ :: _, _, h, h' => ⟨⟨h.1, h'.1⟩, h.2.and h'.2⟩

/-- Conditions that the good actions meet together. -/
theorem Along.congr {E : σ → α → Prop} (h : ∀ s a, E s a → (C s a ↔ D s a)) :
    ∀ {as : List α} {s : σ}, Along step E s as → (Along step C s as ↔ Along step D s as)
  | [], _, _ => Iff.rfl
  | _ :: _, s, hE => and_congr (h s _ hE.1) (Along.congr h hE.2)

theorem along_append : ∀ {as bs : List α} {s : σ},
    Along step C s (as ++ bs) ↔ Along step C s as ∧ Along step C (as.foldl step s) bs
  | [], _, _ => (and_iff_right trivial).symm
  | _ :: _, _, _ => (and_congr_right fun _ => along_append).trans and_assoc.symm

theorem Throughout.mono (h : ∀ s, P s → I s) : ∀ {as : List α} {s : σ}, Throughout step P s as → Throughout step I s as
  | [], s, hs => h s hs
  | _ :: _, s, hs => ⟨h s hs.1, Throughout.mono h hs.2⟩

/-- The last state of a run. -/
theorem Throughout.last : ∀ {as : List α} {s : σ}, Throughout step P s as → P (as.foldl step s)
  | [], _, h => h
  | _ :: _, _, h => h.2.last

/-- **Exact conditions**: under an invariant of the good actions, if the property holds after an action exactly when the
action is good, then it holds throughout a run exactly when all actions are. -/
theorem throughout_iff_along (hP : ∀ s, I s → P s) (hI : ∀ s a, I s → C s a → I (step s a))
    (hC : ∀ s a, I s → P (step s a) → C s a) : ∀ {as : List α} {s : σ}, I s →
    (Throughout step P s as ↔ Along step C s as)
  | [], s, hs => iff_of_true (hP s hs) trivial
  | a :: as, s, hs => by
    constructor
    · rintro ⟨-, h⟩
      have hp : P (step s a) := by cases as with
        | nil => exact h
        | cons b bs => exact h.1
      have hc := hC s a hs hp
      exact ⟨hc, (throughout_iff_along hP hI hC (hI s a hs hc)).1 h⟩
    · rintro ⟨hc, h⟩
      exact ⟨hP s hs, (throughout_iff_along hP hI hC (hI s a hs hc)).2 h⟩

end XCore.Run
