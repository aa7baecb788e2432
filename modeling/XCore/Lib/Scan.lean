import Mathlib.Tactic.Common

/-!
# Readers and scanners

A reader takes a state and raises, or returns a value and the next state. A scanner moves over the same input without
making the values: it stops where the reader raises, and else it tells something about the value and has the next state.

`Follows` relates the outcomes of a reader and of a scanner, step by step (`Follows.bind`). For a scanner that tells
whether the value is right (`Scan`), sequences and loops are `andThen` and `times`.
-/

namespace XCore.Scanning

variable {ε σ τ α β γ δ : Type}

/-! ## Scanners -/

/-- `none` where the reader raises; else whether the value is right, and the next state. -/
abbrev Scan (τ : Type) := τ → Option (Bool × τ)

/-- Two values, of which both must be right. -/
def Scan.andThen (f g : Scan τ) : Scan τ := fun t => do
  let (b, t) ← f t
  let (c, t) ← g t
  some (b && c, t)

/-- A number of values. -/
def Scan.times (f : Scan τ) : Nat → Scan τ
  | 0 => fun t => some (true, t)
  | n + 1 => f.andThen (f.times n)

theorem Scan.times_one (f : Scan τ) : f.times 1 = f := by
  funext t
  cases h : f t <;> simp [Scan.times, Scan.andThen, h]

/-- A scan that does not move does not move in a loop either. -/
theorem Scan.times_of_stuck {f : Scan τ} {t : τ} {b : Bool} (h : f t = some (b, t)) (n : Nat) :
    ∃ c, f.times n t = some (c, t) := by
  induction n with
  | zero => exact ⟨true, rfl⟩
  | succ n ih =>
    obtain ⟨c, hc⟩ := ih
    exact ⟨b && c, by simp [Scan.times, Scan.andThen, h, hc]⟩

/-! ## Outcomes -/

/-- The outcome of a reader and that of a scanner: both have none, or both have one, with related values and with states
of which `emb` makes the first from the second. -/
inductive Follows (emb : τ → σ) (R : α → β → Prop) : Except ε (α × σ) → Option (β × τ) → Prop
  | raises (e : ε) : Follows emb R (.error e) none
  | returns {x : α} {y : β} {t : τ} (h : R x y) : Follows emb R (.ok (x, emb t)) (some (y, t))

/-- The values that are right. -/
def Right (P : α → Prop) (x : α) (b : Bool) : Prop := b = true ↔ P x

variable {emb : τ → σ} {R : α → β → Prop} {r : Except ε (α × σ)} {o : Option (β × τ)}

section Bind

variable {S : γ → δ → Prop} {f : α × σ → Except ε (γ × σ)} {g : β × τ → Option (δ × τ)}

/-- **Sequences** are followed step by step. -/
theorem Follows.bind_of_some (h : Follows emb R r o)
    (hf : ∀ x y t, o = some (y, t) → R x y → Follows emb S (f (x, emb t)) (g (y, t))) :
    Follows emb S (r >>= f) (o >>= g) := by
  cases h with
  | raises e => exact .raises e
  | returns h => exact hf _ _ _ rfl h

theorem Follows.bind (h : Follows emb R r o) (hf : ∀ x y t, R x y → Follows emb S (f (x, emb t)) (g (y, t))) :
    Follows emb S (r >>= f) (o >>= g) := h.bind_of_some fun x y t _ => hf x y t

end Bind

/-- The reader makes something else of the value. -/
theorem Follows.map_left {S : γ → β → Prop} {f : α → γ} (h : Follows emb R r o) (hf : ∀ x y, R x y → S (f x) y) :
    Follows emb S (r >>= fun p => .ok (f p.1, p.2)) o := by
  cases h with
  | raises e => exact .raises e
  | returns h => exact .returns (hf _ _ h)

/-- The scanner says something else. -/
theorem Follows.map_right {S : α → δ → Prop} {g : β → δ} (h : Follows emb R r o) (hg : ∀ x y, R x y → S x (g y)) :
    Follows emb S r (o >>= fun p => some (g p.1, p.2)) := by
  cases h with
  | raises e => exact .raises e
  | returns h => exact .returns (hg _ _ h)

/-- The states of the reader are part of other states. -/
theorem Follows.lift {ρ : Type} {f : σ → ρ} (h : Follows emb R r o) :
    Follows (fun t => f (emb t)) R (r.map fun p => (p.1, f p.2)) o := by
  cases h with
  | raises e => exact .raises e
  | returns h => exact .returns h

theorem Follows.mono {S : α → β → Prop} (h : Follows emb R r o) (hR : ∀ x y, R x y → S x y) : Follows emb S r o := by
  cases h with
  | raises e => exact .raises e
  | returns h => exact .returns (hR _ _ h)

/-- The reader returns where the scanner does. -/
theorem Follows.of_some {y : β} {t : τ} (h : Follows emb R r (some (y, t))) : ∃ x, r = .ok (x, emb t) ∧ R x y := by
  cases h with
  | returns h => exact ⟨_, rfl, h⟩

/-- And raises where it does not. -/
theorem Follows.of_none (h : Follows emb R r none) : ∃ e, r = .error e := by
  cases h with
  | raises e => exact ⟨e, rfl⟩

end XCore.Scanning
