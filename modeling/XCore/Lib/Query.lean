import Mathlib.Logic.Relation
import Mathlib.Tactic.Common

/-!
# Queries

A query is a computation that asks for the values of keys one after another (`Query`). A `System` gives every key a
query that asks for keys of lower rank only, so that every key has a value (`System.value`), the only solution of the
system.

- `Query.run_spec`: a run that answers every question with the value of its key gives the value of the query;
- `System.value_congr`: the value of a key depends only on the queries of the keys that it uses.
-/

namespace XCore

variable {κ ν σ ε : Type}

/-- A computation that asks for the values of keys. -/
inductive Query (κ ν : Type)
  | ret (v : ν)
  | ask (k : κ) (next : ν → Query κ ν)

namespace Query

/-- The keys that a query may ask for. -/
inductive Asks : Query κ ν → κ → Prop
  | here (k : κ) (next : ν → Query κ ν) : Asks (.ask k next) k
  | later (k : κ) (next : ν → Query κ ν) (v : ν) (x : κ) : Asks (next v) x → Asks (.ask k next) x

/-- The result for given values. -/
def eval (g : κ → ν) : Query κ ν → ν
  | ret v => v
  | ask k next => (next (g k)).eval g

/-- A run that answers the questions by a stateful computation. -/
def run (get : κ → σ → Except ε (ν × σ)) : Query κ ν → σ → Except ε (ν × σ)
  | ret v, s => .ok (v, s)
  | ask k next, s =>
    match get k s with
    | .ok (v, s) => (next v).run get s
    | .error e => .error e

theorem eval_congr {g g' : κ → ν} : ∀ {q : Query κ ν}, (∀ x, q.Asks x → g x = g' x) → q.eval g = q.eval g'
  | ret _, _ => rfl
  | ask k next, h => by
    rw [eval, eval, h k (.here k next)]
    exact eval_congr fun x hx => h x (.later k next _ x hx)

/-- Runs whose questions are answered by the values. -/
theorem run_spec {get : κ → σ → Except ε (ν × σ)} {g : κ → ν} {I : σ → Prop} : ∀ {q : Query κ ν} {s : σ},
    (∀ x, q.Asks x → ∀ s, I s → ∃ s', get x s = .ok (g x, s') ∧ I s') → I s →
    ∃ s', q.run get s = .ok (q.eval g, s') ∧ I s'
  | ret _, s, _, hs => ⟨s, rfl, hs⟩
  | ask k next, s, h, hs => by
    obtain ⟨t, ht, hI⟩ := h k (.here k next) s hs
    rw [run, ht, eval]
    exact run_spec (fun x hx => h x (.later k next _ x hx)) hI

end Query

/-- Queries for the keys, each of which asks for keys of lower rank. -/
structure System (κ ν : Type) where
  query : κ → Query κ ν
  rank : κ → Nat
  lt : ∀ {k x}, (query k).Asks x → rank x < rank k

namespace System

variable [Inhabited ν] {S : System κ ν}

/-- The value of a key, as far as a number of levels allow. -/
def valueIn (S : System κ ν) : Nat → κ → ν
  | 0, _ => default
  | n + 1, k => (S.query k).eval (valueIn S n)

/-- The value of a key. -/
def value (S : System κ ν) (k : κ) : ν := S.valueIn (S.rank k + 1) k

/-- One key uses another. -/
def Uses (S : System κ ν) (k x : κ) : Prop := Relation.TransGen (fun k x => (S.query k).Asks x) k x

theorem valueIn_eq : ∀ {n : Nat} {k : κ}, S.rank k < n → S.valueIn n k = S.value k
  | n + 1, k, hn => by
    rw [value, valueIn, valueIn]
    refine Query.eval_congr fun x hx => ?_
    have hlt := S.lt hx
    rw [valueIn_eq (Nat.lt_of_lt_of_le hlt (Nat.le_of_lt_succ hn)), valueIn_eq hlt]

/-- The values solve the system. -/
theorem value_eq (k : κ) : S.value k = (S.query k).eval S.value := by
  rw [value, valueIn]
  exact Query.eval_congr fun x hx => valueIn_eq (S.lt hx)

/-- A value depends on the queries of the keys that are used. -/
theorem value_congr {T : System κ ν} {k : κ} (hk : S.query k = T.query k)
    (h : ∀ x, S.Uses k x → S.query x = T.query x) :
    S.value k = T.value k := by
  have hrec : ∀ n x, S.rank x < n → S.query x = T.query x → (∀ y, S.Uses x y → S.query y = T.query y) →
      S.value x = T.value x := by
    intro n
    induction n with
    | zero =>
      intro x hx
      cases hx
    | succ n ih =>
      intro x hx hq hu
      rw [value_eq, value_eq, ← hq]
      refine Query.eval_congr fun y hy => ih y (Nat.lt_of_lt_of_le (S.lt hy) (Nat.le_of_lt_succ hx))
        (hu y (.single hy)) ?_
      exact fun z hz => hu z (.head hy hz)
  exact hrec _ k (Nat.lt_succ_self _) hk h

end System

end XCore
