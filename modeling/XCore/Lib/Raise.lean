import Mathlib.Tactic.Common

/-!
# Computations on a state that may raise

An error leaves the state as it is when it is raised. `exec m s` is the result of a computation and the state it leaves.

- `Frames R m`: the state left is related to the one the computation starts in, also if it raises. For a relation that
  is reflexive and transitive (`Order`) this goes through sequences and loops (`Frames.bind`, `Frames.forM`,
  `Frames.mapM`).
- `exec_bind_ok` takes a sequence that returns apart.
-/

namespace XCore.Raise

variable {σ ε α β : Type}

/-- A computation on a state that may raise. -/
abbrev Act (σ ε α : Type) := ExceptT ε (StateM σ) α

/-- The result of a computation, and the state it leaves. -/
def exec (m : Act σ ε α) (s : σ) : Except ε α × σ := m s

/-- A result that may be an error. -/
def ofResult (r : Except ε α) : Act σ ε α := fun s => (r, s)

variable {m : Act σ ε α} {f : α → Act σ ε β} {s s' : σ}

@[simp] theorem exec_pure (a : α) : exec (pure a : Act σ ε α) s = (.ok a, s) := rfl

@[simp] theorem exec_throw (e : ε) : exec (throw e : Act σ ε α) s = (.error e, s) := rfl

@[simp] theorem exec_get : exec (get : Act σ ε σ) s = (.ok s, s) := rfl

@[simp] theorem exec_modify (g : σ → σ) : exec (modify g : Act σ ε PUnit) s = (.ok ⟨⟩, g s) := rfl

@[simp] theorem exec_ofResult (r : Except ε α) : exec (ofResult r : Act σ ε α) s = (r, s) := rfl

theorem exec_bind : exec (m >>= f) s = match exec m s with
    | (.ok a, t) => exec (f a) t
    | (.error e, t) => (.error e, t) := by
  change (match m s with
    | (r, t) => ExceptT.bindCont f r t) = _
  unfold exec
  cases m s with
  | mk r t => cases r <;> rfl

theorem exec_bind_of {a : α} {t : σ} (h : exec m s = (.ok a, t)) : exec (m >>= f) s = exec (f a) t := by
  rw [exec_bind, h]

/-- A sequence that returns. -/
theorem exec_bind_ok {b : β} (h : exec (m >>= f) s = (.ok b, s')) :
    ∃ a t, exec m s = (.ok a, t) ∧ exec (f a) t = (.ok b, s') := by
  rw [exec_bind] at h
  split at h
  · rename_i a t hm
    exact ⟨a, t, hm, h⟩
  · cases h

/-- A result that is not used. -/
theorem exec_discard : (exec (discard m) s).2 = (exec m s).2 := by
  change (exec (m >>= fun _ => pure ()) s).2 = _
  rw [exec_bind]
  cases exec m s with
  | mk r t => cases r <;> rfl

/-- A relation that goes through sequences. -/
structure Order (R : σ → σ → Prop) : Prop where
  refl : ∀ s, R s s
  trans : ∀ {s t u}, R s t → R t u → R s u

/-- The state left is related to the one the computation starts in. -/
def Frames (R : σ → σ → Prop) (m : Act σ ε α) : Prop := ∀ s, R s (exec m s).2

namespace Frames

variable {R : σ → σ → Prop} (hR : Order R)
include hR

theorem pure (a : α) : Frames R (pure a : Act σ ε α) := hR.refl

theorem throw (e : ε) : Frames R (throw e : Act σ ε α) := hR.refl

theorem get : Frames R (get : Act σ ε σ) := hR.refl

theorem ofResult (r : Except ε α) : Frames R (ofResult r : Act σ ε α) := hR.refl

theorem bind (hm : Frames R m) (hf : ∀ a, Frames R (f a)) : Frames R (m >>= f) := by
  intro s
  have hs := hm s
  rw [exec_bind]
  split
  · rename_i a t ht
    rw [ht] at hs
    exact hR.trans hs (hf a t)
  · rename_i e t ht
    rw [ht] at hs
    exact hs

theorem discard (hm : Frames R m) : Frames R (discard m) := bind hR hm fun _ => pure hR _

theorem forM {f : α → Act σ ε PUnit} : ∀ l : List α, (∀ a ∈ l, Frames R (f a)) → Frames R (l.forM f)
  | [], _ => pure hR _
  | a :: l, hf => bind hR (hf a List.mem_cons_self) fun _ => forM l fun b hb => hf b (List.mem_cons_of_mem a hb)

theorem mapM {f : α → Act σ ε β} : ∀ l : List α, (∀ a ∈ l, Frames R (f a)) → Frames R (l.mapM f)
  | [], _ => pure hR _
  | a :: l, hf => by
    rw [List.mapM_cons]
    refine bind hR (hf a List.mem_cons_self) fun _ => ?_
    exact bind hR (mapM l fun b hb => hf b (List.mem_cons_of_mem a hb)) fun _ => pure hR _

theorem foldlM {f : β → α → Act σ ε β} : ∀ (l : List α), (∀ a ∈ l, ∀ b, Frames R (f b a)) → ∀ b, Frames R (l.foldlM f b)
  | [], _, _ => pure hR _
  | a :: l, hf, b => by
    rw [List.foldlM_cons]
    exact bind hR (hf a List.mem_cons_self b) fun _ => foldlM l (fun c hc => hf c (List.mem_cons_of_mem a hc)) _

end Frames

/-- A change of the state. -/
theorem Frames.modify {R : σ → σ → Prop} {g : σ → σ} (h : ∀ s, R s (g s)) : Frames R (modify g : Act σ ε PUnit) := h

/-- A computation that reads the state first. -/
theorem Frames.get_bind {R : σ → σ → Prop} {f : σ → Act σ ε β} (h : ∀ s, R s (exec (f s) s).2) :
    Frames R (MonadState.get >>= f) := h

/-- A property that is kept. -/
theorem order_kept_property (I : σ → Prop) : Order fun s t => I s → I t where
  refl _ hs := hs
  trans hst htu hs := htu (hst hs)

/-- What is kept under an assumption that is kept. -/
theorem order_keeps {I : σ → Prop} {R : σ → σ → Prop} (hR : Order R) : Order fun s t => I s → I t ∧ R s t where
  refl s hs := ⟨hs, hR.refl s⟩
  trans hst htu hs := by
    obtain ⟨ht, hRst⟩ := hst hs
    obtain ⟨hu, hRtu⟩ := htu ht
    exact ⟨hu, hR.trans hRst hRtu⟩

end XCore.Raise
