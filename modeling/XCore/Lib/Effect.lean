import Mathlib.Tactic.Common

/-!
# Steps that have effects and may raise

`Done` is what a piece of imperative code has done: the state it leaves, its effects in order, and the error it raised,
if any. `andThen` goes on in the state reached unless an error was raised, `each` runs a `for` loop over a list.

`forall_andThen` and `forall_each` are for what every effect has, `andThen_quiet` and `each_quiet` for parts without
effects.

`Keeps upd I r m` is the postcondition of the proofs: a history `m`, updated by the effects one after another, is
related to the state that is left. It holds of a sequence and of a loop when it holds of the parts (`Keeps.andThen`,
`keeps_each`).
-/

namespace XCore.Effect

variable {σ ω ε α μ : Type*}

/-- The state left, the effects, and the error raised. -/
structure Done (σ ω ε : Type*) where
  state : σ
  out : List ω
  err : Option ε

namespace Done

/-- Nothing is done. -/
def skip (s : σ) : Done σ ω ε := ⟨s, [], none⟩

/-- Effects, and then the rest if no error was raised. -/
def andThen (r : Done σ ω ε) (k : σ → Done σ ω ε) : Done σ ω ε :=
  match r.err with
  | some _ => r
  | none => ⟨(k r.state).state, r.out ++ (k r.state).out, (k r.state).err⟩

/-- A loop over a list, left by the first error. -/
def each (f : α → σ → Done σ ω ε) : List α → σ → Done σ ω ε
  | [], s => skip s
  | a :: as, s => (f a s).andThen (each f as)

theorem andThen_of_err {r : Done σ ω ε} {e : ε} (h : r.err = some e) (k : σ → Done σ ω ε) : r.andThen k = r := by
  simp [andThen, h]

theorem andThen_of_ok {r : Done σ ω ε} (h : r.err = none) (k : σ → Done σ ω ε) :
    r.andThen k = ⟨(k r.state).state, r.out ++ (k r.state).out, (k r.state).err⟩ := by
  simp [andThen, h]

theorem state_andThen_of_ok {r : Done σ ω ε} (h : r.err = none) (k : σ → Done σ ω ε) :
    (r.andThen k).state = (k r.state).state := by
  rw [andThen_of_ok h]

theorem skip_andThen (s : σ) (k : σ → Done σ ω ε) : (skip s).andThen k = k s := by
  simp [andThen, skip]

/-- A sequence raises no error exactly when its parts raise none. -/
theorem andThen_err_none {r : Done σ ω ε} {k : σ → Done σ ω ε} :
    (r.andThen k).err = none ↔ r.err = none ∧ (k r.state).err = none := by
  cases h : r.err with
  | some e => simp [andThen_of_err h, h]
  | none => simp [andThen_of_ok h]

/-- A sequence that raises no error. -/
theorem andThen_ok {r : Done σ ω ε} {k : σ → Done σ ω ε} (h : (r.andThen k).err = none) :
    r.err = none ∧ (k r.state).err = none ∧ (r.andThen k).state = (k r.state).state ∧
    (r.andThen k).out = r.out ++ (k r.state).out := by
  obtain ⟨hr, hk⟩ := andThen_err_none.1 h
  rw [andThen_of_ok hr]
  exact ⟨hr, hk, rfl, rfl⟩

/-- The effects of the first part are effects of a sequence. -/
theorem mem_andThen_left {r : Done σ ω ε} {e : ω} (h : e ∈ r.out) (k : σ → Done σ ω ε) : e ∈ (r.andThen k).out := by
  cases hr : r.err with
  | some x =>
    rw [andThen_of_err hr]
    exact h
  | none =>
    rw [andThen_of_ok hr]
    exact List.mem_append_left _ h

theorem mem_andThen_right {r : Done σ ω ε} {e : ω} {k : σ → Done σ ω ε} (hr : r.err = none) (h : e ∈ (k r.state).out) :
    e ∈ (r.andThen k).out := by
  rw [andThen_of_ok hr]
  exact List.mem_append_right _ h

/-- What one turn keeps, a loop that raises no error keeps. -/
theorem each_ok {I : σ → Prop} {f : α → σ → Done σ ω ε} : ∀ {as : List α} {s : σ},
    (∀ a ∈ as, ∀ s, I s → (f a s).err = none → I (f a s).state) → I s → (each f as s).err = none → I (each f as s).state
  | [], _, _, h, _ => h
  | a :: as, s, hf, h, herr => by
    obtain ⟨ha, has, hstate, -⟩ := andThen_ok herr
    rw [each, hstate]
    exact each_ok (fun b hb => hf b (List.mem_cons_of_mem a hb)) (hf a List.mem_cons_self s h ha) has

/-- A loop whose turns raise no error and keep what they need. -/
theorem each_runs {I : σ → Prop} {f : α → σ → Done σ ω ε} : ∀ {as : List α} {s : σ},
    (∀ a ∈ as, ∀ s, I s → (f a s).err = none ∧ I (f a s).state) → I s → (each f as s).err = none
  | [], _, _, _ => rfl
  | a :: _, s, hf, h => by
    obtain ⟨herr, hI⟩ := hf a List.mem_cons_self s h
    exact andThen_err_none.2 ⟨herr, each_runs (fun b hb => hf b (List.mem_cons_of_mem a hb)) hI⟩

/-- A loop whose turns do nothing. -/
theorem each_skip {f : α → σ → Done σ ω ε} {s : σ} : ∀ {as : List α}, (∀ a ∈ as, f a s = skip s) → each f as s = skip s
  | [], _ => rfl
  | a :: _, hf => by
    rw [each, hf a List.mem_cons_self, skip_andThen]
    exact each_skip fun b hb => hf b (List.mem_cons_of_mem a hb)

/-- What one turn of a loop brings about and the others keep holds after the loop. -/
theorem each_reach {I G : σ → Prop} {f : α → σ → Done σ ω ε} {a : α} : ∀ {as : List α} {s : σ}, a ∈ as →
    (∀ b ∈ as, ∀ s, I s → (f b s).err = none → I (f b s).state) → (∀ s, I s → (f a s).err = none → G (f a s).state) →
    (∀ b ∈ as, ∀ s, I s → G s → (f b s).err = none → G (f b s).state) → I s → (each f as s).err = none →
    G (each f as s).state
  | [], _, ha, _, _, _, _, _ => absurd ha List.not_mem_nil
  | b :: bs, s, ha, hI, ha', hG, hs, herr => by
    obtain ⟨hb, hbs, hstate, -⟩ := andThen_ok herr
    have hs' := hI b List.mem_cons_self s hs hb
    have hI' : ∀ c ∈ bs, ∀ s, I s → (f c s).err = none → I (f c s).state := fun c hc => hI c (List.mem_cons_of_mem b hc)
    have hG' : ∀ c ∈ bs, ∀ s, I s → G s → (f c s).err = none → G (f c s).state :=
      fun c hc => hG c (List.mem_cons_of_mem b hc)
    rw [each, hstate]
    rcases List.mem_cons.1 ha with rfl | ha
    · have hboth : ∀ c ∈ bs, ∀ s, I s ∧ G s → (f c s).err = none → I (f c s).state ∧ G (f c s).state :=
        fun c hc s h he => ⟨hI' c hc s h.1 he, hG' c hc s h.1 h.2 he⟩
      exact (each_ok hboth ⟨hs', ha' s hs hb⟩ hbs).2
    · exact each_reach ha hI' ha' hG' hs' hbs

/-- A sequence of parts without effects, each of which relates the state it leaves to the one it starts in. -/
theorem andThen_quiet {R : σ → σ → Prop} (hR : ∀ a b c, R a b → R b c → R a c) {r : Done σ ω ε}
    {k : σ → Done σ ω ε} {s : σ}
    (hr : r.out = [] ∧ R s r.state) (hk : (k r.state).out = [] ∧ R r.state (k r.state).state) :
    (r.andThen k).out = [] ∧ R s (r.andThen k).state := by
  cases he : r.err with
  | some e =>
    rw [andThen_of_err he]
    exact hr
  | none =>
    rw [andThen_of_ok he]
    exact ⟨List.append_eq_nil_iff.2 ⟨hr.1, hk.1⟩, hR _ _ _ hr.2 hk.2⟩

/-- A loop of such parts. -/
theorem each_quiet {R : σ → σ → Prop} (hR : ∀ a b c, R a b → R b c → R a c) (hrefl : ∀ s, R s s)
    {f : α → σ → Done σ ω ε} (hf : ∀ a s, (f a s).out = [] ∧ R s (f a s).state) : ∀ (as : List α) (s : σ),
    (each f as s).out = [] ∧ R s (each f as s).state
  | [], s => ⟨rfl, hrefl s⟩
  | a :: as, s => by
    unfold each
    exact andThen_quiet hR (hf a s) (each_quiet hR hrefl hf as _)

/-- What all effects of the parts have, all effects of a sequence have. -/
theorem forall_andThen {Q : ω → Prop} {r : Done σ ω ε} {k : σ → Done σ ω ε} (h : ∀ e ∈ r.out, Q e)
    (hk : ∀ e ∈ (k r.state).out, Q e) : ∀ e ∈ (r.andThen k).out, Q e := by
  cases herr : r.err with
  | some x => rwa [andThen_of_err herr]
  | none =>
    rw [andThen_of_ok herr]
    exact fun e he => (List.mem_append.1 he).elim (h e) (hk e)

theorem forall_each {Q : ω → Prop} {f : α → σ → Done σ ω ε} (hf : ∀ a s, ∀ e ∈ (f a s).out, Q e) :
    ∀ {as : List α} {s : σ}, ∀ e ∈ (each f as s).out, Q e
  | [], _ => fun _ h => absurd h List.not_mem_nil
  | a :: _, s => forall_andThen (hf a s) (forall_each hf)

end Done

/-- After `r`, the history `m` with the effects of `r` is related to the state. -/
def Keeps (upd : μ → ω → μ) (I : σ → μ → Prop) (r : Done σ ω ε) (m : μ) : Prop := I r.state (r.out.foldl upd m)

variable {u : μ → ω → μ} {I : σ → μ → Prop} {m : μ}

theorem Keeps.andThen {r : Done σ ω ε} {k : σ → Done σ ω ε} (h : Keeps u I r m)
    (hk : I r.state (r.out.foldl u m) → Keeps u I (k r.state) (r.out.foldl u m)) : Keeps u I (r.andThen k) m := by
  cases he : r.err with
  | some e => rwa [Done.andThen_of_err he]
  | none =>
    rw [Done.andThen_of_ok he]
    have := hk h
    simpa only [Keeps, List.foldl_append] using this

theorem keeps_each {f : α → σ → Done σ ω ε} : ∀ {as : List α} {s : σ} {m : μ}, I s m →
    (∀ a ∈ as, ∀ s m, I s m → Keeps u I (f a s) m) → Keeps u I (Done.each f as s) m
  | [], _, _, h, _ => h
  | a :: as, s, m, h, hf => (hf a (by simp) s m h).andThen fun h' =>
    keeps_each h' fun b hb => hf b (by simp [hb])

end XCore.Effect
