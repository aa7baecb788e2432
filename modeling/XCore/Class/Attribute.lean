import XCore.Lib.Query
import XCore.Lib.Run
import XCore.Lua.Str

/-!
# Attributes of objects (`base/class.lua`)

`InitAttribute` registers the attributes of a configuration, each with a method `Get` and a method `Set`, in one of two
stores: saved attributes and temporary ones. An attribute with a formula is derived: `Get` computes it when its store
has no value and keeps the result, `Set` of another attribute drops the kept values of the attributes that `Relation`
lists.

`set` below is what the caller has set and no `Set` has dropped since. `Config.system` gives every attribute the query
that it should be read by, for these values; `derived_coherent` says when `Get` does so throughout a run: if `Set` of an
attribute leaves no kept value of an attribute that uses it, directly or through others, and `Get` drops no value of the
caller.
-/

namespace XCore.CObject

open XCore.Lua XCore.Run

variable {κ α : Type} [DecidableEq κ]

/-- A Lua value. -/
inductive Value (α : Type)
  | nil
  | bool (b : Bool)
  | val (a : α)
  deriving DecidableEq

instance : Inhabited (Value α) := ⟨.nil⟩

/-- A value as a condition. -/
def Value.truthy : Value α → Bool
  | nil => false
  | bool b => b
  | val _ => true

/-- The stores of an instance: `__TempAttr` and `__SaveAttr`. -/
inductive Store
  | temp
  | save
  deriving DecidableEq

/-- A configuration: the attributes of each store with their formulas, and `Relation`. The field `InitValue` is passed
to functions that do not take it. -/
structure Config (κ α : Type) where
  Save : κ → Option (Option (Query κ (Value α)))
  Temp : κ → Option (Option (Query κ (Value α)))
  Relation : κ → List κ

/-- An instance: its stores, `__SaveAttrFlag`, and the attributes for which `AttrChange` has been emitted. -/
structure Inst (κ α : Type) where
  attr : Store → κ → Value α
  flags : κ → Bool
  events : List κ

/-- `CObject:New`. -/
def Inst.new : Inst κ α := ⟨fun _ _ => .nil, fun _ => false, []⟩

/-- An assignment to a store. -/
def Inst.write (s : Inst κ α) (st : Store) (k : κ) (v : Value α) : Inst κ α :=
  { s with attr := Function.update s.attr st (Function.update (s.attr st) k v) }

/-- `OnEvent("AttrChange", {Name=key})`. -/
def Inst.onEvent (s : Inst κ α) (k : κ) : Inst κ α := { s with events := s.events ++ [k] }

namespace Config

variable (C : Config κ α)

/-- The store of an attribute: the methods of `RegTempAttr` replace those of `RegSaveAttr`. -/
def store (k : κ) : Option Store :=
  if (C.Temp k).isSome then some .temp else if (C.Save k).isSome then some .save else none

/-- `__Counter_` and the name: the formula of an attribute. -/
def formula (k : κ) : Option (Query κ (Value α)) := (C.Temp k).join <|> (C.Save k).join

/-- The loop of `Set` over the attributes that depend on one: it works on the store of that one. -/
def clean (st : Store) (k : κ) (s : Inst κ α) : Inst κ α :=
  (C.Relation k).foldl (fun s d => (s.write st d .nil).onEvent d) s

/-- `Set` of a temporary attribute; the global `NoClean` that it tests is never assigned. -/
def SetTemp (k : κ) (value : Value α) (_noclean : Bool) (s : Inst κ α) : Inst κ α :=
  C.clean .temp k ((s.write .temp k value).onEvent k)

/-- `Set` of a saved attribute. -/
def SetSave (k : κ) (value : Value α) (noclean : Bool) (s : Inst κ α) : Inst κ α :=
  let s := s.write .save k value
  let s := { s with flags := Function.update s.flags k true }.onEvent k
  if noclean then s else C.clean .save k s

/-- `Set` of an attribute. -/
def Set (k : κ) (value : Value α) (noclean : Bool) (s : Inst κ α) : Except LuaError (Inst κ α) :=
  match C.store k with
  | some .temp => .ok (C.SetTemp k value noclean s)
  | some .save => .ok (C.SetSave k value noclean s)
  | none => .error .callNil

/-- The value that an instance keeps of an attribute. -/
def kept (s : Inst κ α) (k : κ) : Value α :=
  match C.store k with
  | some st => s.attr st k
  | none => .nil

/-- `Get` of an attribute, with a bound on the depth of calls. -/
def Get : Nat → κ → Inst κ α → Except LuaError (Value α × Inst κ α)
  | 0, _, _ => .error .stackOverflow
  | n + 1, k, s =>
    match C.store k with
    | none => .error .callNil
    | some st =>
      if (s.attr st k).truthy then .ok (s.attr st k, s)
      else
        match C.formula k with
        | none => .ok (.nil, s)
        | some f =>
          match f.run (Get n) s with
          | .error e => .error e
          | .ok (val, s) =>
            match C.Set k val false s with
            | .error e => .error e
            | .ok s => .ok (val, s)

/-- `Set` of one attribute drops the value of another. -/
def Drops (k : κ) (noclean : Bool) (d : κ) : Prop :=
  (C.store k = some .temp ∨ noclean = false) ∧ d ∈ C.Relation k ∧ C.store d = C.store k

instance (k : κ) (noclean : Bool) (d : κ) : Decidable (C.Drops k noclean d) := inferInstanceAs (Decidable (_ ∧ _ ∧ _))

variable {C} {s : Inst κ α} {k d : κ} {v : Value α} {noclean : Bool}

theorem clean_attr (st st' : Store) : (C.clean st k s).attr st' d =
    if st' = st ∧ d ∈ C.Relation k then .nil else s.attr st' d := by
  unfold clean
  induction C.Relation k generalizing s with
  | nil => simp
  | cons c l ih =>
    rw [List.foldl_cons, ih]
    by_cases hst : st' = st
    · subst hst
      by_cases hd : d = c
      · simp [Inst.write, Inst.onEvent, hd]
      · simp [Inst.write, Inst.onEvent, hd]
    · simp [Inst.write, Inst.onEvent, hst]

/-- A write to the store of an attribute. -/
theorem kept_of_attr {st : Store} {s' : Inst κ α} (hk : C.store k = some st)
    (h : ∀ st' d, s'.attr st' d = if st' = st ∧ d = k then v else s.attr st' d) :
    C.kept s' d = if d = k then v else C.kept s d := by
  unfold kept
  by_cases hd : d = k
  · subst hd
    rw [hk, if_pos rfl]
    exact (h st d).trans (if_pos ⟨rfl, rfl⟩)
  · rw [if_neg hd]
    cases C.store d with
    | none => rfl
    | some st' => exact (h st' d).trans (if_neg fun hc => hd hc.2)

theorem write_attr (st st' : Store) : (s.write st k v).attr st' d = if st' = st ∧ d = k then v else s.attr st' d := by
  unfold Inst.write
  by_cases hst : st' = st
  · subst hst
    by_cases hd : d = k
    · simp [hd]
    · simp [hd]
  · simp [hst]

/-- What the loop of `Set` drops. -/
theorem kept_clean {st : Store} : C.kept (C.clean st k s) d =
    if d ∈ C.Relation k ∧ C.store d = some st then .nil else C.kept s d := by
  unfold kept
  cases hd : C.store d with
  | none => simp
  | some st' =>
    dsimp only
    rw [clean_attr]
    by_cases hst : st' = st
    · simp [hst]
    · simp [hst]

/-- What `Set` keeps: the new value, and the old ones that it does not drop. -/
theorem kept_set (v : Value α) (noclean : Bool) (hk : C.store k ≠ none) (hself : k ∉ C.Relation k) :
    ∃ s', C.Set k v noclean s = .ok s' ∧
    ∀ d, C.kept s' d = if d = k then v else if C.Drops k noclean d then .nil else C.kept s d := by
  have hfinish : ∀ {st : Store} {t : Inst κ α}, C.store k = some st →
      (∀ d, C.kept t d = if d = k then v else C.kept s d) →
      (st = .temp ∨ noclean = false) →
      ∀ d, C.kept (C.clean st k t) d = if d = k then v else if C.Drops k noclean d then .nil else C.kept s d := by
    intro st t hst ht hclean d
    have hdrops : C.Drops k noclean d ↔ d ∈ C.Relation k ∧ C.store d = some st := by
      unfold Drops
      rw [hst]
      exact and_iff_right (hclean.imp (congrArg some) id)
    rw [kept_clean, ht]
    simp only [hdrops]
    by_cases hd : d = k
    · subst hd
      rw [if_neg fun h => hself h.1, if_pos rfl, if_pos rfl]
    · rw [if_neg hd, if_neg hd]
  unfold Set
  cases hst : C.store k with
  | none => exact absurd hst hk
  | some st =>
    cases st with
    | temp =>
      refine ⟨_, rfl, hfinish hst (fun d => ?_) (Or.inl rfl)⟩
      exact kept_of_attr hst fun st' d => write_attr .temp st'
    | save =>
      refine ⟨_, rfl, ?_⟩
      unfold SetSave
      have hwrite : ∀ d, C.kept (({ s.write .save k v with flags := Function.update (s.write .save k v).flags k true } :
          Inst κ α).onEvent k) d = if d = k then v else C.kept s d := fun d =>
        kept_of_attr hst fun st' d => write_attr .save st'
      cases noclean with
      | false => exact hfinish hst hwrite (Or.inr rfl)
      | true =>
        intro d
        have hnot : ¬C.Drops k true d := by
          rintro ⟨h | h, -⟩
          · rw [hst] at h
            cases h
          · cases h
        rw [if_neg hnot]
        exact hwrite d

/-- The configuration is acyclic and `Relation` lists, under each attribute, the attributes whose formulas read it;
formulas read attributes of the configuration. -/
structure Graded (C : Config κ α) where
  rank : κ → Nat
  acyclic : ∀ {k d}, d ∈ C.Relation k → rank k < rank d
  lists : ∀ {k d f}, C.formula d = some f → f.Asks k → d ∈ C.Relation k
  registered : ∀ {k d f}, C.formula d = some f → f.Asks k → C.store k ≠ none

/-! ## The values of attributes -/

/-- How an attribute is read: what the caller has set, or the formula. -/
def query (C : Config κ α) (set : κ → Value α) (k : κ) : Query κ (Value α) :=
  if (set k).truthy then .ret (set k) else (C.formula k).getD (.ret .nil)

omit [DecidableEq κ] in
theorem asks_query {set : κ → Value α} {x : κ} (h : (C.query set k).Asks x) :
    (set k).truthy = false ∧ ∃ f, C.formula k = some f ∧ f.Asks x := by
  unfold query at h
  split at h
  · cases h
  · rename_i hset
    refine ⟨by simpa using hset, ?_⟩
    cases hf : C.formula k with
    | none =>
      rw [hf] at h
      cases h
    | some f =>
      rw [hf] at h
      exact ⟨f, rfl, h⟩

/-- The attributes as a system of queries. -/
def system (C : Config κ α) (G : Graded C) (set : κ → Value α) : System κ (Value α) where
  query := C.query set
  rank := G.rank
  lt h := by
    obtain ⟨-, f, hf, hx⟩ := asks_query h
    exact G.acyclic (G.lists hf hx)

/-- The instance keeps what the caller has set, and values of derived attributes. -/
structure Coherent (C : Config κ α) (G : Graded C) (s : Inst κ α) (set : κ → Value α) : Prop where
  own : ∀ k, (set k).truthy = true → C.kept s k = set k
  input : ∀ k, (set k).truthy = false → C.formula k = none → (C.kept s k).truthy = false
  derived : ∀ k, (set k).truthy = false → (C.kept s k).truthy = true → C.kept s k = (C.system G set).value k

/-- What the caller has set after a `Set`. -/
def setBy (C : Config κ α) (set : κ → Value α) (k : κ) (v : Value α) (noclean : Bool) : κ → Value α :=
  fun d => if d = k then v else if C.Drops k noclean d then .nil else set d

/-- `Set` leaves no kept value of an attribute that uses one which it changes: its own, or one of the caller that it
drops. -/
def LeavesNone (C : Config κ α) (G : Graded C) (s : Inst κ α) (set : κ → Value α) (k : κ) (noclean : Bool) : Prop :=
  ∀ d x, d ≠ k → ¬C.Drops k noclean d → (set d).truthy = false → (C.kept s d).truthy = true →
    (x = k ∨ C.Drops k noclean x ∧ (set x).truthy = true) → ¬(C.system G set).Uses d x

/-- The derived attributes that `Get` of one may compute: it, and those that are read, if no value is kept or if it is
dropped meanwhile. -/
inductive Refreshed (C : Config κ α) (s : Inst κ α) (set : κ → Value α) (k : κ) : κ → Prop
  | self : C.formula k ≠ none → (set k).truthy = false → (C.kept s k).truthy = false → Refreshed C s set k k
  | read (z y : κ) : Refreshed C s set k z → (C.query set z).Asks y → C.formula y ≠ none → (set y).truthy = false →
      (C.kept s y).truthy = false → Refreshed C s set k y
  | again (z y w : κ) : Refreshed C s set k z → (C.query set z).Asks y → C.formula y ≠ none → (set y).truthy = false →
      Refreshed C s set k w → C.Drops w false y → Refreshed C s set k y

omit [DecidableEq κ] in
theorem Refreshed.start {set : κ → Value α} {w : κ} (h : Refreshed C s set k w) : Refreshed C s set k k := by
  induction h with
  | self h1 h2 h3 => exact .self h1 h2 h3
  | read _ _ _ _ _ _ _ ih => exact ih
  | again _ _ _ _ _ _ _ _ _ ih _ => exact ih

/-- `Get` drops no value of the caller. -/
def DropsNone (C : Config κ α) (s : Inst κ α) (set : κ → Value α) (k : κ) : Prop :=
  ∀ y d, Refreshed C s set k y → C.Drops y false d → (set d).truthy = false

variable {G : Graded C} {set : κ → Value α}

omit [DecidableEq κ] in
theorem Coherent.new : Coherent C G (.new : Inst κ α) fun _ => .nil := by
  have hnil : ∀ k, C.kept (.new : Inst κ α) k = .nil := by
    intro k
    unfold kept
    cases C.store k <;> rfl
  constructor
  · intro k h
    cases h
  · intro k _ _
    rw [hnil]
    rfl
  · intro k _ h
    rw [hnil] at h
    cases h

omit [DecidableEq κ] in
theorem not_mem_relation (G : Graded C) (k : κ) : k ∉ C.Relation k := fun h => Nat.lt_irrefl _ (G.acyclic h)

/-- `Set`, at one attribute: the one that is set, one that is dropped, or another. -/
theorem setBy_cases (set : κ → Value α) (v : Value α) (noclean : Bool) {s' : Inst κ α}
    (hkept : ∀ d, C.kept s' d = if d = k then v else if C.Drops k noclean d then .nil else C.kept s d) (d : κ) :
    (d = k ∧ C.setBy set k v noclean d = v ∧ C.kept s' d = v) ∨
      (C.Drops k noclean d ∧ C.setBy set k v noclean d = .nil ∧ C.kept s' d = .nil) ∨
      (d ≠ k ∧ ¬C.Drops k noclean d ∧ C.setBy set k v noclean d = set d ∧ C.kept s' d = C.kept s d) := by
  rw [hkept, setBy]
  by_cases hd : d = k
  · rw [if_pos hd, if_pos hd]
    exact Or.inl ⟨hd, rfl, rfl⟩
  · rw [if_neg hd, if_neg hd]
    by_cases hdr : C.Drops k noclean d
    · rw [if_pos hdr, if_pos hdr]
      exact Or.inr (Or.inl ⟨hdr, rfl, rfl⟩)
    · rw [if_neg hdr, if_neg hdr]
      exact Or.inr (Or.inr ⟨hd, hdr, rfl, rfl⟩)

/-- An attribute that is not set, and not a value of the caller that is dropped, asks the same. -/
theorem query_setBy {x : κ} (hx : x ≠ k) (hd : C.Drops k noclean x → (set x).truthy = false) :
    C.query set x = C.query (C.setBy set k v noclean) x := by
  unfold query setBy
  rw [if_neg hx]
  by_cases hdr : C.Drops k noclean x
  · rw [if_pos hdr, hd hdr]
    rfl
  · rw [if_neg hdr]

/-- **`Set`** keeps the instance coherent if it leaves no stale value. -/
theorem Coherent.after_set (hs : Coherent C G s set) (hk : C.store k ≠ none) (hsafe : LeavesNone C G s set k noclean) :
    ∃ s', C.Set k v noclean s = .ok s' ∧ Coherent C G s' (C.setBy set k v noclean) := by
  obtain ⟨s', hs', hkept⟩ := kept_set (s := s) v noclean hk (not_mem_relation G k)
  refine ⟨s', hs', ?_⟩
  have hcases := setBy_cases set v noclean hkept
  constructor
  · intro d h
    rcases hcases d with ⟨rfl, hset, hval⟩ | ⟨-, hset, hval⟩ | ⟨-, -, hset, hval⟩
    · rw [hset, hval]
    · rw [hset, hval]
    · rw [hset] at h ⊢
      rw [hval]
      exact hs.own d h
  · intro d h hf
    rcases hcases d with ⟨rfl, hset, hval⟩ | ⟨-, hset, hval⟩ | ⟨-, -, hset, hval⟩
    · rw [hset] at h
      rw [hval]
      exact h
    · rw [hval]
      rfl
    · rw [hset] at h
      rw [hval]
      exact hs.input d h hf
  · intro d h hkd
    rcases hcases d with ⟨rfl, hset, hval⟩ | ⟨-, hset, hval⟩ | ⟨hd, hdr, hset, hval⟩
    · rw [hset] at h
      rw [hval, h] at hkd
      cases hkd
    · rw [hval] at hkd
      cases hkd
    · rw [hset] at h
      rw [hval] at hkd ⊢
      rw [hs.derived d h hkd]
      -- the attributes that `d` uses are read as before
      refine System.value_congr (query_setBy hd fun h => absurd h hdr) fun x hx => query_setBy ?_ fun hxr => ?_
      · rintro rfl
        exact hsafe d x hd hdr h hkd (Or.inl rfl) hx
      · rw [← Bool.not_eq_true]
        exact fun hset => hsafe d x hd hdr h hkd (Or.inr ⟨hxr, hset⟩) hx

/-- What `Get` needs of the state in which it reads an attribute: the derived attributes that have no value are to be
computed. -/
structure Ready (C : Config κ α) (G : Graded C) (s : Inst κ α) (set : κ → Value α) (k : κ) (t : Inst κ α) : Prop where
  coherent : Coherent C G t set
  missing : ∀ y, (y = k ∨ ∃ z, Refreshed C s set k z ∧ (C.query set z).Asks y) → C.formula y ≠ none →
    (set y).truthy = false → (C.kept t y).truthy = false → Refreshed C s set k y

omit [DecidableEq κ] in
theorem Coherent.ready (hs : Coherent C G s set) (k : κ) : Ready C G s set k s where
  coherent := hs
  missing y hy hf hset hkept := by
    rcases hy with rfl | ⟨z, hz, hzy⟩
    · exact .self hf hset hkept
    · exact .read z y hz hzy hf hset hkept

/-- A computed value is kept. -/
theorem Ready.set_value {t : Inst κ α} {y : κ} (ht : Ready C G s set k t) (hsafe : DropsNone C s set k)
    (hy : Refreshed C s set k y) (hset : (set y).truthy = false) (hf : C.formula y ≠ none) (hst : C.store y ≠ none) :
    ∃ t', C.Set y ((C.system G set).value y) false t = .ok t' ∧ Ready C G s set k t' := by
  obtain ⟨t', ht', hkept⟩ := kept_set (s := t) ((C.system G set).value y) false hst (not_mem_relation G y)
  refine ⟨t', ht', ⟨?_, ?_, ?_⟩, ?_⟩
  · intro d hd
    have hdy : d ≠ y := by
      rintro rfl
      rw [hset] at hd
      cases hd
    have hnot : ¬C.Drops y false d := by
      intro h
      rw [hsafe y d hy h] at hd
      cases hd
    rw [hkept, if_neg hdy, if_neg hnot]
    exact ht.coherent.own d hd
  · intro d hd hfd
    have hdy : d ≠ y := by
      rintro rfl
      exact hf hfd
    rw [hkept, if_neg hdy]
    split
    · rfl
    · exact ht.coherent.input d hd hfd
  · intro d hd hkd
    rw [hkept] at hkd ⊢
    by_cases hdy : d = y
    · rw [if_pos hdy, hdy]
    · rw [if_neg hdy] at hkd ⊢
      by_cases hdr : C.Drops y false d
      · rw [if_pos hdr] at hkd
        cases hkd
      · rw [if_neg hdr] at hkd ⊢
        exact ht.coherent.derived d hd hkd
  · intro d hd hfd hsetd hkd
    rw [hkept] at hkd
    by_cases hdy : d = y
    · rw [hdy]
      exact hy
    · by_cases hdr : C.Drops y false d
      · rcases hd with rfl | ⟨z, hz, hzd⟩
        · exact hy.start
        · exact .again z d y hz hzd hfd hsetd hy hdr
      · rw [if_neg hdy, if_neg hdr] at hkd
        exact ht.missing d hd hfd hsetd hkd

omit [DecidableEq κ] in
/-- A value that is kept. -/
theorem Coherent.value_kept {t : Inst κ α} {y : κ} (ht : Coherent C G t set) (hkept : (C.kept t y).truthy = true) :
    C.kept t y = (C.system G set).value y := by
  cases hset : (set y).truthy with
  | true =>
    rw [ht.own y hset, System.value_eq]
    change _ = (C.query set y).eval _
    rw [query, if_pos hset, Query.eval]
  | false => exact ht.derived y hset hkept

omit [DecidableEq κ] in
/-- The query of an attribute that the caller has not set. -/
theorem query_formula {y : κ} (hset : (set y).truthy = false) : C.query set y = (C.formula y).getD (.ret .nil) := by
  rw [query, if_neg (by rw [hset]; decide)]

omit [DecidableEq κ] in
theorem value_formula {y : κ} (hset : (set y).truthy = false) :
    (C.system G set).value y = ((C.formula y).getD (.ret .nil)).eval (C.system G set).value := by
  rw [System.value_eq]
  change (C.query set y).eval _ = _
  rw [query_formula hset]

/-- **`Get`** returns the value of the attribute and leaves the instance coherent, if it drops no value of the
caller. -/
theorem Ready.get_value (hsafe : DropsNone C s set k) :
    ∀ (n : Nat) {y : κ} {t : Inst κ α}, G.rank y < n → C.store y ≠ none →
    (y = k ∨ ∃ z, Refreshed C s set k z ∧ (C.query set z).Asks y) → Ready C G s set k t →
    ∃ t', C.Get n y t = .ok ((C.system G set).value y, t') ∧ Ready C G s set k t'
  | 0, _, _, hn, _, _, _ => absurd hn (Nat.not_lt_zero _)
  | n + 1, y, t, hn, hst, hy, ht => by
    obtain ⟨st, hst'⟩ := Option.ne_none_iff_exists'.1 hst
    have hattr : t.attr st y = C.kept t y := by
      unfold kept
      rw [hst']
    rw [Get, hst']
    dsimp only
    rw [hattr]
    cases hkept : (C.kept t y).truthy with
    | true =>
      rw [if_pos rfl]
      exact ⟨t, by rw [ht.coherent.value_kept hkept], ht⟩
    | false =>
      have hset : (set y).truthy = false := by
        rw [← Bool.not_eq_true]
        intro h
        rw [ht.coherent.own y h, h] at hkept
        cases hkept
      have hvalue := value_formula (G := G) hset
      rw [if_neg (by decide)]
      cases hf : C.formula y with
      | none =>
        rw [hf, Option.getD_none, Query.eval] at hvalue
        exact ⟨t, by rw [hvalue], ht⟩
      | some f =>
        rw [hf, Option.getD_some] at hvalue
        have hfne : C.formula y ≠ none := by
          rw [hf]
          exact Option.some_ne_none _
        have href := ht.missing y hy hfne hset hkept
        have hasks : ∀ {x}, f.Asks x → (C.query set y).Asks x := by
          intro x hx
          rw [query_formula hset, hf]
          exact hx
        have hread : ∀ x, f.Asks x → ∀ t', Ready C G s set k t' →
            ∃ u, C.Get n x t' = .ok ((C.system G set).value x, u) ∧ Ready C G s set k u := by
          intro x hx t' ht'
          have hlt := (G.acyclic (G.lists hf hx)).trans_le (Nat.le_of_lt_succ hn)
          exact Ready.get_value hsafe n hlt (G.registered hf hx) (Or.inr ⟨y, href, hasks hx⟩) ht'
        obtain ⟨u, hu, hready⟩ := Query.run_spec hread ht
        obtain ⟨t', ht', hfinal⟩ := hready.set_value hsafe href hset hfne hst
        rw [hvalue] at ht' ⊢
        dsimp only
        rw [hu]
        dsimp only
        rw [ht']
        exact ⟨t', rfl, hfinal⟩

end Config

/-! ## Runs -/

open Config

/-- A call on an instance. -/
inductive Action (κ α : Type)
  | Get (k : κ)
  | Set (k : κ) (value : Value α) (noclean : Bool)

variable {C : Config κ α}

/-- An action on an instance, and on what the caller has set. An attribute that is not registered has no methods. -/
def next (G : Graded C) (s : Inst κ α × (κ → Value α)) : Action κ α → Inst κ α × (κ → Value α)
  | .Get k =>
    match C.Get (G.rank k + 1) k s.1 with
    | .ok (_, s') => (s', s.2)
    | .error _ => s
  | .Set k v noclean =>
    match C.Set k v noclean s.1 with
    | .ok s' => (s', C.setBy s.2 k v noclean)
    | .error _ => s

/-- No action leaves a kept value that is stale, or drops a value of the caller. -/
def Clean (G : Graded C) (s : Inst κ α × (κ → Value α)) : Action κ α → Prop
  | .Get k => DropsNone C s.1 s.2 k
  | .Set k _ noclean => C.store k ≠ none → LeavesNone C G s.1 s.2 k noclean

variable {G : Graded C}

theorem get_unregistered {n : Nat} {k : κ} {s : Inst κ α} (hk : C.store k = none) :
    C.Get (n + 1) k s = .error .callNil := by
  simp only [Config.Get, hk]

theorem set_unregistered {k : κ} {v : Value α} {noclean : Bool} {s : Inst κ α} (hk : C.store k = none) :
    C.Set k v noclean s = .error .callNil := by
  simp only [Config.Set, hk]

/-- **One action** keeps the instance coherent. -/
theorem next_coherent (s : Inst κ α × (κ → Value α)) (a : Action κ α) (hs : Coherent C G s.1 s.2) (ha : Clean G s a) :
    Coherent C G (next G s a).1 (next G s a).2 := by
  cases a with
  | Get k =>
    by_cases hst : C.store k = none
    · simp only [next, get_unregistered hst]
      exact hs
    · obtain ⟨t, ht, hready⟩ := (hs.ready k).get_value ha (G.rank k + 1) (Nat.lt_succ_self _) hst (Or.inl rfl)
      simp only [next, ht]
      exact hready.coherent
  | Set k v noclean =>
    by_cases hst : C.store k = none
    · simp only [next, set_unregistered hst]
      exact hs
    · obtain ⟨t, ht, hcoh⟩ := hs.after_set (v := v) hst (ha hst)
      simp only [next, ht]
      exact hcoh

/-- An attribute that the caller has not set is read by its formula. -/
theorem never_set : ∀ (as : List (Action κ α)) {s : Inst κ α × (κ → Value α)} {k : κ},
    (∀ v noclean, .Set k v noclean ∉ as) → (s.2 k).truthy = false → ((as.foldl (next G) s).2 k).truthy = false
  | [], _, _, _, hs => hs
  | a :: as, s, k, h, hs => by
    refine never_set as (fun v noclean hmem => h v noclean (List.mem_cons_of_mem _ hmem)) ?_
    cases a with
    | Get d =>
      unfold next
      dsimp only
      split <;> exact hs
    | Set d v noclean =>
      have hdk : k ≠ d := by
        rintro rfl
        exact h v noclean List.mem_cons_self
      unfold next
      dsimp only
      split
      · change (C.setBy s.2 d v noclean k).truthy = false
        rw [setBy, if_neg hdk]
        split
        · rfl
        · exact hs
      · exact hs

/-- **Derived attributes**: along a run of clean actions on a new instance, `Get` of a derived attribute that the caller
has not set returns the value of its formula on the values of the attributes that it reads. -/
theorem derived_coherent (G : Graded C) (as : List (Action κ α)) (k : κ) (f : Query κ (Value α)) (n : Nat)
    (h : Along (next G) (Clean G) (.new, fun _ => .nil) (as ++ [.Get k])) (hk : C.store k ≠ none)
    (hf : C.formula k = some f)
    (hnever : ∀ v noclean, .Set k v noclean ∉ as) (hn : G.rank k < n) :
    (C.Get n k (as.foldl (next G) (.new, fun _ => .nil)).1).map Prod.fst =
      .ok (f.eval (C.system G (as.foldl (next G) (.new, fun _ => .nil)).2).value) := by
  obtain ⟨hbefore, hget, -⟩ := along_append.1 h
  have hcoh := (hbefore.throughout (I := fun s => Coherent C G s.1 s.2) next_coherent Coherent.new).last
  obtain ⟨t, ht, -⟩ := (hcoh.ready k).get_value hget n hn hk (Or.inl rfl)
  have hset := never_set (G := G) as hnever (s := (.new, fun _ => .nil)) rfl
  rw [ht, System.value_eq]
  change Except.ok ((C.query _ k).eval _) = _
  rw [query, if_neg (by rw [hset]; decide), hf, Option.getD_some]

/-- Attributes in a chain. -/
inductive Name
  | Level
  | MaxHp
  | Power
  deriving DecidableEq

/-- `MaxHp` is computed from `Level`, and `Power` from `MaxHp`. -/
def chain : Config Name Nat where
  Save _ := none
  Temp
    | .Level => some none
    | .MaxHp => some (some (.ask .Level .ret))
    | .Power => some (some (.ask .MaxHp .ret))
  Relation
    | .Level => [.MaxHp]
    | .MaxHp => [.Power]
    | .Power => []

theorem chain_asks {k d : Name} {f : Query Name (Value Nat)} (hf : chain.formula d = some f) (hk : f.Asks k) :
    (d = .MaxHp ∧ k = .Level) ∨ (d = .Power ∧ k = .MaxHp) := by
  cases d with
  | Level => cases hf
  | MaxHp =>
    cases hf
    cases hk with
    | here => exact Or.inl ⟨rfl, rfl⟩
    | later _ _ _ _ h => cases h
  | Power =>
    cases hf
    cases hk with
    | here => exact Or.inr ⟨rfl, rfl⟩
    | later _ _ _ _ h => cases h

def chainGraded : Graded chain where
  rank
    | .Level => 0
    | .MaxHp => 1
    | .Power => 2
  acyclic {k d} h := by cases k <;> cases d <;> first | decide | (exfalso; revert h; decide)
  lists hf hk := by rcases chain_asks hf hk with ⟨rfl, rfl⟩ | ⟨rfl, rfl⟩ <;> decide
  registered hf hk := by rcases chain_asks hf hk with ⟨rfl, rfl⟩ | ⟨rfl, rfl⟩ <;> decide

/-- An attribute set, one computed from it and kept, the first set again, which drops the kept value, and the second
computed anew. -/
theorem derived_coherent_chain :
    (chain.Get 2 .MaxHp ([Action.Set .Level (.val 1) false, .Get .MaxHp, .Set .Level (.val 2) false].foldl
      (next chainGraded)
      (.new, fun _ => .nil)).1).map Prod.fst = .ok (.val 2) := by
  have hsafe : Along (next chainGraded) (Clean chainGraded) (.new, fun _ => .nil)
      ([.Set .Level (.val 1) false, .Get .MaxHp, .Set .Level (.val 2) false] ++ [.Get .MaxHp]) := by
    refine ⟨fun _ d x _ _ _ hkept => ?_, fun y d _ hdrop => ?_, fun _ d x hne hdrops _ hkept => ?_,
      fun y d _ hdrop => ?_, trivial⟩
    · cases d <;> cases hkept
    · cases y <;> cases d <;> first | rfl | (exfalso; revert hdrop; decide)
    · cases d with
      | Level => exact absurd rfl hne
      | MaxHp => exact absurd (by decide) hdrops
      | Power => cases hkept
    · cases y <;> cases d <;> first | rfl | (exfalso; revert hdrop; decide)
  exact derived_coherent chainGraded [.Set .Level (.val 1) false, .Get .MaxHp,
    .Set .Level (.val 2) false] .MaxHp _ 2 hsafe (by decide)
    rfl (by simp) (by decide)

/-- A stale value at the end of a chain: `Level` is 2, and `Power` is still 1. -/
theorem power_stale :
    let as : List (Action Name Nat) := [.Set .Level (.val 1) false, .Get .Power, .Set .Level (.val 2) false]
    (chain.Get 3 .Power (as.foldl (next chainGraded) (.new, fun _ => .nil)).1).map Prod.fst = .ok (.val 1) ∧
      (chain.system chainGraded (as.foldl (next chainGraded) (.new, fun _ => .nil)).2).value .Power = .val 2 :=
  ⟨rfl, rfl⟩

end XCore.CObject
