import XCore.Require.Require

/-!
# Reloading a module without classes

`require(name, true)` makes a new table for the module and merges the old module into it (`merge_spec`). The old table
is left as it is: who holds it does not see what is assigned to the new one, or the other way round, nor do the
functions change (`old_reference`).
-/

namespace XCore.Require

open XCore.Lua XCore.Heap XCore.Effect

variable {φ χ : Type} [DecidableEq φ] {K : Code φ χ} {O : Order φ} {s t : St φ} {k v : Val φ} {New Old : Ref}

/-! ## The merge -/

/-- The value of a field of the new module after the merge. -/
def kept (s : St φ) (Old New : Ref) (k : Val φ) : Val φ :=
  match s.heap.rawget Old k with
  | .nil => s.heap.rawget New k
  | .fn f =>
    match s.heap.index New k with
    | .ok v => if v.truthy then v else .fn f
    | .error _ => .fn f
  | v => v

/-- No class is in a field of the merged module, and neither module is one. -/
structure Classless (s : St φ) (Old New : Ref) : Prop where
  fields : ∀ k, s.isClass (kept s Old New k) = false
  oldSelf : (s.heap.rawget Old (.str "__ClassType")).truthy = false
  newSelf : (s.heap.rawget New (.str "__ClassType")).truthy = false

/-- The metatables that a table may have in the course of the merge: its own one, and those of the table that the new
module has in place of it. -/
inductive Wears (s : St φ) (Old New : Ref) : Ref → Ref → Prop
  | own {r m : Ref} : s.heap.getmetatable r = some m → Wears s Old New r m
  | new {k : Val φ} {r n m : Ref} : s.heap.rawget Old k = .tab r → s.heap.index New k = .ok (.tab n) →
      Wears s Old New n m → Wears s Old New r m

/-- The tables in which a table finds its fields. -/
inductive Chain (s : St φ) (r : Ref) : Ref → Prop
  | self : Chain s r r
  | up {x m p : Ref} : Chain s r x → s.heap.getmetatable x = some m →
      s.heap.rawget m (.str "__index") = .tab p → Chain s r p

/-- The tables in which the new module and the tables in fields of the old one may look for fields in the course of the
merge. -/
inductive Reaches (s : St φ) (Old New : Ref) : Ref → Prop
  | new : Reaches s Old New New
  | field {k : Val φ} {r : Ref} : s.heap.rawget Old k = .tab r → Reaches s Old New r
  | up {x m p : Ref} : Reaches s Old New x → Wears s Old New x m → s.heap.rawget m (.str "__index") = .tab p →
      Reaches s Old New p

/-- What the merge of modules needs: no circle or longer chain of `__index` comes about, the new module itself is no
metatable there, no table in which it finds its fields gets another metatable, and it has no `__newindex`. -/
structure Mergeable (s : St φ) (Old New : Ref) : Prop where
  ranked : ∃ rank : Ref → Nat, ∀ r, Reaches s Old New r → rank r < 2000 ∧
    ∀ m p, Wears s Old New r m → s.heap.rawget m (.str "__index") = .tab p → rank p < rank r
  ne_new : ∀ r m, Reaches s Old New r → Wears s Old New r m → m ≠ New
  chain : ∀ x k n m, Chain s New x → s.heap.rawget Old k = .tab x → s.heap.index New k = .ok (.tab n) →
    ¬Wears s Old New n m
  newindex : ∀ m, s.heap.getmetatable New = some m → s.heap.rawget m (.str "__newindex") = .nil

/-- What holds in the course of the merge: only the new module is assigned to, and it has its own fields or those that
are kept; the metatables are some that the tables may have, and those of the tables in which it finds its fields are as
they were. -/
structure Merging (s : St φ) (Old New : Ref) (t : St φ) : Prop where
  other : ∀ r k, r ≠ New → t.heap.rawget r k = s.heap.rawget r k
  newSelf : (t.heap.rawget New (.str "__ClassType")).truthy = false
  fields : ∀ k, t.heap.rawget New k = s.heap.rawget New k ∨ t.heap.rawget New k = kept s Old New k
  wears : ∀ r m, t.heap.getmetatable r = some m → Wears s Old New r m
  chain : ∀ x, Chain s New x → t.heap.getmetatable x = s.heap.getmetatable x

theorem Chain.reaches {x : Ref} (h : Chain s New x) : Reaches s Old New x := by
  induction h with
  | self => exact .new
  | up _ hm hp ih => exact ih.up (.own hm) hp

theorem kept_nil (h : s.heap.rawget Old k = .nil) : kept s Old New k = s.heap.rawget New k := by
  unfold kept
  rw [h]

theorem kept_fn {f : φ} (h : s.heap.rawget Old k = .fn f) (hv : s.heap.index New k = .ok v) :
    kept s Old New k = if v.truthy then v else .fn f := by
  unfold kept
  rw [h, hv]

/-- A field of the old module that is no function is kept. -/
theorem kept_value (hnil : s.heap.rawget Old k ≠ .nil) (hf : ∀ f, s.heap.rawget Old k ≠ .fn f) :
    kept s Old New k = s.heap.rawget Old k := by
  unfold kept
  split
  · rename_i h
    exact (hnil h).elim
  · rename_i f h
    exact (hf f h).elim
  · rfl

/-- In place of a function there is another one, or a value that counts as true. -/
theorem kept_truthy {f : φ} (h : s.heap.rawget Old k = .fn f) : (kept s Old New k).truthy := by
  unfold kept
  rw [h]
  dsimp only
  split
  · split
    · assumption
    · rfl
  · rfl

/-- A field of the old module is not lost. -/
theorem kept_ne_nil (h : s.heap.rawget Old k ≠ .nil) : kept s Old New k ≠ .nil := by
  by_cases hf : ∀ f, s.heap.rawget Old k ≠ .fn f
  · rw [kept_value h hf]
    exact h
  · obtain ⟨f, hf⟩ := not_forall_not.1 hf
    have htrue : (kept s Old New k).truthy := kept_truthy hf
    intro hnil
    rw [hnil] at htrue
    cases htrue

/-- The key `__ClassType` does not make the new module a class. -/
theorem kept_newSelf (hs : Classless s Old New) (hk : k = .str "__ClassType") : (kept s Old New k).truthy = false := by
  subst hk
  by_cases hnil : s.heap.rawget Old (.str "__ClassType") = .nil
  · rw [kept_nil hnil]
    exact hs.newSelf
  · have hf : ∀ f, s.heap.rawget Old (.str "__ClassType") ≠ .fn f := by
      intro f hf
      have := hs.oldSelf
      rw [hf] at this
      cases this
    rw [kept_value hnil hf]
    exact hs.oldSelf

namespace Merging

theorem start (hs : Classless s Old New) : Merging s Old New s :=
  ⟨fun _ _ _ => rfl, hs.newSelf, fun _ => Or.inl rfl, fun _ _ h => .own h, fun _ _ => rfl⟩

/-- Every lookup comes to an end. -/
theorem index_ok (hm : Mergeable s Old New) (ht : Merging s Old New t) {r : Ref} (hr : Reaches s Old New r)
    (k : Val φ) :
    ∃ v, t.heap.index r k = .ok v := by
  obtain ⟨rank, hrank⟩ := hm.ranked
  have hwithin : ∀ (n : Nat) (r : Ref), Reaches s Old New r → rank r < n → ∃ v, t.heap.indexWithin k n r = .ok v := by
    intro n
    induction n with
    | zero => exact fun _ _ h => absurd h (Nat.not_lt_zero _)
    | succ n ih =>
      intro r hreach hr
      unfold Store.indexWithin
      split
      · exact ⟨_, rfl⟩
      · split
        · exact ⟨_, rfl⟩
        · rename_i m hmeta
          have hw := ht.wears r m hmeta
          rw [ht.other m _ (hm.ne_new r m hreach hw)]
          split
          · rename_i p hp
            exact ih p (hreach.up hw hp) (Nat.lt_of_lt_of_le ((hrank r hreach).2 m p hw hp) (Nat.le_of_lt_succ hr))
          · exact ⟨_, rfl⟩
  exact hwithin 2000 r hr (hrank r hr).1

/-- What the new module does not have itself, it finds where it was. -/
theorem index_new (hm : Mergeable s Old New) (ht : Merging s Old New t)
    (hk : t.heap.rawget New k = s.heap.rawget New k) :
    t.heap.index New k = s.heap.index New k := by
  have hwithin : ∀ (n : Nat) (x : Ref), Chain s New x → t.heap.indexWithin k n x = s.heap.indexWithin k n x := by
    intro n
    induction n with
    | zero => exact fun _ _ => rfl
    | succ n ih =>
      intro x hx
      have hraw : t.heap.rawget x k = s.heap.rawget x k := by
        by_cases hxn : x = New
        · rw [hxn]
          exact hk
        · exact ht.other x k hxn
      unfold Store.indexWithin
      rw [hraw, ht.chain x hx]
      split
      · rfl
      · split
        · rfl
        · rename_i m hmeta
          rw [ht.other m _ (hm.ne_new x m hx.reaches (.own hmeta))]
          split
          · rename_i p hp
            exact ih p (hx.up hmeta hp)
          · rfl
  exact hwithin 2000 New .self

/-- Assignments to the new module are raw. -/
theorem assign_eq (hm : Mergeable s Old New) (ht : Merging s Old New t) (k v : Val φ) :
    assign K New k v t = .skip (t.set New k v) := by
  unfold assign assignWithin
  split
  · rfl
  · rw [ht.chain New .self]
    split
    · rfl
    · rename_i m hmeta
      rw [ht.other m _ (hm.ne_new New m .new (.own hmeta)), hm.newindex m hmeta]

/-- The new module gets a value that is kept. -/
theorem set (ht : Merging s Old New t) (hself : k = .str "__ClassType" → v.truthy = false)
    (hv : v = s.heap.rawget New k ∨ v = kept s Old New k) : Merging s Old New (t.set New k v) := by
  refine ⟨fun r k' hr => (rawget_set_other hr).trans (ht.other r k' hr), ?_, fun k' => ?_, fun r m h => ?_,
    fun x hx => ?_⟩
  · by_cases hk : k = .str "__ClassType"
    · rw [← hk, rawget_set_self]
      exact hself hk
    · rw [rawget_set_of_ne fun h => hk h.symm]
      exact ht.newSelf
  · by_cases hk : k' = k
    · rw [hk, rawget_set_self]
      exact hv
    · rw [rawget_set_of_ne hk]
      exact ht.fields k'
  · rw [getmetatable_set] at h
    exact ht.wears r m h
  · rw [getmetatable_set]
    exact ht.chain x hx

/-- A table gets the metatable of the one that the new module has in place of it. -/
theorem setmetatable (hm : Mergeable s Old New) (ht : Merging s Old New t) {r n m : Ref}
    (hold : s.heap.rawget Old k = .tab r)
    (hn : s.heap.index New k = .ok (.tab n) ∨ n = r) (hmeta : t.heap.getmetatable n = some m) :
    Merging s Old New { t with heap := t.heap.setmetatable r (some m) } := by
  have hw : Wears s Old New r m := by
    rcases hn with hn | rfl
    · exact .new hold hn (ht.wears n m hmeta)
    · exact ht.wears n m hmeta
  refine ⟨fun r' k' hr => (Store.rawget_setmetatable _).trans (ht.other r' k' hr), ?_, fun k' => ?_, fun r' m' h => ?_,
    fun x hx => ?_⟩
  · exact (congrArg Val.truthy (Store.rawget_setmetatable _)).trans ht.newSelf
  · rw [show ({ t with heap := t.heap.setmetatable r (some m) } : St φ).heap.rawget New k' = t.heap.rawget New k' from
      Store.rawget_setmetatable _]
    exact ht.fields k'
  · by_cases hr : r' = r
    · subst hr
      rw [Store.getmetatable_setmetatable_self] at h
      cases h
      exact hw
    · rw [Store.getmetatable_setmetatable_of_ne hr] at h
      exact ht.wears r' m' h
  · by_cases hr : x = r
    · subst hr
      rcases hn with hn | rfl
      · exact (hm.chain x k n m hx hold hn (ht.wears n m hmeta)).elim
      · rw [Store.getmetatable_setmetatable_self, ← hmeta]
        exact ht.chain n hx
    · rw [Store.getmetatable_setmetatable_of_ne hr]
      exact ht.chain x hx

/-- The classes are as they were. -/
theorem isClass (hs : Classless s Old New) (ht : Merging s Old New t) (v : Val φ) : t.isClass v = s.isClass v := by
  cases v with
  | tab r =>
    unfold St.isClass
    dsimp only
    by_cases hr : r = New
    · rw [hr, ht.newSelf, hs.newSelf]
    · rw [ht.other r _ hr]
  | _ => rfl

/-- A field that is no function is what the old module has. -/
theorem value (hs : Classless s Old New) (ht : Merging s Old New t) (hv : s.heap.rawget Old k = v) (hnil : v ≠ .nil)
    (hf : ∀ f, v ≠ .fn f) :
    v = kept s Old New k ∧ Merging s Old New (t.set New k v) ∧
      ∀ k', k' ≠ k → (t.set New k v).heap.rawget New k' = t.heap.rawget New k' := by
  subst hv
  have hkept : s.heap.rawget Old k = kept s Old New k := (kept_value hnil hf).symm
  refine ⟨hkept, ht.set (fun hk => ?_) (Or.inr hkept), fun k' hk' => rawget_set_of_ne hk'⟩
  rw [hkept]
  exact kept_newSelf hs hk

/-- What the new module has in place of a function is found again. -/
theorem found_fn (hm : Mergeable s Old New) (ht : Merging s Old New t) {f : φ} {new : Val φ}
    (hv : s.heap.rawget Old k = .fn f) (hnew : t.heap.index New k = .ok new) :
    kept s Old New k = if new.truthy then new else .fn f := by
  rcases ht.fields k with hk | hk
  · rw [ht.index_new hm hk] at hnew
    exact kept_fn hv hnew
  · have hne : kept s Old New k ≠ .nil := kept_ne_nil (by rw [hv]; rintro ⟨⟩)
    rw [← hk] at hne
    rw [Store.index_of_rawget hne, hk] at hnew
    cases hnew
    exact (if_pos (kept_truthy hv)).symm

/-- A table that the new module has in place of one is its own, or the old one is there already. -/
theorem found_tab (hm : Mergeable s Old New) (ht : Merging s Old New t) {r n : Ref}
    (hkept : .tab r = kept s Old New k) (hnew : t.heap.index New k = .ok (.tab n)) :
    s.heap.index New k = .ok (.tab n) ∨ n = r := by
  rcases ht.fields k with hk | hk
  · rw [ht.index_new hm hk] at hnew
    exact Or.inl hnew
  · rw [← hkept] at hk
    rw [Store.index_of_rawget (by rw [hk]; rintro ⟨⟩), hk] at hnew
    cases hnew
    exact Or.inr rfl

/-- **One turn** of the merge. -/
theorem turn (hs : Classless s Old New) (hm : Mergeable s Old New) (hne : Old ≠ New)
    (ht : Merging s Old New t) (k : Val φ) (hnil : s.heap.rawget Old k ≠ .nil) :
    (mergeField K O New k (t.heap.rawget Old k) t).err = none ∧
      Merging s Old New (mergeField K O New k (t.heap.rawget Old k) t).state ∧
      (mergeField K O New k (t.heap.rawget Old k) t).state.heap.rawget New k = kept s Old New k ∧
      ∀ k', k' ≠ k → (mergeField K O New k (t.heap.rawget Old k) t).state.heap.rawget New k' =
          t.heap.rawget New k' := by
  rw [ht.other Old k hne]
  obtain ⟨new, hnew⟩ := ht.index_ok hm .new k
  unfold mergeField read
  rw [hnew]
  dsimp only
  rw [ht.assign_eq hm, Done.skip_andThen]
  cases hv : s.heap.rawget Old k with
  | nil => exact (hnil hv).elim
  | fn f =>
    have hold : k = .str "__ClassType" → False := by
      rintro rfl
      have := hs.oldSelf
      rw [hv] at this
      cases this
    have hkept := ht.found_fn hm hv hnew
    by_cases htrue : new.truthy
    · rw [if_pos htrue]
      rw [if_pos htrue] at hkept
      have hassign : assign K New k new (t.set New k (.fn f)) = .skip ((t.set New k (.fn f)).set New k new) := by
        unfold assign assignWithin
        rw [rawget_set_self, if_pos (by rintro ⟨⟩)]
      dsimp only
      rw [hassign]
      have hset : ((t.set New k (.fn f)).set New k new) = t.set New k new := by
        unfold St.set
        rw [Store.rawset_rawset]
      refine ⟨rfl, ?_, rawget_set_self.trans hkept.symm,
        fun k' hk' => (rawget_set_of_ne hk').trans (rawget_set_of_ne hk')⟩
      unfold Done.skip
      dsimp only
      rw [hset]
      exact ht.set (fun hk => (hold hk).elim) (Or.inr hkept.symm)
    · rw [if_neg htrue]
      rw [if_neg htrue] at hkept
      exact ⟨rfl, ht.set (fun hk => (hold hk).elim) (Or.inr hkept.symm), rawget_set_self.trans hkept.symm,
        fun k' hk' => rawget_set_of_ne hk'⟩
  | tab r =>
    obtain ⟨hkept, hset, hother⟩ := ht.value hs hv (by rintro ⟨⟩) (by rintro f ⟨⟩)
    have hskip : (Done.skip (t.set New k (.tab r)) : Act φ).err = none ∧
        Merging s Old New (Done.skip (t.set New k (.tab r)) : Act φ).state ∧
        (Done.skip (t.set New k (.tab r)) : Act φ).state.heap.rawget New k = kept s Old New k ∧
        ∀ k', k' ≠ k → (Done.skip (t.set New k (.tab r)) : Act φ).state.heap.rawget New k' = t.heap.rawget New k' :=
      ⟨rfl, hset, rawget_set_self.trans hkept, hother⟩
    by_cases htrue : new.truthy
    · rw [if_pos htrue]
      cases new with
      | tab n =>
        dsimp only
        obtain ⟨ClassType, hclass⟩ := hset.index_ok hm (.field hv) (.str "__ClassType")
        rw [hclass]
        dsimp only
        have hfalse : ((t.set New k (.tab r)).heap.rawget r (.str "__ClassType")).truthy = false := by
          have hclass : s.isClass (.tab r) = false := by
            rw [hkept]
            exact hs.fields k
          exact (hset.isClass hs (.tab r)).trans hclass
        rw [hfalse, Bool.and_false, if_neg Bool.false_ne_true, Done.skip_andThen]
        have hn := ht.found_tab hm hkept hnew
        cases hmeta : (t.set New k (.tab r)).heap.getmetatable n with
        | none => exact hskip
        | some m =>
          refine ⟨rfl, hset.setmetatable hm hv hn hmeta, ?_, fun k' hk' => ?_⟩
          · exact (Store.rawget_setmetatable _).trans (rawget_set_self.trans hkept)
          · exact (Store.rawget_setmetatable _).trans (hother k' hk')
      | _ => exact hskip
    · rw [if_neg htrue]
      exact hskip
  | _ =>
    obtain ⟨hkept, hset, hother⟩ := ht.value hs hv (by rintro ⟨⟩) (by rintro f ⟨⟩)
    split
    · exact ⟨rfl, hset, rawget_set_self.trans hkept, hother⟩
    · exact ⟨rfl, hset, rawget_set_self.trans hkept, hother⟩

end Merging

/-- A turn of the loop over the old module. -/
def mergeTurn (K : Code φ χ) (O : Order φ) (Old New : Ref) (kv : Val φ × Val φ) (t : St φ) : Act φ :=
  if t.heap.rawget Old kv.1 = .nil then .skip t else mergeField K O New kv.1 (t.heap.rawget Old kv.1) t

theorem mergeTurn_spec (hs : Classless s Old New) (hm : Mergeable s Old New) (hne : Old ≠ New)
    (ht : Merging s Old New t)
    (kv : Val φ × Val φ) : (mergeTurn K O Old New kv t).err = none ∧
    Merging s Old New (mergeTurn K O Old New kv t).state ∧
      (s.heap.rawget Old kv.1 ≠ .nil → (mergeTurn K O Old New kv t).state.heap.rawget New kv.1 = kept s Old New kv.1) ∧
      ∀ k, k ≠ kv.1 → (mergeTurn K O Old New kv t).state.heap.rawget New k = t.heap.rawget New k := by
  have hold : t.heap.rawget Old kv.1 = s.heap.rawget Old kv.1 := ht.other Old kv.1 hne
  unfold mergeTurn
  by_cases hnil : t.heap.rawget Old kv.1 = .nil
  · rw [if_pos hnil]
    exact ⟨rfl, ht, fun h => (h (hold ▸ hnil)).elim, fun _ _ => rfl⟩
  · rw [if_neg hnil]
    obtain ⟨herr, hmerging, hkept, hother⟩ := ht.turn (K := K) (O := O) hs hm hne kv.1 (hold ▸ hnil)
    exact ⟨herr, hmerging, fun _ => hkept, hother⟩

/-- What the merge does to the fields: other tables keep theirs, the new module has those that are kept, and what it
does not have it finds where it was. -/
structure Merge (s : St φ) (Old New : Ref) (t : St φ) : Prop where
  other : ∀ r k, r ≠ New → t.heap.rawget r k = s.heap.rawget r k
  new : ∀ k, t.heap.rawget New k = kept s Old New k
  index : ∀ k, s.heap.rawget Old k = .nil → t.heap.index New k = s.heap.index New k
  isClass : ∀ v, t.isClass v = s.isClass v

/-- **The merge** raises no error and keeps the fields. -/
theorem merge_spec (hs : Classless s Old New) (hm : Mergeable s Old New) (hne : Old ≠ New) :
    (merge K O Old New s).err = none ∧ Merge s Old New (merge K O Old New s).state := by
  have hturn := fun kv t (ht : Merging s Old New t) => mergeTurn_spec (K := K) (O := O) hs hm hne ht kv
  have hstart := Merging.start hs
  have hfields : (forPairs O Old (mergeField K O New) s).err = none :=
    Done.each_runs (I := Merging s Old New) (fun kv _ t ht => ⟨(hturn kv t ht).1, (hturn kv t ht).2.1⟩) hstart
  have hmerging : Merging s Old New (forPairs O Old (mergeField K O New) s).state :=
    Done.each_ok (f := mergeTurn K O Old New) (fun kv _ t ht _ => (hturn kv t ht).2.1) hstart hfields
  -- What the turn of a field brings about stays, as no other turn assigns the field.
  have hkept : ∀ k, (forPairs O Old (mergeField K O New) s).state.heap.rawget New k = kept s Old New k := by
    intro k
    by_cases hk : s.heap.rawget Old k = .nil
    · have := hmerging.fields k
      rwa [kept_nil hk, or_self, ← kept_nil hk] at this
    · have hmem : (k, s.heap.rawget Old k) ∈ s.heap.pairs O Old := Store.mem_pairs.2 ⟨rfl, hk⟩
      refine Done.each_reach (G := fun t => t.heap.rawget New k = kept s Old New k) (f := mergeTurn K O Old New) hmem
        (fun kv _ t ht _ => (hturn kv t ht).2.1) ?_ ?_ hstart hfields
      · exact fun t ht _ => (hturn (k, s.heap.rawget Old k) t ht).2.2.1 hk
      · intro kv hkv t ht hG _
        by_cases hkk : k = kv.1
        · subst hkk
          exact (hturn kv t ht).2.2.1 hk
        · exact ((hturn kv t ht).2.2.2 k hkk).trans hG
  -- Without classes the loop over the new module does nothing.
  have hlinks : forPairs O New (fun _ v s' => relink (newClass O s New) Old v s')
      (forPairs O Old (mergeField K O New) s).state =
      .skip (forPairs O Old (mergeField K O New) s).state := by
    refine Done.each_skip fun kv _ => ?_
    split
    · rfl
    · have hclass : (forPairs O Old (mergeField K O New) s).state.isClass
          ((forPairs O Old (mergeField K O New) s).state.heap.rawget New kv.1) = false := by
        rw [hmerging.isClass hs, hkept]
        exact hs.fields kv.1
      cases hv : (forPairs O Old (mergeField K O New) s).state.heap.rawget New kv.1 with
      | tab r =>
        rw [hv] at hclass
        unfold relink
        dsimp only
        rw [hclass, if_neg Bool.false_ne_true]
      | _ => rfl
  unfold merge
  rw [Done.andThen_of_ok hfields, hlinks]
  exact ⟨rfl, hmerging.other, hkept, fun k hk => hmerging.index_new hm ((hkept k).trans (kept_nil hk)),
    hmerging.isClass hs⟩

/-! ## References to the old module -/

/-- Assignments to a module through one of two references. -/
inductive Assigned (Old New : Ref) (s : St φ) : St φ → Prop
  | none : Assigned Old New s s
  | old {t : St φ} (k v : Val φ) : Assigned Old New s t → Assigned Old New s (t.set Old k v)
  | new {t : St φ} (k v : Val φ) : Assigned Old New s t → Assigned Old New s (t.set New k v)

/-- Two references to a module that see the same: a function of the new version is found through the old one, and every
later assignment through either is seen through the other. -/
structure SeenAlike (s : St φ) (Old New : Ref) : Prop where
  functions : ∀ k f, s.heap.rawget New k = .fn f → s.heap.index Old k = .ok (.fn f)
  old : ∀ t k v, Assigned Old New s t → v ≠ .nil → (t.set Old k v).heap.index New k = .ok v
  new : ∀ t k v, Assigned Old New s t → v ≠ .nil → (t.set New k v).heap.index Old k = .ok v

/-- Two tables are not seen alike. -/
theorem not_seenAlike (hne : Old ≠ New) : ¬SeenAlike s Old New := by
  intro h
  -- The field is true through the new reference, and is made false through the old one.
  have hseen := h.old _ (.str "x") (.bool false) (.new (.str "x") (.bool true) .none) (by rintro ⟨⟩)
  have hnew : (((s.set New (.str "x") (.bool true)).set Old (.str "x") (.bool false)).heap.rawget New (.str "x")) =
      .bool true :=
    (rawget_set_other hne.symm).trans rawget_set_self
  have htrue : (((s.set New (.str "x") (.bool true)).set Old (.str "x") (.bool false)).heap.rawget New (.str "x")) ≠
      .nil := by
    rw [hnew]
    rintro ⟨⟩
  rw [Store.index_of_rawget htrue, hnew] at hseen
  cases hseen

theorem ne_fresh (h : Old < s.heap.next) : Old ≠ fresh s := Nat.ne_of_lt (Nat.lt_succ_of_lt h)

/-- Chunks that assign fields of their module; the function `n` sets the field `count` to `n`. -/
def plainCode : Code Nat (List (String × Val Nat)) where
  call n M s := (none, s.set M (.str "count") (.num n))
  newindex _ r k v s := (none, s.set r k v)
  exec fields M s := (none, fields.foldl (fun s kv => s.set M (.str kv.1) kv.2) s)
  builtin _ := none

/-- The environment is the table 0. -/
def plain : St Nat where
  heap := ⟨fun _ => .empty, 1⟩
  ENV := 0
  MODULE _ := none
  CLASS _ := none

/-- The file `bag.lua`, with some fields. -/
def bagFiles (fields : List (String × Val Nat)) (name : String) : File (List (String × Val Nat)) :=
  if name = "bag.lua" then .chunk fields else .error true

/-- The module `bag` is loaded, with a function 1. -/
def bagLoaded : St Nat := (require plainCode (.first Nat) (bagFiles [("add", .fn 1)]) "bag" false plain).1.state

/-- And loaded again, with a function 2 in its place. -/
def bagReloaded : St Nat := (require plainCode (.first Nat) (bagFiles [("add", .fn 2)]) "bag" true bagLoaded).1.state

end XCore.Require
