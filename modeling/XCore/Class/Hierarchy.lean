import XCore.Lib.Run

/-!
# The hierarchy of classes (`base/class.lua`)

`Inherit` makes a class whose metatable has its parent as `__index`, and copies the names of the ancestors into its
`__InheritMap`; `New` makes an object whose metatable is the field `mt` of the class. `InstanceOf` goes up the
metatables, `IsSubObj` searches the names. For an object of a class other than `CObject` both agree with the tree of
classes, and what is made later changes neither (`hierarchy_agrees`). `CObject` has no `mt`, so an object of it has no
class (`object_of_root`).

`Inherit` takes a table as second argument, which becomes the class. One that is a class already gets another parent,
and the answers for its objects change (`reparented`); so the calls of `hierarchy_agrees` are without it.

Of a table only the fields are kept that these functions use. Methods are called on their tables directly; a field is
looked up along `__index` without the bound of Lua on the length of such a chain.
-/

namespace XCore.Hierarchy

open XCore.Run

/-- The identity of a table. -/
abbrev Ref := Nat

/-- A table; a metatable is given by its `__index`, also the one in the field `mt`. -/
structure Table (τ : Type) where
  ClassType : Option τ
  InheritMap : Option (List τ)
  mt : Option Ref
  metatable : Option Ref
  deriving DecidableEq

/-- All tables, in the order in which they have been made. -/
abbrev Tables (τ : Type) := List (Table τ)

variable {τ ρ : Type} [DecidableEq τ]

/-- `getmetatable`. -/
def getmetatable (h : Tables τ) (r : Ref) : Option Ref := h[r]?.bind Table.metatable

/-- A field of a table or of the next that has it along `__index`, as far as some steps. -/
def field (get : Table τ → Option ρ) (h : Tables τ) : Nat → Ref → Option ρ
  | 0, _ => none
  | n + 1, r => h[r]?.bind get <|> (getmetatable h r).bind (field get h n)

/-- A field of a table. In as many steps as there are tables a chain ends or comes to a table again; the tables that
`Inherit` was called with, without which there is no cycle, have all fields. -/
def index (get : Table τ → Option ρ) (h : Tables τ) (r : Ref) : Option ρ := field get h (h.length + 1) r

/-- The loop of `SubClassOf`, as far as some turns. -/
def SubClassOf (h : Tables τ) (b : Ref) : Nat → Ref → Option Bool
  | 0, _ => none
  | n + 1, temp =>
    match getmetatable h temp with
    | none => some false
    | some temp => if temp = b then some true else SubClassOf h b n temp

/-- `InstanceOf`. -/
def InstanceOf (h : Tables τ) (n : Nat) (obj cls : Ref) : Option Bool :=
  if (index Table.ClassType h obj).isNone then some false else SubClassOf h cls n obj

/-- `CObject:GetType`. -/
def GetType (h : Tables τ) (self : Ref) : Option τ := index Table.ClassType h self

/-- `CObject:GetTypeMap`. -/
def GetTypeMap (h : Tables τ) (self : Ref) : Option (List τ) := (getmetatable h self).bind (index Table.InheritMap h)

/-- `table.ifind`. -/
def ifind (self : List τ) (value : Option τ) : Option Nat := self.findIdx? fun x => some x = value

/-- `CObject:IsSubObj`. -/
def IsSubObj (h : Tables τ) (self : Ref) (objtype : Option τ) : Bool :=
  match GetTypeMap h self with
  | none => false
  | some map => (ifind map objtype).isSome

/-- `CObject:Inherit`. -/
def Inherit (h : Tables τ) (self : Ref) (clsName : τ) (o : Option Ref) : Tables τ :=
  let made := if o.isNone then h ++ [⟨none, none, none, none⟩] else h
  let o := o.getD h.length
  let named := made.modify o fun t => { t with mt := some o, ClassType := some clsName, InheritMap := some [] }
  -- the table may be `self` or one of its ancestors, whose list is empty now
  let map := (index Table.InheritMap named self).getD [] ++ (GetType named self).toList
  named.modify o fun t => { t with InheritMap := some map, metatable := some self }

/-- `CObject:New`. -/
def New (h : Tables τ) (self : Ref) : Tables τ := h ++ [⟨none, none, none, index Table.mt h self⟩]

/-! ## The tree of classes -/

/-- What a table has been made as. -/
inductive Node (τ : Type)
  | cls (name : τ) (parent : Option Ref)
  | obj (cls : Ref)
  deriving DecidableEq

/-- What all tables have been made as. -/
abbrev Tree (τ : Type) := List (Node τ)

/-- A table is a class. -/
def IsClass (T : Tree τ) (c : Ref) : Prop := ∃ name parent, T[c]? = some (.cls name parent)

/-- A class is a proper ancestor of another one. -/
inductive Ancestor (T : Tree τ) : Ref → Ref → Prop
  | parent {c p : Ref} {name : τ} : T[c]? = some (.cls name (some p)) → Ancestor T p c
  | up {c p d : Ref} {name : τ} : T[c]? = some (.cls name (some p)) → Ancestor T d p → Ancestor T d c

/-- A call that makes a table. -/
inductive Call (τ : Type)
  | Inherit (self : Ref) (clsName : τ) (o : Option Ref)
  | New (self : Ref)

/-- The tables, and what they have been made as, which no code reads. -/
structure World (τ : Type) where
  tables : Tables τ
  tree : Tree τ

/-- `CObject` alone. -/
def World.init (CObject : τ) : World τ := ⟨[⟨some CObject, none, none, none⟩], [.cls CObject none]⟩

/-- A call. -/
def World.next (w : World τ) : Call τ → World τ
  | .Inherit self clsName none =>
    ⟨XCore.Hierarchy.Inherit w.tables self clsName none, w.tree ++ [.cls clsName (some self)]⟩
  | .Inherit self clsName (some o) =>
    ⟨XCore.Hierarchy.Inherit w.tables self clsName (some o), w.tree.set o (.cls clsName (some self))⟩
  | .New self => ⟨XCore.Hierarchy.New w.tables self, w.tree ++ [.obj self]⟩

/-- What some calls make. -/
def World.made (CObject : τ) (as : List (Call τ)) : World τ := as.foldl World.next (.init CObject)

/-- The methods of classes are called, with a name that no class has and without a table that becomes the class. -/
def OnClass (w : World τ) : Call τ → Prop
  | .Inherit self clsName o =>
    IsClass w.tree self ∧ (∀ (c : Ref) parent, w.tree[c]? ≠ some (Node.cls clsName parent)) ∧ o = none
  | .New self => IsClass w.tree self

/-! ## Lookup -/

/-- The `__index` of a table is an older table. -/
def Older (h : Tables τ) : Prop := ∀ r p, getmetatable h r = some p → p < r

section

variable {h : Tables τ} {get : Table τ → Option ρ}

omit [DecidableEq τ] in
theorem field_of_lt (hold : Older h) : ∀ {m n r : Nat}, r < m → r < n → field get h m r = field get h n r
  | 0, _, _, hm, _ => absurd hm (Nat.not_lt_zero _)
  | _ + 1, 0, _, _, hn => absurd hn (Nat.not_lt_zero _)
  | m + 1, n + 1, r, hm, hn => by
    rw [field, field]
    cases hmt : getmetatable h r with
    | none => rfl
    | some p =>
      have hp := hold r p hmt
      rw [Option.bind_some, Option.bind_some, field_of_lt hold (Nat.lt_of_lt_of_le hp (Nat.le_of_lt_succ hm))
        (Nat.lt_of_lt_of_le hp (Nat.le_of_lt_succ hn))]

omit [DecidableEq τ] in
theorem lt_of_getmetatable {r p : Ref} (hm : getmetatable h r = some p) : r < h.length := by
  unfold getmetatable at hm
  obtain ⟨t, ht, -⟩ := Option.bind_eq_some_iff.1 hm
  exact (List.getElem?_eq_some_iff.1 ht).1

omit [DecidableEq τ] in
theorem index_eq (hold : Older h) (r : Ref) :
    index get h r = (h[r]?.bind get <|> (getmetatable h r).bind (index get h)) := by
  rw [index, field]
  cases hm : getmetatable h r with
  | none => rfl
  | some p =>
    have hp : p < h.length := Nat.lt_trans (hold r p hm) (lt_of_getmetatable hm)
    rw [Option.bind_some, Option.bind_some, index, field_of_lt hold hp (Nat.lt_succ_of_lt hp)]

omit [DecidableEq τ] in
theorem getmetatable_append (e : Tables τ) {r : Ref} (hr : r < h.length) :
    getmetatable (h ++ e) r = getmetatable h r := by
  unfold getmetatable
  rw [List.getElem?_append_left hr]

omit [DecidableEq τ] in
/-- What is made later does not change what a table has. -/
theorem field_append (hold : Older h) (e : Tables τ) :
    ∀ (n : Nat) {r : Ref}, r < h.length → field get (h ++ e) n r = field get h n r
  | 0, _, _ => rfl
  | n + 1, r, hr => by
    rw [field, field, List.getElem?_append_left hr, getmetatable_append e hr]
    cases hm : getmetatable h r with
    | none => rfl
    | some p =>
      rw [Option.bind_some, Option.bind_some, field_append hold e n (Nat.lt_trans (hold r p hm) hr)]

omit [DecidableEq τ] in
theorem index_append (hold : Older h) (e : Tables τ) {r : Ref} (hr : r < h.length) :
    index get (h ++ e) r = index get h r := by
  have hr' : r < (h ++ e).length + 1 := by
    rw [List.length_append, Nat.add_right_comm]
    exact Nat.lt_add_right _ (Nat.lt_succ_of_lt hr)
  unfold index
  rw [field_append hold e _ hr, field_of_lt hold hr' (Nat.lt_succ_of_lt hr)]

omit [DecidableEq τ] in
/-- A class that is made anew. -/
theorem Inherit_none (hold : Older h) {self : Ref} (hself : self < h.length) (clsName : τ) :
    Inherit h self clsName none =
        h ++ [⟨some clsName, some ((index Table.InheritMap h self).getD [] ++ (GetType h self).toList), some h.length,
      some self⟩] := by
  have hmodify : ∀ (t : Table τ) (f : Table τ → Table τ), (h ++ [t]).modify h.length f = h ++ [f t] := by
    intro t f
    rw [List.modify_eq_take_cons_drop (by simp)]
    simp
  simp only [Inherit, Option.isNone_none, if_true, Option.getD_none, hmodify, GetType, index_append hold _ hself]

omit [DecidableEq τ] in
theorem SubClassOf_append (hold : Older h) (e : Tables τ) (b : Ref) : ∀ (n : Nat) {r : Ref}, r < h.length →
    SubClassOf (h ++ e) b n r = SubClassOf h b n r
  | 0, _, _ => rfl
  | n + 1, r, hr => by
    rw [SubClassOf, SubClassOf, getmetatable_append e hr]
    cases hm : getmetatable h r with
    | none => rfl
    | some p =>
      dsimp only
      rw [SubClassOf_append hold e b n (Nat.lt_trans (hold r p hm) hr)]

omit [DecidableEq τ] in
theorem InstanceOf_append (hold : Older h) (e : Tables τ) (n : Nat) (cls : Ref) {r : Ref} (hr : r < h.length) :
    InstanceOf (h ++ e) n r cls = InstanceOf h n r cls := by
  unfold InstanceOf
  rw [index_append hold e hr, SubClassOf_append hold e cls n hr]

theorem IsSubObj_append (hold : Older h) (e : Tables τ) (x : Option τ) {r : Ref} (hr : r < h.length) :
    IsSubObj (h ++ e) r x = IsSubObj h r x := by
  unfold IsSubObj GetTypeMap
  rw [getmetatable_append e hr]
  cases hm : getmetatable h r with
  | none => rfl
  | some p =>
    rw [Option.bind_some, Option.bind_some, index_append hold e (Nat.lt_trans (hold r p hm) hr)]

end

/-! ## Ancestors -/

/-- Parents are older. -/
def ParentsOlder (T : Tree τ) : Prop := ∀ (c p : Ref) name, T[c]? = some (Node.cls name (some p)) → p < c

section

variable {T : Tree τ} {c d : Ref}

omit [DecidableEq τ] in
theorem Ancestor.lt (hT : ParentsOlder T) (h : Ancestor T d c) : d < c := by
  induction h with
  | parent hc => exact hT _ _ _ hc
  | up hc _ ih => exact Nat.lt_trans ih (hT _ _ _ hc)

omit [DecidableEq τ] in
/-- The ancestors of a class are its parent and the ancestors of that. -/
theorem ancestor_iff {p : Ref} {name : τ} (hc : T[c]? = some (.cls name (some p))) :
    Ancestor T d c ↔ d = p ∨ Ancestor T d p := by
  constructor
  · intro h
    cases h with
    | parent hc' =>
      rw [hc] at hc'
      cases hc'
      exact Or.inl rfl
    | up hc' h =>
      rw [hc] at hc'
      cases hc'
      exact Or.inr h
  · rintro (rfl | h)
    · exact .parent hc
    · exact .up hc h

omit [DecidableEq τ] in
theorem not_ancestor_root {name : τ} (hc : T[c]? = some (.cls name none)) : ¬Ancestor T d c := by
  intro h
  cases h with
  | parent hc' => rw [hc] at hc'; cases hc'
  | up hc' _ => rw [hc] at hc'; cases hc'

omit [DecidableEq τ] in
/-- What is made later has no place among the ancestors. -/
theorem ancestor_append (hT : ParentsOlder T) (e : Tree τ) (hc : c < T.length) :
    Ancestor (T ++ e) d c ↔ Ancestor T d c := by
  constructor
  · intro h
    induction h with
    | parent h =>
      rw [List.getElem?_append_left hc] at h
      exact .parent h
    | up h _ ih =>
      rw [List.getElem?_append_left hc] at h
      exact .up h (ih (Nat.lt_trans (hT _ _ _ h) hc))
  · intro h
    induction h with
    | parent h => exact .parent (by rw [List.getElem?_append_left hc]; exact h)
    | up h _ ih => exact .up (by rw [List.getElem?_append_left hc]; exact h) (ih (Nat.lt_trans (hT _ _ _ h) hc))

omit [DecidableEq τ] in
theorem IsClass.lt (h : IsClass T c) : c < T.length := by
  obtain ⟨name, parent, h⟩ := h
  exact (List.getElem?_eq_some_iff.1 h).1

omit [DecidableEq τ] in
theorem IsClass.append (h : IsClass T c) (e : Tree τ) : IsClass (T ++ e) c := by
  obtain ⟨name, parent, hc⟩ := h
  exact ⟨name, parent, by rw [List.getElem?_append_left (IsClass.lt ⟨name, parent, hc⟩)]; exact hc⟩

end

/-! ## The invariant -/

/-- The names of the ancestors of a class. -/
def AncestorNames (T : Tree τ) (c : Ref) (m : List τ) : Prop :=
  ∀ x, x ∈ m ↔ ∃ (d : Ref) (parent : Option Ref), T[d]? = some (Node.cls x parent) ∧ Ancestor T d c

/-- A table is what it has been made as. -/
def Fits (T : Tree τ) (r : Ref) (t : Table τ) : Node τ → Prop
  | .cls name none => r = 0 ∧ t = ⟨some name, none, none, none⟩
  | .cls name (some p) => p < r ∧ IsClass T p ∧ ∃ m, t = ⟨some name, some m, some r, some p⟩ ∧ AncestorNames T r m
  | .obj c => c < r ∧ IsClass T c ∧ t = ⟨none, none, none, if c = 0 then none else some c⟩

/-- The tables are those of the tree. -/
structure Built (w : World τ) : Prop where
  length : w.tables.length = w.tree.length
  root : ∃ name, w.tree[0]? = some (.cls name none)
  fits : ∀ (r : Ref) node t, w.tree[r]? = some node → w.tables[r]? = some t → Fits w.tree r t node
  names : ∀ (c d : Ref) x p q, w.tree[c]? = some (Node.cls x p) → w.tree[d]? = some (Node.cls x q) → c = d

namespace Built

variable {w : World τ}

omit [DecidableEq τ] in
theorem init (CObject : τ) : Built (World.init CObject) where
  length := rfl
  root := ⟨CObject, rfl⟩
  fits r node t hnode ht := by
    cases r with
    | zero =>
      cases hnode
      cases ht
      exact ⟨rfl, rfl⟩
    | succ r => cases hnode
  names c d x p q hc hd := by
    cases c with
    | zero => cases d with
      | zero => rfl
      | succ d => cases hd
    | succ c => cases hc

omit [DecidableEq τ] in
/-- The table of a node. -/
theorem table (hw : Built w) {r : Ref} {node : Node τ} (hr : w.tree[r]? = some node) :
    ∃ t, w.tables[r]? = some t ∧ Fits w.tree r t node := by
  have hlt : r < w.tables.length := by
    rw [hw.length]
    exact (List.getElem?_eq_some_iff.1 hr).1
  exact ⟨_, List.getElem?_eq_getElem hlt, hw.fits r node _ hr (List.getElem?_eq_getElem hlt)⟩

omit [DecidableEq τ] in
theorem parentsOlder (hw : Built w) : ParentsOlder w.tree := by
  intro c p name hc
  obtain ⟨t, -, hp, -⟩ := hw.table hc
  exact hp

omit [DecidableEq τ] in
theorem older (hw : Built w) : Older w.tables := by
  intro r p hp
  unfold getmetatable at hp
  obtain ⟨t, ht, hp⟩ := Option.bind_eq_some_iff.1 hp
  have hlt : r < w.tree.length := by
    rw [← hw.length]
    exact (List.getElem?_eq_some_iff.1 ht).1
  have hfits := hw.fits r _ t (List.getElem?_eq_getElem hlt) ht
  generalize w.tree[r] = node at hfits
  cases node with
  | cls name parent =>
    cases parent with
    | none =>
      obtain ⟨-, rfl⟩ := hfits
      cases hp
    | some q =>
      obtain ⟨hq, -, m, rfl, -⟩ := hfits
      cases hp
      exact hq
  | obj c =>
    obtain ⟨hc, -, rfl⟩ := hfits
    dsimp only at hp
    split at hp
    · cases hp
    · cases hp
      exact hc

omit [DecidableEq τ] in
/-- The root is `CObject`. -/
theorem eq_zero (hw : Built w) {c : Ref} {name : τ} (hc : w.tree[c]? = some (.cls name none)) : c = 0 := by
  obtain ⟨t, -, h, -⟩ := hw.table hc
  exact h

omit [DecidableEq τ] in
/-- The name of a class. -/
theorem getType (hw : Built w) {c : Ref} {name : τ} {parent : Option Ref} (hc : w.tree[c]? = some (.cls name parent)) :
    GetType w.tables c = some name := by
  obtain ⟨t, ht, hfits⟩ := hw.table hc
  unfold GetType
  rw [index_eq hw.older, ht]
  cases parent with
  | none =>
    obtain ⟨-, rfl⟩ := hfits
    rfl
  | some p =>
    obtain ⟨-, -, m, rfl, -⟩ := hfits
    rfl

omit [DecidableEq τ] in
/-- The names of the ancestors, as `Inherit` finds them. -/
theorem inheritMap (hw : Built w) {c : Ref} {name : τ} {parent : Option Ref}
    (hc : w.tree[c]? = some (.cls name parent)) :
    AncestorNames w.tree c ((index Table.InheritMap w.tables c).getD []) := by
  obtain ⟨t, ht, hfits⟩ := hw.table hc
  rw [index_eq hw.older, getmetatable, ht]
  cases parent with
  | none =>
    obtain ⟨-, rfl⟩ := hfits
    intro x
    simp only [Option.bind_some, Option.bind_none, Option.getD_none, Option.orElse_eq_orElse, Option.orElse_none,
      List.not_mem_nil, false_iff, not_exists, not_and]
    exact fun _ _ _ => not_ancestor_root hc
  | some p =>
    obtain ⟨-, -, m, rfl, hm⟩ := hfits
    exact hm

end Built

section

variable {T : Tree τ} {w : World τ}

omit [DecidableEq τ] in
theorem AncestorNames.append (hT : ParentsOlder T) (e : Tree τ) {c : Ref} (hc : c < T.length) {m : List τ}
    (hm : AncestorNames T c m) : AncestorNames (T ++ e) c m := by
  intro x
  rw [hm x]
  constructor
  · rintro ⟨d, parent, hd, h⟩
    refine ⟨d, parent, ?_, (ancestor_append hT e hc).2 h⟩
    rw [List.getElem?_append_left (Nat.lt_trans (h.lt hT) hc)]
    exact hd
  · rintro ⟨d, parent, hd, h⟩
    have h' := (ancestor_append hT e hc).1 h
    rw [List.getElem?_append_left (Nat.lt_trans (h'.lt hT) hc)] at hd
    exact ⟨d, parent, hd, h'⟩

omit [DecidableEq τ] in
theorem Fits.append (hT : ParentsOlder T) (e : Tree τ) {r : Ref} (hr : r < T.length) {t : Table τ} {node : Node τ}
    (h : Fits T r t node) : Fits (T ++ e) r t node := by
  cases node with
  | cls name parent =>
    cases parent with
    | none => exact h
    | some p =>
      obtain ⟨hp, hcls, m, ht, hm⟩ := h
      exact ⟨hp, hcls.append e, m, ht, hm.append hT e hr⟩
  | obj c =>
    obtain ⟨hc, hcls, ht⟩ := h
    exact ⟨hc, hcls.append e, ht⟩

omit [DecidableEq τ] in
/-- A table is made. -/
theorem Built.made (hw : Built w) {t : Table τ} {node : Node τ} (hfits : Fits (w.tree ++ [node]) w.tree.length t node)
    (hname : ∀ x p, node = .cls x p → ∀ (c : Ref) q, w.tree[c]? ≠ some (.cls x q)) :
    Built ⟨w.tables ++ [t], w.tree ++ [node]⟩ where
  length := by simp [hw.length]
  root := by
    obtain ⟨name, hroot⟩ := hw.root
    exact ⟨name, by rw [List.getElem?_append_left (List.getElem?_eq_some_iff.1 hroot).1]; exact hroot⟩
  fits r node' t' hnode ht := by
    dsimp only at hnode ht
    by_cases hr : r < w.tree.length
    · rw [List.getElem?_append_left hr] at hnode
      rw [List.getElem?_append_left (by rw [hw.length]; exact hr)] at ht
      exact (hw.fits r node' t' hnode ht).append hw.parentsOlder [node] hr
    · have hlast : r = w.tree.length := by
        have hlen := (List.getElem?_eq_some_iff.1 hnode).1
        rw [List.length_append, List.length_singleton] at hlen
        exact Nat.le_antisymm (Nat.le_of_lt_succ hlen) (Nat.le_of_not_lt hr)
      subst hlast
      rw [List.getElem?_concat_length] at hnode
      rw [← hw.length, List.getElem?_concat_length] at ht
      cases hnode
      cases ht
      exact hfits
  names c d x p q hc hd := by
    have hcase : ∀ {i : Ref} {p : Option Ref}, (w.tree ++ [node])[i]? = some (.cls x p) →
        w.tree[i]? = some (.cls x p) ∨ i = w.tree.length ∧ node = .cls x p := by
      intro i p hi
      by_cases hlt : i < w.tree.length
      · rw [List.getElem?_append_left hlt] at hi
        exact Or.inl hi
      · have hlast : i = w.tree.length := by
          have hlen := (List.getElem?_eq_some_iff.1 hi).1
          rw [List.length_append, List.length_singleton] at hlen
          exact Nat.le_antisymm (Nat.le_of_lt_succ hlen) (Nat.le_of_not_lt hlt)
        subst hlast
        rw [List.getElem?_concat_length] at hi
        cases hi
        exact Or.inr ⟨rfl, rfl⟩
    rcases hcase hc with hc | ⟨rfl, hnode⟩
    · rcases hcase hd with hd | ⟨rfl, hnode'⟩
      · exact hw.names c d x p q hc hd
      · exact absurd hc (hname x q hnode' c p)
    · rcases hcase hd with hd | ⟨rfl, -⟩
      · exact absurd hd (hname x p hnode d q)
      · rfl

omit [DecidableEq τ] in
/-- **One call.** -/
theorem Built.next (hw : Built w) (a : Call τ) (ha : OnClass w a) : Built (w.next a) := by
  cases a with
  | Inherit self clsName o =>
    obtain ⟨hself, hnew, rfl⟩ := ha
    have hlt := hself.lt
    obtain ⟨name, parent, hcls⟩ := hself
    have hnext : w.next (.Inherit self clsName none) = ⟨w.tables ++ [_], w.tree ++ [.cls clsName (some self)]⟩ :=
      congrArg (World.mk · _) (Inherit_none hw.older (by rw [hw.length]; exact hlt) clsName)
    rw [hnext]
    refine hw.made ⟨hlt, IsClass.append ⟨name, parent, hcls⟩ _, _, by rw [← hw.length], ?_⟩ ?_
    · -- the ancestors are the parent and its ancestors
      have hnode : (w.tree ++ [.cls clsName (some self)])[w.tree.length]? = some (.cls clsName (some self)) :=
        List.getElem?_concat_length
      have hself' : (w.tree ++ [.cls clsName (some self)])[self]? = some (.cls name parent) := by
        rw [List.getElem?_append_left hlt]
        exact hcls
      have hnames := (hw.inheritMap hcls).append hw.parentsOlder [.cls clsName (some self)] hlt
      intro x
      rw [hw.getType hcls, Option.toList_some, List.mem_append, List.mem_singleton, hnames x]
      constructor
      · rintro (⟨d, q, hd, h⟩ | rfl)
        · exact ⟨d, q, hd, (ancestor_iff hnode).2 (Or.inr h)⟩
        · exact ⟨self, parent, hself', (ancestor_iff hnode).2 (Or.inl rfl)⟩
      · rintro ⟨d, q, hd, h⟩
        rcases (ancestor_iff hnode).1 h with rfl | h
        · rw [hself'] at hd
          cases hd
          exact Or.inr rfl
        · exact Or.inl ⟨d, q, hd, h⟩
    · rintro x p ⟨⟩
      exact hnew
  | New self =>
    have hlt := IsClass.lt ha
    obtain ⟨name, parent, hcls⟩ := ha
    have hmt : index Table.mt w.tables self = if self = 0 then none else some self := by
      obtain ⟨t, ht, hfits⟩ := hw.table hcls
      rw [index_eq hw.older, getmetatable, ht]
      cases parent with
      | none =>
        obtain ⟨rfl, rfl⟩ := hfits
        rfl
      | some p =>
        obtain ⟨hp, -, m, rfl, -⟩ := hfits
        rw [if_neg (Nat.ne_zero_of_lt hp)]
        rfl
    refine hw.made ⟨hlt, IsClass.append ⟨name, parent, hcls⟩ _, ?_⟩ nofun
    rw [hmt]

end

/-! ## The answers -/

namespace Built

variable {w : World τ}

omit [DecidableEq τ] in
/-- The loop of `SubClassOf` from a class ends within as many turns as there are older tables, and finds its
ancestors. -/
theorem subClassOf (hw : Built w) (b : Ref) : ∀ {n : Nat} {c : Ref}, IsClass w.tree c → c < n →
    ∃ r, SubClassOf w.tables b n c = some r ∧ (r = true ↔ Ancestor w.tree b c)
  | 0, _, _, hn => absurd hn (Nat.not_lt_zero _)
  | n + 1, c, ⟨name, parent, hc⟩, hn => by
    obtain ⟨t, ht, hfits⟩ := hw.table hc
    rw [SubClassOf, getmetatable, ht]
    cases parent with
    | none =>
      obtain ⟨-, rfl⟩ := hfits
      exact ⟨false, rfl, iff_of_false Bool.false_ne_true (not_ancestor_root hc)⟩
    | some p =>
      obtain ⟨hp, hcls, m, rfl, -⟩ := hfits
      rw [ancestor_iff hc, Option.bind_some]
      dsimp only
      by_cases hpb : p = b
      · rw [if_pos hpb]
        exact ⟨true, rfl, iff_of_true rfl (Or.inl hpb.symm)⟩
      · rw [if_neg hpb]
        obtain ⟨r, hr, hiff⟩ := subClassOf hw b hcls (Nat.lt_of_lt_of_le hp (Nat.le_of_lt_succ hn))
        exact ⟨r, hr, hiff.trans (by rw [or_iff_right fun h => hpb h.symm])⟩

variable {obj C : Ref}

omit [DecidableEq τ] in
theorem getmetatable_obj (hw : Built w) (hobj : w.tree[obj]? = some (.obj C)) (hC : C ≠ 0) :
    getmetatable w.tables obj = some C ∧ C < obj ∧ IsClass w.tree C := by
  obtain ⟨t, ht, hlt, hcls, rfl⟩ := hw.table hobj
  unfold getmetatable
  rw [ht, Option.bind_some, if_neg hC]
  exact ⟨rfl, hlt, hcls⟩

omit [DecidableEq τ] in
/-- `InstanceOf` for an object. -/
theorem instanceOf (hw : Built w) (hobj : w.tree[obj]? = some (.obj C)) (hC : C ≠ 0) (D : Ref) {n : Nat}
    (hn : obj < n) :
    ∃ b, InstanceOf w.tables n obj D = some b ∧ (b = true ↔ D = C ∨ Ancestor w.tree D C) := by
  obtain ⟨hm, hlt, hcls⟩ := hw.getmetatable_obj hobj hC
  have htype : (index Table.ClassType w.tables obj).isNone = false := by
    obtain ⟨name, parent, hc⟩ := hcls
    obtain ⟨t, ht, -, -, rfl⟩ := hw.table hobj
    have hC' := hw.getType hc
    unfold GetType at hC'
    rw [index_eq hw.older, hm, ht, Option.bind_some, Option.bind_some, hC']
    rfl
  cases n with
  | zero => exact absurd hn (Nat.not_lt_zero _)
  | succ n =>
    unfold InstanceOf
    rw [htype, SubClassOf, hm]
    dsimp only
    rw [if_neg Bool.false_ne_true]
    by_cases hCD : C = D
    · rw [if_pos hCD]
      exact ⟨true, rfl, iff_of_true rfl (Or.inl hCD.symm)⟩
    · rw [if_neg hCD]
      obtain ⟨b, hb, hiff⟩ := hw.subClassOf D hcls (Nat.lt_of_lt_of_le hlt (Nat.le_of_lt_succ hn))
      exact ⟨b, hb, hiff.trans (by rw [or_iff_right fun h => hCD h.symm])⟩

/-- `IsSubObj` for an object. -/
theorem isSubObj (hw : Built w) (hobj : w.tree[obj]? = some (.obj C)) (hC : C ≠ 0) {D : Ref} (hD : IsClass w.tree D) :
    IsSubObj w.tables obj (GetType w.tables D) = true ↔ Ancestor w.tree D C := by
  obtain ⟨hm, -, name, parent, hc⟩ := hw.getmetatable_obj hobj hC
  obtain ⟨x, q, hd⟩ := hD
  obtain ⟨t, ht, hfits⟩ := hw.table hc
  cases parent with
  | none => exact absurd (hw.eq_zero hc) hC
  | some p =>
    obtain ⟨-, -, m, rfl, hnames⟩ := hfits
    have hmap : GetTypeMap w.tables obj = some m := by
      unfold GetTypeMap
      rw [hm, Option.bind_some, index_eq hw.older, ht]
      rfl
    have hfind : (ifind m (some x)).isSome = true ↔ x ∈ m := by
      unfold ifind
      rw [List.findIdx?_isSome, List.any_eq_true]
      simp
    unfold IsSubObj
    rw [hmap, hw.getType hd]
    dsimp only
    rw [hfind, hnames x]
    constructor
    · rintro ⟨d, q', hd', h⟩
      rw [hw.names D d x q q' hd hd']
      exact h
    · exact fun h => ⟨D, q, hd, h⟩

end Built

/-! ## Runs -/

omit [DecidableEq τ] in
theorem tables_next {w : World τ} (hw : Built w) {a : Call τ} (ha : OnClass w a) : w.tables <+: (w.next a).tables := by
  cases a with
  | Inherit self clsName o =>
    obtain ⟨hself, -, rfl⟩ := ha
    have hlt : self < w.tables.length := by
      rw [hw.length]
      exact hself.lt
    exact ⟨_, (Inherit_none hw.older hlt clsName).symm⟩
  | New self => exact List.prefix_append _ _

omit [DecidableEq τ] in
theorem tables_run : ∀ {as : List (Call τ)} {w : World τ}, Built w → Along World.next OnClass w as →
    w.tables <+: (as.foldl World.next w).tables
  | [], _, _, _ => List.prefix_rfl
  | a :: _, _, hw, h => (tables_next hw h.1).trans (tables_run (hw.next a h.1) h.2)

/-- **The hierarchy of classes**: after a run, for an object of a class other than `CObject` and any class, `InstanceOf`
ends and tells whether that is the class of the object or an ancestor, `IsSubObj` whether it is an ancestor; and no
later run changes an `__InheritMap` or an answer. -/
theorem hierarchy_agrees (CObject : τ) (as bs : List (Call τ))
    (h : Along World.next OnClass (World.init CObject) (as ++ bs)) :
    (∀ obj C D, (World.made CObject as).tree[obj]? = some (Node.obj C) → C ≠ 0 →
      IsClass (World.made CObject as).tree D →
      (∀ n, obj < n → ∃ b, InstanceOf (World.made CObject as).tables n obj D = some b ∧
        (b = true ↔ D = C ∨ Ancestor (World.made CObject as).tree D C)) ∧
      (IsSubObj (World.made CObject as).tables obj (GetType (World.made CObject as).tables D) = true ↔
        Ancestor (World.made CObject as).tree D C)) ∧
    ∀ r, r < (World.made CObject as).tables.length →
      (World.made CObject (as ++ bs)).tables[r]? = (World.made CObject as).tables[r]? ∧
      (∀ n D, InstanceOf (World.made CObject (as ++ bs)).tables n r D =
        InstanceOf (World.made CObject as).tables n r D) ∧
      ∀ x, IsSubObj (World.made CObject (as ++ bs)).tables r x = IsSubObj (World.made CObject as).tables r x := by
  have hw : Built (World.made CObject as) :=
    Throughout.last ((along_append.1 h).1.throughout (I := Built) (fun w a hw ha => hw.next a ha) (Built.init CObject))
  refine ⟨fun obj C D hobj hC hD => ⟨fun n hn => hw.instanceOf hobj hC D hn, hw.isSubObj hobj hC hD⟩, fun r hr => ?_⟩
  have hrun : World.made CObject (as ++ bs) = bs.foldl World.next (World.made CObject as) := List.foldl_append
  obtain ⟨e, he⟩ := tables_run hw (along_append.1 h).2
  rw [hrun, ← he]
  exact ⟨List.getElem?_append_left hr, fun n D => InstanceOf_append hw.older e n D hr,
    fun x => IsSubObj_append hw.older e x hr⟩

/-- Two classes under `CObject`, a class under the first, and objects of two of them. -/
def twoBranches : List (Call String) :=
  [.Inherit 0 "CTcpServer" none, .Inherit 0 "CRedis" none, .Inherit 1 "CGate" none, .New 3, .New 2]

/-- An object of the class below is one of all classes above, and of no other. -/
theorem hierarchy_agrees_twoBranches :
    (∃ b, InstanceOf (World.made "CObject" twoBranches).tables 5 4 1 = some b ∧
      (b = true ↔ 1 = 3 ∨ Ancestor (World.made "CObject" twoBranches).tree 1 3)) ∧
    (IsSubObj (World.made "CObject" twoBranches).tables 4 (GetType (World.made "CObject" twoBranches).tables 2) = true ↔
      Ancestor (World.made "CObject" twoBranches).tree 2 3) := by
  have hnew : ∀ (T : Tree String) (x : String), (∀ n ∈ T, ∀ parent, n ≠ .cls x parent) →
      ∀ (c : Ref) parent, T[c]? ≠ some (.cls x parent) :=
    fun T x hT c parent hc => hT _ (List.mem_of_getElem? hc) parent rfl
  have h := hierarchy_agrees "CObject" twoBranches [] ⟨⟨⟨_, _, rfl⟩, hnew _ _ (by simp [World.init]), rfl⟩,
    ⟨⟨_, _, rfl⟩, hnew _ _ (by simp [World.init, World.next]), rfl⟩,
    ⟨⟨_, _, rfl⟩, hnew _ _ (by simp [World.init, World.next]), rfl⟩, ⟨_, _, rfl⟩, ⟨_, _, rfl⟩, trivial⟩
  exact ⟨(h.1 4 3 1 rfl (by decide) ⟨_, _, rfl⟩).1 5 (by decide), (h.1 4 3 2 rfl (by decide) ⟨_, _, rfl⟩).2⟩

/-- An object of `CObject` itself has no metatable, so it is no instance of its class. -/
theorem object_of_root : (World.made "CObject" [.New 0]).tree[1]? = some (Node.obj 0) ∧
    ¬∃ n b, InstanceOf (World.made "CObject" [.New 0]).tables n 1 0 = some b ∧
      (b = true ↔ 0 = 0 ∨ Ancestor (World.made "CObject" [.New 0]).tree 0 0) := by
  refine ⟨rfl, ?_⟩
  rintro ⟨n, b, hb, hiff⟩
  unfold InstanceOf at hb
  rw [if_pos (by decide)] at hb
  cases hb
  exact Bool.false_ne_true (hiff.2 (Or.inl rfl))

/-- A class `B` under `A`, an object of it, and `B` given to `CObject:Inherit` as the table of a class `C`: the object
is no instance of `A` any more, and has another list of types. -/
theorem reparented :
    InstanceOf (World.made "CObject" [.Inherit 0 "A" none, .Inherit 1 "B" none, .New 2]).tables 4 3 1 = some true ∧
    InstanceOf (World.made "CObject" [.Inherit 0 "A" none, .Inherit 1 "B" none, .New 2,
      .Inherit 0 "C" (some 2)]).tables 4 3 1 =
      some false ∧
    GetTypeMap (World.made "CObject" [.Inherit 0 "A" none, .Inherit 1 "B" none, .New 2]).tables 3 =
        some ["CObject", "A"] ∧
    GetTypeMap (World.made "CObject" [.Inherit 0 "A" none, .Inherit 1 "B" none, .New 2,
      .Inherit 0 "C" (some 2)]).tables 3 =
      some ["CObject"] := by
  decide

/-- An object of `CObject` is no instance of it, and a class that is made anew from another one changes the answers. -/
theorem hierarchy_disagrees :
    ((World.made "CObject" [.New 0]).tree[1]? = some (Node.obj 0) ∧
      ¬∃ n b, InstanceOf (World.made "CObject" [.New 0]).tables n 1 0 = some b ∧
        (b = true ↔ 0 = 0 ∨ Ancestor (World.made "CObject" [.New 0]).tree 0 0)) ∧
    InstanceOf (World.made "CObject" [.Inherit 0 "A" none, .Inherit 1 "B" none, .New 2,
      .Inherit 0 "C" (some 2)]).tables 4 3 1 ≠
      InstanceOf (World.made "CObject" [.Inherit 0 "A" none, .Inherit 1 "B" none, .New 2]).tables 4 3 1 := by
  refine ⟨object_of_root, ?_⟩
  rw [reparented.1, reparented.2.1]
  decide

end XCore.Hierarchy
