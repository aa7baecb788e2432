import XCore.Net.RoundTrip

/-!
# Values under other primitives

A tuple whose base values are valid for other primitives `Q` is a tuple for `Q` (`Tuple.recast`): the table, the nesting
and the arrays are the same, and so is the encoding if the primitives write the same (`Tuple.enc_recast`).
-/

namespace XCore.Net

section All

variable {B O : Type} {P : Prims B O} {Γ : NetType} (V : Prim → Bool → B → Prop)

mutual

/-- What all base values of a tuple are. -/
def Tuple.All : {args : List Arg} → Tuple P Γ args → Prop
  | _, .nil => True
  | _, .cons v vs => v.All ∧ vs.All

def Value.All : {a : Arg} → Value P Γ a → Prop
  | a, .base prim _ b _ => V prim a.argnum.isSome b
  | _, .struct _ _ _ v => v.All
  | _, .list _ _ _ vs => vs.All

def Elems.All : {args : List Arg} → Elems P Γ args → Prop
  | _, .nil => True
  | _, .cons v vs => v.All ∧ vs.All

end

end All

section Recast

variable {B O O' : Type} {P : Prims B O} {Γ : NetType} (Q : Prims B O')

mutual

/-- A tuple for other primitives. -/
def Tuple.recast : {args : List Arg} → (v : Tuple P Γ args) → v.All Q.Valid → Tuple Q Γ args
  | _, .nil, _ => .nil
  | _, .cons v vs, h => .cons (v.recast h.1) (vs.recast h.2)

def Value.recast : {a : Arg} → (v : Value P Γ a) → v.All Q.Valid → Value Q Γ a
  | _, .base prim hprim b _, h => .base prim hprim b h
  | _, .struct hprim hnum hargs v, h => .struct hprim hnum hargs (v.recast h)
  | _, .list hprim hnum hargs vs, h => .list hprim hnum hargs (vs.recast h)

def Elems.recast : {args : List Arg} → (vs : Elems P Γ args) → vs.All Q.Valid → Elems Q Γ args
  | _, .nil, _ => .nil
  | _, .cons v vs, h => .cons (v.recast h.1) (vs.recast h.2)

end

variable {Q}

@[simp] theorem Elems.length_recast : ∀ {args : List Arg} (vs : Elems P Γ args) (h : vs.All Q.Valid),
    (vs.recast Q h).length = vs.length
  | _, .nil, _ => rfl
  | _, .cons _ vs, h => congrArg (· + 1) (Elems.length_recast vs h.2)

mutual

/-- The table stays the same. -/
theorem Tuple.table_recast : ∀ {args : List Arg} (v : Tuple P Γ args) (h : v.All Q.Valid) (showname : Bool) (k : Nat),
    (v.recast Q h).table showname k = v.table showname k
  | _, .nil, _, _, _ => rfl
  | _, .cons v vs, h, showname, k => by
    rw [Tuple.recast, Tuple.table, Tuple.table, Value.val_recast v h.1, Tuple.table_recast vs h.2]

theorem Value.val_recast : ∀ {a : Arg} (v : Value P Γ a) (h : v.All Q.Valid), (v.recast Q h).val = v.val
  | _, .base .., _ => rfl
  | _, .struct _ _ _ v, h => congrArg Val.table (Tuple.table_recast v h true 1)
  | _, .list _ _ _ vs, h => congrArg Val.table (Elems.table_recast vs h 1)

theorem Elems.table_recast : ∀ {args : List Arg} (vs : Elems P Γ args) (h : vs.All Q.Valid) (i : Nat),
    (vs.recast Q h).table i = vs.table i
  | _, .nil, _, _ => rfl
  | _, .cons v vs, h, i => by
    rw [Elems.recast, Elems.table, Elems.table, Tuple.table_recast v h.1, Elems.table_recast vs h.2]

end

mutual

theorem Tuple.depth_recast : ∀ {args : List Arg} (v : Tuple P Γ args) (h : v.All Q.Valid),
    (v.recast Q h).depth = v.depth
  | _, .nil, _ => rfl
  | _, .cons v vs, h => by
    rw [Tuple.recast, Tuple.depth, Tuple.depth, Value.depth_recast v h.1, Tuple.depth_recast vs h.2]

theorem Value.depth_recast : ∀ {a : Arg} (v : Value P Γ a) (h : v.All Q.Valid), (v.recast Q h).depth = v.depth
  | _, .base .., _ => rfl
  | _, .struct _ _ _ v, h => congrArg (· + 1) (Tuple.depth_recast v h)
  | _, .list _ _ _ vs, h => congrArg (· + 1) (Elems.depth_recast vs h)

theorem Elems.depth_recast : ∀ {args : List Arg} (vs : Elems P Γ args) (h : vs.All Q.Valid),
    (vs.recast Q h).depth = vs.depth
  | _, .nil, _ => rfl
  | _, .cons v vs, h => by
    rw [Elems.recast, Elems.depth, Elems.depth, Tuple.depth_recast v h.1, Elems.depth_recast vs h.2]

end

mutual

theorem Tuple.counted_recast : ∀ {args : List Arg} (v : Tuple P Γ args) (h : v.All Q.Valid),
    v.Counted → (v.recast Q h).Counted
  | _, .nil, _, _ => trivial
  | _, .cons v vs, h, hc => ⟨Value.counted_recast v h.1 hc.1, Tuple.counted_recast vs h.2 hc.2⟩

theorem Value.counted_recast : ∀ {a : Arg} (v : Value P Γ a) (h : v.All Q.Valid), v.Counted → (v.recast Q h).Counted
  | _, .base .., _, _ => trivial
  | _, .struct _ _ _ v, h, hc => Tuple.counted_recast v h hc
  | _, .list _ _ _ vs, h, hc => ⟨(Elems.length_recast vs h).trans_lt hc.1, Elems.counted_recast vs h hc.2⟩

theorem Elems.counted_recast : ∀ {args : List Arg} (vs : Elems P Γ args) (h : vs.All Q.Valid),
    vs.Counted → (vs.recast Q h).Counted
  | _, .nil, _, _ => trivial
  | _, .cons v vs, h, hc => ⟨Tuple.counted_recast v h.1 hc.1, Elems.counted_recast vs h.2 hc.2⟩

end

mutual

theorem Tuple.empty_recast : ∀ {args : List Arg} (v : Tuple P Γ args) (h : v.All Q.Valid),
    (v.recast Q h).Empty ↔ v.Empty
  | _, .nil, _ => Iff.rfl
  | _, .cons v vs, h => and_congr (Value.empty_recast v h.1) (Tuple.empty_recast vs h.2)

theorem Value.empty_recast : ∀ {a : Arg} (v : Value P Γ a) (h : v.All Q.Valid), (v.recast Q h).Empty ↔ v.Empty
  | _, .base .., _ => Iff.rfl
  | _, .struct _ _ _ v, h => Tuple.empty_recast v h
  | _, .list .., _ => Iff.rfl

end

mutual

theorem Tuple.structsEmpty_recast : ∀ {args : List Arg} (v : Tuple P Γ args) (h : v.All Q.Valid),
    v.StructsEmpty → (v.recast Q h).StructsEmpty
  | _, .nil, _, _ => trivial
  | _, .cons v vs, h, hs => ⟨Value.structsEmpty_recast v h.1 hs.1, Tuple.structsEmpty_recast vs h.2 hs.2⟩

theorem Value.structsEmpty_recast : ∀ {a : Arg} (v : Value P Γ a) (h : v.All Q.Valid),
    v.StructsEmpty → (v.recast Q h).StructsEmpty
  | _, .base .., _, _ => trivial
  | _, .struct _ _ _ v, h, hs => (Tuple.empty_recast v h).2 hs
  | _, .list _ _ _ vs, h, hs => Elems.structsEmpty_recast vs h hs

theorem Elems.structsEmpty_recast : ∀ {args : List Arg} (vs : Elems P Γ args) (h : vs.All Q.Valid),
    vs.StructsEmpty → (vs.recast Q h).StructsEmpty
  | _, .nil, _, _ => trivial
  | _, .cons v vs, h, hs => ⟨Tuple.structsEmpty_recast v h.1 hs.1, Elems.structsEmpty_recast vs h.2 hs.2⟩

end

section Enc

set_option linter.unusedSectionVars false

variable {f : O' → List O} (hbytes : ∀ prim b, (Q.bytes prim b).flatMap f = P.bytes prim b)
  (hcount : ∀ n, Q.count n = P.count n)
include hbytes hcount

mutual

/-- The encoding stays the same when the primitives write the same. -/
theorem Tuple.enc_recast : ∀ {args : List Arg} (v : Tuple P Γ args) (h : v.All Q.Valid),
    (v.recast Q h).enc.flatMap f = v.enc
  | _, .nil, _ => rfl
  | _, .cons v vs, h => by
    rw [Tuple.recast, Tuple.enc, Tuple.enc, List.flatMap_append, Value.enc_recast v h.1, Tuple.enc_recast vs h.2]

theorem Value.enc_recast : ∀ {a : Arg} (v : Value P Γ a) (h : v.All Q.Valid), (v.recast Q h).enc.flatMap f = v.enc
  | _, .base prim _ b _, _ => hbytes prim b
  | _, .struct _ _ _ v, h => Tuple.enc_recast v h
  | _, .list hprim hnum hargs vs, h => by
    have hvs : vs.All Q.Valid := h
    change (Q.bytes .Uint16 (Q.count (vs.recast Q hvs).length) ++ (vs.recast Q hvs).enc).flatMap f = _
    rw [Value.enc, List.flatMap_append, hbytes, hcount, vs.length_recast, Elems.enc_recast vs hvs]

theorem Elems.enc_recast : ∀ {args : List Arg} (vs : Elems P Γ args) (h : vs.All Q.Valid),
    (vs.recast Q h).enc.flatMap f = vs.enc
  | _, .nil, _ => rfl
  | _, .cons v vs, h => by
    rw [Elems.recast, Elems.enc, Elems.enc, List.flatMap_append, Tuple.enc_recast v h.1, Elems.enc_recast vs h.2]

end

end Enc

end Recast

end XCore.Net
