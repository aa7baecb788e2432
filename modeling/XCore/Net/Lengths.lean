import Mathlib.Data.Int.ModEq
import XCore.Net.CSharp

/-!
# The lengths of exported buffers (`tocsharp.lua`)

`Length()` counts one byte for the length of a list in a structure and two for that of a list in a message, of a fixed
length or not. `Write` writes two bytes for a list of any length and none for one of a fixed length; and it writes the
items of the latter in a loop whose counter is a `byte`.

So a buffer is filled exactly by the values for which these differences cancel (`length_exact`).

- `Item.size`, `Members.size`: what `Write` writes; `Item.excess`, `Members.excess`: what `Length()` counts more;
- `Item.length_modEq`, `Item.write_length` and their like: what they return, if they do;
- `Item.length_returns`, `Item.write_returns`: when they do.
-/

namespace XCore.Net

open XCore.Lua

/-- `Length()` of a message. -/
def csMessageLength (Γ : NetType) (fuel : Nat) (args : List Arg) (vs : List CsVal) : Option Nat :=
  (csFieldsLength (csLength Γ fuel) 2 args vs).map (· % 65536)

/-! ## Values -/

section Values

variable (Γ : NetType)

mutual

/-- A value of a type; strings are short and of ASCII. -/
inductive Item : CsType → Type
  | bool (b : Bool) : Item .bool
  | num {fmt : Fmt} (bits : Nat) (h : bits < 256 ^ fmt.size) : Item (.num fmt)
  | str (s : Bytes) (hlen : s.length ≤ 127) (hascii : ∀ b ∈ s, b < 128) : Item .string
  | struct {name : String} {args : List Arg} (hargs : Γ.types.lookup name = some args) (vs : Members args) :
      Item (.custom name)

/-- The items of a list. -/
inductive Items : CsType → Nat → Type
  | nil {t : CsType} : Items t 0
  | cons {t : CsType} {n : Nat} (v : Item t) (vs : Items t n) : Items t (n + 1)

/-- A member: a value, a list of any length, or one of the length that the schema gives. -/
inductive Member : Arg → Type
  | one {a : Arg} {t : CsType} (ht : dataTrans a.argtype = some t) (hs : shape a.argnum = .one) (v : Item t) : Member a
  | list0 {a : Arg} {t : CsType} {n : Nat} (ht : dataTrans a.argtype = some t) (hs : shape a.argnum = .list0)
      (vs : Items t n) :
    Member a
  | listN {a : Arg} {t : CsType} {count : Nat} (ht : dataTrans a.argtype = some t) (hs : shape a.argnum = .listN count)
    (vs : Items t count) : Member a

/-- The members of a structure or a message. -/
inductive Members : List Arg → Type
  | nil : Members []
  | cons {a : Arg} {args : List Arg} (v : Member a) (vs : Members args) : Members (a :: args)

end

variable {Γ}

mutual

/-- The C# value. -/
def Item.cs : {t : CsType} → Item Γ t → CsVal
  | _, .bool b => .num (if b then 1 else 0)
  | _, .num bits _ => .num bits
  | _, .str s _ _ => .str s
  | _, .struct _ vs => .struct vs.cs

def Items.cs : {t : CsType} → {n : Nat} → Items Γ t n → List CsVal
  | _, _, .nil => []
  | _, _, .cons v vs => v.cs :: vs.cs

def Member.cs : {a : Arg} → Member Γ a → CsVal
  | _, .one _ _ v => v.cs
  | _, .list0 _ _ vs => .list vs.cs
  | _, .listN _ _ vs => .list vs.cs

def Members.cs : {args : List Arg} → Members Γ args → List CsVal
  | _, .nil => []
  | _, .cons v vs => v.cs :: vs.cs

end

mutual

/-- The bytes that are written: two for the length of a list without a fixed length. -/
def Item.size : {t : CsType} → Item Γ t → Nat
  | _, .bool _ => CsType.bool.size
  | .num fmt, .num _ _ => fmt.size
  | _, .str s _ _ => 1 + s.length
  | _, .struct _ vs => vs.size

def Items.size : {t : CsType} → {n : Nat} → Items Γ t n → Nat
  | _, _, .nil => 0
  | _, _, .cons v vs => v.size + vs.size

def Member.size : {a : Arg} → Member Γ a → Nat
  | _, .one _ _ v => v.size
  | _, .list0 _ _ vs => 2 + vs.size
  | _, .listN _ _ vs => vs.size

def Members.size : {args : List Arg} → Members Γ args → Nat
  | _, .nil => 0
  | _, .cons v vs => v.size + vs.size

end

mutual

/-- What is counted and not written: in a structure one byte more for each list of a fixed length, and one less for each
other. -/
def Item.excess : {t : CsType} → Item Γ t → Int
  | _, .bool _ => 0
  | _, .num _ _ => 0
  | _, .str _ _ _ => 0
  | _, .struct _ vs => vs.excess 1

def Items.excess : {t : CsType} → {n : Nat} → Items Γ t n → Int
  | _, _, .nil => 0
  | _, _, .cons v vs => v.excess + vs.excess

/-- The same for a member, if `head` bytes are counted for the length of a list. -/
def Member.excess (head : Nat) : {a : Arg} → Member Γ a → Int
  | _, .one _ _ v => v.excess
  | _, .list0 _ _ vs => head - 2 + vs.excess
  | _, .listN _ _ vs => head + vs.excess

def Members.excess (head : Nat) : {args : List Arg} → Members Γ args → Int
  | _, .nil => 0
  | _, .cons v vs => v.excess head + vs.excess head

end

mutual

/-- No list of a fixed length has more than 255 items. -/
def Item.Short : {t : CsType} → Item Γ t → Prop
  | _, .bool _ => True
  | _, .num _ _ => True
  | _, .str _ _ _ => True
  | _, .struct _ vs => vs.Short

def Items.Short : {t : CsType} → {n : Nat} → Items Γ t n → Prop
  | _, _, .nil => True
  | _, _, .cons v vs => v.Short ∧ vs.Short

def Member.Short : {a : Arg} → Member Γ a → Prop
  | _, .one _ _ v => v.Short
  | _, .list0 _ _ vs => vs.Short
  | _, @Member.listN _ _ _ count _ _ vs => count ≤ 255 ∧ vs.Short

def Members.Short : {args : List Arg} → Members Γ args → Prop
  | _, .nil => True
  | _, .cons v vs => v.Short ∧ vs.Short

end

end Values

/-! ## What the pieces return -/

section Pieces

variable {Γ : NetType}

theorem charsOf_ascii {b : UInt8} (h : b < 128) : charsOf b = 1 := if_pos h

/-- A string of ASCII has as many characters as bytes. -/
theorem utf16Length_ascii {s : Bytes} (h : ∀ b ∈ s, b < 128) : utf16Length s = s.length := by
  unfold utf16Length
  rw [List.map_congr_left fun b hb => charsOf_ascii (h b hb)]
  simp

theorem sevenBit_short {n : Nat} (h : n ≤ 127) : (sevenBit n).length = 1 := by
  rw [sevenBit, if_pos (by omega)]
  rfl

theorem csFieldLength_one {call : String → CsVal → Option Nat} {head : Nat} {a : Arg} {t : CsType}
    (ht : dataTrans a.argtype = some t)
    (hs : shape a.argnum = .one) (v : CsVal) : csFieldLength call head a v = csItemLength call t v := by
  simp only [csFieldLength, ht, hs, Option.bind_eq_bind, Option.bind_some]

theorem csFieldLength_list {call : String → CsVal → Option Nat} {head : Nat} {a : Arg} {t : CsType}
    (ht : dataTrans a.argtype = some t)
    (hs : shape a.argnum ≠ .one) (l : List CsVal) :
    csFieldLength call head a (.list l) = (csItemsLength call t l).map (head + ·) := by
  simp only [csFieldLength, ht, Option.bind_eq_bind, Option.bind_some]

theorem csLength_struct {fuel : Nat} {name : String} {args : List Arg} (hargs : Γ.types.lookup name = some args)
    (l : List CsVal) :
    csLength Γ (fuel + 1) name (.struct l) = (csFieldsLength (csLength Γ fuel) 1 args l).map (· % 65536) := by
  simp only [csLength, hargs, Option.bind_eq_bind, Option.bind_some]

theorem csWriteField_one {call : String → CsVal → Option Bytes} {fuel : Nat} {a : Arg} {t : CsType}
    (ht : dataTrans a.argtype = some t) (hs : shape a.argnum = .one) (v : CsVal) :
    csWriteField call fuel a v = csWriteItem call t v := by
  simp only [csWriteField, ht, hs, Option.bind_eq_bind, Option.bind_some]

theorem csWriteField_list0 {call : String → CsVal → Option Bytes} {fuel : Nat} {a : Arg} {t : CsType}
    (ht : dataTrans a.argtype = some t) (hs : shape a.argnum = .list0) (l : List CsVal) :
    csWriteField call fuel a (.list l) = (csWriteItems (csWriteItem call t) l).map (leBytes 2 l.length ++ ·) := by
  simp only [csWriteField, ht, hs, Option.bind_eq_bind, Option.bind_some]

theorem csWriteField_listN {call : String → CsVal → Option Bytes} {fuel count : Nat} {a : Arg} {t : CsType}
    (ht : dataTrans a.argtype = some t) (hs : shape a.argnum = .listN count) (l : List CsVal) :
    csWriteField call fuel a (.list l) = csWriteFor (csWriteItem call t) count l fuel 0 := by
  simp only [csWriteField, ht, hs, Option.bind_eq_bind, Option.bind_some]

theorem csWriteStruct_struct {fuel : Nat} {name : String} {args : List Arg} (hargs : Γ.types.lookup name = some args)
    (l : List CsVal) : csWriteStruct Γ (fuel + 1) name (.struct l) =
        csWriteFields (csWriteStruct Γ fuel) fuel args l := by
  simp only [csWriteStruct, hargs, Option.bind_eq_bind, Option.bind_some]

theorem mod_modEq {n : Nat} {x : Int} (h : (n : Int) ≡ x [ZMOD 65536]) :
    ((n % 65536 : Nat) : Int) ≡ x [ZMOD 65536] := by
  rw [Int.natCast_mod]
  exact (Int.mod_modEq _ _).trans h

/-! ## What `Length()` returns -/

mutual

/-- **What is counted** for a value is what is written and the excess. -/
theorem Item.length_modEq : {t : CsType} → (v : Item Γ t) → {fuel n : Nat} →
    csItemLength (csLength Γ fuel) t v.cs = some n → (n : Int) ≡ v.size + v.excess [ZMOD 65536]
  | _, .bool _, _, _, h => by
    obtain rfl := Option.some.inj h
    simp [Item.size, Item.excess]
  | _, .num _ _, _, _, h => by
    obtain rfl := Option.some.inj h
    simp [Item.size, Item.excess, CsType.size]
  | _, .str s _ hascii, _, _, h => by
    obtain rfl := Option.some.inj h
    simp [Item.size, Item.excess, CsType.size, utf16Length_ascii hascii]
  | _, .struct _ _, 0, _, h => nomatch h
  | _, .struct hargs vs, fuel + 1, n, h => by
    have hlength := (csLength_struct hargs vs.cs).symm.trans h
    obtain ⟨m, hm, rfl⟩ := Option.map_eq_some_iff.1 hlength
    exact mod_modEq (vs.length_modEq hm)

theorem Items.length_modEq : {t : CsType} → {k : Nat} → (vs : Items Γ t k) → {fuel n : Nat} →
    csItemsLength (csLength Γ fuel) t vs.cs = some n → (n : Int) ≡ vs.size + vs.excess [ZMOD 65536]
  | _, _, .nil, _, _, h => by
    obtain rfl := Option.some.inj h
    rfl
  | _, _, .cons v vs, _, n, h => by
    obtain ⟨m, hm, h⟩ := Option.bind_eq_some_iff.1 h
    obtain ⟨k, hk, h⟩ := Option.bind_eq_some_iff.1 h
    obtain rfl := Option.some.inj h
    have hsum := (v.length_modEq hm).add (vs.length_modEq hk)
    simp only [Items.size, Items.excess]
    push_cast
    convert hsum using 1
    ring

theorem Member.length_modEq : {a : Arg} → (v : Member Γ a) → {head fuel n : Nat} →
    csFieldLength (csLength Γ fuel) head a v.cs = some n → (n : Int) ≡ v.size + v.excess head [ZMOD 65536]
  | _, .one ht hs v, _, _, _, h => by
    rw [Member.cs, csFieldLength_one ht hs] at h
    exact v.length_modEq h
  | _, .list0 ht hs vs, head, _, _, h => by
    rw [Member.cs, csFieldLength_list ht (by rw [hs]; exact Shape.noConfusion)] at h
    obtain ⟨m, hm, rfl⟩ := Option.map_eq_some_iff.1 h
    have hsum := (vs.length_modEq hm).add_left head
    simp only [Member.size, Member.excess]
    push_cast
    convert hsum using 1
    ring
  | _, .listN ht hs vs, head, _, _, h => by
    rw [Member.cs, csFieldLength_list ht (by rw [hs]; exact Shape.noConfusion)] at h
    obtain ⟨m, hm, rfl⟩ := Option.map_eq_some_iff.1 h
    have hsum := (vs.length_modEq hm).add_left head
    simp only [Member.size, Member.excess]
    push_cast
    convert hsum using 1
    ring

theorem Members.length_modEq : {args : List Arg} → (vs : Members Γ args) → {head fuel n : Nat} →
    csFieldsLength (csLength Γ fuel) head args vs.cs = some n → (n : Int) ≡ vs.size + vs.excess head [ZMOD 65536]
  | _, .nil, _, _, _, h => by
    obtain rfl := Option.some.inj h
    rfl
  | _, .cons v vs, head, _, n, h => by
    obtain ⟨m, hm, h⟩ := Option.bind_eq_some_iff.1 h
    obtain ⟨k, hk, h⟩ := Option.bind_eq_some_iff.1 h
    obtain rfl := Option.some.inj h
    have hsum := (v.length_modEq hm).add (vs.length_modEq hk)
    simp only [Members.size, Members.excess]
    push_cast
    convert hsum using 1
    ring

end

/-! ## What `Write` writes -/

/-- A loop whose counter is a `byte` does not come to the end of more than 255 items. -/
theorem csWriteFor_endless {write : CsVal → Option Bytes} {count : Nat} {l : List CsVal} (hcount : 255 < count) :
    ∀ (fuel : Nat) (i : UInt8), csWriteFor write count l fuel i = none
  | 0, _ => rfl
  | fuel + 1, i => by
    have hi := i.toNat_lt
    rw [csWriteFor, if_pos (by omega)]
    simp only [csWriteFor_endless hcount fuel (i + 1), Option.bind_eq_bind, Option.bind_none, Option.bind_fun_none]

theorem toNat_succ {i : UInt8} {count : Nat} (hcount : count ≤ 255) (hi : i.toNat < count) :
    (i + 1).toNat = i.toNat + 1 := by
  rw [UInt8.toNat_add]
  exact Nat.mod_eq_of_lt (by simp; omega)

/-- A loop over at most 255 items writes them, if the fuel is enough. -/
theorem csWriteFor_eq {write : CsVal → Option Bytes} {l : List CsVal} {count : Nat} (hlen : l.length = count)
    (hcount : count ≤ 255) :
    ∀ {fuel : Nat} {i : UInt8}, i.toNat ≤ count → count - i.toNat < fuel →
      csWriteFor write count l fuel i = csWriteItems write (l.drop i.toNat)
  | fuel + 1, i, hi, hfuel => by
    rw [csWriteFor]
    split
    · rename_i hlt
      have hnext := toNat_succ hcount hlt
      have hget : i.toNat < l.length := by omega
      rw [csWriteFor_eq hlen hcount (i := i + 1) (by omega) (by omega), hnext, List.getElem?_eq_getElem hget,
        List.drop_eq_getElem_cons hget]
      rfl
    · rename_i hge
      rw [List.drop_eq_nil_of_le (by omega)]
      rfl

/-- What a loop writes, if it comes to an end. -/
theorem csWriteFor_some {write : CsVal → Option Bytes} {l : List CsVal} {count : Nat} {s : Bytes}
    (hlen : l.length = count)
    (hcount : count ≤ 255) : ∀ {fuel : Nat} {i : UInt8}, i.toNat ≤ count → csWriteFor write count l fuel i = some s →
      csWriteItems write (l.drop i.toNat) = some s := by
  intro fuel
  induction fuel generalizing s with
  | zero => exact fun _ h => nomatch h
  | succ fuel ih =>
    intro i hi h
    rw [csWriteFor] at h
    split at h
    · rename_i hlt
      have hget : i.toNat < l.length := by omega
      rw [List.getElem?_eq_getElem hget] at h
      obtain ⟨t, ht, h⟩ := Option.bind_eq_some_iff.1 ((Option.bind_some _ _).symm.trans h)
      obtain ⟨u, hu, h⟩ := Option.bind_eq_some_iff.1 h
      have hnext := toNat_succ hcount hlt
      have hrest := ih (by omega) hu
      rw [hnext] at hrest
      rw [List.drop_eq_getElem_cons hget, csWriteItems, ht, hrest]
      exact h
    · rename_i hge
      rw [List.drop_eq_nil_of_le (by omega)]
      exact h

theorem Items.length_cs : {t : CsType} → {n : Nat} → (vs : Items Γ t n) → vs.cs.length = n
  | _, _, .nil => rfl
  | _, _, .cons _ vs => congrArg (· + 1) vs.length_cs

mutual

/-- **What is written** for a value. -/
theorem Item.write_length : {t : CsType} → (v : Item Γ t) → {fuel : Nat} → {s : Bytes} →
    csWriteItem (csWriteStruct Γ fuel) t v.cs = some s → s.length = v.size ∧ v.Short
  | _, .bool _, _, _, h => by
    obtain rfl := Option.some.inj h
    exact ⟨rfl, trivial⟩
  | .num fmt, .num bits hbits, _, _, h => by
    rw [Item.cs, csWriteItem, if_pos hbits] at h
    obtain rfl := Option.some.inj h
    exact ⟨length_leBytes _ _, trivial⟩
  | _, .str s hlen _, _, _, h => by
    obtain rfl := Option.some.inj h
    exact ⟨by rw [List.length_append, sevenBit_short hlen, Item.size], trivial⟩
  | _, .struct _ _, 0, _, h => nomatch h
  | _, .struct hargs vs, fuel + 1, s, h => vs.write_length ((csWriteStruct_struct hargs vs.cs).symm.trans h)

theorem Items.write_length : {t : CsType} → {n : Nat} → (vs : Items Γ t n) → {fuel : Nat} → {s : Bytes} →
    csWriteItems (csWriteItem (csWriteStruct Γ fuel) t) vs.cs = some s → s.length = vs.size ∧ vs.Short
  | _, _, .nil, _, _, h => by
    obtain rfl := Option.some.inj h
    exact ⟨rfl, trivial⟩
  | _, _, .cons v vs, _, s, h => by
    obtain ⟨t, ht, h⟩ := Option.bind_eq_some_iff.1 h
    obtain ⟨u, hu, h⟩ := Option.bind_eq_some_iff.1 h
    obtain rfl := Option.some.inj h
    obtain ⟨hlen, hshort⟩ := v.write_length ht
    obtain ⟨hlen', hshort'⟩ := vs.write_length hu
    exact ⟨by rw [List.length_append, hlen, hlen', Items.size], hshort, hshort'⟩

theorem Member.write_length : {a : Arg} → (v : Member Γ a) → {fuel : Nat} → {s : Bytes} →
    csWriteField (csWriteStruct Γ fuel) fuel a v.cs = some s → s.length = v.size ∧ v.Short
  | _, .one ht hs v, _, _, h => by
    rw [Member.cs, csWriteField_one ht hs] at h
    exact v.write_length h
  | _, .list0 ht hs vs, _, _, h => by
    rw [Member.cs, csWriteField_list0 ht hs] at h
    obtain ⟨u, hu, rfl⟩ := Option.map_eq_some_iff.1 h
    obtain ⟨hlen, hshort⟩ := vs.write_length hu
    exact ⟨by rw [List.length_append, length_leBytes, hlen, Member.size], hshort⟩
  | _, @Member.listN _ _ _ count ht hs vs, fuel, s, h => by
    rw [Member.cs, csWriteField_listN ht hs] at h
    have hcs := vs.length_cs
    by_cases hcount : 255 < count
    · rw [csWriteFor_endless hcount] at h
      cases h
    · have hitems := csWriteFor_some hcs (by omega) (by simp) h
      obtain ⟨hlen, hshort⟩ := vs.write_length hitems
      exact ⟨hlen, by omega, hshort⟩

theorem Members.write_length : {args : List Arg} → (vs : Members Γ args) → {fuel : Nat} → {s : Bytes} →
    csWriteFields (csWriteStruct Γ fuel) fuel args vs.cs = some s → s.length = vs.size ∧ vs.Short
  | _, .nil, _, _, h => by
    obtain rfl := Option.some.inj h
    exact ⟨rfl, trivial⟩
  | _, .cons v vs, _, s, h => by
    obtain ⟨t, ht, h⟩ := Option.bind_eq_some_iff.1 h
    obtain ⟨u, hu, h⟩ := Option.bind_eq_some_iff.1 h
    obtain rfl := Option.some.inj h
    obtain ⟨hlen, hshort⟩ := v.write_length ht
    obtain ⟨hlen', hshort'⟩ := vs.write_length hu
    exact ⟨by rw [List.length_append, hlen, hlen', Members.size], hshort, hshort'⟩

end

/-! ## When they return -/

/-- From some fuel on. -/
def Eventually {α : Type} (f : Nat → Option α) : Prop := ∃ n, ∀ fuel ≥ n, ∃ a, f fuel = some a

theorem eventually_some {α : Type} (a : α) : Eventually fun _ => some a := ⟨0, fun _ _ => ⟨a, rfl⟩⟩

theorem Eventually.map {α β : Type} {f : Nat → Option α} (h : Eventually f) (g : α → β) :
    Eventually fun fuel => (f fuel).map g := by
  obtain ⟨n, hn⟩ := h
  refine ⟨n, fun fuel hfuel => ?_⟩
  obtain ⟨a, ha⟩ := hn fuel hfuel
  exact ⟨g a, congrArg (Option.map g) ha⟩

theorem Eventually.map₂ {α β γ : Type} {f : Nat → Option α} {f' : Nat → Option β} (h : Eventually f)
    (h' : Eventually f')
    (g : α → β → γ) : Eventually fun fuel => (f fuel).bind fun a => (f' fuel).bind fun b => some (g a b) := by
  obtain ⟨n, hn⟩ := h
  obtain ⟨n', hn'⟩ := h'
  refine ⟨max n n', fun fuel hfuel => ?_⟩
  obtain ⟨a, ha⟩ := hn fuel (le_trans (le_max_left _ _) hfuel)
  obtain ⟨b, hb⟩ := hn' fuel (le_trans (le_max_right _ _) hfuel)
  exact ⟨g a b, by simp only [ha, hb, Option.bind_some]⟩

/-- A call needs one more. -/
theorem Eventually.call {α : Type} {f g : Nat → Option α} (h : Eventually f) (hg : ∀ fuel, g (fuel + 1) = f fuel) :
    Eventually g := by
  obtain ⟨n, hn⟩ := h
  refine ⟨n + 1, fun fuel hfuel => ?_⟩
  obtain ⟨k, rfl⟩ := Nat.exists_eq_add_of_le' (Nat.le_trans (Nat.le_add_left 1 n) hfuel)
  rw [hg]
  exact hn k (by omega)

theorem Eventually.congr {α : Type} {f g : Nat → Option α} (h : Eventually f) (n : Nat)
    (hg : ∀ fuel ≥ n, g fuel = f fuel) :
    Eventually g := by
  obtain ⟨m, hm⟩ := h
  refine ⟨max n m, fun fuel hfuel => ?_⟩
  rw [hg fuel (le_trans (le_max_left _ _) hfuel)]
  exact hm fuel (le_trans (le_max_right _ _) hfuel)

mutual

/-- `Length()` returns. -/
theorem Item.length_returns : {t : CsType} → (v : Item Γ t) →
    Eventually fun fuel => csItemLength (csLength Γ fuel) t v.cs
  | _, .bool _ => eventually_some _
  | _, .num _ _ => eventually_some _
  | _, .str _ _ _ => eventually_some _
  | _, .struct hargs vs => ((vs.length_returns 1).map _).call fun _ => csLength_struct hargs vs.cs

theorem Items.length_returns : {t : CsType} → {n : Nat} → (vs : Items Γ t n) →
    Eventually fun fuel => csItemsLength (csLength Γ fuel) t vs.cs
  | _, _, .nil => eventually_some _
  | _, _, .cons v vs => v.length_returns.map₂ vs.length_returns _

theorem Member.length_returns : {a : Arg} → (v : Member Γ a) → (head : Nat) →
    Eventually fun fuel => csFieldLength (csLength Γ fuel) head a v.cs
  | _, .one ht hs v, _ => v.length_returns.congr 0 fun _ _ => csFieldLength_one ht hs v.cs
  | _, .list0 ht hs vs, _ =>
    (vs.length_returns.map _).congr 0 fun _ _ => csFieldLength_list ht (by rw [hs]; exact Shape.noConfusion) vs.cs
  | _, .listN ht hs vs, _ =>
    (vs.length_returns.map _).congr 0 fun _ _ => csFieldLength_list ht (by rw [hs]; exact Shape.noConfusion) vs.cs

theorem Members.length_returns : {args : List Arg} → (vs : Members Γ args) → (head : Nat) →
    Eventually fun fuel => csFieldsLength (csLength Γ fuel) head args vs.cs
  | _, .nil, _ => eventually_some _
  | _, .cons v vs, head => (v.length_returns head).map₂ (vs.length_returns head) _

end

mutual

/-- `Write` returns if no list of a fixed length is too long. -/
theorem Item.write_returns : {t : CsType} → (v : Item Γ t) → v.Short →
    Eventually fun fuel => csWriteItem (csWriteStruct Γ fuel) t v.cs
  | _, .bool _, _ => eventually_some _
  | _, .num _ hbits, _ => (eventually_some _).congr 0 fun _ _ => if_pos hbits
  | _, .str _ _ _, _ => eventually_some _
  | _, .struct hargs vs, h => (vs.write_returns h).call fun _ => csWriteStruct_struct hargs vs.cs

theorem Items.write_returns : {t : CsType} → {n : Nat} → (vs : Items Γ t n) → vs.Short →
    Eventually fun fuel => csWriteItems (csWriteItem (csWriteStruct Γ fuel) t) vs.cs
  | _, _, .nil, _ => eventually_some _
  | _, _, .cons v vs, h => (v.write_returns h.1).map₂ (vs.write_returns h.2) _

theorem Member.write_returns : {a : Arg} → (v : Member Γ a) → v.Short →
    Eventually fun fuel => csWriteField (csWriteStruct Γ fuel) fuel a v.cs
  | _, .one ht hs v, h => (v.write_returns h).congr 0 fun _ _ => csWriteField_one ht hs v.cs
  | _, .list0 ht hs vs, h => ((vs.write_returns h).map _).congr 0 fun _ _ => csWriteField_list0 ht hs vs.cs
  | _, @Member.listN _ _ _ count ht hs vs, h => by
    refine (vs.write_returns h.2).congr (count + 1) fun fuel hfuel => ?_
    exact (csWriteField_listN ht hs vs.cs).trans (csWriteFor_eq vs.length_cs h.1 (Nat.zero_le _) hfuel)

theorem Members.write_returns : {args : List Arg} → (vs : Members Γ args) → vs.Short →
    Eventually fun fuel => csWriteFields (csWriteStruct Γ fuel) fuel args vs.cs
  | _, .nil, _ => eventually_some _
  | _, .cons v vs, h => (v.write_returns h.1).map₂ (vs.write_returns h.2) _

end

/-! ## Buffers -/

/-- `Length()` of a structure returns the number of bytes that `Write` writes. -/
def Item.Filled {name : String} (v : Item Γ (.custom name)) : Prop :=
  ∃ fuel n s, csLength Γ fuel name v.cs = some n ∧ csWriteStruct Γ fuel name v.cs = some s ∧ n = s.length

/-- `Length()` of a message returns the number of bytes that its handler writes. -/
def Members.Filled {args : List Arg} (vs : Members Γ args) : Prop :=
  ∃ fuel n s, csMessageLength Γ fuel args vs.cs = some n ∧
    csWriteFields (csWriteStruct Γ fuel) fuel args vs.cs = some s ∧ n = s.length

/-- A `ushort` that differs from a size by an excess. -/
theorem eq_iff_of_modEq {n m : Nat} {x : Int} (hn : n < 65536) (h : (n : Int) ≡ m + x [ZMOD 65536]) :
    n = m ↔ m < 65536 ∧ (65536 : Int) ∣ x := by
  have hdvd := h.dvd
  constructor
  · rintro rfl
    refine ⟨hn, ?_⟩
    rwa [add_sub_cancel_left] at hdvd
  · rintro ⟨hm, hx⟩
    omega

theorem Item.filled_iff {name : String} (v : Item Γ (.custom name)) :
    v.Filled ↔ v.Short ∧ v.size < 65536 ∧ (65536 : Int) ∣ v.excess := by
  have hbound : ∀ {fuel n}, csLength Γ fuel name v.cs = some n → n < 65536 := by
    intro fuel n hn
    cases v with
    | struct hargs vs =>
      cases fuel with
      | zero => cases hn
      | succ fuel =>
        obtain ⟨m, -, rfl⟩ := Option.map_eq_some_iff.1 ((csLength_struct hargs vs.cs).symm.trans hn)
        exact Nat.mod_lt m (by decide)
  constructor
  · rintro ⟨fuel, n, s, hn, hs, rfl⟩
    obtain ⟨hlen, hshort⟩ := v.write_length hs
    exact ⟨hshort, (eq_iff_of_modEq (hbound hn) (v.length_modEq hn)).1 hlen⟩
  · rintro ⟨hshort, hexact⟩
    obtain ⟨k, hk⟩ := v.length_returns
    obtain ⟨m, hm⟩ := v.write_returns hshort
    obtain ⟨n, hn⟩ := hk (max k m) (le_max_left _ _)
    obtain ⟨s, hs⟩ := hm (max k m) (le_max_right _ _)
    refine ⟨max k m, n, s, hn, hs, ?_⟩
    rw [(v.write_length hs).1]
    exact (eq_iff_of_modEq (hbound hn) (v.length_modEq hn)).2 hexact

theorem Members.filled_iff {args : List Arg} (vs : Members Γ args) :
    vs.Filled ↔ vs.Short ∧ vs.size < 65536 ∧ (65536 : Int) ∣ vs.excess 2 := by
  have hcount : ∀ {fuel n}, csMessageLength Γ fuel args vs.cs = some n →
      n < 65536 ∧ (n : Int) ≡ vs.size + vs.excess 2 [ZMOD 65536] := by
    intro fuel n hn
    obtain ⟨m, hm, rfl⟩ := Option.map_eq_some_iff.1 hn
    exact ⟨Nat.mod_lt m (by decide), mod_modEq (vs.length_modEq hm)⟩
  constructor
  · rintro ⟨fuel, n, s, hn, hs, rfl⟩
    obtain ⟨hlen, hshort⟩ := vs.write_length hs
    exact ⟨hshort, (eq_iff_of_modEq (hcount hn).1 (hcount hn).2).1 hlen⟩
  · rintro ⟨hshort, hexact⟩
    obtain ⟨k, hk⟩ := (vs.length_returns 2).map (· % 65536)
    obtain ⟨m, hm⟩ := vs.write_returns hshort
    obtain ⟨n, hn⟩ := hk (max k m) (le_max_left _ _)
    obtain ⟨s, hs⟩ := hm (max k m) (le_max_right _ _)
    refine ⟨max k m, n, s, hn, hs, ?_⟩
    rw [(vs.write_length hs).1]
    exact (eq_iff_of_modEq (hcount hn).1 (hcount hn).2).2 hexact

end Pieces

/-- **Buffers are filled exactly** by the values whose lists cancel out. -/
theorem length_exact (Γ : NetType) :
    (∀ {name : String} (v : Item Γ (.custom name)), v.Filled ↔ v.Short ∧ v.size < 65536 ∧ (65536 : Int) ∣ v.excess) ∧
    ∀ {args : List Arg} (vs : Members Γ args), vs.Filled ↔ vs.Short ∧ vs.size < 65536 ∧ (65536 : Int) ∣ vs.excess 2 :=
  ⟨fun v => v.filled_iff, fun vs => vs.filled_iff⟩

/-- One structure, with one list. -/
def listed : NetType := ⟨AList.singleton "T" [⟨"a", "uint8", some 0⟩], by simp⟩

theorem lookup_listed : listed.types.lookup "T" = some [⟨"a", "uint8", some 0⟩] := rfl

/-- One byte is counted for an empty list, and two are written. -/
theorem empty_list_counted : ¬∀ (Γ : NetType) (name : String) (v : Item Γ (.custom name)), v.Filled := by
  intro h
  have hfilled := h listed "T" (.struct lookup_listed (.cons (.list0 (t := .num .B) rfl rfl .nil) .nil))
  obtain ⟨-, -, hdvd⟩ := (Item.filled_iff _).1 hfilled
  exact absurd hdvd (by decide)

end XCore.Net
