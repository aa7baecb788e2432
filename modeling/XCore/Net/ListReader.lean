import XCore.Net.Agreement
import XCore.Net.Lengths

/-!
# The loops of exported list readers (`tocsharp.lua`)

`listReader0` counts the elements of a list in a `byte` and compares it with the `ushort` that stands before them. So
the loop comes to an end after as many elements as the server has written exactly if these are at most 255 (and the
elements are read at all, as numbers of fixed width are): `list_read_exact`.
-/

namespace XCore.Net

open XCore.Lua

/-- Some elements are read one after the other. -/
def CanRead (read : Bytes → Option (CsVal × Bytes)) : Nat → Bytes → Prop
  | 0, _ => True
  | n + 1, s => ∃ v t, read s = some (v, t) ∧ CanRead read n t

section Loop

variable {read : Bytes → Option (CsVal × Bytes)} {count : Nat}

/-- A loop that comes to an end has read the rest of the elements. -/
theorem csReadFor_some (hcount : count ≤ 255) {fuel : Nat} {i : UInt8} {s t : Bytes} {l : List CsVal}
    (hi : i.toNat ≤ count)
    (h : csReadFor read count fuel i s = some (l, t)) :
    l.length = count - i.toNat ∧ CanRead read (count - i.toNat) s := by
  induction fuel generalizing i s l with
  | zero => cases h
  | succ fuel ih =>
    rw [csReadFor] at h
    split at h
    · rename_i hlt
      obtain ⟨⟨v, u⟩, hv, h⟩ := Option.bind_eq_some_iff.1 h
      obtain ⟨⟨vs, w⟩, hvs, h⟩ := Option.bind_eq_some_iff.1 h
      cases h
      have hnext := toNat_succ hcount hlt
      have hrest := ih (by omega) hvs
      rw [hnext] at hrest
      have hsub : count - i.toNat = count - (i.toNat + 1) + 1 := by omega
      rw [hsub]
      exact ⟨congrArg (· + 1) hrest.1, v, u, hv, hrest.2⟩
    · rename_i hge
      cases h
      have hsub : count - i.toNat = 0 := by omega
      rw [hsub]
      exact ⟨rfl, trivial⟩

/-- A loop over at most 255 elements comes to an end. -/
theorem csReadFor_returns (hcount : count ≤ 255) {fuel : Nat} {i : UInt8} {s : Bytes} (hi : i.toNat ≤ count)
    (hfuel : count - i.toNat < fuel) (h : CanRead read (count - i.toNat) s) :
    ∃ l t, csReadFor read count fuel i s = some (l, t) := by
  induction fuel generalizing i s with
  | zero => omega
  | succ fuel ih =>
    rw [csReadFor]
    split
    · rename_i hlt
      have hnext := toNat_succ hcount hlt
      have hsub : count - i.toNat = count - (i + 1).toNat + 1 := by omega
      rw [hsub] at h
      obtain ⟨v, u, hv, h⟩ := h
      obtain ⟨l, t, hl⟩ := ih (by omega) (by omega) h
      exact ⟨v :: l, t, by simp only [hv, hl, Option.bind_eq_bind, Option.bind_some]⟩
    · exact ⟨[], s, rfl⟩

end Loop

section Lists

variable {Γ : NetType}

mutual

/-- The generated writer writes elements as they are encoded. -/
theorem Tuple.written_element : ∀ {args : List Arg} (v : Tuple typed Γ args), v.Element → v.written = v.enc
  | _, .nil, _ => rfl
  | _, .cons v vs, h => by
    rw [Tuple.written, Tuple.enc, Value.written_element v h.1, Tuple.written_element vs h.2]

theorem Value.written_element : ∀ {a : Arg} (v : Value typed Γ a), v.Element → v.written = v.enc
  | _, .base .., _ => rfl
  | _, .struct _ _ _ v, h => by rw [Value.written, Value.enc, v.enc_of_empty h.1]
  | _, .list .., h => h.elim

end

theorem Elems.written_element : ∀ {args : List Arg} (vs : Elems typed Γ args), vs.Element → vs.written = vs.enc
  | _, .nil, _ => rfl
  | _, .cons v vs, h => by
    rw [Elems.written, Elems.enc, v.written_element h.1, Elems.written_element vs h.2]

/-- Numbers of fixed width are read. -/
theorem Elems.canRead (D : Utf8Decoder) {name : String} : ∀ {args : List Arg}, Γ.types.lookup name = some args →
    ∀ (vs : Elems typed Γ args), vs.Element → ∀ {fuel : Nat} (t : Bytes), vs.depth + 1 ≤ fuel →
    CanRead (csReadItem D (csReadStruct D Γ fuel) (.custom name)) vs.length (vs.enc ++ t)
  | _, _, .nil, _, _, _, _ => trivial
  | _, hargs, .cons v vs, h, fuel + 1, t, hd => by
    rw [Elems.depth] at hd
    have hv : csReadItem D (csReadStruct D Γ (fuel + 1)) (.custom name) (v.enc ++ (vs.enc ++ t)) =
        some (.struct v.cs, vs.enc ++ t) := by
      simp only [csReadItem, csReadStruct, hargs, Option.bind_eq_bind, Option.bind_some]
      rw [v.csRead_element D h.1 _ (by omega)]
      rfl
    rw [Elems.enc, List.append_assoc]
    exact ⟨_, _, hv, vs.canRead D hargs h.2 t (by omega)⟩

/-- The reader of a list comes to an end after some number of elements. -/
def ReadsList (D : Utf8Decoder) (Γ : NetType) (a : Arg) (n : Nat) (s : Bytes) : Prop :=
  ∃ k, ∀ fuel ≥ k, ∃ l t, csReadField D (csReadStruct D Γ fuel) fuel a s = some (.list l, t) ∧ l.length = n

/-- The reader of a structure reads some number of elements. -/
def ReadsElements (D : Utf8Decoder) (Γ : NetType) (name : String) (n : Nat) (s : Bytes) : Prop :=
  ∃ k, ∀ fuel ≥ k, CanRead (csReadItem D (csReadStruct D Γ fuel) (.custom name)) n s

theorem csReadField_list0 {D : Utf8Decoder} {a : Arg} {name : String} {fuel n : Nat} (hnum : a.argnum = some 0)
    (ht : dataTrans a.argtype = some (.custom name)) (hn : n < 65536) (s : Bytes) :
    csReadField D (csReadStruct D Γ fuel) fuel a (leBytes 2 n ++ s) =
      (csReadFor (csReadItem D (csReadStruct D Γ fuel) (.custom name)) n fuel 0 s).map fun r => (.list r.1, r.2) := by
  have hsize : leNat (leBytes 2 n) = n := by
    rw [leNat_leBytes, Nat.mod_eq_of_lt (by omega)]
  rw [csReadField, ht, hnum]
  simp only [shape, Option.bind_eq_bind, Option.bind_some, csBytes_append (length_leBytes 2 _), hsize]
  cases csReadFor (csReadItem D (csReadStruct D Γ fuel) (.custom name)) n fuel 0 s <;> rfl

theorem readsList_iff {D : Utf8Decoder} {a : Arg} {name : String} {n : Nat} (hnum : a.argnum = some 0)
    (ht : dataTrans a.argtype = some (.custom name)) (hn : n < 65536) (s : Bytes) :
    ReadsList D Γ a n (leBytes 2 n ++ s) ↔ n ≤ 255 ∧ ReadsElements D Γ name n s := by
  constructor
  · rintro ⟨k, hk⟩
    have hloop : ∀ fuel ≥ k, ∃ l t, csReadFor (csReadItem D (csReadStruct D Γ fuel) (.custom name)) n fuel 0 s = some
        (l, t) := by
      intro fuel hfuel
      obtain ⟨l, t, hread, -⟩ := hk fuel hfuel
      rw [csReadField_list0 hnum ht hn] at hread
      obtain ⟨⟨l', t'⟩, hr, -⟩ := Option.map_eq_some_iff.1 hread
      exact ⟨l', t', hr⟩
    have hle : n ≤ 255 := by
      by_contra hgt
      obtain ⟨l, t, hr⟩ := hloop k le_rfl
      rw [csReadFor_none (by omega)] at hr
      cases hr
    refine ⟨hle, k, fun fuel hfuel => ?_⟩
    obtain ⟨l, t, hr⟩ := hloop fuel hfuel
    exact (csReadFor_some hle (Nat.zero_le _) hr).2
  · rintro ⟨hle, k, hk⟩
    refine ⟨max k (n + 1), fun fuel hfuel => ?_⟩
    have hcan := hk fuel (le_trans (le_max_left _ _) hfuel)
    have hrounds : n < fuel := le_trans (le_max_right _ _) hfuel
    obtain ⟨l, t, hr⟩ := csReadFor_returns hle (Nat.zero_le _) (i := 0) hrounds hcan
    refine ⟨l, t, ?_, (csReadFor_some hle (Nat.zero_le _) hr).1⟩
    rw [csReadField_list0 hnum ht hn, hr]
    rfl

theorem written_list {a : Arg} {args : List Arg} (hprim : TYPE_EXPORT_LUA a.argtype = none) (hnum : a.argnum = some 0)
    (hargs : Γ.types.lookup a.argtype = some args) (vs : Elems typed Γ args) (hlen : vs.length < 65536) :
    (Value.list hprim hnum hargs vs : Value typed Γ a).written = leBytes 2 vs.length ++ vs.written := by
  rw [Value.written, typed_count hlen]

/-- **Lists of structures as the server writes them**: the loop comes to an end after all of them exactly if there are
at most 255 and they are read, which numbers of fixed width are. -/
theorem list_read_exact (D : Utf8Decoder) {a : Arg} {args : List Arg} (hprim : TYPE_EXPORT_LUA a.argtype = none)
    (hnum : a.argnum = some 0) (hargs : Γ.types.lookup a.argtype = some args)
    (ht : dataTrans a.argtype = some (.custom a.argtype)) (vs : Elems typed Γ args) (hlen : vs.length ≤ 65535)
    (t : Bytes) :
    (ReadsList D Γ a vs.length ((Value.list hprim hnum hargs vs : Value typed Γ a).written ++ t) ↔
      vs.length ≤ 255 ∧ ReadsElements D Γ a.argtype vs.length (vs.written ++ t)) ∧
    (vs.Element → ReadsElements D Γ a.argtype vs.length (vs.written ++ t)) := by
  constructor
  · rw [written_list hprim hnum hargs vs (by omega), List.append_assoc]
    exact readsList_iff hnum ht (by omega) _
  · intro h
    rw [vs.written_element h]
    exact ⟨vs.depth + 1, fun fuel hfuel => vs.canRead D hargs h t hfuel⟩

end Lists

/-- A structure with a byte. -/
def byteStruct : NetType := ⟨AList.singleton "T" [⟨"x", "uint8", none⟩], by simp⟩

theorem lookup_byteStruct : byteStruct.types.lookup "T" = some [⟨"x", "uint8", none⟩] := rfl

theorem prim_uint8 : TYPE_EXPORT_LUA "uint8" = some .Uint8 := rfl

theorem typed_seven : typed.Valid .Uint8 false (.one (.num (.int 7))) := ⟨.B, rfl, by decide, by decide⟩

/-- A structure with the byte 7. -/
def seven : Tuple typed byteStruct [⟨"x", "uint8", none⟩] :=
  .cons (.base .Uint8 prim_uint8 (.one (.num (.int 7))) typed_seven) .nil

/-- A list of two structures. -/
theorem list_read_exact_two : ReadsList ⟨id, fun _ => rfl⟩ byteStruct ⟨"l", "T", some 0⟩ 2
    ((Value.list rfl rfl lookup_byteStruct (.replicate seven 2) : Value typed byteStruct ⟨"l", "T", some 0⟩).written ++
      [9]) := by
  have hexact := list_read_exact ⟨id, fun _ => rfl⟩ (a := ⟨"l", "T", some 0⟩) rfl rfl lookup_byteStruct rfl
    (.replicate seven 2)
    (by decide) [9]
  have helement : (Elems.replicate seven 2).Element := by
    have hseven : seven.Element := ⟨⟨rfl, .B, .int 7, rfl, rfl, by decide, by decide⟩, trivial⟩
    exact ⟨hseven, hseven, trivial⟩
  exact hexact.1.2 ⟨by decide, hexact.2 helement⟩

/-- A list of 256 structures. -/
theorem list_of_256_structures : ¬∀ (D : Utf8Decoder) (Γ : NetType) (a : Arg) (args : List Arg)
    (hprim : TYPE_EXPORT_LUA a.argtype = none) (hnum : a.argnum = some 0) (hargs : Γ.types.lookup a.argtype = some args)
    (vs : Elems typed Γ args), vs.length ≤ 65535 →
      ReadsList D Γ a vs.length (Value.list hprim hnum hargs vs : Value typed Γ a).written := by
  intro h
  have hlen := Elems.length_replicate seven 256
  obtain ⟨k, hk⟩ := h ⟨id, fun _ => rfl⟩ byteStruct ⟨"l", "T", some 0⟩ _ rfl rfl lookup_byteStruct
    (.replicate seven 256)
    (by rw [hlen]; decide)
  obtain ⟨l, t, hread, -⟩ := hk k le_rfl
  rw [written_list rfl rfl lookup_byteStruct _ (by rw [hlen]; decide), hlen, csReadField_list0 rfl rfl (by decide),
    csReadFor_none (by decide)] at hread
  cases hread

end XCore.Net
