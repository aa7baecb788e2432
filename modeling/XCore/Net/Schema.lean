import XCore.Net.CheckType

/-!
# Schemas that are read

What `ReadType` and `ReadPto` store of a definition (`readFields_ok`): its fields in order (`fieldOf`), and for each
inline list an entry of `net.NetType` (`inlines`), which has no fields.

- `closed_iff`: the fields of an accepted schema have known types if those of the protocols have;
- `preserved_iff`: a definition can be had back from what is stored if it has no inline list.

What `Init` accepts is `Checked`.
-/

namespace XCore.Net

open XCore.Search
open XCore.Lua (bind_eq_ok)

/-! ## Fields -/

/-- What is stored of a field. -/
def fieldOf (name : String) : Data → Option Field
  | .tab (.str key :: .str t :: rest) => some ⟨key, transName t, rest⟩
  | .tab (.str key :: .tab (_ :: _) :: rest) => some ⟨key, subname name key, rest⟩
  | _ => none

/-- The type of an inline list: its name and its fields. -/
def inlineOf (name : String) : Data → Option Def
  | .tab (.str key :: .tab items :: _) => some (subname name key, items)
  | _ => none

/-- The inline lists of a definition. -/
def inlinesOf (d : Def) : List Def := d.2.filterMap (inlineOf d.1)

/-- The inline lists of definitions. -/
def inlines (ds : List Def) : List Def := ds.flatMap inlinesOf

theorem inlines_cons (d : Def) (ds : List Def) : inlines (d :: ds) = inlinesOf d ++ inlines ds := List.flatMap_cons

theorem inlines_append (ds ds' : List Def) : inlines (ds ++ ds') = inlines ds ++ inlines ds' := List.flatMap_append

/-- The entries for inline lists. -/
def wrapAll (l : List Def) (T : Types) : Types := l.foldl (fun T d => readWrapped d.1 d.2 T) T

section

variable {check : String → Except String Unit} {name key a : String} {keys : List String} {vs items : List Data}
    {v kind : Data}
  {fields : List Field} {T T' : Types} {l : List Def}

theorem mem_wrapAll : a ∈ wrapAll l T ↔ a ∈ T ∨ a ∈ l.map Prod.fst := by
  induction l generalizing T with
  | nil => simp [wrapAll]
  | cons d l ih =>
    rw [wrapAll, List.foldl_cons, ← wrapAll, ih, readWrapped, AList.mem_insert, List.map_cons, List.mem_cons, or_assoc]
    exact or_left_comm

theorem wrapAll_append {l' : List Def} : wrapAll (l ++ l') T = wrapAll l' (wrapAll l T) := List.foldl_append

/-- The entry for an inline list has no fields of its own. -/
theorem lookup_wrapAll (h : a ∈ l.map Prod.fst) : ∃ n items, (wrapAll l T).lookup a = some ⟨n, .wrapped n items⟩ := by
  induction l using List.reverseRecOn with
  | nil => cases h
  | append_singleton l d ih =>
    rw [wrapAll, List.foldl_append, List.foldl_cons, List.foldl_nil, ← wrapAll, readWrapped]
    by_cases ha : a = d.1
    · subst ha
      exact ⟨_, _, AList.lookup_insert _⟩
    · rw [AList.lookup_insert_ne ha]
      rw [List.map_append, List.map_singleton, List.mem_append, List.mem_singleton] at h
      exact ih (h.resolve_right ha)

/-- What the type of a field leaves. -/
theorem readKind_ok {t : String} (rest : List Data) (h : readKind check name key kind T = .ok (t, T')) :
    fieldOf name (.tab (.str key :: kind :: rest)) = some ⟨key, t, rest⟩ ∧
      T' = wrapAll (inlineOf name (.tab (.str key :: kind :: rest))).toList T := by
  cases kind with
  | str t =>
    rw [readKind] at h
    split at h
    · cases h
      exact ⟨rfl, rfl⟩
    · obtain ⟨-, -, h⟩ := bind_eq_ok.1 h
      cases h
      exact ⟨rfl, rfl⟩
  | num n => cases h
  | tab items =>
    cases items with
    | nil => cases h
    | cons item items =>
      cases h
      exact ⟨rfl, rfl⟩
  | other s => cases h

/-- **What the loop over the fields leaves.** -/
theorem readFields_ok (h : readFields check name keys vs T = .ok (fields, T')) :
    List.Forall₂ (fun v f => fieldOf name v = some f) vs fields ∧ T' = wrapAll (vs.filterMap (inlineOf name)) T ∧
      (fields.map Field.argname).Nodup ∧ ∀ k ∈ fields.map Field.argname, k ∉ keys := by
  induction vs generalizing keys fields T with
  | nil =>
    cases h
    exact ⟨.nil, rfl, List.nodup_nil, fun k hk => absurd hk List.not_mem_nil⟩
  | cons v vs ih =>
    unfold readFields at h
    split at h
    · cases ‹_ :: _ = []›
    · rename_i key kind rest vs' hv
      obtain ⟨rfl, rfl⟩ := List.cons.inj hv
      split at h
      · cases h
      · rename_i hkey
        obtain ⟨⟨t, T₁⟩, hkind, h⟩ := bind_eq_ok.1 h
        obtain ⟨⟨fields', T₂⟩, hrest, h⟩ := bind_eq_ok.1 h
        cases h
        obtain ⟨hfield, hT₁⟩ := readKind_ok rest hkind
        obtain ⟨hfields, hT₂, hnodup, hkeys⟩ := ih hrest
        refine ⟨.cons hfield hfields, ?_, ?_, ?_⟩
        · rw [hT₂, hT₁, ← wrapAll_append, List.filterMap_cons]
          cases inlineOf name (.tab (.str key :: kind :: rest)) <;> rfl
        · exact List.nodup_cons.2 ⟨fun hmem => hkeys key hmem List.mem_cons_self, hnodup⟩
        · intro k hk
          rcases List.mem_cons.1 hk with rfl | hk
          · exact hkey
          · exact fun hmem => hkeys k hk (List.mem_cons_of_mem key hmem)
    · cases h

/-- What `ReadType` leaves. -/
theorem ReadType_ok {args : List Data} (h : ReadType name args T = .ok T') : ∃ fields,
    List.Forall₂ (fun v f => fieldOf name v = some f) args fields ∧ (fields.map Field.argname).Nodup ∧
      T' = (wrapAll (inlinesOf (name, args)) T).insert name ⟨name, .list fields⟩ := by
  obtain ⟨⟨fields, T₁⟩, hfields, h⟩ := bind_eq_ok.1 h
  cases h
  obtain ⟨hall, rfl, hnodup, -⟩ := readFields_ok hfields
  exact ⟨fields, hall, hnodup, rfl⟩

/-- The entry of a protocol. -/
def Schema.entry (net : Schema) (id : Nat) (name : String) : Option Info :=
  if name.toList.take 2 = ['c', '_'] then net.NetS2C.lookup id else net.NetC2S.lookup id

/-- What `ReadPto` leaves. -/
theorem ReadPto_ok {id : Nat} {args : List Data} {net net' : Schema} (h : ReadPto id name args net = .ok net') :
    ∃ fields, List.Forall₂ (fun v f => fieldOf name v = some f) args fields ∧ (fields.map Field.argname).Nodup ∧
      net'.NetType = wrapAll (inlinesOf (name, args)) net.NetType ∧
      ((net'.NetS2C = net.NetS2C.insert id ⟨name, .list fields⟩ ∧ net'.NetC2S = net.NetC2S) ∨
        (net'.NetC2S = net.NetC2S.insert id ⟨name, .list fields⟩ ∧ net'.NetS2C = net.NetS2C)) ∧
      net'.entry id name = some ⟨name, .list fields⟩ := by
  obtain ⟨⟨fields, T₁⟩, hfields, h⟩ := bind_eq_ok.1 h
  obtain ⟨hall, rfl, hnodup, -⟩ := readFields_ok hfields
  refine ⟨fields, hall, hnodup, ?_⟩
  unfold Schema.entry
  dsimp only at h
  by_cases hname : name.toList.take 2 = ['c', '_']
  · rw [if_pos hname] at h ⊢
    cases h
    exact ⟨rfl, Or.inl ⟨rfl, rfl⟩, AList.lookup_insert _⟩
  · rw [if_neg hname] at h ⊢
    cases h
    exact ⟨rfl, Or.inr ⟨rfl, rfl⟩, AList.lookup_insert _⟩

end

/-! ## Runs of the reader -/

section

variable {types ptos ds ds' : List Def} {d : Def} {T T' : Types} {net net' : Schema} {k : Nat} {a : String}
    {isserver : Option Bool}

theorem readTypes_append (ds ds' : List Def) (T : Types) :
    readTypes (ds ++ ds') T = (readTypes ds T >>= readTypes ds') := by
  induction ds generalizing T with
  | nil => rfl
  | cons d ds ih =>
    rw [List.cons_append, readTypes, readTypes]
    cases ReadType d.1 d.2 T with
    | error e => rfl
    | ok T' => exact ih T'

theorem readPtos_append (k : Nat) (ds ds' : List Def) (net : Schema) :
    readPtos k (ds ++ ds') net = (readPtos k ds net >>= readPtos (k + ds.length) ds') := by
  induction ds generalizing k net with
  | nil => rfl
  | cons d ds ih =>
    rw [List.cons_append, readPtos, readPtos, List.length_cons, Nat.add_comm ds.length, ← Nat.add_assoc]
    cases ReadPto k d.1 d.2 net with
    | error e => rfl
    | ok net' => exact ih (k + 1) net'

/-- The named types after the types are read. -/
theorem mem_readTypes (h : readTypes ds T = .ok T') :
    a ∈ T' ↔ a ∈ T ∨ a ∈ ds.map Prod.fst ∨ a ∈ (inlines ds).map Prod.fst := by
  induction ds generalizing T with
  | nil =>
    cases h
    simp [inlines]
  | cons d ds ih =>
    obtain ⟨T₁, hd, h⟩ := bind_eq_ok.1 h
    obtain ⟨fields, -, -, rfl⟩ := ReadType_ok hd
    rw [ih h, AList.mem_insert, mem_wrapAll, List.map_cons, List.mem_cons, inlines_cons, List.map_append,
      List.mem_append]
    tauto

/-- The named types after the protocols are read. -/
theorem mem_readPtos (h : readPtos k ds net = .ok net') :
    a ∈ net'.NetType ↔ a ∈ net.NetType ∨ a ∈ (inlines ds).map Prod.fst := by
  induction ds generalizing k net with
  | nil =>
    cases h
    simp [inlines]
  | cons d ds ih =>
    obtain ⟨net₁, hd, h⟩ := bind_eq_ok.1 h
    obtain ⟨fields, -, -, htypes, -⟩ := ReadPto_ok hd
    rw [ih h, htypes, mem_wrapAll, inlines_cons, List.map_append, List.mem_append, or_assoc]

/-- An entry for a protocol. -/
def Schema.Has (net : Schema) (info : Info) : Prop :=
  (∃ id, net.NetC2S.lookup id = some info) ∨ ∃ id, net.NetS2C.lookup id = some info

/-- No protocol has this number or a later one. -/
def Schema.FreeFrom (net : Schema) (k : Nat) : Prop :=
  ∀ id, k ≤ id → net.NetC2S.lookup id = none ∧ net.NetS2C.lookup id = none

/-- What is stored of a protocol. -/
def StoredAs (d : Def) (info : Info) : Prop :=
  ∃ fields, List.Forall₂ (fun v f => fieldOf d.1 v = some f) d.2 fields ∧ info = ⟨d.1, .list fields⟩

theorem storedAs_iff {fields : List Field} {info : Info}
    (h : List.Forall₂ (fun v f => fieldOf d.1 v = some f) d.2 fields) :
    StoredAs d info ↔ info = ⟨d.1, .list fields⟩ := by
  have hunique : Relator.RightUnique fun v f => fieldOf d.1 v = some f :=
    fun _ _ _ h h' => Option.some.inj (h.symm.trans h')
  constructor
  · rintro ⟨fields', h', rfl⟩
    rw [hunique.forall₂ h h']
  · rintro rfl
    exact ⟨fields, h, rfl⟩

theorem lookup_insert_iff {m : AList fun _ : Nat => Info} {x info : Info} (hk : m.lookup k = none) :
    (∃ id, (m.insert k x).lookup id = some info) ↔ (∃ id, m.lookup id = some info) ∨ info = x := by
  constructor
  · rintro ⟨id, hid⟩
    by_cases h : id = k
    · subst h
      rw [AList.lookup_insert] at hid
      exact Or.inr (Option.some.inj hid).symm
    · rw [AList.lookup_insert_ne h] at hid
      exact Or.inl ⟨id, hid⟩
  · rintro (⟨id, hid⟩ | rfl)
    · refine ⟨id, ?_⟩
      rw [AList.lookup_insert_ne]
      · exact hid
      · rintro rfl
        cases hid.symm.trans hk
    · exact ⟨k, AList.lookup_insert m⟩

/-- One protocol is stored, under its own number. -/
theorem ReadPto_has (h : ReadPto k d.1 d.2 net = .ok net') (hfree : net.FreeFrom k) :
    net'.FreeFrom (k + 1) ∧ (∃ info, StoredAs d info) ∧ ∀ info, net'.Has info ↔ net.Has info ∨ StoredAs d info := by
  obtain ⟨fields, hfields, -, -, hstore, -⟩ := ReadPto_ok h
  obtain ⟨hc2s, hs2c⟩ := hfree k (Nat.le_refl k)
  refine ⟨fun id hid => ?_, ⟨_, fields, hfields, rfl⟩, fun info => ?_⟩
  · have hne : id ≠ k := by omega
    have hold := hfree id (by omega)
    rcases hstore with ⟨h1, h2⟩ | ⟨h1, h2⟩
    · rw [h1, h2, AList.lookup_insert_ne hne]
      exact hold
    · rw [h1, h2, AList.lookup_insert_ne hne]
      exact hold
  · unfold Schema.Has
    rw [storedAs_iff hfields]
    rcases hstore with ⟨h1, h2⟩ | ⟨h1, h2⟩
    · rw [h1, h2, lookup_insert_iff hs2c, or_assoc]
    · rw [h1, h2, lookup_insert_iff hc2s, or_right_comm]

/-- All protocols are stored. -/
theorem readPtos_has (h : readPtos k ds net = .ok net') (hfree : net.FreeFrom k) :
    (∀ d ∈ ds, ∃ info, StoredAs d info) ∧ ∀ info, net'.Has info ↔ net.Has info ∨ ∃ d ∈ ds, StoredAs d info := by
  induction ds generalizing k net with
  | nil =>
    cases h
    simp
  | cons d ds ih =>
    obtain ⟨net₁, hd, h⟩ := bind_eq_ok.1 h
    obtain ⟨hfree', hstored, hone⟩ := ReadPto_has hd hfree
    obtain ⟨hall, hmany⟩ := ih h hfree'
    refine ⟨List.forall_mem_cons.2 ⟨hstored, hall⟩, fun info => ?_⟩
    rw [hmany, hone, List.exists_mem_cons_iff, or_assoc]

end

/-! ## Known types -/

/-- The tables before `Init`; `net.NetType` can have entries of an earlier one. -/
def fresh (T : Types) : Schema := ⟨none, T, ∅, ∅, ∅⟩

/-- Every field of every entry has a data type or a type of `net.NetType`. -/
def Closed (net : Schema) : Prop :=
  ∀ info, ((∃ name, net.NetType.lookup name = some info) ∨ net.Has info) →
    ∀ v ∈ info.args.fields, DATA_TYPE v.argtype ∨ v.argtype ∈ net.NetType

/-- The names that definitions give to types: those of the types, and those of the inline lists. -/
def declaredNames (types ptos : List Def) : List String := types.map Prod.fst ++ (inlines (types ++ ptos)).map Prod.fst

section

variable {types ptos : List Def} {T : Types} {net : Schema} {isserver : Option Bool} {O : Pairs} {name a : String}
    {vs : List Data}
  {fields : List Field} {f : Field} {v : Data}

theorem mem_readAll (h : readAll isserver types ptos (fresh T) = .ok net) :
    a ∈ net.NetType ↔ a ∈ T ∨ a ∈ declaredNames types ptos := by
  obtain ⟨T₁, htypes, h⟩ := bind_eq_ok.1 h
  rw [mem_readPtos h, mem_readTypes htypes, declaredNames, inlines_append, List.map_append, List.mem_append,
    List.mem_append]
  exact or_assoc.trans (or_congr_right or_assoc)

theorem readAll_has (h : readAll isserver types ptos (fresh T) = .ok net) :
    (∀ d ∈ ptos, ∃ info, StoredAs d info) ∧ ∀ info, net.Has info ↔ ∃ d ∈ ptos, StoredAs d info := by
  obtain ⟨T₁, -, h⟩ := bind_eq_ok.1 h
  obtain ⟨hstored, hhas⟩ := readPtos_has h fun id _ => ⟨AList.lookup_empty id, AList.lookup_empty id⟩
  refine ⟨hstored, fun info => (hhas info).trans (or_iff_right ?_)⟩
  rintro (⟨id, hid⟩ | ⟨id, hid⟩)
  · cases (AList.lookup_empty id).symm.trans hid
  · cases (AList.lookup_empty id).symm.trans hid

theorem Init_ok (h : Init O isserver types ptos (fresh T) = some (.ok net)) :
    readAll isserver types ptos (fresh T) = .ok net ∧ CheckType O net.NetType = some (.ok ()) := by
  unfold Init at h
  split at h
  · cases h
  · rename_i net' hread
    obtain ⟨r, hr, h⟩ := Option.map_eq_some_iff.1 h
    cases r with
    | error e => cases h
    | ok u =>
      cases h
      exact ⟨hread, hr⟩

/-- The fields that are stored come from those of the definition. -/
theorem mem_fields_iff (h : List.Forall₂ (fun v f => fieldOf name v = some f) vs fields) :
    f ∈ fields ↔ ∃ v ∈ vs, fieldOf name v = some f := by
  induction h with
  | nil => simp
  | cons hv _ ih =>
    rw [List.mem_cons, ih, List.exists_mem_cons_iff, hv, Option.some_inj]
    exact or_congr_left eq_comm

/-- **Accepted schemas** have known types only if the names in the fields of the protocols are known. -/
theorem closed_iff (O : Pairs) (isserver : Option Bool) (types ptos : List Def) (T : Types) (net : Schema)
    (h : Init O isserver types ptos (fresh T) = some (.ok net)) :
    Closed net ↔ ∀ d ∈ ptos, ∀ key t rest, Data.tab (.str key :: .str t :: rest) ∈ d.2 →
      DATA_TYPE (transName t) ∨ transName t ∈ T ∨ transName t ∈ declaredNames types ptos := by
  obtain ⟨hread, hcheck⟩ := Init_ok h
  obtain ⟨hstored, hhas⟩ := readAll_has hread
  have hknown := (CheckType_ok_iff.1 hcheck).1
  constructor
  · intro hclosed d hd key t rest hmem
    obtain ⟨info, hinfo⟩ := hstored d hd
    obtain ⟨fields, hfields, rfl⟩ := id hinfo
    have hfield : (⟨key, transName t, rest⟩ : Field) ∈ fields := (mem_fields_iff hfields).2 ⟨_, hmem, rfl⟩
    have := hclosed _ (Or.inr ((hhas _).2 ⟨d, hd, hinfo⟩)) _ hfield
    rwa [mem_readAll hread] at this
  · rintro hnamed info (⟨name, hname⟩ | hinfo) f hf
    · refine hknown name f ?_
      rw [fieldsOf, hname]
      exact hf
    · obtain ⟨d, hd, fields, hfields, rfl⟩ := (hhas info).1 hinfo
      obtain ⟨v, hv, hfield⟩ := (mem_fields_iff hfields).1 hf
      rw [mem_readAll hread]
      unfold fieldOf at hfield
      split at hfield
      · cases hfield
        exact hnamed d hd _ _ _ hv
      · rename_i key item items rest
        cases hfield
        refine Or.inr (Or.inr (List.mem_append_right _ (List.mem_map.2 ⟨(subname d.1 key, item :: items), ?_, rfl⟩)))
        exact List.mem_flatMap.2 ⟨d, List.mem_append_right _ hd, List.mem_filterMap.2 ⟨_, hv, rfl⟩⟩
      · cases hfield

/-- The definition of a type. -/
def pointDef : Def := ("point", [.tab [.str "x", .str "int"]])

/-- The definition of a protocol with a field of it. -/
def moveDef : Def := ("c_move", [.tab [.str "to", .str "point"]])

/-- A schema whose protocol uses its type. -/
theorem closed_move : ∃ net, Init Pairs.last none [pointDef] [moveDef] (fresh ∅) = some (.ok net) ∧ Closed net := by
  refine ⟨_, rfl, (closed_iff Pairs.last none [pointDef] [moveDef] ∅ _ rfl).2 ?_⟩
  rintro d hd key t rest hmem
  obtain rfl := List.mem_singleton.1 hd
  cases List.mem_singleton.1 hmem
  exact Or.inr (Or.inr (by decide))

/-- A protocol with a type that nothing declares is accepted. -/
theorem not_closed_move : ∃ net, Init Pairs.last none [] [moveDef] (fresh ∅) = some (.ok net) ∧ ¬Closed net := by
  refine ⟨_, rfl, fun hclosed => ?_⟩
  have := hclosed ⟨"c_move", .list [⟨"to", "point", []⟩]⟩ (Or.inr (Or.inr ⟨1, rfl⟩)) _ List.mem_cons_self
  rcases this with h | h
  · cases h
  · exact absurd h (AList.notMem_empty _)

end

/-! ## Inline lists -/

mutual

/-- With each generated name replaced by what is stored for it, the type of a field is what was given, up to aliases. -/
inductive Restores (T : Types) : Data → String → Prop
  | named (t : String) : Restores T (.str t) (transName t)
  | inline {sub name : String} {items : List Data} {fields : List Field} :
    T.lookup sub = some ⟨name, .list fields⟩ → RestoresAll T items fields → Restores T (.tab items) sub

/-- The same for the fields of a list. -/
inductive RestoresAll (T : Types) : List Data → List Field → Prop
  | nil : RestoresAll T [] []
  | cons {f : Field} {kind : Data} {vs : List Data} {fields : List Field} : Restores T kind f.argtype →
      RestoresAll T vs fields →
    RestoresAll T (.tab (.str f.argname :: kind :: f.rest) :: vs) (f :: fields)

end

/-- The definition of a type can be had back. -/
def TypeRestored (d : Def) (T : Types) : Prop :=
  ∃ fields, T.lookup d.1 = some ⟨d.1, .list fields⟩ ∧ RestoresAll T d.2 fields

/-- The definition of a protocol can be had back. -/
def PtoRestored (id : Nat) (d : Def) (net : Schema) : Prop :=
  ∃ fields, net.entry id d.1 = some ⟨d.1, .list fields⟩ ∧ RestoresAll net.NetType d.2 fields

/-- No field has an inline list. -/
def Flat (vs : List Data) : Prop := ∀ key items rest, Data.tab (.str key :: .tab items :: rest) ∉ vs

/-- Every definition can be had back after it is read, and no two inline lists that differ have one name. -/
structure Preserved (isserver : Option Bool) (types ptos : List Def) (net : Schema) : Prop where
  type : ∀ pre d post, types = pre ++ d :: post → ∀ T T', readTypes pre net.NetType = .ok T →
    ReadType d.1 d.2 T = .ok T' → TypeRestored d T'
  pto : ∀ pre d post, ptos = pre ++ d :: post → ∀ net₁ net₂, readAll isserver types pre net = .ok net₁ →
    ReadPto (1 + pre.length) d.1 d.2 net₁ = .ok net₂ → PtoRestored (1 + pre.length) d net₂
  distinct : ∀ p ∈ inlines (types ++ ptos), ∀ q ∈ inlines (types ++ ptos), p.1 = q.1 → p.2 = q.2

section

variable {types ptos : List Def} {T T' : Types} {net net' : Schema} {isserver : Option Bool} {name : String}
    {vs : List Data}
  {fields : List Field} {d : Def} {id : Nat}

theorem subname_ne (name key : String) : subname name key ≠ name := by
  intro h
  have hlen := congrArg String.length h
  rw [subname, String.length_append, String.length_append] at hlen
  have hone : "_".length = 1 := rfl
  omega

/-- An inline list is not had back: what is stored for it is the table around it. -/
theorem restoresAll_iff (hfields : List.Forall₂ (fun v f => fieldOf name v = some f) vs fields)
    (hT : ∀ sub ∈ (vs.filterMap (inlineOf name)).map Prod.fst, ∃ n items, T.lookup sub = some ⟨n, .wrapped n items⟩) :
    RestoresAll T vs fields ↔ Flat vs := by
  induction hfields with
  | nil => exact iff_of_true .nil fun _ _ _ hmem => List.not_mem_nil hmem
  | @cons v f vs fields hv hrest ih =>
    have hT' : ∀ sub ∈ (vs.filterMap (inlineOf name)).map Prod.fst, ∃ n items,
        T.lookup sub = some ⟨n, .wrapped n items⟩ := by
      intro sub hsub
      obtain ⟨d, hd, rfl⟩ := List.mem_map.1 hsub
      obtain ⟨v', hv', hd⟩ := List.mem_filterMap.1 hd
      exact hT _ (List.mem_map.2 ⟨d, List.mem_filterMap.2 ⟨v', List.mem_cons_of_mem v hv', hd⟩, rfl⟩)
    constructor
    · rintro (_ | ⟨hkind, hall⟩) key items rest hmem
      rcases List.mem_cons.1 hmem with heq | hmem
      · cases heq
        cases hkind with
        | inline hlookup _ =>
          have hsub : f.argtype = subname name f.argname := by
            cases items with
            | nil => cases hv
            | cons item items => exact (congrArg Field.argtype (Option.some.inj hv)).symm
          obtain ⟨n, items', hwrapped⟩ := hT f.argtype (List.mem_map.2
            ⟨(subname name f.argname, items), List.mem_filterMap.2 ⟨_, List.mem_cons_self, rfl⟩, hsub.symm⟩)
          cases hwrapped.symm.trans hlookup
      · exact (ih hT').1 hall key items rest hmem
    · intro hflat
      have hall := (ih hT').2 fun key items rest hmem => hflat key items rest (List.mem_cons_of_mem v hmem)
      unfold fieldOf at hv
      split at hv
      · rename_i key t rest
        cases hv
        exact .cons (f := ⟨key, transName t, rest⟩) (.named t) hall
      · exact absurd List.mem_cons_self (hflat _ _ _)
      · cases hv

theorem ReadType_restored (h : ReadType d.1 d.2 T = .ok T') : TypeRestored d T' ↔ Flat d.2 := by
  obtain ⟨fields, hfields, -, rfl⟩ := ReadType_ok h
  have hT : ∀ sub ∈ (d.2.filterMap (inlineOf d.1)).map Prod.fst, ∃ n items,
      ((wrapAll (inlinesOf d) T).insert d.1 ⟨d.1, .list fields⟩).lookup sub = some ⟨n, .wrapped n items⟩ := by
    intro sub hsub
    have hne : sub ≠ d.1 := by
      obtain ⟨p, hp, rfl⟩ := List.mem_map.1 hsub
      obtain ⟨v, -, hv⟩ := List.mem_filterMap.1 hp
      unfold inlineOf at hv
      split at hv
      · cases hv
        exact subname_ne d.1 _
      · cases hv
    rw [AList.lookup_insert_ne hne]
    exact lookup_wrapAll hsub
  rw [← restoresAll_iff hfields hT]
  constructor
  · rintro ⟨fields', hlookup, hall⟩
    rw [AList.lookup_insert] at hlookup
    cases hlookup
    exact hall
  · exact fun hall => ⟨fields, AList.lookup_insert _, hall⟩

theorem ReadPto_restored (h : ReadPto id d.1 d.2 net = .ok net') : PtoRestored id d net' ↔ Flat d.2 := by
  obtain ⟨fields, hfields, -, htypes, -, hentry⟩ := ReadPto_ok h
  unfold PtoRestored
  rw [htypes, hentry, ← restoresAll_iff hfields fun sub hsub => lookup_wrapAll hsub]
  constructor
  · rintro ⟨fields', hlookup, hall⟩
    cases hlookup
    exact hall
  · exact fun hall => ⟨fields, rfl, hall⟩

theorem inlines_flat {ds : List Def} (h : ∀ d ∈ ds, Flat d.2) : inlines ds = [] := by
  refine List.flatMap_eq_nil_iff.2 fun d hd => List.filterMap_eq_nil_iff.2 fun v hv => ?_
  unfold inlineOf
  split
  · exact absurd hv (h d hd _ _ _)
  · rfl

/-- **Inline lists are not preserved**: a schema is, if it has none. -/
theorem preserved_iff (isserver : Option Bool) (types ptos : List Def) (net net' : Schema)
    (h : readAll isserver types ptos net = .ok net') :
    Preserved isserver types ptos net ↔ ∀ d ∈ types ++ ptos, Flat d.2 := by
  constructor
  · intro hpres d hd
    rcases List.mem_append.1 hd with hd | hd
    · obtain ⟨pre, post, rfl⟩ := List.append_of_mem hd
      obtain ⟨T, htypes, -⟩ := bind_eq_ok.1 h
      rw [readTypes_append] at htypes
      obtain ⟨T₁, hpre, htypes⟩ := bind_eq_ok.1 htypes
      obtain ⟨T₂, hd, -⟩ := bind_eq_ok.1 htypes
      exact (ReadType_restored hd).1 (hpres.type pre d post rfl T₁ T₂ hpre hd)
    · obtain ⟨pre, post, rfl⟩ := List.append_of_mem hd
      obtain ⟨T, htypes, hptos⟩ := bind_eq_ok.1 h
      rw [readPtos_append] at hptos
      obtain ⟨net₁, hpre, hptos⟩ := bind_eq_ok.1 hptos
      obtain ⟨net₂, hd, -⟩ := bind_eq_ok.1 hptos
      exact (ReadPto_restored hd).1 (hpres.pto pre d post rfl net₁ net₂ (bind_eq_ok.2 ⟨T, htypes, hpre⟩) hd)
  · intro hflat
    have hmem : ∀ {pre post : List Def} {d : Def}, d ∈ pre ++ d :: post := List.mem_append_right _ List.mem_cons_self
    refine ⟨?_, ?_, ?_⟩
    · rintro pre d post rfl T T' - hd
      exact (ReadType_restored hd).2 (hflat d (List.mem_append_left _ hmem))
    · rintro pre d post rfl net₁ net₂ - hd
      exact (ReadPto_restored hd).2 (hflat d (List.mem_append_right _ hmem))
    · intro p hp
      rw [inlines_flat hflat] at hp
      exact absurd hp List.not_mem_nil

/-- A schema without inline lists is preserved. -/
theorem preserved_move : Preserved none [pointDef] [moveDef] (fresh ∅) := by
  apply (preserved_iff none [pointDef] [moveDef] (fresh ∅) _ rfl).2
  rintro d hd key items rest hmem
  rcases List.mem_pair.1 hd with rfl | rfl
  · cases List.mem_singleton.1 hmem
  · cases List.mem_singleton.1 hmem

/-- The definition of a type with an inline list. -/
def pathDef : Def := ("path", [.tab [.str "ends", .tab [.tab [.str "x", .str "int"]], .num 0]])

/-- Two definitions whose inline lists get one name. -/
def clash : List Def :=
  [("a", [.tab [.str "b_c", .tab [.tab [.str "x", .str "int"]]]]),
    ("a_b", [.tab [.str "c", .tab [.tab [.str "y", .str "int"]]]])]

/-- The inline list cannot be had back; and two inline lists that differ are accepted under one name. -/
theorem not_preserved_path : (∃ net, Init Pairs.last none [pathDef] [] (fresh ∅) = some (.ok net)) ∧
    ¬Preserved none [pathDef] [] (fresh ∅) ∧ (∃ net, Init Pairs.last none clash [] (fresh ∅) = some (.ok net)) ∧
    ∃ p ∈ inlines clash, ∃ q ∈ inlines clash, p.1 = q.1 ∧ p.2 ≠ q.2 := by
  refine ⟨⟨_, rfl⟩, fun hpres => ?_, ⟨_, rfl⟩, _, List.mem_cons_self, _, List.mem_cons_of_mem _ List.mem_cons_self,
    by decide, ?_⟩
  · have hrestored := hpres.type [] pathDef [] rfl ∅ _ rfl rfl
    exact (ReadType_restored (T := ∅) rfl).1 hrestored _ _ _ List.mem_cons_self
  · simp

end

/-! ## The types of an accepted schema -/

/-- No two fields of a type have the same name. -/
def Distinct (T : Types) : Prop := ∀ name info, T.lookup name = some info → (info.args.fields.map Field.argname).Nodup

/-- A number behind the type makes an array. -/
def Field.toArg (f : Field) : Arg :=
  ⟨f.argname, f.argtype,
    match f.rest with
    | .num n :: _ => some n
    | _ => none⟩

/-- The types with their fields. -/
def argsOf (T : Types) : AList fun _ : String => List Arg :=
  ⟨T.entries.map fun e => ⟨e.1, e.2.args.fields.map Field.toArg⟩,
    List.NodupKeys.map₂ (fun _ info => info.args.fields.map Field.toArg) _ T.nodupKeys⟩

section

variable {types ptos ds : List Def} {T T' : Types} {net net' : Schema} {isserver : Option Bool} {O : Pairs}
    {name : String} {k : Nat}
  {l : List Def}

theorem lookup_argsOf (T : Types) (name : String) :
    (argsOf T).lookup name = (T.lookup name).map fun info => info.args.fields.map Field.toArg :=
  List.dlookup_map₂ (f := fun _ (info : Info) => info.args.fields.map Field.toArg) name

theorem Distinct.insert {info : Info} (h : Distinct T) (hinfo : (info.args.fields.map Field.argname).Nodup) :
    Distinct (T.insert name info) := by
  intro name' info' hlookup
  by_cases hname : name' = name
  · subst hname
    rw [AList.lookup_insert] at hlookup
    cases hlookup
    exact hinfo
  · rw [AList.lookup_insert_ne hname] at hlookup
    exact h name' info' hlookup

theorem Distinct.wrapAll (h : Distinct T) : Distinct (wrapAll l T) := by
  induction l generalizing T with
  | nil => exact h
  | cons d l ih => exact ih (h.insert List.nodup_nil)

theorem readTypes_distinct (hread : readTypes ds T = .ok T') (h : Distinct T) : Distinct T' := by
  induction ds generalizing T with
  | nil =>
    cases hread
    exact h
  | cons d ds ih =>
    obtain ⟨T₁, hd, hread⟩ := bind_eq_ok.1 hread
    obtain ⟨fields, -, hnodup, rfl⟩ := ReadType_ok hd
    exact ih hread (h.wrapAll.insert hnodup)

theorem readPtos_distinct (hread : readPtos k ds net = .ok net') (h : Distinct net.NetType) :
    Distinct net'.NetType := by
  induction ds generalizing k net with
  | nil =>
    cases hread
    exact h
  | cons d ds ih =>
    obtain ⟨net₁, hd, hread⟩ := bind_eq_ok.1 hread
    obtain ⟨fields, -, -, htypes, -⟩ := ReadPto_ok hd
    refine ih hread ?_
    rw [htypes]
    exact h.wrapAll

/-- The types that are read, with fields of different names. -/
theorem readAll_distinct (hread : readAll isserver types ptos net = .ok net') (h : Distinct net.NetType) :
    Distinct net'.NetType := by
  obtain ⟨T, htypes, hptos⟩ := bind_eq_ok.1 hread
  exact readPtos_distinct hptos (readTypes_distinct htypes h)

/-- `net.NetType`, for the readers and writers that are made of it. -/
def toNetType (T : Types) (h : Distinct T) : NetType where
  types := argsOf T
  nodup e he := by
    obtain ⟨⟨name, info⟩, hmem, rfl⟩ := List.mem_map.1 he
    have hlookup : T.lookup name = some info := AList.mem_lookup_iff.2 hmem
    rw [List.map_map]
    exact h name info hlookup

/-- A type that is not exported is no data type. -/
theorem DATA_TYPE_export {t : String} (h : DATA_TYPE t) : TYPE_EXPORT_LUA t ≠ none := by
  simp only [DATA_TYPE, List.mem_cons, List.not_mem_nil, or_false, decide_eq_true_eq] at h
  rcases h with rfl | rfl | rfl | rfl | rfl | rfl | rfl | rfl | rfl | rfl | rfl | rfl <;> decide

/-- Types that `CheckType` accepts are `Checked`. -/
theorem checked_of_CheckType (h : CheckType O T = some (.ok ())) (hT : Distinct T) : (toNetType T hT).Checked := by
  obtain ⟨hknown, hone⟩ := CheckType_ok_iff.1 h
  have hrefs : (fun a b => b ∈ ((fieldsOf T a).map Field.argtype).filter (· ∈ T)) = Refers T := by
    funext a b
    rw [Refers, List.mem_filter, List.mem_map, decide_eq_true_eq, and_comm]
  obtain ⟨rank, hrank⟩ := exists_rank (V := T.keys) (fun a => ((fieldsOf T a).map Field.argtype).filter (· ∈ T))
    (fun a _ b hb => AList.mem_keys.1 (of_decide_eq_true (List.mem_filter.1 hb).2)) (by rwa [hrefs])
  refine ⟨rank, fun {name args} hlookup a ha hexport => ?_⟩
  rw [toNetType, lookup_argsOf] at hlookup
  obtain ⟨info, hinfo, rfl⟩ := Option.map_eq_some_iff.1 hlookup
  obtain ⟨f, hf, rfl⟩ := List.mem_map.1 ha
  have hfield : f ∈ fieldsOf T name := by
    rw [fieldsOf, hinfo]
    exact hf
  have hmem : f.argtype ∈ T := (hknown name f hfield).resolve_left fun hdata => DATA_TYPE_export hdata hexport
  refine ⟨?_, hrank name (AList.mem_keys.1 (mem_of_mem_fieldsOf hfield)) f.argtype ?_⟩
  · rw [toNetType, lookup_argsOf, Option.isSome_map]
    exact AList.lookup_isSome.2 hmem
  · exact List.mem_filter.2 ⟨List.mem_map.2 ⟨f, hfield, rfl⟩, decide_eq_true hmem⟩

/-- **The types of an accepted schema** are those that readers and writers can be made of. -/
theorem checked_of_Init (h : Init O isserver types ptos (fresh T) = some (.ok net)) (hT : Distinct T) :
    ∃ hnet : Distinct net.NetType, (toNetType net.NetType hnet).Checked := by
  obtain ⟨hread, hcheck⟩ := Init_ok h
  have hnet : Distinct net.NetType := readAll_distinct hread hT
  exact ⟨hnet, checked_of_CheckType hcheck hnet⟩

end

end XCore.Net
