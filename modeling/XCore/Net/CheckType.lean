import XCore.Net.Reader

/-!
# What `CheckType` accepts

`Refers` is the graph of the named types. `CheckType` accepts types that are known if no type is reached from another
along two paths (`CheckType_ok_iff`), whatever the order of `pairs`; types without a cycle it accepts only then
(`separates_iff`).
-/

namespace XCore.Net

open XCore.Search
open XCore.Lua (bind_eq_ok)

/-! ## The graph of the types -/

/-- A type has a field of another named type. -/
def Refers (T : Types) (a b : String) : Prop := b ∈ T ∧ ∃ v ∈ fieldsOf T a, v.argtype = b

/-- Every field has a data type or a named type. -/
def KnownTypes (T : Types) : Prop := ∀ a, ∀ v ∈ fieldsOf T a, DATA_TYPE v.argtype ∨ v.argtype ∈ T

theorem mem_of_mem_fieldsOf {T : Types} {a : String} {v : Field} (h : v ∈ fieldsOf T a) : a ∈ T := by
  unfold fieldsOf at h
  rw [← AList.lookup_isSome]
  cases hlookup : T.lookup a with
  | none =>
    rw [hlookup] at h
    exact absurd h List.not_mem_nil
  | some info => rfl

/-- The names that are listed in `custom[name]`. -/
def Custom.subs (custom : Custom) (name : String) : List String := (custom.lookup name).getD []

/-- What the loops over the types keep of `custom`. -/
structure Custom.Good (T : Types) (custom : Custom) : Prop where
  mem : ∀ a ∈ custom, a ∈ T
  nodup : ∀ a, (custom.subs a).Nodup

section

variable {T : Types} {custom c : Custom} {name a b : String} {vs : List Field} {names : List String}

theorem Custom.mem_subs_add {sub : String} :
    b ∈ (custom.add name sub).subs a ↔ b ∈ custom.subs a ∨ (a = name ∧ b = sub) := by
  unfold Custom.subs Custom.add
  by_cases h : a = name
  · subst h
    rw [AList.lookup_insert, Option.getD_some, List.mem_insert_iff]
    constructor
    · rintro (rfl | hb)
      · exact Or.inr ⟨rfl, rfl⟩
      · exact Or.inl hb
    · rintro (hb | ⟨-, rfl⟩)
      · exact Or.inr hb
      · exact Or.inl rfl
  · rw [AList.lookup_insert_ne h]
    exact ⟨Or.inl, fun hb => hb.resolve_right fun hn => h hn.1⟩

theorem Custom.Good.add {sub : String} (h : custom.Good T) (hname : name ∈ T) : (custom.add name sub).Good T := by
  constructor
  · intro a ha
    rcases (AList.mem_insert _).1 ha with rfl | ha
    · exact hname
    · exact h.mem a ha
  · intro a
    unfold Custom.subs Custom.add
    by_cases ha : a = name
    · subst ha
      rw [AList.lookup_insert]
      exact (h.nodup a).insert
    · rw [AList.lookup_insert_ne ha]
      exact h.nodup a

/-- A field that the loop accepts. -/
def FieldOk (T : Types) (name : String) (v : Field) : Prop := v.argtype ≠ name ∧ (DATA_TYPE v.argtype ∨ v.argtype ∈ T)

theorem checkFields_cons {v : Field} (hv : FieldOk T name v) : checkFields T name (v :: vs) custom =
    checkFields T name vs (if v.argtype ∈ T then custom.add name v.argtype else custom) := by
  rw [checkFields, if_neg hv.1, if_neg (not_not.2 hv.2)]

theorem checkFields_ok (h : checkFields T name vs custom = .ok c) : ∀ v ∈ vs, FieldOk T name v := by
  induction vs generalizing custom with
  | nil => exact fun v hv => absurd hv List.not_mem_nil
  | cons v vs ih =>
    unfold checkFields at h
    split at h
    · cases h
    · rename_i hself
      split at h
      · cases h
      · rename_i hknown
        exact List.forall_mem_cons.2 ⟨⟨hself, not_not.1 hknown⟩, ih h⟩

/-- What the loop over the fields leaves. -/
theorem checkFields_spec (hvs : ∀ v ∈ vs, FieldOk T name v) (hname : name ∈ T) (hgood : custom.Good T) :
    ∃ c : Custom, checkFields T name vs custom = .ok c ∧ c.Good T ∧
      ∀ a b, b ∈ c.subs a ↔ b ∈ custom.subs a ∨ (a = name ∧ b ∈ T ∧ ∃ v ∈ vs, v.argtype = b) := by
  induction vs generalizing custom with
  | nil => exact ⟨custom, rfl, hgood, by simp⟩
  | cons v vs ih =>
    obtain ⟨hv, hvs⟩ := List.forall_mem_cons.1 hvs
    rw [checkFields_cons hv]
    by_cases hmem : v.argtype ∈ T
    · rw [if_pos hmem]
      obtain ⟨c, hc, hgood', hsubs⟩ := ih hvs (hgood.add hname)
      refine ⟨c, hc, hgood', fun a b => (hsubs a b).trans ?_⟩
      rw [Custom.mem_subs_add, List.exists_mem_cons_iff, or_assoc]
      refine or_congr_right ⟨?_, ?_⟩
      · rintro (⟨rfl, rfl⟩ | ⟨ha, hb, hex⟩)
        · exact ⟨rfl, hmem, Or.inl rfl⟩
        · exact ⟨ha, hb, Or.inr hex⟩
      · rintro ⟨ha, hb, rfl | hex⟩
        · exact Or.inl ⟨ha, rfl⟩
        · exact Or.inr ⟨ha, hb, hex⟩
    · rw [if_neg hmem]
      obtain ⟨c, hc, hgood', hsubs⟩ := ih hvs hgood
      refine ⟨c, hc, hgood', fun a b => (hsubs a b).trans ?_⟩
      rw [List.exists_mem_cons_iff]
      refine or_congr_right (and_congr_right fun _ => and_congr_right fun hb => ?_)
      have hne : v.argtype ≠ b := by
        rintro rfl
        exact hmem hb
      exact (or_iff_right hne).symm

theorem checkTypes_ok (h : checkTypes T names custom = .ok c) :
    ∀ name ∈ names, ∀ v ∈ fieldsOf T name, FieldOk T name v := by
  induction names generalizing custom with
  | nil => exact fun name hname => absurd hname List.not_mem_nil
  | cons name names ih =>
    obtain ⟨c', hc', h⟩ := bind_eq_ok.1 h
    exact List.forall_mem_cons.2 ⟨checkFields_ok hc', ih h⟩

/-- What the loop over the types leaves. -/
theorem checkTypes_spec (hok : ∀ name ∈ names, ∀ v ∈ fieldsOf T name, FieldOk T name v)
    (hnames : ∀ name ∈ names, name ∈ T) (hgood : custom.Good T) :
    ∃ c : Custom, checkTypes T names custom = .ok c ∧ c.Good T ∧
      ∀ a b, b ∈ c.subs a ↔ b ∈ custom.subs a ∨ (a ∈ names ∧ Refers T a b) := by
  induction names generalizing custom with
  | nil => exact ⟨custom, rfl, hgood, by simp⟩
  | cons name names ih =>
    obtain ⟨hfields, hok⟩ := List.forall_mem_cons.1 hok
    obtain ⟨hname, hnames⟩ := List.forall_mem_cons.1 hnames
    obtain ⟨c', hc', hgood', hsubs'⟩ := checkFields_spec hfields hname hgood
    obtain ⟨c, hc, hgood'', hsubs⟩ := ih hok hnames hgood'
    refine ⟨c, bind_eq_ok.2 ⟨c', hc', hc⟩, hgood'', fun a b => (hsubs a b).trans ?_⟩
    rw [hsubs', or_assoc, List.mem_cons, or_and_right]
    refine or_congr_right (or_congr_left ?_)
    constructor
    · rintro ⟨rfl, href⟩
      exact ⟨rfl, href⟩
    · rintro ⟨rfl, href⟩
      exact ⟨rfl, href⟩

end

/-! ## The search -/

section

variable {T : Types} {O O' : Pairs} {custom : Custom} {names : List String} {n : Nat}

theorem CheckNode_eq (O : Pairs) (custom : Custom) (root : String) (n : Nat) :
    CheckNode O custom root n = visit ("数据类型 " ++ root ++ " 出现嵌套环") (subnames O custom) n := by
  induction n with
  | zero => rfl
  | succ n ih =>
    funext chain name
    rw [CheckNode, visit, ih]

/-- `custom` has the references between the types. -/
structure Custom.Graph (T : Types) (custom : Custom) : Prop extends custom.Good T where
  subs : ∀ a b, b ∈ custom.subs a ↔ Refers T a b

theorem Custom.Graph.mem_subnames (h : custom.Graph T) (O : Pairs) :
    (fun a b => b ∈ subnames O custom a) = Refers T := by
  funext a b
  exact propext ((O.perm _).mem_iff.trans (h.subs a b))

theorem Custom.Graph.visit_ok (h : custom.Graph T) (O : Pairs) (root : String) {name : String} (hname : name ∈ T) :
    (∃ chain, CheckNode O custom root (T.keys.length + 1) [] name = some (.ok chain)) ↔ OnePath (Refers T) name := by
  rw [CheckNode_eq, ← h.mem_subnames O]
  refine visit_ok_iff (V := T.keys) ?_ (AList.mem_keys.1 hname) (Nat.lt_succ_self _) fun a => ?_
  · intro a _ b hb
    have href : Refers T a b := (congrFun (congrFun (h.mem_subnames O) a) b).mp hb
    exact AList.mem_keys.1 href.1
  · exact (O.perm _).nodup_iff.2 (h.nodup a)

theorem Custom.Graph.visit_isSome (h : custom.Graph T) (O : Pairs) (root : String) {name : String} (hname : name ∈ T) :
    (CheckNode O custom root (T.keys.length + 1) [] name).isSome := by
  rw [CheckNode_eq]
  refine Search.visit_isSome (V := T.keys) ?_ (AList.mem_keys.1 hname) List.nodup_nil ?_
  · intro a _ b hb
    have href : Refers T a b := (congrFun (congrFun (h.mem_subnames O) a) b).mp hb
    exact AList.mem_keys.1 href.1
  · rw [unmarked, List.toFinset_nil, Finset.sdiff_empty]
    exact Nat.lt_succ_of_le (List.toFinset_card_le T.keys)

/-- The loop over `custom` ends, and accepts if there is one path at most from each of its types. -/
theorem Custom.Graph.checkRoots_ok (h : custom.Graph T) (O : Pairs) (hnames : ∀ name ∈ names, name ∈ T) :
    ∃ r, checkRoots O custom (T.keys.length + 1) names = some r ∧
    (r = .ok () ↔ ∀ name ∈ names, OnePath (Refers T) name) := by
  induction names with
  | nil => exact ⟨_, rfl, iff_of_true rfl fun name hname => absurd hname List.not_mem_nil⟩
  | cons name names ih =>
    obtain ⟨hname, hnames⟩ := List.forall_mem_cons.1 hnames
    have hok := h.visit_ok O name hname
    obtain ⟨r, hr⟩ := Option.isSome_iff_exists.1 (h.visit_isSome O name hname)
    unfold checkRoots
    rw [hr] at hok ⊢
    cases r with
    | error e =>
      refine ⟨_, rfl, iff_of_false (by rintro ⟨⟩) fun hall => ?_⟩
      obtain ⟨_, ⟨⟩⟩ := hok.2 (hall name List.mem_cons_self)
    | ok chain =>
      obtain ⟨r, hr, hiff⟩ := ih hnames
      refine ⟨r, hr, hiff.trans ⟨fun hall => ?_,
        fun hall name' hname' => hall name' (List.mem_cons_of_mem name hname')⟩⟩
      exact List.forall_mem_cons.2 ⟨hok.1 ⟨chain, rfl⟩, hall⟩

/-- From a type that refers to none there is one path. -/
theorem onePath_of_no_refs {name : String} (h : ∀ b, ¬Refers T name b) : OnePath (Refers T) name := by
  have hnil : ∀ l, Path (Refers T) name l → l = [] := by
    intro l hl
    cases l with
    | nil => rfl
    | cons b l => exact absurd (path_cons.1 hl).1 (h b)
  intro l l' hl hl' _
  rw [hnil l hl, hnil l' hl']

/-- The two outcomes of `CheckType`. -/
theorem CheckType_outcome (O : Pairs) (T : Types) :
    ∃ r, CheckType O T = some r ∧ (r = .ok () ↔ KnownTypes T ∧ ∀ name, OnePath (Refers T) name) := by
  unfold CheckType
  by_cases hnil : T.keys = []
  · rw [if_pos hnil]
    have hfields : ∀ a, ∀ v, v ∉ fieldsOf T a := by
      intro a v hv
      have hmem := AList.mem_keys.1 (mem_of_mem_fieldsOf hv)
      rw [hnil] at hmem
      exact List.not_mem_nil hmem
    refine ⟨_, rfl, iff_of_true rfl ⟨fun a v hv => absurd hv (hfields a v), fun name => ?_⟩⟩
    apply onePath_of_no_refs
    rintro b ⟨-, v, hv, -⟩
    exact hfields name v hv
  · rw [if_neg hnil]
    have hkeys : ∀ name, name ∈ O.order T.keys ↔ name ∈ T := fun name => (O.perm _).mem_iff.trans AList.mem_keys.symm
    by_cases hok : ∀ name ∈ O.order T.keys, ∀ v ∈ fieldsOf T name, FieldOk T name v
    · have hempty : Custom.Good T (∅ : Custom) :=
        ⟨fun a ha => absurd ha (AList.notMem_empty a), fun _ => List.nodup_nil⟩
      obtain ⟨c, hc, hgood, hsubs⟩ := checkTypes_spec hok (fun name => (hkeys name).1) hempty
      have hgraph : c.Graph T := by
        refine ⟨hgood, fun a b => (hsubs a b).trans ⟨?_, ?_⟩⟩
        · rintro (hb | hb)
          · exact absurd hb List.not_mem_nil
          · exact hb.2
        · intro href
          obtain ⟨-, v, hv, -⟩ := id href
          exact Or.inr ⟨(hkeys a).2 (mem_of_mem_fieldsOf hv), href⟩
      have hroots : ∀ name, name ∈ O.order c.keys ↔ name ∈ c := fun name => (O.perm _).mem_iff.trans AList.mem_keys.symm
      obtain ⟨r, hr, hiff⟩ := hgraph.checkRoots_ok O fun name hname => hgood.mem name ((hroots name).1 hname)
      rw [hc]
      refine ⟨r, hr, hiff.trans ⟨fun hall => ⟨?_, fun name => ?_⟩, fun hall name _ => hall.2 name⟩⟩
      · intro a v hv
        exact (hok a ((hkeys a).2 (mem_of_mem_fieldsOf hv)) v hv).2
      · by_cases hname : name ∈ c
        · exact hall name ((hroots name).2 hname)
        · apply onePath_of_no_refs
          intro b href
          have hb := (hgraph.subs name b).2 href
          rw [Custom.subs, AList.lookup_eq_none.2 hname] at hb
          exact List.not_mem_nil hb
    · cases hc : checkTypes T (O.order T.keys) ∅ with
      | ok c => exact absurd (checkTypes_ok hc) hok
      | error e =>
        refine ⟨_, rfl, iff_of_false (by rintro ⟨⟩) ?_⟩
        rintro ⟨hknown, hone⟩
        apply hok
        intro name _ v hv
        refine ⟨fun hself => ?_, hknown name v hv⟩
        -- a type with itself in a field is a path back to itself
        have href : Refers T name name := ⟨mem_of_mem_fieldsOf hv, v, hv, hself⟩
        have hloop := hone name [name] [] (path_cons.2 ⟨href, path_nil⟩) path_nil rfl
        cases hloop

/-- The search never runs out of fuel. -/
theorem CheckType_ends (O : Pairs) (T : Types) : (CheckType O T).isSome := by
  obtain ⟨r, hr, -⟩ := CheckType_outcome O T
  rw [hr]
  rfl

/-- `CheckType` accepts known types with one path at most from each to each. -/
theorem CheckType_ok_iff : CheckType O T = some (.ok ()) ↔ KnownTypes T ∧ ∀ name, OnePath (Refers T) name := by
  obtain ⟨r, hr, hiff⟩ := CheckType_outcome O T
  rw [hr, ← hiff]
  exact Option.some_inj

/-- The types are accepted if they are known and have no cycle, and else refused, in every order. -/
def Separates (T : Types) : Prop :=
  ∀ O, ∃ r, CheckType O T = some r ∧ (r = .ok () ↔ KnownTypes T ∧ Acyclic (Refers T))

/-- **Types are told apart right** but for known types without a cycle of which one is reached from another along two
paths; the order never matters. -/
theorem separates_iff (T : Types) :
    (Separates T ↔ (KnownTypes T ∧ Acyclic (Refers T) → ∀ name, OnePath (Refers T) name)) ∧
      ∀ O O', CheckType O T = some (.ok ()) ↔ CheckType O' T = some (.ok ()) := by
  refine ⟨⟨fun hsep hT => ?_, fun hone O => ?_⟩, fun O O' => CheckType_ok_iff.trans CheckType_ok_iff.symm⟩
  · obtain ⟨r, hr, hiff⟩ := hsep Pairs.last
    rw [hiff.2 hT] at hr
    exact (CheckType_ok_iff.1 hr).2
  · obtain ⟨r, hr, hiff⟩ := CheckType_outcome O T
    refine ⟨r, hr, hiff.trans ⟨fun hT => ⟨hT.1, acyclic_of_onePath hT.2⟩, fun hT => ⟨hT.1, hone hT⟩⟩⟩

/-- A type with fields of two others, of which one has a field of the other. -/
def diamond : Types :=
  (((∅ : Types).insert "c" ⟨"c", .list []⟩).insert "b" ⟨"b", .list [⟨"z", "c", []⟩]⟩).insert "a"
    ⟨"a", .list [⟨"x", "b", []⟩, ⟨"y", "c", []⟩]⟩

theorem mem_diamond {name : String} : name ∈ diamond ↔ name = "a" ∨ name = "b" ∨ name = "c" := by
  unfold diamond
  rw [AList.mem_insert, AList.mem_insert, AList.mem_insert, or_iff_left (AList.notMem_empty name)]

theorem fieldsOf_diamond {a : String} {v : Field} (hv : v ∈ fieldsOf diamond a) :
    (a = "a" ∧ (v.argtype = "b" ∨ v.argtype = "c")) ∨ (a = "b" ∧ v.argtype = "c") := by
  rcases mem_diamond.1 (mem_of_mem_fieldsOf hv) with rfl | rfl | rfl
  · have hlist : fieldsOf diamond "a" = [⟨"x", "b", []⟩, ⟨"y", "c", []⟩] := rfl
    rw [hlist] at hv
    refine Or.inl ⟨rfl, ?_⟩
    rcases List.mem_pair.1 hv with rfl | rfl
    · exact Or.inl rfl
    · exact Or.inr rfl
  · have hlist : fieldsOf diamond "b" = [⟨"z", "c", []⟩] := rfl
    rw [hlist] at hv
    obtain rfl := List.mem_singleton.1 hv
    exact Or.inr ⟨rfl, rfl⟩
  · exact absurd hv List.not_mem_nil

/-- There is no cycle, and the types are refused. -/
theorem not_separates_diamond : KnownTypes diamond ∧ Acyclic (Refers diamond) ∧ ¬Separates diamond := by
  have hknown : KnownTypes diamond := by
    intro a v hv
    refine Or.inr (mem_diamond.2 (Or.inr ?_))
    rcases fieldsOf_diamond hv with ⟨-, h⟩ | ⟨-, h⟩
    · exact h
    · exact Or.inr h
  have hacyclic : Acyclic (Refers diamond) := by
    apply acyclic_of_rank fun name => if name = "a" then 2 else if name = "b" then 1 else 0
    rintro a b ⟨-, v, hv, rfl⟩
    rcases fieldsOf_diamond hv with ⟨rfl, h | h⟩ | ⟨rfl, h⟩ <;> rw [h] <;> decide
  refine ⟨hknown, hacyclic, fun hsep => ?_⟩
  obtain ⟨r, hr, hiff⟩ := hsep Pairs.last
  have hrefused : CheckType Pairs.last diamond = some (.error "数据类型 a 出现嵌套环") := rfl
  rw [hrefused] at hr
  cases hr
  cases hiff.2 ⟨hknown, hacyclic⟩

end

end XCore.Net
