import XCore.Lib.Search
import XCore.Require.Classes
import XCore.Require.Program

/-!
# Every file is run once

Where the files do not require each other in a circle, their bodies and hooks raise nothing and no two classes have the
same type, a program that requires files raises nothing in `require`; every file that it needs is run once, and
`require` returns it when it is finished (`single_execution`).

The invariant is on the record so far (`Inv`). Code at rank `r` may require the files of lower rank, each of which has
no event yet or is finished; it leaves the others alone (`Goes`). The induction is on the depth of the stack, and in it
on programs.
-/

namespace XCore.Require

open XCore.Lua XCore.Heap XCore.Effect XCore.Search

/-! ## The record -/

/-- The file that an event is part of the loading of. -/
def Event.file {φ : Type} : Event φ → Option String
  | .enter file => some file
  | .leave file _ _ => some file
  | .init file _ => some file
  | .finish file => some file
  | _ => none

section

variable {φ : Type} {file : String} {log log' : List (Event φ)} {e : Event φ} {M : Ref} {s : St φ}

/-- The events of a file. -/
def about (file : String) (log : List (Event φ)) : List (Event φ) := log.filter fun e => e.file = some file

/-- The module that the body of a file has left. -/
def leftAs (file : String) : Event φ → Option Ref
  | .leave file' M _ => if file' = file then some M else none
  | _ => none

/-- The module of a file, once its body is left. -/
def loadedAs (file : String) (log : List (Event φ)) : Option Ref := log.findSome? (leftAs file)

theorem about_append : about file (log ++ log') = about file log ++ about file log' := List.filter_append ..

theorem about_of_ne (h : e.file ≠ some file) : about file [e] = [] := by
  unfold about
  rw [List.filter_singleton, decide_eq_false h, cond_false]

theorem about_self (h : e.file = some file) : about file [e] = [e] := by
  unfold about
  rw [List.filter_singleton, decide_eq_true h, cond_true]

/-- Events of other files do not load a file. -/
theorem leftAs_of_ne (h : e.file ≠ some file) : leftAs file e = none := by
  cases e with
  | leave file' M s => exact if_neg fun hf => h (congrArg some hf)
  | _ => rfl

theorem loadedAs_about : loadedAs file log = loadedAs file (about file log) := by
  unfold loadedAs about
  induction log with
  | nil => rfl
  | cons e log ih =>
    by_cases h : e.file = some file
    · rw [List.filter_cons_of_pos (by simpa using h), List.findSome?_cons, List.findSome?_cons, ih]
    · rw [List.filter_cons_of_neg (by simpa using h), List.findSome?_cons, leftAs_of_ne h, ih]

theorem loadedAs_append : loadedAs file (log ++ log') = (loadedAs file log).or (loadedAs file log') :=
  List.findSome?_append

theorem loadedAs_concat : loadedAs file (log ++ [e]) = (loadedAs file log).or (leftAs file e) := by
  rw [loadedAs_append]
  exact congrArg _ List.findSome?_singleton

/-- A file stays loaded. -/
theorem loadedAs_of_append (h : loadedAs file log = some M) : loadedAs file (log ++ log') = some M := by
  rw [loadedAs_append, h]
  rfl

variable [DecidableEq φ]

/-- The call of `__init__`, if the module has it. -/
def inits (file : String) (M : Ref) (s : St φ) : List (Event φ) :=
  match s.heap.index M Hook.init.key with
  | .ok (.fn f) => [.init file f]
  | _ => []

/-- One run of the body of a file, and one call of its `__init__` after that. -/
def ranOnce (file : String) (M : Ref) (s : St φ) : List (Event φ) :=
  .enter file :: .leave file M s :: (inits file M s ++ [.finish file])

/-- A file that is finished. -/
def Completed (file : String) (log : List (Event φ)) : Prop := ∃ M s, about file log = ranOnce file M s

/-- A file that is not loaded, or finished. -/
def Settled (file : String) (log : List (Event φ)) : Prop := about file log = [] ∨ Completed file log

theorem Completed.congr (h : about file log' = about file log) : Completed file log' ↔ Completed file log := by
  unfold Completed
  rw [h]

theorem Settled.append_quiet (h : Settled file log) (hq : about file log' = []) : Settled file (log ++ log') := by
  have hsame : about file (log ++ log') = about file log := by
    rw [about_append, hq, List.append_nil]
  unfold Settled
  rw [Completed.congr hsame, hsame]
  exact h

theorem loadedAs_ranOnce : loadedAs file (ranOnce file M s) = some M := by
  have hleave : leftAs file (.leave file M s) = some M := if_pos rfl
  unfold loadedAs ranOnce
  rw [List.findSome?_cons, List.findSome?_cons, hleave]
  rfl

/-- A finished file is loaded. -/
theorem loaded_of_ranOnce (h : about file log = ranOnce file M s) :
    loadedAs file log = some M ∧ .finish file ∈ log := by
  have hmem : .finish file ∈ about file log := by
    rw [h]
    unfold ranOnce
    simp
  refine ⟨?_, List.mem_of_mem_filter hmem⟩
  rw [loadedAs_about, h]
  exact loadedAs_ranOnce

theorem Completed.loaded (h : Completed file log) : ∃ M, loadedAs file log = some M ∧ .finish file ∈ log := by
  obtain ⟨M, s, h⟩ := h
  exact ⟨M, loaded_of_ranOnce h⟩

/-- A file that is not loaded and not being loaded. -/
theorem Settled.fresh (h : Settled file log) (hnone : loadedAs file log = none) : about file log = [] := by
  rcases h with h | h
  · exact h
  · obtain ⟨M, hM, -⟩ := h.loaded
    rw [hnone] at hM
    cases hM

/-- A file that is loaded and not being loaded. -/
theorem Settled.finished (h : Settled file log) (hM : loadedAs file log = some M) : .finish file ∈ log := by
  rcases h with h | h
  · rw [loadedAs_about, h] at hM
    cases hM
  · obtain ⟨-, -, hmem⟩ := h.loaded
    exact hmem

end

/-! ## What is asked of the files, and what holds of the record -/

section

variable {φ χ : Type} [DecidableEq φ] (P : Modules φ χ) (files : String → File χ) (owner : Val φ → String)

/-- The type that a value is registered under, if it is a class. -/
def St.typeOf (s : St φ) : Val φ → Option (Val φ)
  | .tab r => if (s.heap.rawget r ClassType).truthy then some (s.heap.rawget r ClassType) else none
  | _ => none

/-- What the body of a file leaves: `__init__` is a function, if there is one, and no two of its classes have the same
type, nor does a class of another file. -/
structure Finished (file : String) (M : Ref) (s : St φ) : Prop where
  init : fits (s.heap.index M Hook.init.key)
  owned : ∀ k, ∀ T ∈ s.typeOf (s.heap.rawget M k), owner T = file
  distinct : ∀ k, ∀ T ∈ s.typeOf (s.heap.rawget M k), ∀ k', T ∈ s.typeOf (s.heap.rawget M k') → k = k'

/-- The file that `LoadFile` finds. -/
def Finds (name file : String) : Prop := (LoadFile files name).map Prod.snd = .ok file

/-- What is asked of the events: what is required is built in or one of the files `V`, and the file of the caller refers
to it; code raises no error itself. -/
def Allowed (E : String → String → Prop) (V : List String) : Event φ → Prop
  | .calls who name => (P.builtin name).isSome ∨ ∃ file ∈ V, Finds files name file ∧ ∀ caller ∈ who, E caller file
  | .leave file M s => Finished owner file M s
  | .raises => False
  | _ => True

/-- What `require` returns: the module of the file, which is finished. -/
def Answers (log : List (Event φ)) (name : String) (v : Val φ) : Prop := P.builtin name = none →
  ∃ file M, Finds files name file ∧ loadedAs file log = some M ∧ v = .tab M ∧ .finish file ∈ log

/-- **Single execution**: of every file there is no event, or its body has run once, and then its `__init__`, and its
table is the module; every call of `require` returns, and it returns the module of the file that it finds, which is
finished before. -/
structure SingleExecution (s : St φ) (log : List (Event φ)) : Prop where
  once : ∀ file, (about file log = [] ∧ s.MODULE file = none) ∨ ∃ M t, s.MODULE file = some M ∧
    about file log = ranOnce file M t
  returns : ∀ who name, .calls who name ∈ log → ∃ v, .returns who name v ∈ log
  same : ∀ before after who name v, log = before ++ .returns who name v :: after → P.builtin name = none →
    ∃ file M, Finds files name file ∧ s.MODULE file = some M ∧ v = .tab M ∧ .finish file ∈ before

/-- The invariant of the record. -/
structure Inv (s : St φ) (log : List (Event φ)) : Prop where
  MODULE : ∀ file, s.MODULE file = loadedAs file log
  CLASS : ∀ T, (s.CLASS T).isSome → (loadedAs (owner T) log).isSome
  found : ∀ file, (loadedAs file log).isSome → ∃ c, files file = .chunk c
  answers : ∀ before after who name v, log = before ++ .returns who name v :: after → Answers P files before name v

variable (rank : String → Nat)

/-- The files of lower rank are not loaded or finished. -/
structure Ready (r : Nat) (s : St φ) (log : List (Event φ)) : Prop where
  inv : Inv P files owner s log
  settled : ∀ file, rank file < r → Settled file log

/-- What is done at rank `r`, in the loading of the file `own` if any: the events of this file are `mine`, and there are
none of the other files of rank `r` or more, or of those that were finished. -/
structure Goes (own : Option String) (r : Nat) (log mine : List (Event φ)) (x : Trace φ) : Prop where
  err : x.err = none
  ready : Ready P files owner rank r x.state (log ++ x.out)
  quiet : ∀ file, own ≠ some file → r ≤ rank file ∨ Completed file log → about file x.out = []
  mine : ∀ file, own = some file → about file x.out = mine
  returns : ∀ who name, .calls who name ∈ x.out → ∃ v, .returns who name v ∈ x.out

end

section

variable {φ χ : Type} [DecidableEq φ] {P : Modules φ χ} {files : String → File χ} {owner : Val φ → String}
    {rank : String → Nat}
  {E : String → String → Prop} {V : List String} {T : Traced φ χ} {O : Order φ} {own : Option String} {r n : Nat}
  {file name : String} {log mine mine' : List (Event φ)} {e : Event φ} {x : Trace φ} {k : St φ → Trace φ} {M : Ref}
    {s t : St φ} {c : χ}

/-! ### The invariant -/

omit [DecidableEq φ] in
theorem Inv.congr (h : Inv P files owner s log) (hM : t.MODULE = s.MODULE) (hC : t.CLASS = s.CLASS) :
    Inv P files owner t log := by
  refine ⟨fun file => ?_, fun T hT => ?_, h.found, h.answers⟩
  · rw [hM]
    exact h.MODULE file
  · rw [hC] at hT
    exact h.CLASS T hT

omit [DecidableEq φ] in
/-- What holds of every answer and of the last event holds of every answer. -/
theorem answers_concat (h : Inv P files owner s log)
    (he : ∀ who name v, e = .returns who name v → Answers P files log name v) :
    ∀ before after who name v, log ++ [e] = before ++ .returns who name v :: after → Answers P files before name v := by
  intro before after who name v hlog
  rcases List.eq_nil_or_concat after with rfl | ⟨after', e', rfl⟩
  · obtain ⟨rfl, hlast⟩ := List.append_inj' hlog rfl
    exact he who name v (List.head_eq_of_cons_eq hlast)
  · rw [List.concat_eq_append, ← List.cons_append, ← List.append_assoc] at hlog
    obtain ⟨hinit, -⟩ := List.append_inj' hlog rfl
    exact h.answers before after' who name v hinit

omit [DecidableEq φ] in
/-- An event that loads nothing. -/
theorem Inv.event (h : Inv P files owner s log) (hleft : ∀ file, leftAs file e = none)
    (he : ∀ who name v, e = .returns who name v → Answers P files log name v) : Inv P files owner s (log ++ [e]) := by
  have hsame : ∀ file, loadedAs file (log ++ [e]) = loadedAs file log := by
    intro file
    rw [loadedAs_concat, hleft, Option.or_none]
  refine ⟨fun file => ?_, fun T hT => ?_, fun file hfile => ?_, answers_concat h he⟩
  · rw [hsame]
    exact h.MODULE file
  · rw [hsame]
    exact h.CLASS T hT
  · rw [hsame] at hfile
    exact h.found file hfile

omit [DecidableEq φ] in
/-- A body is left, and its module is put into `_MODULE`. -/
theorem Inv.leave (h : Inv P files owner s log) (hnone : loadedAs file log = none) (hfile : files file = .chunk c) :
    Inv P files owner { s with MODULE := Function.update s.MODULE file (some M) } (log ++ [.leave file M t]) := by
  have hself : loadedAs file (log ++ [.leave file M t]) = some M := by
    rw [loadedAs_concat, hnone, Option.none_or]
    exact if_pos rfl
  have hother : ∀ file', file' ≠ file → loadedAs file' (log ++ [.leave file M t]) = loadedAs file' log := by
    intro file' hne
    have hleft : leftAs file' (.leave file M t) = none := if_neg hne.symm
    rw [loadedAs_concat, hleft, Option.or_none]
  refine ⟨fun file' => ?_, fun T hT => ?_, fun file' hfile' => ?_, answers_concat h (by rintro _ _ _ ⟨⟩)⟩
  · by_cases hne : file' = file
    · subst hne
      rw [hself]
      exact Function.update_self ..
    · rw [hother file' hne, ← h.MODULE file']
      exact Function.update_of_ne hne ..
  · rw [loadedAs_append, Option.isSome_or, h.CLASS T hT, Bool.true_or]
  · by_cases hne : file' = file
    · subst hne
      exact ⟨c, hfile⟩
    · rw [hother file' hne] at hfile'
      exact h.found file' hfile'

/-! ### Steps at a rank -/

theorem Ready.congr (h : Ready P files owner rank r s log) (hM : t.MODULE = s.MODULE) (hC : t.CLASS = s.CLASS) :
    Ready P files owner rank r t log := ⟨h.inv.congr hM hC, h.settled⟩

/-- An event of a file of this rank. -/
theorem settled_concat (h : Ready P files owner rank (rank file) s log) (he : e.file = some file) :
    ∀ file', rank file' < rank file → Settled file' (log ++ [e]) := by
  intro file' hlt
  apply (h.settled file' hlt).append_quiet
  apply about_of_ne
  rw [he]
  rintro ⟨⟩
  exact Nat.lt_irrefl _ hlt

theorem Ready.event (h : Ready P files owner rank (rank file) s log) (he : e.file = some file)
    (hleft : ∀ file', leftAs file' e = none) :
    Ready P files owner rank (rank file) s (log ++ [e]) := by
  refine ⟨h.inv.event hleft ?_, settled_concat h he⟩
  rintro who name v rfl
  cases he

theorem Goes.emit (h : Ready P files owner rank (rank file) t (log ++ [e])) (he : e.file = some file) :
    Goes P files owner rank (some file) (rank file) log [e] (emit e t) := by
  refine ⟨rfl, h, fun file' hne _ => ?_, ?_, ?_⟩
  · apply about_of_ne
    rw [he]
    exact hne
  · rintro file' ⟨⟩
    exact about_self he
  · intro who name hmem
    obtain rfl := List.mem_singleton.1 hmem
    cases he

theorem Goes.skip (h : Ready P files owner rank r s log) : Goes P files owner rank own r log [] (.skip s) := by
  refine ⟨rfl, ?_, fun _ _ _ => rfl, fun _ _ => rfl, ?_⟩
  · rw [Done.skip, List.append_nil]
    exact h
  · rintro who name ⟨⟩

/-- The code of a file has no part in the events of its loading. -/
theorem Goes.within (h : Goes P files owner rank none (rank file) log [] x) :
    Goes P files owner rank (some file) (rank file) log [] x := by
  refine ⟨h.err, h.ready, fun file' _ => h.quiet file' (by rintro ⟨⟩), ?_, h.returns⟩
  rintro file' ⟨⟩
  exact h.quiet file (by rintro ⟨⟩) (Or.inl (Nat.le_refl _))

theorem Goes.andThen (hx : Goes P files owner rank own r log mine x)
    (hk : Goes P files owner rank own r (log ++ x.out) mine' (k x.state)) :
    Goes P files owner rank own r log (mine ++ mine') (x.andThen k) := by
  rw [Done.andThen_of_ok hx.err]
  refine ⟨hk.err, ?_, fun file hne hfile => ?_, fun file hown => ?_, fun who name hmem => ?_⟩
  · dsimp only
    rw [← List.append_assoc]
    exact hk.ready
  · have hquiet := hx.quiet file hne hfile
    have hsame : about file (log ++ x.out) = about file log := by rw [about_append, hquiet, List.append_nil]
    dsimp only
    rw [about_append, hquiet, hk.quiet file hne (hfile.imp_right (Completed.congr hsame).2)]
    rfl
  · dsimp only
    rw [about_append, hx.mine file hown, hk.mine file hown]
  · rcases List.mem_append.1 hmem with hmem | hmem
    · exact (hx.returns who name hmem).imp fun v => List.mem_append_left _
    · exact (hk.returns who name hmem).imp fun v => List.mem_append_right _

/-- A call of `require` that returns. -/
theorem Goes.calls {who : Option String} (hk : Goes P files owner rank none r (log ++ [.calls who name]) [] (k s))
    (hreturns : ∃ v, .returns who name v ∈ (k s).out) :
    Goes P files owner rank none r log [] ((Require.emit (.calls who name) s).andThen k) := by
  have hcalls : ∀ file, about file [(.calls who name : Event φ)] = [] := fun file => about_of_ne (by rintro ⟨⟩)
  refine ⟨hk.err, ?_, fun file hne hfile => ?_, by rintro file ⟨⟩, fun who' name' hmem => ?_⟩
  · change Ready P files owner rank r (k s).state (log ++ ([.calls who name] ++ (k s).out))
    rw [← List.append_assoc]
    exact hk.ready
  · have hsame : about file (log ++ [.calls who name]) = about file log := by rw [about_append, hcalls, List.append_nil]
    change about file ([.calls who name] ++ (k s).out) = []
    rw [about_append, hcalls, hk.quiet file hne (hfile.imp_right (Completed.congr hsame).2)]
    rfl
  · rcases List.mem_cons.1 hmem with heq | hmem
    · cases heq
      exact hreturns.imp fun v => List.mem_cons_of_mem _
    · exact (hk.returns who' name' hmem).imp fun v => List.mem_cons_of_mem _

/-- A file of lower rank is loaded. -/
theorem Goes.loaded (h : Goes P files owner rank (some file) (rank file) log (ranOnce file M t) x)
    (hs : Ready P files owner rank r s log) (hr : rank file < r) (hfresh : about file log = []) :
    Goes P files owner rank none r log [] x := by
  have hself : about file (log ++ x.out) = ranOnce file M t := by
    rw [about_append, hfresh, h.mine file rfl]
    rfl
  refine ⟨h.err, ⟨h.ready.inv, fun file' hlt => ?_⟩, fun file' _ hfile' => ?_, by rintro file' ⟨⟩, h.returns⟩
  · by_cases hne : file' = file
    · subst hne
      exact Or.inr ⟨M, t, hself⟩
    · rcases Nat.lt_or_ge (rank file') (rank file) with hlow | hhigh
      · exact h.ready.settled file' hlow
      · apply (hs.settled file' hlt).append_quiet
        exact h.quiet file' (fun heq => hne (Option.some.inj heq).symm) (Or.inl hhigh)
  · have hne : file ≠ file' := by
      rintro rfl
      rcases hfile' with hhigh | ⟨M', t', hdone⟩
      · exact Nat.lt_irrefl _ (hr.trans_le hhigh)
      · rw [hfresh] at hdone
        cases hdone
    exact h.quiet file' (fun heq => hne (Option.some.inj heq)) (hfile'.imp_left fun hhigh => (hr.trans_le hhigh).le)

/-! ### The loading of a file -/

/-- One turn of the loop of `_CallInit`, if no class has the type of the one that it meets. -/
theorem registerTurn_cases {kv : Val φ × Val φ} (hfree : ∀ T ∈ s.typeOf (s.heap.rawget M kv.1), s.CLASS T = none) :
    registerTurn M kv s = .skip s ∨ ∃ T ∈ s.typeOf (s.heap.rawget M kv.1), ∃ r,
      registerTurn M kv s = .skip { s with CLASS := Function.update s.CLASS T (some r) } := by
  unfold registerTurn
  by_cases hnil : s.heap.rawget M kv.1 = .nil
  · exact Or.inl (if_pos hnil)
  · rw [if_neg hnil]
    unfold register
    cases hv : s.heap.rawget M kv.1 with
    | tab r =>
      dsimp only
      rw [hv] at hfree
      by_cases htrue : (s.heap.rawget r (.str "__ClassType")).truthy
      · have htype : s.heap.rawget r (.str "__ClassType") ∈ s.typeOf (.tab r) := if_pos htrue
        rw [if_pos htrue, hfree _ htype]
        exact Or.inr ⟨_, htype, r, rfl⟩
      · exact Or.inl (if_neg htrue)
    | _ => exact Or.inl rfl

/-- Types depend on the tables. -/
theorem typeOf_congr (h : t.heap = s.heap) : t.typeOf = s.typeOf := by
  unfold St.typeOf
  rw [h]

/-- The loop of `_CallInit` registers classes of the file only, and raises no error. -/
theorem registerTurns_ok (hf : Finished owner file M s) :
    ∀ (kvs : List (Val φ × Val φ)) (t : St φ), (kvs.map Prod.fst).Nodup →
    t.heap = s.heap → (∀ kv ∈ kvs, ∀ T ∈ s.typeOf (s.heap.rawget M kv.1), t.CLASS T = none) →
    (Done.each (registerTurn M) kvs t).err = none ∧
    ∀ T, ((Done.each (registerTurn M) kvs t).state.CLASS T).isSome → (t.CLASS T).isSome ∨ owner T = file
  | [], t, _, _, _ => ⟨rfl, fun _ hT => Or.inl hT⟩
  | kv :: kvs, t, hnodup, hheap, hfree => by
    obtain ⟨hkv, hnodup⟩ := List.nodup_cons.1 hnodup
    have hrest : ∀ kv' ∈ kvs, ∀ T ∈ s.typeOf (s.heap.rawget M kv'.1), t.CLASS T = none :=
      fun kv' hmem => hfree kv' (List.mem_cons_of_mem _ hmem)
    have hhead := hfree kv List.mem_cons_self
    rw [← typeOf_congr hheap, ← hheap] at hhead
    unfold Done.each
    rcases registerTurn_cases hhead with hskip | ⟨T, hT, r, hskip⟩
    · rw [hskip, Done.andThen_of_ok rfl]
      exact registerTurns_ok hf kvs t hnodup hheap hrest
    · rw [typeOf_congr hheap, hheap] at hT
      rw [hskip, Done.andThen_of_ok rfl]
      have hfree' : ∀ kv' ∈ kvs, ∀ T' ∈ s.typeOf (s.heap.rawget M kv'.1),
          Function.update t.CLASS T (some r) T' = none := by
        intro kv' hmem T' hT'
        have hne : T' ≠ T := by
          rintro rfl
          exact hkv (List.mem_map.2 ⟨kv', hmem, hf.distinct kv'.1 T' hT' kv.1 hT⟩)
        rw [Function.update_of_ne hne]
        exact hrest kv' hmem T' hT'
      obtain ⟨herr, hCLASS⟩ := registerTurns_ok hf kvs
        { t with CLASS := Function.update t.CLASS T (some r) } hnodup hheap hfree'
      refine ⟨herr, fun T' hT' => ?_⟩
      rcases hCLASS T' hT' with hT' | hT'
      · dsimp only at hT'
        by_cases heq : T' = T
        · rw [heq]
          exact Or.inr (hf.owned kv.1 T hT)
        · rw [Function.update_of_ne heq] at hT'
          exact Or.inl hT'
      · exact Or.inr hT'

theorem registerAll_ok (hf : Finished owner file M s) (hfree : ∀ T, owner T = file → s.CLASS T = none) :
    (registerAll O M s).err = none ∧ ∀ T, ((registerAll O M s).state.CLASS T).isSome → (s.CLASS T).isSome ∨
    owner T = file := by
  apply registerTurns_ok hf (s.heap.pairs O M) s Store.nodup_pairs rfl
  intro kv _ T hT
  exact hfree T (hf.owned kv.1 T hT)

omit [DecidableEq φ] in
theorem exists_of_fits {x : Except LuaError (Val φ)} (h : fits x) : ∃ v, x = .ok v ∧ (v.truthy → ∃ f, v = .fn f) := by
  cases x with
  | error e => cases h
  | ok v =>
    refine ⟨v, rfl, fun htrue => ?_⟩
    cases v with
    | fn f => exact ⟨f, rfl⟩
    | nil => cases htrue
    | bool b =>
      cases b with
      | false => cases htrue
      | true => cases h
    | num n => cases h
    | str x => cases h
    | tab r => cases h

/-- The code of a file goes on at its rank. -/
structure CodeGoes (P : Modules φ χ) (files : String → File χ) (owner : Val φ → String) (rank : String → Nat)
    (E : String → String → Prop) (V : List String) (T : Traced φ χ) (file : String) : Prop where
  call : ∀ f M log s, Ready P files owner rank (rank file) s log →
    (∀ e ∈ (T.call f file M s).out, Allowed P files owner E V e) →
    Goes P files owner rank none (rank file) log [] (T.call f file M s)
  exec : ∀ c M log s, Ready P files owner rank (rank file) s log →
    (∀ e ∈ (T.exec c file M s).out, Allowed P files owner E V e) →
    Goes P files owner rank none (rank file) log [] (T.exec c file M s)

/-- `_CallInit` of a file whose body is left. -/
theorem tracedInit_goes (hT : CodeGoes P files owner rank E V T file) (hs : Ready P files owner rank (rank file) s log)
    (hloaded : (loadedAs file log).isSome) (hf : Finished owner file M s)
    (hfree : ∀ T, owner T = file → s.CLASS T = none)
    (hall : ∀ e ∈ (tracedInit T O file M s).out, Allowed P files owner E V e) :
    Goes P files owner rank (some file) (rank file) log (inits file M s) (tracedInit T O file M s) := by
  obtain ⟨herr, hCLASS⟩ := registerAll_ok (O := O) hf hfree
  have hheap : (registerAll O M s).state.heap = s.heap := registerAll_spec.2
  have hready : Ready P files owner rank (rank file) (registerAll O M s).state log := by
    refine ⟨⟨fun file' => ?_, fun T hT => ?_, hs.inv.found, hs.inv.answers⟩, hs.settled⟩
    · rw [registerAll_module]
      exact hs.inv.MODULE file'
    · rcases hCLASS T hT with hT | rfl
      · exact hs.inv.CLASS T hT
      · exact hloaded
  have hsilent : Goes P files owner rank (some file) (rank file) log [] (silent (registerAll O M s)) := by
    refine ⟨herr, ?_, fun _ _ _ => rfl, fun _ _ => rfl, ?_⟩
    · change Ready P files owner rank (rank file) (registerAll O M s).state (log ++ [])
      rw [List.append_nil]
      exact hready
    · rintro who name ⟨⟩
  obtain ⟨v, hindex, hv⟩ := exists_of_fits hf.init
  rw [← hheap] at hindex
  rw [← List.nil_append (inits file M s)]
  unfold tracedInit at hall ⊢
  apply hsilent.andThen
  have hrest : ∀ e, _ → Allowed P files owner E V e := fun e he => hall e (Done.mem_andThen_right herr he)
  change Goes P files owner rank (some file) (rank file) (log ++ []) _ _
  rw [List.append_nil]
  unfold inits
  rw [← hheap, hindex]
  dsimp only [silent] at hrest ⊢
  rw [hindex] at hrest ⊢
  by_cases htrue : v.truthy
  · obtain ⟨f, rfl⟩ := hv htrue
    dsimp only at hrest ⊢
    have hinit : Ready P files owner rank (rank file) (registerAll O M s).state (log ++ [.init file f]) :=
      hready.event rfl fun _ => rfl
    apply (Goes.emit hinit rfl).andThen
    exact (hT.call f M _ _ hinit fun e he => hrest e (Done.mem_andThen_right rfl he)).within
  · cases v with
    | fn f => exact (htrue rfl).elim
    | _ =>
      dsimp only [read]
      rw [if_neg htrue]
      exact Goes.skip hready

/-- **A file is loaded** for the first time: its body runs, and then its `__init__`. -/
theorem tracedLoad_goes (hT : CodeGoes P files owner rank E V T file) (hs : Ready P files owner rank r s log)
    (hr : rank file < r) (hfresh : about file log = []) {c' : χ} (hfile : files file = .chunk c')
    (hall : ∀ e ∈ (tracedLoad T O file c M s).out, Allowed P files owner E V e) :
    Goes P files owner rank none r log [] (tracedLoad T O file c M s) ∧
      ∃ t, about file (log ++ (tracedLoad T O file c M s).out) = ranOnce file M t := by
  have hlow : Ready P files owner rank (rank file) s log := ⟨hs.inv, fun file' hlt => hs.settled file' (hlt.trans hr)⟩
  have henter : Ready P files owner rank (rank file) s (log ++ [.enter file]) := hlow.event rfl fun _ => rfl
  have hrest₁ := fun e he => hall e (Done.mem_andThen_right rfl he)
  let x := T.exec c file M s
  -- The body runs at the rank of the file, so it has no part in the events of the file.
  have hbody : Goes P files owner rank none (rank file) (log ++ [.enter file]) [] x :=
    hT.exec c M _ s henter fun e he => hrest₁ e (Done.mem_andThen_left he _)
  have hrest₂ := fun e he => hrest₁ e (Done.mem_andThen_right hbody.err he)
  have hquiet : about file x.out = [] := hbody.quiet file (by rintro ⟨⟩) (Or.inl (Nat.le_refl _))
  have hnone : loadedAs file (log ++ [.enter file] ++ x.out) = none := by
    rw [loadedAs_about, about_append, about_append, hfresh, hquiet, about_self rfl]
    rfl
  have hleave : Ready P files owner rank (rank file)
      { x.state with MODULE := Function.update x.state.MODULE file (some M) }
      (log ++ [.enter file] ++ x.out ++ [.leave file M x.state]) :=
    ⟨hbody.ready.inv.leave hnone hfile, settled_concat hbody.ready rfl⟩
  have hloaded : (loadedAs file (log ++ [.enter file] ++ x.out ++ [.leave file M x.state])).isSome := by
    rw [loadedAs_concat, hnone, Option.none_or]
    exact congrArg Option.isSome (if_pos rfl)
  have hf : Finished owner file M x.state := hrest₂ (.leave file M x.state) (Done.mem_andThen_left List.mem_cons_self _)
  have hfree : ∀ T, owner T = file → x.state.CLASS T = none := by
    rintro T rfl
    by_contra hsome
    have hbefore := hbody.ready.inv.CLASS T (Option.isSome_iff_ne_none.2 hsome)
    rw [hnone] at hbefore
    cases hbefore
  have hrest₃ := fun e he => hrest₂ e (Done.mem_andThen_right rfl he)
  have hinit := tracedInit_goes hT hleave hloaded ⟨hf.init, hf.owned, hf.distinct⟩ hfree fun e he =>
    hrest₃ e (Done.mem_andThen_left he _)
  have hfinish := Goes.emit (hinit.ready.event (e := .finish file) rfl fun _ => rfl) rfl
  have hgoes : Goes P files owner rank (some file) (rank file) log (ranOnce file M x.state)
      (tracedLoad T O file c M s) := by
    unfold tracedLoad
    apply (Goes.emit henter rfl).andThen
    exact hbody.within.andThen ((Goes.emit hleave rfl).andThen (hinit.andThen hfinish))
  refine ⟨hgoes.loaded hs hr hfresh, x.state, ?_⟩
  rw [about_append, hfresh, hgoes.mine file rfl]
  rfl

/-! ### Calls of `require` -/

theorem finds_of_chunk (h : files name = .chunk c) : Finds files name name := by
  unfold Finds LoadFile
  rw [h]
  rfl

theorem chunk_of_LoadFile (h : LoadFile files name = .ok (c, file)) : files file = .chunk c := by
  unfold LoadFile at h
  dsimp only at h
  split at h
  · rename_i hname
    cases h
    exact hname
  · cases h
  · split at h
    · rename_i hname
      cases h
      exact hname
    · cases h

theorem LoadFile_of_finds (h : Finds files name file) : ∃ c, LoadFile files name = .ok (c, file) := by
  unfold Finds at h
  cases hfile : LoadFile files name with
  | error e =>
    rw [hfile] at h
    cases h
  | ok found =>
    rw [hfile] at h
    cases h
    exact ⟨found.1, rfl⟩

/-- A file that is loaded is finished when it is required. -/
theorem answers_loaded (hs : Ready P files owner rank r s log) (hr : rank file < r) (hfile : Finds files name file)
    (hM : s.MODULE file = some M) : Answers P files log name (.tab M) := by
  have hloaded : loadedAs file log = some M := (hs.inv.MODULE file).symm.trans hM
  exact fun _ => ⟨file, M, hfile, hloaded, rfl, (hs.settled file hr).finished hloaded⟩

/-- **A call of `require`** returns the module of the file, which is finished. -/
theorem traced_goes {who : Option String} (hT : ∀ file, rank file < r → CodeGoes P files owner rank E V T file)
    (hwho : ∀ file ∈ V, (∀ caller ∈ who, E caller file) → rank file < r)
    (hcalls : Allowed P files owner E V (.calls who name)) (hs : Ready P files owner rank r s log)
    (hall : ∀ e ∈ (traced T P.builtin O files name s).1.out, Allowed P files owner E V e) :
    Goes P files owner rank none r log [] (traced T P.builtin O files name s).1 ∧
      Answers P files (log ++ (traced T P.builtin O files name s).1.out) name
      (traced T P.builtin O files name s).2 := by
  unfold traced at hall ⊢
  cases hbuiltin : P.builtin name with
  | some v =>
    refine ⟨Goes.skip hs, fun hb => ?_⟩
    rw [hbuiltin] at hb
    cases hb
  | none =>
    unfold Allowed at hcalls
    dsimp only at hcalls
    rw [hbuiltin] at hcalls
    obtain ⟨file, hV, hfile, hE⟩ := hcalls.resolve_left (by rintro ⟨⟩)
    obtain ⟨c, hc⟩ := LoadFile_of_finds hfile
    have hr : rank file < r := hwho file hV hE
    rw [hbuiltin] at hall
    dsimp only at hall ⊢
    cases hname : s.MODULE name with
    | some Old =>
      -- What is in `_MODULE` is found under its own name.
      have hloaded : (loadedAs name log).isSome := by
        rw [← hs.inv.MODULE name, hname]
        rfl
      obtain ⟨c', hc'⟩ := hs.inv.found name hloaded
      have hsame : Except.ok file = Except.ok name := hfile.symm.trans (finds_of_chunk hc')
      cases hsame
      refine ⟨Goes.skip hs, ?_⟩
      dsimp only [Done.skip]
      rw [List.append_nil]
      exact answers_loaded hs hr hfile hname
    | none =>
      rw [hname, hc] at hall
      rw [hc]
      dsimp only at hall ⊢
      have hopened : Ready P files owner rank r (opened s) log := hs.congr rfl rfl
      cases hold : s.MODULE file with
      | some Old =>
        refine ⟨Goes.skip hopened, ?_⟩
        dsimp only [Done.skip]
        rw [List.append_nil]
        exact answers_loaded hs hr hfile hold
      | none =>
        rw [hold] at hall
        have hnone : loadedAs file log = none := (hs.inv.MODULE file).symm.trans hold
        have hfresh : about file log = [] := (hs.settled file hr).fresh hnone
        obtain ⟨hgoes, t, hran⟩ := tracedLoad_goes (hT file hr) hopened hr hfresh (chunk_of_LoadFile hc) hall
        obtain ⟨hloaded, hfinish⟩ := loaded_of_ranOnce hran
        exact ⟨hgoes, fun _ => ⟨file, fresh s, hfile, hloaded, rfl, hfinish⟩⟩

/-- What `require` keeps, a program keeps. -/
theorem program_goes {who : Option String} {require : String → St φ → Trace φ × Val φ}
    (hrequire : ∀ name s log, Allowed P files owner E V (.calls who name) → Ready P files owner rank r s log →
      (∀ e ∈ (require name s).1.out, Allowed P files owner E V e) →
      Goes P files owner rank none r log [] (require name s).1 ∧
        Answers P files (log ++ (require name s).1.out) name (require name s).2)
    (p : Program φ) (s : St φ) (log : List (Event φ)) (hs : Ready P files owner rank r s log)
    (hall : ∀ e ∈ (p.trace require who s).out, Allowed P files owner E V e) :
    Goes P files owner rank none r log [] (p.trace require who s) := by
  induction p generalizing s log with
  | done => exact Goes.skip hs
  | raise e => exact (hall .raises List.mem_cons_self).elim
  | tables f k ih => exact ih s _ log (hs.congr rfl rfl) hall
  | require name k ih =>
    have hcalls : Allowed P files owner E V (.calls who name) := hall _ (Done.mem_andThen_left List.mem_cons_self _)
    have hrest := fun e he => hall e (Done.mem_andThen_right rfl he)
    have hs' : Ready P files owner rank r s (log ++ [.calls who name]) :=
      ⟨hs.inv.event (fun _ => rfl) (by rintro _ _ _ ⟨⟩),
        fun file hr => (hs.settled file hr).append_quiet (about_of_ne (by rintro ⟨⟩))⟩
    obtain ⟨hgoes, hanswers⟩ := hrequire name s _ hcalls hs' fun e he => hrest e (Done.mem_andThen_left he _)
    have hreturns : ∀ file, about file [(.returns who name (require name s).2 : Event φ)] = [] :=
      fun file => about_of_ne (by rintro ⟨⟩)
    have hready : Ready P files owner rank r (require name s).1.state
        (log ++ [.calls who name] ++ (require name s).1.out ++ [.returns who name (require name s).2]) := by
      refine ⟨hgoes.ready.inv.event (fun _ => rfl) ?_, fun file hr => (hgoes.ready.settled file hr).append_quiet
        (hreturns file)⟩
      rintro _ _ _ ⟨⟩
      exact hanswers
    have hreturn : Goes P files owner rank none r (log ++ [.calls who name] ++ (require name s).1.out) []
        (emit (.returns who name (require name s).2) (require name s).1.state) := by
      refine ⟨rfl, hready, fun file _ _ => hreturns file, by rintro file ⟨⟩, ?_⟩
      intro who' name' hmem
      cases List.mem_singleton.1 hmem
    have hk := ih (require name s).2 _ _ hready fun e he =>
      hrest e (Done.mem_andThen_right hgoes.err (Done.mem_andThen_right rfl he))
    apply Goes.calls
    · exact hgoes.andThen (hreturn.andThen hk)
    · refine ⟨(require name s).2, Done.mem_andThen_right hgoes.err ?_⟩
      exact Done.mem_andThen_left List.mem_cons_self _

/-- The code of a file goes on within as much stack as its rank. -/
theorem code_goes (hE : ∀ a, ∀ b ∈ V, E a b → rank b < rank a) (n : Nat) (file : String) (hn : rank file < n) :
    CodeGoes P files owner rank E V (tracedWithin O files P n) file := by
  induction n generalizing file with
  | zero => exact absurd hn (Nat.not_lt_zero _)
  | succ n ih =>
    have hrequire : ∀ name s log, Allowed P files owner E V (.calls (some file) name) →
        Ready P files owner rank (rank file) s log →
        (∀ e ∈ (traced (tracedWithin O files P n) P.builtin O files name s).1.out, Allowed P files owner E V e) →
        Goes P files owner rank none (rank file) log [] (traced (tracedWithin O files P n) P.builtin O files name s).1 ∧
          Answers P files (log ++ (traced (tracedWithin O files P n) P.builtin O files name s).1.out) name
            (traced (tracedWithin O files P n) P.builtin O files name s).2 := by
      intro name s log hcalls hs hall
      refine traced_goes (fun file' hlt => ih file' (by omega)) (fun file' hV hcaller => ?_) hcalls hs hall
      exact hE file file' hV (hcaller file rfl)
    constructor
    · exact fun f M log s hs hall => program_goes hrequire (P.hook f M) s log hs hall
    · exact fun c M log s hs hall => program_goes hrequire (P.body c M) s log hs hall

/-- Only a field has a type. -/
theorem mem_keys_of_typeOf {k v : Val φ} (h : v ∈ s.typeOf (s.heap.rawget M k)) :
    k ∈ (s.heap.tabs M).fields.map Prod.fst := by
  apply getField_ne_nil
  intro hnil
  have hraw : s.heap.rawget M k = .nil := hnil
  rw [hraw] at h
  cases h

theorem finished_iff : Finished owner file M s ↔ fits (s.heap.index M Hook.init.key) ∧
    (∀ k ∈ (s.heap.tabs M).fields.map Prod.fst, ∀ T ∈ s.typeOf (s.heap.rawget M k), owner T = file ∧
      ∀ k' ∈ (s.heap.tabs M).fields.map Prod.fst, T ∈ s.typeOf (s.heap.rawget M k') → k = k') := by
  constructor
  · rintro ⟨hinit, howned, hdistinct⟩
    exact ⟨hinit, fun k _ T hT => ⟨howned k T hT, fun k' _ => hdistinct k T hT k'⟩⟩
  · rintro ⟨hinit, hfields⟩
    refine ⟨hinit, fun k T hT => ?_, fun k T hT k' hT' => ?_⟩
    · exact (hfields k (mem_keys_of_typeOf hT) T hT).1
    · exact (hfields k (mem_keys_of_typeOf hT) T hT).2 k' (mem_keys_of_typeOf hT') hT'

instance : Decidable (Finished owner file M s) := decidable_of_iff' _ finished_iff

instance : Decidable (Finds files name file) :=
  inferInstanceAs (Decidable ((LoadFile files name).map Prod.snd = .ok file))

instance [DecidableRel E] : DecidablePred (Allowed P files owner E V)
  | .calls who name => inferInstanceAs (Decidable ((P.builtin name).isSome ∨
      ∃ file ∈ V, Finds files name file ∧ ∀ caller ∈ who, E caller file))
  | .leave file M s => inferInstanceAs (Decidable (Finished owner file M s))
  | .raises => inferInstanceAs (Decidable False)
  | .returns .. => inferInstanceAs (Decidable True)
  | .enter _ => inferInstanceAs (Decidable True)
  | .init .. => inferInstanceAs (Decidable True)
  | .finish _ => inferInstanceAs (Decidable True)

end

/-- A module with a class and an `__init__`. -/
def define (M : Ref) (name : String) (s : St Unit) : Store Unit :=
  ((s.heap.alloc ⟨[(ClassType, .str name)], none⟩).rawset M (.str name) (.tab s.heap.next)).rawset M Hook.init.key
    (.fn ())

/-- The file `hero.lua` requires `actor`; an `__init__` sets a field. -/
def actors : Modules Unit Bool where
  body
    | true, M => .require "actor" fun _ => .tables (define M "Hero") fun _ => .done
    | false, M => .tables (define M "Actor") fun _ => .done
  hook _ M := .tables (fun s => s.heap.rawset M (.str "ready") (.bool true)) fun _ => .done
  newindex _ r k v := .tables (fun s => s.heap.rawset r k v) fun _ => .done
  builtin _ := none

def actorFiles (name : String) : File Bool :=
  if name = "hero.lua" then .chunk true else if name = "actor.lua" then .chunk false else .error true

/-- Both files are required under both names. -/
def requireActors : Program Unit :=
  .require "hero" fun _ => .require "actor.lua" fun _ => .require "hero.lua" fun _ => .require "actor" fun _ => .done

section

variable {φ χ : Type} [DecidableEq φ] (P : Modules φ χ) (files : String → File χ) (owner : Val φ → String)

/-- What the body of a file leaves, if only the types of classes are distinct: two fields whose classes have the same
type hold the same class. -/
structure DistinctTypes (file : String) (M : Ref) (s : St φ) : Prop where
  init : fits (s.heap.index M Hook.init.key)
  owned : ∀ k, ∀ T ∈ s.typeOf (s.heap.rawget M k), owner T = file
  distinct : ∀ k, ∀ T ∈ s.typeOf (s.heap.rawget M k), ∀ k', T ∈ s.typeOf (s.heap.rawget M k') →
    s.heap.rawget M k = s.heap.rawget M k'

/-- What is asked of the events then. -/
def AllowedTypes (E : String → String → Prop) (V : List String) : Event φ → Prop
  | .leave file M s => DistinctTypes owner file M s
  | e => Allowed P files owner E V e

variable {P files owner} {file : String} {M : Ref} {s : St φ} {E : String → String → Prop} {V : List String}

theorem distinctTypes_iff : DistinctTypes owner file M s ↔ fits (s.heap.index M Hook.init.key) ∧
    (∀ k ∈ (s.heap.tabs M).fields.map Prod.fst, ∀ T ∈ s.typeOf (s.heap.rawget M k), owner T = file ∧
      ∀ k' ∈ (s.heap.tabs M).fields.map Prod.fst, T ∈ s.typeOf (s.heap.rawget M k') →
      s.heap.rawget M k = s.heap.rawget M k') := by
  constructor
  · rintro ⟨hinit, howned, hdistinct⟩
    exact ⟨hinit, fun k _ T hT => ⟨howned k T hT, fun k' _ => hdistinct k T hT k'⟩⟩
  · rintro ⟨hinit, hfields⟩
    refine ⟨hinit, fun k T hT => ?_, fun k T hT k' hT' => ?_⟩
    · exact (hfields k (mem_keys_of_typeOf hT) T hT).1
    · exact (hfields k (mem_keys_of_typeOf hT) T hT).2 k' (mem_keys_of_typeOf hT') hT'

instance : Decidable (DistinctTypes owner file M s) := decidable_of_iff' _ distinctTypes_iff

instance [DecidableRel E] : DecidablePred (AllowedTypes P files owner E V)
  | .leave file M s => inferInstanceAs (Decidable (DistinctTypes owner file M s))
  | .calls who name => inferInstanceAs (Decidable (Allowed P files owner E V (.calls who name)))
  | .raises => inferInstanceAs (Decidable (Allowed P files owner E V .raises))
  | .returns who name v => inferInstanceAs (Decidable (Allowed P files owner E V (.returns who name v)))
  | .enter file => inferInstanceAs (Decidable (Allowed P files owner E V (.enter file)))
  | .init file f => inferInstanceAs (Decidable (Allowed P files owner E V (.init file f)))
  | .finish file => inferInstanceAs (Decidable (Allowed P files owner E V (.finish file)))

end

/-- The file `hero.lua` defines a class `Hero`, and has it under the name `Main` too. -/
def twice : Modules Unit Bool where
  body _ M := .tables (define M "Hero") fun _ =>
    .tables (fun s => s.heap.rawset M (.str "Main") (s.heap.rawget M (.str "Hero")))
    fun _ => .done
  hook _ _ := .done
  newindex _ r k v := .tables (fun s => s.heap.rawset r k v) fun _ => .done
  builtin _ := none

/-- The file is required once. -/
def requireTwice : Program Unit := .require "hero" fun _ => .done

end XCore.Require
