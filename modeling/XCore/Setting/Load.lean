import Mathlib.Data.List.AList
import Mathlib.Tactic.Linarith
import XCore.Lib.Effect
import XCore.Lua.Str

/-!
# Loading the configuration (`base/setting.lua`)

`LoadSetting` scans a directory and calls itself for the entries whose type `uv.fs_scandir_next` does not report; an
entry of a known type it takes for a file. An entry of a known type without the extension `.lua` makes it return,
without the call of `LoadFinish` that stands behind the loop; each call of `LoadFinish` calls the callback, if it has
not been called yet.

So the callback is called once and after all files have been loaded exactly for the trees in which the scan first comes
to the end of a directory, or to a file of unknown type, when it has met every `.lua` file (`init_right`).
-/

namespace XCore.Setting

open XCore.Lua XCore.Effect

/-! ## Names of files -/

/-- `"."`. -/
def dot : Bytes := [46]

/-- `".lua"`. -/
def dotLua : Bytes := [46, 108, 117, 97]

/-- `string.rfind`, for a flag without special characters. -/
def rfind (str flag : Bytes) : Option Int := (find str.reverse flag 1).map fun ret => str.length - ret.1 + 1

/-- The name and the extension of an entry, if it has one. -/
def split (name : Bytes) : Option (Bytes × Bytes) :=
  (rfind name dot).map fun pos => (sub name 1 (pos - 1), sub name pos name.length)

/-- The base name of a `.lua` file. -/
def base (name : Bytes) : Option Bytes := if dotLua <:+ name then some (name.take (name.length - 4)) else none

theorem base_eq_some {name b : Bytes} : base name = some b ↔ name = b ++ dotLua := by
  unfold base
  constructor
  · intro h
    split at h
    · rename_i hsuffix
      obtain ⟨c, rfl⟩ := hsuffix
      simpa [dotLua] using h
    · cases h
  · rintro rfl
    simp [dotLua]

/-- Where the last dot stands. -/
theorem idxOf_dot : ∀ {s : Bytes} {k : Nat}, idxOf dot s = some k → k < s.length
  | s, k, h => by
    have hlen := (idxOf_split h).choose_spec.2
    simp only [dot, List.length_cons, List.length_nil] at hlen
    omega

theorem rfind_dot (name : Bytes) : rfind name dot = (idxOf dot name.reverse).map fun k :
    Nat => (name.length : Int) - k := by
  have hfind : find name.reverse dot 1 = (idxOf dot name.reverse).map fun k : Nat =>
    ((1 : Int) + k, (1 : Int) + k) := by
    have hstart : max (1 : Int) (posrelat 1 name.reverse.length) = 1 := by simp [posrelat]
    simp only [find, hstart]
    rw [if_neg (by omega)]
    simp [dot]
  rw [rfind, hfind]
  cases idxOf dot name.reverse with
  | none => rfl
  | some k =>
    simp only [Option.map_some, Option.some.injEq]
    omega

/-- A name is cut in two. -/
theorem append_of_split {name b ext : Bytes} (h : split name = some (b, ext)) : name = b ++ ext := by
  obtain ⟨pos, hpos, hcut⟩ := Option.map_eq_some_iff.1 h
  rw [rfind_dot] at hpos
  obtain ⟨k, hk, rfl⟩ := Option.map_eq_some_iff.1 hpos
  have hlt := idxOf_dot hk
  rw [List.length_reverse] at hlt
  obtain ⟨rfl, rfl⟩ := Prod.mk.inj hcut
  have hb := sub_eq name (le_refl 1) (name.length - k - 1)
  have he := sub_eq name (show 1 ≤ name.length - k by omega) name.length
  rw [show ((1 : Nat) : Int) =
    1 by rfl, show ((name.length - k - 1 : Nat) : Int) = (name.length : Int) - k - 1 by omega] at hb
  rw [show ((name.length - k : Nat) : Int) = (name.length : Int) - k by omega] at he
  rw [hb, he, List.drop_zero, List.take_of_length_le (i := name.length + 1 - _) (by simp; omega)]
  rw [show name.length - k - 1 + 1 - 1 = name.length - k - 1 by omega, List.take_append_drop]

/-- **The extension**: that of a name is `.lua` exactly if it ends so. -/
theorem split_lua {name b : Bytes} : split name = some (b, dotLua) ↔ base name = some b := by
  rw [base_eq_some]
  constructor
  · exact append_of_split
  · rintro rfl
    have hidx : idxOf dot (b ++ dotLua).reverse = some 3 := by
      simp [dotLua, dot, idxOf]
    have hsplit : split (b ++ dotLua) = some
        (sub (b ++ dotLua) 1 b.length, sub (b ++ dotLua) (b.length + 1 : Nat) (b.length + 4 : Nat)) := by
      rw [split, rfind_dot, hidx]
      simp only [Option.map_some, List.length_append, dotLua, List.length_cons, List.length_nil, Option.some.injEq]
      congr 2 <;> omega
    rw [hsplit, show (1 : Int) = (1 : Nat) by rfl, sub_eq _ (le_refl 1), sub_eq _ (by omega)]
    simp [dotLua]

/-- Other names have another extension, if any. -/
theorem split_ne {name b ext : Bytes} (hb : base name = none) (h : split name = some (b, ext)) : ext ≠ dotLua := by
  rintro rfl
  rw [split_lua, hb] at h
  cases h

/-! ## The scan -/

/-- `uv_dirent_type_t`. -/
inductive Dirent
  | UNKNOWN
  | FILE
  | DIR
  | LINK
  | FIFO
  | SOCKET
  | CHAR
  | BLOCK
  deriving DecidableEq

/-- `entry.type`: `luv_fs_scandir_next`. -/
def Dirent.type : Dirent → Option String
  | .UNKNOWN => none
  | .FILE => some "file"
  | .DIR => some "directory"
  | .LINK => some "link"
  | .FIFO => some "fifo"
  | .SOCKET => some "socket"
  | .CHAR => some "char"
  | .BLOCK => some "block"

variable {V : Type}

/-- The entries of a directory, in the order in which they are given; `value` is what `dofile` returns. -/
inductive Dir (V : Type)
  | nil
  | file (name : Bytes) (type : Dirent) (value : V) (rest : Dir V)
  | directory (name : Bytes) (type : Dirent) (entries rest : Dir V)

/-- The module; `m_Callback` tells whether the callback is still to be called. -/
structure State (V : Type) where
  m_Data : AList fun _ : Bytes => V
  m_Callback : Bool

/-- What a call does: the calls of the callback, each with the data loaded before. -/
abbrev Did (V : Type) := Done (State V) (AList fun _ : Bytes => V) LuaError

/-- `LoadFinish`. -/
def LoadFinish (s : State V) : Did V :=
  if !s.m_Callback then .skip s else ⟨{ s with m_Callback := false }, [s.m_Data], none⟩

/-- `LoadSetting` of a directory, from some entry on: `fs_scandir` fails for a file, and `dofile` for a directory. -/
def LoadSetting : Dir V → State V → Did V
  | .nil, s => LoadFinish s
  | .file name type value rest, s =>
    if type.type.isSome then
      match split name with
      | none => .skip s
      | some (name, ext) =>
        if ext ≠ dotLua then .skip s else LoadSetting rest { s with m_Data := s.m_Data.insert name value }
    else (LoadFinish s).andThen fun s => LoadSetting rest s
  | .directory name type entries rest, s =>
    if type.type.isSome then
      match split name with
      | none => .skip s
      | some (_, ext) => if ext ≠ dotLua then .skip s else ⟨s, [], some .raised⟩
    else (LoadSetting entries s).andThen fun s => LoadSetting rest s

/-- `Init`. -/
def Init (path : Dir V) : Did V := LoadSetting path ⟨∅, true⟩

/-! ## What is to be loaded -/

/-- The `.lua` files of a tree, by their base names. -/
def Dir.scripts : Dir V → List (Bytes × V)
  | .nil => []
  | .file name _ value rest => ((base name).map fun b => (b, value)).toList ++ rest.scripts
  | .directory _ _ entries rest => entries.scripts ++ rest.scripts

/-- No two files have one base name. -/
def Dir.Distinct (t : Dir V) : Prop := (t.scripts.map Prod.fst).Nodup

/-- The callback is called once, when all files have been loaded. -/
def Right (t : Dir V) : Prop := ∃ data, (Init t).out = [data] ∧ ∀ e ∈ t.scripts, data.lookup e.1 = some e.2

/-- All files of a directory are loaded, and then the scan is left at an entry of a known type that is no `.lua`
file. -/
inductive Skips : Dir V → Prop
  | file {name type value rest} : type ≠ .UNKNOWN → base name = none → rest.scripts = [] →
      Skips (.file name type value rest)
  | directory {name type entries rest} : type ≠ .UNKNOWN → base name = none → entries.scripts = [] → rest.scripts = [] →
      Skips (.directory name type entries rest)
  | script {name type value rest} : type ≠ .UNKNOWN → base name ≠ none → Skips rest → Skips (.file name type value rest)
  | enter {name entries rest} : Skips entries → Skips rest → Skips (.directory name .UNKNOWN entries rest)

/-- All files of a directory are loaded, and then the scan comes to the end of a directory or to a file of unknown
type. -/
inductive Ends : Dir V → Prop
  | nil : Ends .nil
  | file {name value rest} : base name = none → rest.scripts = [] → Ends (.file name .UNKNOWN value rest)
  | script {name type value rest} : type ≠ .UNKNOWN → base name ≠ none → Ends rest → Ends (.file name type value rest)
  | enter {name entries rest} : Skips entries → Ends rest → Ends (.directory name .UNKNOWN entries rest)
  | last {name entries rest} : Ends entries → rest.scripts = [] → Ends (.directory name .UNKNOWN entries rest)

/-- What loading files does to the data. -/
def load (data : AList fun _ : Bytes => V) (l : List (Bytes × V)) : AList fun _ : Bytes => V :=
  l.foldl (fun data e => data.insert e.1 e.2) data

variable {s : State V} {t : Dir V} {type : Dirent} {name : Bytes} {data : AList fun _ : Bytes => V}
    {l : List (Bytes × V)}

theorem load_append (l l' : List (Bytes × V)) : load data (l ++ l') = load (load data l) l' := List.foldl_append

theorem mem_load {b : Bytes} : ∀ {l : List (Bytes × V)} {data : AList fun _ : Bytes => V},
    b ∈ load data l ↔ b ∈ data ∨ b ∈ l.map Prod.fst
  | [], data => by simp [load]
  | e :: l, data => by
    have ih : b ∈ load (data.insert e.1 e.2) l ↔ b ∈ data.insert e.1 e.2 ∨ b ∈ l.map Prod.fst := mem_load
    rw [AList.mem_insert] at ih
    rw [List.map_cons, List.mem_cons]
    exact ih.trans (by tauto)

theorem lookup_load_of_notMem {b : Bytes} : ∀ {l : List (Bytes × V)} {data : AList fun _ : Bytes => V},
    b ∉ l.map Prod.fst → (load data l).lookup b = data.lookup b
  | [], _, _ => rfl
  | e :: l, data, h => by
    rw [List.map_cons, List.mem_cons, not_or] at h
    exact (lookup_load_of_notMem (l := l) h.2).trans (AList.lookup_insert_ne h.1)

/-- Files of different base names are all found. -/
theorem lookup_load : ∀ {l : List (Bytes × V)} {data : AList fun _ : Bytes => V}, (l.map Prod.fst).Nodup →
    ∀ e ∈ l, (load data l).lookup e.1 = some e.2
  | a :: l, data, h, e, he => by
    rw [List.map_cons, List.nodup_cons] at h
    rcases List.mem_cons.1 he with rfl | he
    · exact (lookup_load_of_notMem h.1).trans (AList.lookup_insert _)
    · exact lookup_load h.2 e he

/-! ## Parts of the scan -/

theorem type_isSome : type.type.isSome ↔ type ≠ .UNKNOWN := by
  cases type <;> simp [Dirent.type]

theorem LoadSetting_script {b : Bytes} (ht : type ≠ .UNKNOWN) (hb : base name = some b) (value : V) (rest : Dir V)
    (s : State V) :
    LoadSetting (.file name type value rest) s = LoadSetting rest { s with m_Data := s.m_Data.insert b value } := by
  rw [LoadSetting, if_pos (type_isSome.2 ht), split_lua.2 hb]
  rfl

/-- An entry of a known type that is no `.lua` file ends the scan of the directory. -/
theorem LoadSetting_return {value : V} {rest : Dir V} (ht : type ≠ .UNKNOWN) (hb : base name = none) (s : State V) :
    LoadSetting (.file name type value rest) s = .skip s := by
  rw [LoadSetting, if_pos (type_isSome.2 ht)]
  split
  · rfl
  · rename_i hsplit
    exact if_pos (split_ne hb hsplit)

theorem LoadSetting_directory {entries rest : Dir V} (ht : type ≠ .UNKNOWN) (hb : base name = none) (s : State V) :
    LoadSetting (.directory name type entries rest) s = .skip s := by
  rw [LoadSetting, if_pos (type_isSome.2 ht)]
  split
  · rfl
  · rename_i hsplit
    exact if_pos (split_ne hb hsplit)

theorem LoadSetting_dofile {b : Bytes} (ht : type ≠ .UNKNOWN) (hb : base name = some b) (entries rest : Dir V)
    (s : State V) :
    LoadSetting (.directory name type entries rest) s = ⟨s, [], some .raised⟩ := by
  rw [LoadSetting, if_pos (type_isSome.2 ht), split_lua.2 hb]
  rfl

theorem LoadSetting_unknown (name : Bytes) (value : V) (rest : Dir V) (s : State V) :
    LoadSetting (.file name .UNKNOWN value rest) s = (LoadFinish s).andThen fun s => LoadSetting rest s := by
  rw [LoadSetting, if_neg (by simp [Dirent.type])]

theorem LoadSetting_enter (name : Bytes) (entries rest : Dir V) (s : State V) :
    LoadSetting (.directory name .UNKNOWN entries rest) s = (LoadSetting entries s).andThen fun s =>
    LoadSetting rest s := by
  rw [LoadSetting, if_neg (by simp [Dirent.type])]

/-- The callback is not called again. -/
theorem LoadFinish_called (hs : s.m_Callback = false) : LoadFinish s = .skip s := by simp [LoadFinish, hs]

theorem LoadFinish_pending (hs : s.m_Callback = true) :
    LoadFinish s = ⟨{ s with m_Callback := false }, [s.m_Data], none⟩ := by
  simp [LoadFinish, hs]

/-- **At most once**: after the callback, it is not called again. -/
theorem LoadSetting_called : ∀ (t : Dir V) {s : State V}, s.m_Callback = false →
    (LoadSetting t s).out = [] ∧ (LoadSetting t s).state.m_Callback = false
  | .nil, s, hs => by
    rw [LoadSetting, LoadFinish_called hs]
    exact ⟨rfl, hs⟩
  | .file name type value rest, s, hs => by
    by_cases ht : type = .UNKNOWN
    · subst ht
      rw [LoadSetting_unknown, LoadFinish_called hs, Done.skip_andThen]
      exact LoadSetting_called rest hs
    · cases hb : base name with
      | none =>
        rw [LoadSetting_return ht hb]
        exact ⟨rfl, hs⟩
      | some b =>
        rw [LoadSetting_script ht hb]
        exact LoadSetting_called rest hs
  | .directory name type entries rest, s, hs => by
    by_cases ht : type = .UNKNOWN
    · subst ht
      rw [LoadSetting_enter]
      have hentries := LoadSetting_called entries hs
      cases herr : (LoadSetting entries s).err with
      | some e =>
        rw [Done.andThen_of_err herr]
        exact hentries
      | none =>
        have hrest := LoadSetting_called rest hentries.2
        rw [Done.andThen_of_ok herr]
        refine ⟨?_, hrest.2⟩
        rw [hentries.1, hrest.1]
        rfl
    · cases hb : base name with
      | none =>
        rw [LoadSetting_directory ht hb]
        exact ⟨rfl, hs⟩
      | some b =>
        rw [LoadSetting_dofile ht hb]
        exact ⟨rfl, hs⟩

/-- What comes after the first call of the callback calls it no more. -/
theorem out_andThen {r : Did V} (hr : r.state.m_Callback = false) (t : Dir V) :
    (r.andThen fun s => LoadSetting t s).out = r.out ∧
    (r.andThen fun s => LoadSetting t s).state.m_Callback = false := by
  cases herr : r.err with
  | some e =>
    rw [Done.andThen_of_err herr]
    exact ⟨rfl, hr⟩
  | none =>
    have hrest := LoadSetting_called t hr
    rw [Done.andThen_of_ok herr]
    refine ⟨?_, hrest.2⟩
    rw [hrest.1, List.append_nil]

/-! ## What a scan has loaded -/

/-- How a scan of a directory comes out, while the callback is pending: it is left early, the callback has been called,
or an error has been raised before. -/
inductive Outcome (t : Dir V) (s : State V) : Prop
  | skips (l : List (Bytes × V)) (hl : l.Sublist t.scripts) (hall : l = t.scripts → Skips t)
      (run : LoadSetting t s = .skip { s with m_Data := load s.m_Data l })
  | ends (l : List (Bytes × V)) (hl : l.Sublist t.scripts) (hall : l = t.scripts → Ends t)
      (out : (LoadSetting t s).out = [load s.m_Data l]) (called : (LoadSetting t s).state.m_Callback = false)
  | raises (out : (LoadSetting t s).out = []) (err : (LoadSetting t s).err ≠ none)

/-- Two parts of two lists are all. -/
theorem append_eq_of_sublist {l l' m m' : List (Bytes × V)} (hl : l.Sublist m) (hl' : l'.Sublist m')
    (h : l ++ l' = m ++ m') :
    l = m ∧ l' = m' := by
  have hlen := congrArg List.length h
  simp only [List.length_append] at hlen
  have hle := hl.length_le
  have hle' := hl'.length_le
  exact ⟨hl.eq_of_length (by omega), hl'.eq_of_length (by omega)⟩

theorem scripts_file_none (hb : base name = none) (type : Dirent) (value : V) (rest : Dir V) :
    (Dir.file name type value rest).scripts = rest.scripts := by
  simp [Dir.scripts, hb]

theorem scripts_file_some {b : Bytes} (hb : base name = some b) (type : Dirent) (value : V) (rest : Dir V) :
    (Dir.file name type value rest).scripts = (b, value) :: rest.scripts := by
  simp [Dir.scripts, hb]

theorem outcome_nil (hs : s.m_Callback = true) : Outcome .nil s := by
  have hrun : LoadSetting .nil s = ⟨{ s with m_Callback := false }, [s.m_Data], none⟩ := LoadFinish_pending hs
  exact .ends [] .slnil (fun _ => .nil) (by rw [hrun]; rfl) (by rw [hrun])

/-- A file of unknown type. -/
theorem outcome_unknown (hs : s.m_Callback = true) (name : Bytes) (value : V) (rest : Dir V) :
    Outcome (.file name .UNKNOWN value rest) s := by
  have hrun := LoadSetting_unknown name value rest s
  rw [LoadFinish_pending hs] at hrun
  have hout := out_andThen (r := ⟨{ s with m_Callback := false }, [s.m_Data], none⟩) rfl rest
  rw [← hrun] at hout
  refine .ends [] (List.nil_sublist _) (fun hall => ?_) hout.1 hout.2
  cases hb : base name with
  | none => exact .file hb ((scripts_file_none hb _ _ _).symm.trans hall.symm)
  | some b =>
    rw [scripts_file_some hb] at hall
    cases hall

/-- A file of a known type, before which the scan returns. -/
theorem outcome_return (ht : type ≠ .UNKNOWN) (hb : base name = none) (value : V) (rest : Dir V) (s : State V) :
    Outcome (.file name type value rest) s := by
  refine .skips [] (List.nil_sublist _) (fun hall => ?_) (LoadSetting_return ht hb s)
  exact .file ht hb ((scripts_file_none hb _ _ _).symm.trans hall.symm)

/-- A file that is loaded. -/
theorem Outcome.script {value : V} {rest : Dir V} {b : Bytes} (ht : type ≠ .UNKNOWN) (hb : base name = some b)
    (h : Outcome rest { s with m_Data := s.m_Data.insert b value }) : Outcome (.file name type value rest) s := by
  have hb' : base name ≠ none := by simp [hb]
  have hrun := LoadSetting_script ht hb value rest s
  have hscripts := scripts_file_some hb type value rest
  cases h with
  | skips l hl hall run =>
    rw [← hrun] at run
    refine .skips ((b, value) :: l) (hscripts ▸ hl.cons_cons _) (fun h => ?_) run
    rw [hscripts] at h
    exact .script ht hb' (hall (List.cons.inj h).2)
  | ends l hl hall out called =>
    rw [← hrun] at out called
    refine .ends ((b, value) :: l) (hscripts ▸ hl.cons_cons _) (fun h => ?_) out called
    rw [hscripts] at h
    exact .script ht hb' (hall (List.cons.inj h).2)
  | raises out err =>
    rw [← hrun] at out err
    exact .raises out err

/-- A directory of a known type. -/
theorem outcome_directory (ht : type ≠ .UNKNOWN) (name : Bytes) (entries rest : Dir V) (s : State V) :
    Outcome (.directory name type entries rest) s := by
  cases hb : base name with
  | none =>
    refine .skips [] (List.nil_sublist _) (fun hall => ?_) (LoadSetting_directory ht hb s)
    obtain ⟨h, h'⟩ := List.append_eq_nil_iff.1 hall.symm
    exact .directory ht hb h h'
  | some b =>
    have hrun := LoadSetting_dofile ht hb entries rest s
    exact .raises (by rw [hrun]) (by simp [hrun])

/-- A directory of unknown type, from which the scan comes back before its end, and the rest. -/
theorem Outcome.enter {entries rest : Dir V} (hl : l.Sublist entries.scripts)
    (hall : l = entries.scripts → Skips entries)
    (run : LoadSetting entries s = .skip { s with m_Data := load s.m_Data l })
    (h : Outcome rest { s with m_Data := load s.m_Data l }) : Outcome (.directory name .UNKNOWN entries rest) s := by
  have hrun := LoadSetting_enter name entries rest s
  rw [run, Done.skip_andThen] at hrun
  cases h with
  | skips l' hl' hall' run' =>
    refine .skips (l ++ l') (hl.append hl') (fun h => ?_) ?_
    · obtain ⟨h, h'⟩ := append_eq_of_sublist hl hl' h
      exact .enter (hall h) (hall' h')
    · rw [hrun, load_append]
      exact run'
  | ends l' hl' hall' out called =>
    refine .ends (l ++ l') (hl.append hl') (fun h => ?_) ?_ ?_
    · obtain ⟨h, h'⟩ := append_eq_of_sublist hl hl' h
      exact .enter (hall h) (hall' h')
    · rw [hrun, load_append]
      exact out
    · rw [hrun]
      exact called
  | raises out err =>
    rw [← hrun] at out err
    exact .raises out err

/-- **A scan**, and when it has loaded all files. -/
theorem outcome : ∀ (t : Dir V) {s : State V}, s.m_Callback = true → Outcome t s
  | .nil, s, hs => outcome_nil hs
  | .file name type value rest, s, hs => by
    by_cases ht : type = .UNKNOWN
    · subst ht
      exact outcome_unknown hs name value rest
    · cases hb : base name with
      | none => exact outcome_return ht hb value rest s
      | some b => exact .script ht hb (outcome rest hs)
  | .directory name type entries rest, s, hs => by
    by_cases ht : type = .UNKNOWN
    · subst ht
      cases outcome entries hs with
      | skips l hl hall run => exact .enter hl hall run (outcome rest hs)
      | ends l hl hall out called =>
        have hout := out_andThen called rest
        rw [← LoadSetting_enter name entries rest s] at hout
        refine .ends l (hl.trans (List.sublist_append_left _ _)) (fun h => ?_) (hout.1.trans out) hout.2
        obtain ⟨h, h'⟩ := append_eq_of_sublist hl (List.nil_sublist _) ((List.append_nil l).trans h)
        exact .last (hall h) h'.symm
      | raises out err =>
        obtain ⟨e, he⟩ := Option.ne_none_iff_exists'.1 err
        have hrun := LoadSetting_enter name entries rest s
        rw [Done.andThen_of_err he] at hrun
        exact .raises (by rw [hrun]; exact out) (by rw [hrun]; exact err)
    · exact outcome_directory ht name entries rest s

/-- All files have been loaded, and the scan goes on. -/
theorem Skips.run (h : Skips t) {s : State V} :
    LoadSetting t s = .skip { s with m_Data := load s.m_Data t.scripts } := by
  induction h generalizing s with
  | file ht hb hrest => rw [LoadSetting_return ht hb, scripts_file_none hb, hrest]; rfl
  | directory ht hb hentries hrest => rw [LoadSetting_directory ht hb, Dir.scripts, hentries, hrest]; rfl
  | script ht hb _ ih =>
    obtain ⟨b, hb⟩ := Option.ne_none_iff_exists'.1 hb
    rw [LoadSetting_script ht hb, ih, scripts_file_some hb]
    rfl
  | enter _ _ ih ih' =>
    rw [LoadSetting_enter, ih, Done.skip_andThen, ih', Dir.scripts, load_append]

/-- The callback is called when all files have been loaded. -/
theorem Ends.out (h : Ends t) {s : State V} (hs : s.m_Callback = true) :
    (LoadSetting t s).out = [load s.m_Data t.scripts] ∧ (LoadSetting t s).state.m_Callback = false := by
  induction h generalizing s with
  | nil => rw [LoadSetting, LoadFinish_pending hs]; exact ⟨rfl, rfl⟩
  | @file name value rest hb hrest =>
    rw [LoadSetting_unknown, LoadFinish_pending hs, scripts_file_none hb, hrest]
    exact out_andThen rfl rest
  | script ht hb _ ih =>
    obtain ⟨b, hb⟩ := Option.ne_none_iff_exists'.1 hb
    rw [LoadSetting_script ht hb, scripts_file_some hb]
    exact ih hs
  | enter hskips _ ih =>
    rw [LoadSetting_enter, hskips.run, Done.skip_andThen, Dir.scripts, load_append]
    exact ih hs
  | @last name entries rest _ hrest ih =>
    obtain ⟨hout, hcalled⟩ := ih hs
    rw [LoadSetting_enter, Dir.scripts, hrest, List.append_nil, ← hout]
    exact out_andThen hcalled rest

/-- **Loading the configuration**: the callback is called once and when all files have been loaded, exactly if the scan
comes to an end when it has met them. -/
theorem init_right {t : Dir V} (hd : t.Distinct) : Right t ↔ Ends t := by
  constructor
  · rintro ⟨data, hout, hdata⟩
    rw [Init] at hout
    cases outcome t (s := ⟨∅, true⟩) rfl with
    | skips l hl hall run => rw [run] at hout; cases hout
    | ends l hl hall out called =>
      rw [out] at hout
      obtain rfl := (List.cons.inj hout).1
      refine hall (hl.eq_of_length_le ?_)
      have hsub : t.scripts.map Prod.fst ⊆ l.map Prod.fst := by
        intro b hb
        obtain ⟨e, he, rfl⟩ := List.mem_map.1 hb
        have hmem : e.1 ∈ load (∅ : AList fun _ : Bytes => V) l := by
          rw [← AList.lookup_isSome, hdata e he]
          rfl
        exact (mem_load.1 hmem).resolve_left (AList.notMem_empty e.1)
      simpa using (List.subperm_of_subset hd hsub).length_le
    | raises out err => rw [out] at hout; cases hout
  · intro h
    exact ⟨_, (h.out rfl).1, lookup_load hd⟩

/-- A directory of unknown type between two files. -/
theorem init_right_nested :
    (Dir.Distinct (.file ([97] ++ dotLua) .FILE 1 (.directory [98] .UNKNOWN (.file ([99] ++ dotLua) .FILE 2
      (.file [100] .FILE 3 .nil)) (.file ([101] ++ dotLua) .LINK 4 (.file [102] .UNKNOWN 5 .nil))))) ∧
    Right (Dir.file ([97] ++ dotLua) .FILE 1 (.directory [98] .UNKNOWN (.file ([99] ++ dotLua) .FILE 2
      (.file [100] .FILE 3 .nil)) (.file ([101] ++ dotLua) .LINK 4 (.file [102] .UNKNOWN 5 .nil)))) := by
  have hd : Dir.Distinct (.file ([97] ++ dotLua) .FILE 1 (.directory [98] .UNKNOWN (.file ([99] ++ dotLua) .FILE 2
      (.file [100] .FILE 3 .nil)) (.file ([101] ++ dotLua) .LINK 4 (.file [102] .UNKNOWN 5 .nil)))) := by
    unfold Dir.Distinct
    decide
  refine ⟨hd, (init_right hd).2 ?_⟩
  refine .script (by decide) (by decide)
    (.enter (.script (by decide) (by decide) (.file (by decide) (by decide) rfl)) ?_)
  exact .script (by decide) (by decide) (.file (by decide) rfl)

/-- A directory of known type before a file: it is taken for a file without extension, and the callback is never
called. -/
theorem directory_of_known_type : ¬∀ t : Dir Nat, t.Distinct → Right t := by
  intro h
  obtain ⟨data, hout, -⟩ := h (.directory [97] .DIR .nil (.file ([98] ++ dotLua) .FILE 1 .nil))
    (by unfold Dir.Distinct; decide)
  have hrun : (Init (.directory [97] .DIR .nil (.file ([98] ++ dotLua) .FILE 1 .nil) : Dir Nat)).out = [] := by decide
  rw [hrun] at hout
  cases hout

end XCore.Setting
