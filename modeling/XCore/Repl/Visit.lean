import Mathlib.Data.Finset.Card
import Mathlib.Logic.Relation
import XCore.Repl.Dump

/-!
# What `process` visits

`process` enters every table that is reached from the value through keys and values, once. So it returns only if the
keys of all these tables can be sorted (`process_visits`). Where `write` calls `dump` for its stack there is no block
left to open, and a line break is always put within the output (`openBlocks_spec`).
-/

namespace XCore.Repl

open XCore.Lua

/-! ## Writing -/

/-- All blocks are open. -/
def AllOpened (stack : List Entry) : Prop := ∀ e ∈ stack, e.opened = true

/-- Every block begins within the output. -/
def Good (s : Locals) : Prop := ∀ e ∈ s.stack, e.index ≤ s.output.length

theorem length_insertAt {output : List Bytes} {index : Nat} (h : index ≤ output.length) (text : Bytes) :
    (insertAt output index text).length = output.length + 1 := by
  unfold insertAt
  rw [List.length_append, List.length_cons, List.length_take, List.length_drop]
  omega

theorem openBlock_eq {i : Nat} {entry : Entry} {s : Locals} (hs : Good s) (hi : s.stack[i]? = some entry) :
    openBlock i entry s = .ok (s.opened i entry) := if_pos (hs entry (List.mem_of_getElem? hi))

/-- Blocks that are opened begin within the output. -/
theorem good_opened {i : Nat} {entry : Entry} {s : Locals} (hs : Good s) (hi : s.stack[i]? = some entry) :
    Good (s.opened i entry) := by
  have hentry : entry.index ≤ s.output.length := hs entry (List.mem_of_getElem? hi)
  intro e he
  change e.index ≤ (insertAt _ _ _).length
  rw [length_insertAt hentry]
  rcases List.mem_append.1 he with he | he
  · exact Nat.le_succ_of_le (hs e (List.mem_of_mem_take he))
  · rcases List.mem_cons.1 he with rfl | he
    · exact Nat.le_succ_of_le hentry
    · obtain ⟨e', he', rfl⟩ := List.mem_map.1 he
      exact Nat.succ_le_succ (hs e' (List.mem_of_mem_drop he'))

theorem length_opened {i : Nat} {entry : Entry} {s : Locals} (hi : s.stack[i]? = some entry) :
    (s.opened i entry).stack.length = s.stack.length := by
  have hlt := (List.getElem?_eq_some_iff.1 hi).1
  unfold Locals.opened
  rw [List.length_append, List.length_cons, List.length_map, List.length_take, List.length_drop]
  omega

theorem take_opened {i : Nat} {entry : Entry} {s : Locals} (hi : s.stack[i]? = some entry) :
    (s.opened i entry).stack.take (i + 1) = s.stack.take i ++ [{ entry with opened := true }] := by
  have hlen : (s.stack.take i).length = i := List.length_take_of_le (Nat.le_of_lt (List.getElem?_eq_some_iff.1 hi).1)
  unfold Locals.opened
  rw [List.take_append, hlen, List.take_of_length_le (by rw [hlen]; exact Nat.le_succ i), Nat.add_sub_cancel_left]
  rfl

/-- What the loop of `write` leaves: the text fits, or all blocks are open. -/
theorem openBlocks_spec (width length : Nat) : ∀ {left i : Nat} {s : Locals}, Good s → i + left = s.stack.length →
    AllOpened (s.stack.take i) →
    ∃ s', openBlocks width length left i s = .ok s' ∧ Good s' ∧ s'.seen = s.seen ∧ s'.stack.length = s.stack.length ∧
      (width < s'.offset + length → AllOpened s'.stack)
  | 0, i, s, hs, hlen, hopen => by
    have hlen : i = s.stack.length := hlen
    rw [hlen, List.take_length] at hopen
    exact ⟨s, rfl, hs, rfl, rfl, fun _ => hopen⟩
  | left + 1, i, s, hs, hlen, hopen => by
    by_cases hwide : width < s.offset + length
    · obtain ⟨entry, hi⟩ : ∃ entry, s.stack[i]? = some entry := ⟨_, List.getElem?_eq_getElem (by omega)⟩
      rw [openBlocks, if_pos hwide, hi]
      dsimp only
      by_cases hentry : entry.opened = true
      · rw [if_pos hentry]
        refine openBlocks_spec width length hs (by omega) ?_
        rw [List.take_add_one, hi]
        exact fun e he => (List.mem_append.1 he).elim (hopen e) fun he => by rw [List.mem_singleton.1 he]; exact hentry
      · have hsame := length_opened hi
        have hopen' : AllOpened ((s.opened i entry).stack.take (i + 1)) := by
          rw [take_opened hi]
          exact fun e he => (List.mem_append.1 he).elim (hopen e) fun he => by rw [List.mem_singleton.1 he]
        have hleft : i + 1 + left = (s.opened i entry).stack.length := by omega
        obtain ⟨s', hok, hs', hseen, hlen', hall⟩ := openBlocks_spec width length (good_opened hs hi) hleft hopen'
        rw [if_neg hentry, openBlock_eq hs hi]
        exact ⟨s', hok, hs', hseen, hlen'.trans hsame, hall⟩
    · rw [openBlocks, if_neg hwide]
      exact ⟨s, rfl, hs, rfl, rfl, fun h => absurd h hwide⟩

theorem good_indent {s : Locals} (hs : Good s) : Good s.indent := by
  intro e he
  rcases List.mem_append.1 he with he | he
  · exact hs e he
  · rw [List.mem_singleton.1 he]
    exact Nat.le_refl _

theorem good_unindent {s : Locals} (hs : Good s) : Good s.unindent := fun e he => hs e (List.mem_of_mem_dropLast he)

section

variable {T : Terminal} {dumpStack : List Entry → Except LuaError Unit} {heap : Heap}

theorem write_eq (text : Bytes) (s : Locals) : write T dumpStack text s =
    openBlocks T.width (strip text).length s.stack.length 0 s >>= fun s =>
      if T.width < (s.append text).offset then dumpStack (s.append text).stack >>= fun _ => .ok (s.append text)
      else .ok (s.append text) := rfl

end

/-! ## The tables of a value -/

/-- A table that is a key or a value of a table. -/
def Child (heap : Heap) (r r' : Ref) : Prop := ∃ k ∈ (heap r).map Prod.fst, k = .tab r' ∨ rawget (heap r) k = .tab r'

/-- A table that a value is, or that it is made of. -/
def Reached (heap : Heap) (v : Value) (r : Ref) : Prop := ∃ r₀, v = .tab r₀ ∧ Relation.ReflTransGen (Child heap) r₀ r

/-- **The keys of every table can be sorted**: there is at most one, or they are all numbers or all strings. -/
def Comparable (g : Graph) : Prop := ∀ r, Reached g.heap g.root r → Sortable ((g.heap r).map Prod.fst)

theorem mem_of_rawget : ∀ {fields : List (Value × Value)} {k : Value}, k ∈ fields.map Prod.fst →
    (k, rawget fields k) ∈ fields
  | (k', v) :: fields, k, h => by
    unfold rawget
    split
    · rename_i hk
      rw [← hk]
      exact List.mem_cons_self
    · rename_i hk
      refine List.mem_cons_of_mem _ (mem_of_rawget ?_)
      exact (List.mem_cons.1 h).resolve_left fun h => hk h.symm

theorem Reached.child {heap : Heap} {r r' r'' : Ref} (h : Child heap r r') (h' : Reached heap (.tab r') r'') :
    Reached heap (.tab r) r'' := by
  obtain ⟨r₀, hr₀, hpath⟩ := h'
  cases hr₀
  exact ⟨r, rfl, .head h hpath⟩

/-- Keys and values reach what their table does. -/
theorem Reached.field {heap : Heap} {r r' : Ref} {k : Value} (hk : k ∈ (heap r).map Prod.fst)
    (h : Reached heap k r' ∨ Reached heap (rawget (heap r) k) r') : Reached heap (.tab r) r' := by
  rcases h with h | h
  · obtain ⟨r₀, rfl, hpath⟩ := h
    exact Reached.child ⟨_, hk, .inl rfl⟩ ⟨r₀, rfl, hpath⟩
  · obtain ⟨r₀, hr₀, hpath⟩ := h
    exact Reached.child ⟨k, hk, .inr hr₀⟩ ⟨r₀, rfl, hpath⟩

/-! ## What has been entered -/

/-- The keys of a table can be sorted, and the tables in it are entered. -/
structure Done (heap : Heap) (seen : List Ref) (r : Ref) : Prop where
  sortable : Sortable ((heap r).map Prod.fst)
  children : ∀ r', Child heap r r' → r' ∈ seen

/-- A computation that returns has entered some values, and is done with every table that it has entered. -/
def Enters (heap : Heap) (m : Locals → Except LuaError Locals) (vs : List Value) : Prop :=
  ∀ s s', m s = .ok s' → s.seen ⊆ s'.seen ∧ (∀ r ∈ s'.seen, r ∉ s.seen → Done heap s'.seen r) ∧
    ∀ r, .tab r ∈ vs → r ∈ s'.seen

section

variable {T : Terminal} {dumpStack : List Entry → Except LuaError Unit} {heap : Heap}
    {m m' : Locals → Except LuaError Locals}
  {vs vs' : List Value} {process : Value → Locals → Except LuaError Locals}

theorem Done.mono {seen seen' : List Ref} (h : seen ⊆ seen') {r : Ref} (hr : Done heap seen r) : Done heap seen' r :=
  ⟨hr.sortable, fun r' hr' => h (hr.children r' hr')⟩

theorem Enters.bind (hm : Enters heap m vs) (hm' : Enters heap m' vs') :
    Enters heap (fun s => m s >>= m') (vs ++ vs') := by
  intro s s'' h
  obtain ⟨s', h1, h2⟩ := bind_eq_ok.1 h
  obtain ⟨hsub, hdone, hvs⟩ := hm s s' h1
  obtain ⟨hsub', hdone', hvs'⟩ := hm' s' s'' h2
  refine ⟨List.Subset.trans hsub hsub', fun r hr hnew => ?_, fun r hr => ?_⟩
  · by_cases hr' : r ∈ s'.seen
    · exact (hdone r hr' hnew).mono hsub'
    · exact hdone' r hr hr'
  · exact (List.mem_append.1 hr).elim (fun hr => hsub' (hvs r hr)) (hvs' r)

theorem Enters.mono (hm : Enters heap m vs) (h : ∀ r, .tab r ∈ vs' → .tab r ∈ vs) : Enters heap m vs' := fun s s' hs =>
  ⟨(hm s s' hs).1, (hm s s' hs).2.1, fun r hr => (hm s s' hs).2.2 r (h r hr)⟩

/-- A computation that enters nothing. -/
theorem enters_of_seen (h : ∀ s s', m s = .ok s' → s'.seen = s.seen) : Enters heap m [] := by
  intro s s' hs
  rw [h s s' hs]
  exact ⟨List.Subset.refl _, fun r hr hnew => absurd hr hnew, fun r hr => (List.not_mem_nil hr).elim⟩

theorem openBlock_seen {i : Nat} {entry : Entry} {s s' : Locals} (h : openBlock i entry s = .ok s') :
    s'.seen = s.seen := by
  unfold openBlock at h
  split at h
  · cases h
    rfl
  · cases h

theorem openBlocks_seen {width length : Nat} :
    ∀ {left i : Nat} {s s' : Locals}, openBlocks width length left i s = .ok s' → s'.seen = s.seen
  | 0, _, _, _, h => by
    cases h
    rfl
  | left + 1, i, s, s', h => by
    unfold openBlocks at h
    split at h
    · split at h
      · cases h
        rfl
      · split at h
        · exact openBlocks_seen h
        · obtain ⟨s₁, h1, h2⟩ := bind_eq_ok.1 h
          exact (openBlocks_seen h2).trans (openBlock_seen h1)
    · cases h
      rfl

theorem write_seen {text : Bytes} {s s' : Locals} (h : write T dumpStack text s = .ok s') : s'.seen = s.seen := by
  rw [write_eq] at h
  obtain ⟨s₁, h1, h2⟩ := bind_eq_ok.1 h
  have hseen : s₁.seen = s.seen := openBlocks_seen h1
  split at h2
  · obtain ⟨-, -, h2⟩ := bind_eq_ok.1 h2
    cases h2
    exact hseen
  · cases h2
    exact hseen

variable (T dumpStack) in
theorem enters_write (text : Bytes) : Enters heap (write T dumpStack text) [] := enters_of_seen fun _ _ => write_seen

section

variable (hp : ∀ v, Enters heap (process v) [v])

include hp

theorem enters_printKey (k : Value) : Enters heap (printKey T dumpStack process k) [k] := by
  unfold printKey
  cases hname : nameOf k with
  | some name =>
    have hno : ∀ r, k ≠ .tab r := by
      rintro r rfl
      cases hname
    exact (enters_write T dumpStack _).mono fun r hr => absurd (List.mem_singleton.1 hr).symm (hno r)
  | none =>
    have hall := (enters_write T dumpStack (obracket T)).bind
      ((hp k).bind (enters_write T dumpStack (cbracket T ++ equals T)))
    exact hall.mono fun r hr => by simpa using hr

theorem enters_printValue (v : Value) : Enters heap (printValue process v) [v] := by
  have hblock : Enters heap (fun s => process v s.indent >>= fun s => .ok s.unindent) [v] := by
    intro s s' h
    obtain ⟨s₁, h1, h2⟩ := bind_eq_ok.1 h
    cases h2
    exact hp v s.indent s₁ h1
  cases v with
  | tab r => exact hp (.tab r)
  | _ => exact hblock

theorem enters_printEntry (fields : List (Value × Value)) (i : Nat) (k : Value) :
    Enters heap (printEntry T dumpStack process fields i k) [k, rawget fields k] := by
  unfold printEntry
  dsimp only
  by_cases hk : k = .num (.int i)
  · simp only [if_pos hk]
    refine (hp _).mono fun r hr => ?_
    rcases List.mem_cons.1 hr with hr | hr
    · rw [hk] at hr
      cases hr
    · exact hr
  · simp only [if_neg hk]
    exact (enters_printKey hp k).bind (enters_printValue hp _)

theorem enters_printField (fields : List (Value × Value)) (total i : Nat) (k : Value) :
    Enters heap (printField T dumpStack process fields total i k) [k, rawget fields k] := by
  intro s s' h
  obtain ⟨s₁, h1, h2⟩ := bind_eq_ok.1 h
  obtain ⟨s₂, h3, h4⟩ := bind_eq_ok.1 h2
  cases h4
  have hentry : Enters heap (printEntry T dumpStack process fields i k) [k, rawget fields k] :=
    enters_printEntry hp fields i k
  have hall := hentry.bind (enters_write T dumpStack (if i < total then comma T else [32]))
  exact hall.mono (fun r hr => List.mem_append_left _ hr) s.indent s₂ (bind_eq_ok.2 ⟨s₁, h1, h3⟩)

theorem enters_printFields (fields : List (Value × Value)) (total : Nat) : ∀ (keylist : List Value) (i : Nat),
    Enters heap (printFields T dumpStack process fields total i keylist) (keylist ++ keylist.map (rawget fields))
  | [], _ => enters_of_seen fun s s' h => by
    cases h
    rfl
  | k :: keylist, i => by
    refine ((enters_printField hp fields total i k).bind (enters_printFields fields total keylist (i + 1))).mono
      fun r hr => ?_
    simp only [List.cons_append, List.mem_cons, List.mem_append, List.map_cons, List.nil_append] at hr ⊢
    tauto

end

end

theorem sort_ok {keylist sorted : List Value} (h : sort keylist = .ok sorted) :
    Sortable keylist ∧ sorted.Perm keylist := by
  unfold sort at h
  split at h
  · rename_i hs
    cases h
    exact ⟨hs, List.perm_insertionSort _ _⟩
  · cases h

/-- **`process` enters all tables** of a value, and sorts the keys of those that it has entered. -/
theorem process_visits {T : Terminal} {heap : Heap} {dumpStack : List Entry → Except LuaError Unit} :
    ∀ (n : Nat) (v : Value), Enters heap (process T heap dumpStack n v) [v]
  | 0, _ => fun _ _ h => by cases h
  | n + 1, v => by
    have hscalar : ∀ {v : Value} {text : Bytes}, (∀ r, v ≠ .tab r) →
      Enters heap (write T dumpStack text) [v] := fun hv =>
      (enters_write T dumpStack _).mono fun r hr => absurd (List.mem_singleton.1 hr).symm (hv r)
    cases v with
    | tab r =>
      intro s s' h
      unfold process at h
      dsimp only at h
      by_cases hr : r ∈ s.seen
      · rw [if_pos hr] at h
        obtain ⟨hsub, hdone, -⟩ := enters_write T dumpStack _ s s' h
        refine ⟨hsub, hdone, fun r' hr' => ?_⟩
        cases List.mem_singleton.1 hr'
        exact hsub hr
      · rw [if_neg hr] at h
        obtain ⟨s₁, h1, h2⟩ := bind_eq_ok.1 h
        obtain ⟨keylist, h3, h4⟩ := bind_eq_ok.1 h2
        obtain ⟨hsortable, hperm⟩ := sort_ok h3
        have hseen : s₁.seen = r :: s.seen := write_seen h1
        have hfields : Enters heap
            (printFields T dumpStack (process T heap dumpStack n) (heap r) keylist.length 1 keylist)
            (keylist ++ keylist.map (rawget (heap r))) := enters_printFields (process_visits n) _ _ keylist 1
        have hbody := hfields.bind (enters_write T dumpStack (cbrace T))
        obtain ⟨hsub, hdone, hvs⟩ := hbody s₁ s' h4
        rw [hseen] at hsub hdone
        have hr : r ∈ s'.seen := hsub List.mem_cons_self
        have hchildren : ∀ r', Child heap r r' → r' ∈ s'.seen := by
          rintro r' ⟨k, hk, hr'⟩
          have hk : k ∈ keylist := hperm.mem_iff.2 hk
          apply hvs
          rw [List.append_nil]
          rcases hr' with rfl | hr'
          · exact List.mem_append_left _ hk
          · rw [← hr']
            exact List.mem_append_right _ (List.mem_map_of_mem hk)
        refine ⟨fun r' hr' => hsub (List.mem_cons_of_mem r hr'), fun r' hr' hnew => ?_, fun r' hr' => ?_⟩
        · by_cases hself : r' = r
          · rw [hself]
            exact ⟨hsortable, hchildren⟩
          · exact hdone r' hr' fun h => (List.mem_cons.1 h).elim hself hnew
        · cases List.mem_singleton.1 hr'
          exact hr
    | nil => exact hscalar fun _ h => by cases h
    | bool b => exact hscalar fun _ h => by cases h
    | num n => exact hscalar fun _ h => by cases h
    | str t => exact hscalar fun _ h => by cases h

/-! ## What is not entered -/

/-- The number of tables that are not entered. -/
def unseen (size : Nat) (seen : List Ref) : Nat := ((Finset.range size).filter fun r => r ∉ seen).card

theorem unseen_mono {size : Nat} {seen seen' : List Ref} (h : seen ⊆ seen') : unseen size seen' ≤ unseen size seen := by
  refine Finset.card_le_card fun r hr => ?_
  obtain ⟨hlt, hno⟩ := Finset.mem_filter.1 hr
  exact Finset.mem_filter.2 ⟨hlt, fun h' => hno (h h')⟩

theorem unseen_cons {size : Nat} {seen : List Ref} {r : Ref} (hr : r < size) (hnew : r ∉ seen) :
    unseen size (r :: seen) < unseen size seen := by
  refine Finset.card_lt_card ((Finset.ssubset_iff_of_subset fun r' hr' => ?_).2 ⟨r, ?_, fun h => ?_⟩)
  · obtain ⟨hlt, hno⟩ := Finset.mem_filter.1 hr'
    exact Finset.mem_filter.2 ⟨hlt, fun h' => hno (List.mem_cons_of_mem r h')⟩
  · exact Finset.mem_filter.2 ⟨Finset.mem_range.2 hr, hnew⟩
  · exact (Finset.mem_filter.1 h).2 List.mem_cons_self

end XCore.Repl
