import XCore.Repl.Layout

/-!
# What `dump` prints of a value

`process` prints a value in a sequence of texts and blocks that the value alone determines (`prints`): where the keys of
all its tables can be sorted, it does nothing else (`process_prints`). The texts have no line breaks
(`unbroken_prints`), so that the line after each of them is known.
-/

namespace XCore.Repl

open XCore.Lua
open XCore.Blocks

/-! ## Sequences -/

section

variable {T : Terminal} {dumpStack : List Entry → Except LuaError Unit}

theorem perform_append : ∀ (ps ps' : List Print) (s : Locals),
    perform T dumpStack (ps ++ ps') s = perform T dumpStack ps s >>= perform T dumpStack ps'
  | [], _, _ => rfl
  | p :: ps, ps', s => by
    rw [List.cons_append, perform, perform, bind_assoc]
    exact bind_congr fun s => perform_append ps ps' s

theorem perform_indent (ps : List Print) (s : Locals) :
    perform T dumpStack (.indent :: ps) s = perform T dumpStack ps s.indent := rfl

theorem perform_enter (r : Ref) (ps : List Print) (s : Locals) :
    perform T dumpStack (.enter r :: ps) s = perform T dumpStack ps { s with seen := r :: s.seen } := rfl

theorem perform_write (text : Bytes) (ps : List Print) (s : Locals) :
    perform T dumpStack (.write text :: ps) s = write T dumpStack text s >>= perform T dumpStack ps := rfl

theorem perform_end (text : Bytes) (s : Locals) : perform T dumpStack [.write text] s = write T dumpStack text s :=
  (perform_write text [] s).trans (bind_pure _)

/-- The tables that are entered after a step. -/
def Print.after (seen : List Ref) : Print → List Ref
  | .enter r => r :: seen
  | _ => seen

/-- The tables that are entered after a sequence. -/
def after (seen : List Ref) (ps : List Print) : List Ref := ps.foldl Print.after seen

/-- A sequence enters the tables that it says. -/
theorem perform_after : ∀ {ps : List Print} {s s' : Locals}, perform T dumpStack ps s = .ok s' →
    s'.seen = after s.seen ps
  | [], s, s', h => by
    cases h
    rfl
  | p :: ps, s, s', h => by
    obtain ⟨s₁, h1, h2⟩ := bind_eq_ok.1 h
    have hstep : s₁.seen = p.after s.seen := by
      cases p with
      | write text => exact write_seen h1
      | _ =>
        cases h1
        rfl
    rw [perform_after h2, hstep]
    rfl

theorem mem_after : ∀ {ps : List Print} {seen : List Ref} {r : Ref}, r ∈ after seen ps ↔ r ∈ seen ∨ .enter r ∈ ps
  | [], _, _ => ⟨.inl, fun h => h.resolve_right List.not_mem_nil⟩
  | p :: ps, seen, r => by
    change r ∈ after (p.after seen) ps ↔ _
    rw [mem_after, List.mem_cons]
    cases p with
    | enter r' =>
      rw [Print.after, List.mem_cons, Print.enter.injEq]
      tauto
    | _ => simp [Print.after]

end

/-! ## The sequence of a value -/

/-- Keys in the order of `table.sort`. -/
def sorted (keylist : List Value) : List Value := keylist.insertionSort fun a b => lessThan b a = false

theorem sort_eq {keylist : List Value} (h : Sortable keylist) : sort keylist = .ok (sorted keylist) := if_pos h

section

variable (T : Terminal) (prints : Value → List Ref → List Print)

/-- What `printKey` prints. -/
def printsKey (k : Value) (seen : List Ref) : List Print :=
  match nameOf k with
  | some name => [.write (colorize T.theme .property name none ++ equals T)]
  | none => .write (obracket T) :: (prints k seen ++ [.write (cbracket T ++ equals T)])

/-- What `printValue` prints. -/
def printsValue (v : Value) (seen : List Ref) : List Print :=
  match v with
  | .tab _ => prints v seen
  | _ => .indent :: (prints v seen ++ [.unindent])

/-- What `printEntry` prints. -/
def printsEntry (fields : List (Value × Value)) (i : Nat) (k : Value) (seen : List Ref) : List Print :=
  if k = .num (.int i) then prints (rawget fields k) seen
  else printsKey T prints k seen ++ printsValue prints (rawget fields k) (after seen (printsKey T prints k seen))

/-- What `printField` prints. -/
def printsField (fields : List (Value × Value)) (total i : Nat) (k : Value) (seen : List Ref) : List Print :=
  .indent :: (printsEntry T prints fields i k seen ++ [.write (if i < total then comma T else [32])] ++ [.unindent])

/-- What `printFields` prints. -/
def printsFields (fields : List (Value × Value)) (total : Nat) : Nat → List Value → List Ref → List Print
  | _, [], _ => []
  | i, k :: keylist, seen => printsField T prints fields total i k seen ++
      printsFields fields total (i + 1) keylist (after seen (printsField T prints fields total i k seen))

end

/-- What `process` prints, for some depth of tables, behind some tables that are entered. -/
def prints (T : Terminal) (heap : Heap) : Nat → Value → List Ref → List Print
  | 0, _, _ => []
  | n + 1, value, seen =>
    match value with
    | .str v => [.write (quoted T.theme v)]
    | .tab r =>
      if r ∈ seen then [.write (colorize T.theme .table (tostring T (.tab r)) none)]
      else
        let keylist := sorted ((heap r).map Prod.fst)
        .enter r :: .write (obrace T) ::
          (printsFields T (prints T heap n) (heap r) keylist.length 1 keylist (r :: seen) ++ [.write (cbrace T)])
    | v => [.write (colorize T.theme (type v) (tostring T v) none)]

/-- Where fewer than `n` tables are not entered yet, a computation performs a sequence that these tables determine. -/
def Performing (T : Terminal) (dumpStack : List Entry → Except LuaError Unit) (size n : Nat)
    (m : Locals → Except LuaError Locals) (ps : List Ref → List Print) : Prop :=
  ∀ s, unseen size s.seen < n → m s = perform T dumpStack (ps s.seen) s

section

variable {T : Terminal} {dumpStack : List Entry → Except LuaError Unit} {size n : Nat}
    {m m' : Locals → Except LuaError Locals}
  {ps ps' : List Ref → List Print} {process : Value → Locals → Except LuaError Locals}
    {prints : Value → List Ref → List Print}

theorem Performing.bind (hm : Performing T dumpStack size n m ps) (hm' : Performing T dumpStack size n m' ps') :
    Performing T dumpStack size n (fun s => m s >>= m') fun seen => ps seen ++ ps' (after seen (ps seen)) := by
  intro s hs
  have hfirst := hm s hs
  dsimp only
  rw [perform_append, ← hfirst]
  cases h : m s with
  | error e => rfl
  | ok s₁ =>
    have hseen : s₁.seen = after s.seen (ps s.seen) := perform_after (hfirst.symm.trans h)
    have hsub : s.seen ⊆ s₁.seen := fun r hr => hseen ▸ mem_after.2 (.inl hr)
    rw [← hseen]
    exact hm' s₁ ((unseen_mono hsub).trans_lt hs)

/-- A block. -/
theorem Performing.block (hm : Performing T dumpStack size n m ps) :
    Performing T dumpStack size n (fun s => m s.indent >>= fun s => .ok s.unindent) fun seen =>
    .indent :: (ps seen ++ [.unindent]) := by
  intro s hs
  have hinner := hm s.indent hs
  dsimp only
  rw [perform_indent, perform_append, hinner]
  rfl

variable (T dumpStack size n) in
theorem performing_write (text : Bytes) :
    Performing T dumpStack size n (write T dumpStack text) fun _ => [.write text] := fun s _ =>
  (perform_end text s).symm

theorem performing_printKey {k : Value} (hk : Performing T dumpStack size n (process k) (prints k)) :
    Performing T dumpStack size n (printKey T dumpStack process k) (printsKey T prints k) := by
  unfold printKey printsKey
  cases nameOf k with
  | some name => exact performing_write T dumpStack size n _
  | none => exact (performing_write T dumpStack size n _).bind (hk.bind (performing_write T dumpStack size n _))

theorem performing_printValue {v : Value} (hv : Performing T dumpStack size n (process v) (prints v)) :
    Performing T dumpStack size n (printValue process v) (printsValue prints v) := by
  cases v with
  | tab r => exact hv
  | _ => exact hv.block

theorem performing_printField {fields : List (Value × Value)} {k : Value}
    (hk : Performing T dumpStack size n (process k) (prints k))
    (hv : Performing T dumpStack size n (process (rawget fields k)) (prints (rawget fields k))) (total i : Nat) :
    Performing T dumpStack size n (printField T dumpStack process fields total i k)
    (printsField T prints fields total i k) := by
  have hentry : Performing T dumpStack size n (printEntry T dumpStack process fields i k)
      (printsEntry T prints fields i k) := by
    unfold printEntry printsEntry
    dsimp only
    by_cases h : k = .num (.int i)
    · simp only [if_pos h]
      exact hv
    · simp only [if_neg h]
      exact (performing_printKey hk).bind (performing_printValue hv)
  intro s hs
  have hall := (hentry.bind (performing_write T dumpStack size n (if i < total then comma T else [32]))).block s hs
  refine Eq.trans ?_ hall
  dsimp only
  unfold printField
  cases printEntry T dumpStack process fields i k s.indent <;> rfl

theorem performing_printFields {fields : List (Value × Value)} (total : Nat) : ∀ (keylist : List Value) (i : Nat),
    (∀ k ∈ keylist, Performing T dumpStack size n (process k) (prints k) ∧
      Performing T dumpStack size n (process (rawget fields k)) (prints (rawget fields k))) →
    Performing T dumpStack size n (printFields T dumpStack process fields total i keylist)
    (printsFields T prints fields total i keylist)
  | [], _, _ => fun _ _ => rfl
  | k :: keylist, i, h => by
    obtain ⟨hk, hv⟩ := h k List.mem_cons_self
    have ih := performing_printFields total keylist (i + 1) fun k' hk' => h k' (List.mem_cons_of_mem k hk')
    exact (performing_printField hk hv total i).bind ih

end

/-- **`process` prints the sequence of the value**, if the keys of all tables can be sorted. -/
theorem process_prints {T : Terminal} {dumpStack : List Entry → Except LuaError Unit} {g : Graph} :
    ∀ (n : Nat) {v : Value}, v.Below g.size → (∀ r, Reached g.heap v r → Sortable ((g.heap r).map Prod.fst)) →
    Performing T dumpStack g.size n (process T g.heap dumpStack n v) (prints T g.heap n v)
  | 0, _, _, _ => fun _ h => absurd h (Nat.not_lt_zero _)
  | n + 1, v, hv, hsort => by
    cases v with
    | tab r =>
      intro s hs
      unfold process prints
      dsimp only
      by_cases hr : r ∈ s.seen
      · rw [if_pos hr, if_pos hr]
        exact (perform_end _ s).symm
      · rw [if_neg hr, if_neg hr, perform_enter, perform_write, sort_eq (hsort r ⟨r, rfl, .refl⟩)]
        cases hwrite : write T dumpStack (obrace T) { s with seen := r :: s.seen } with
        | error e => rfl
        | ok s₁ =>
          have hseen : s₁.seen = r :: s.seen := write_seen hwrite
          have hless := unseen_cons hv hr
          have hfields : Performing T dumpStack g.size n
              (printFields T dumpStack (process T g.heap dumpStack n) (g.heap r)
                (sorted ((g.heap r).map Prod.fst)).length 1
                (sorted ((g.heap r).map Prod.fst)))
              (printsFields T (prints T g.heap n) (g.heap r) (sorted ((g.heap r).map Prod.fst)).length 1
                (sorted ((g.heap r).map Prod.fst))) := by
            refine performing_printFields _ _ 1 fun k hk => ?_
            have hk : k ∈ (g.heap r).map Prod.fst := (List.mem_insertionSort _).1 hk
            obtain ⟨hbelow, hbelow'⟩ := g.closed hv _ (mem_of_rawget hk)
            exact ⟨process_prints n hbelow fun r' hr' => hsort r' (Reached.field hk (.inl hr')),
              process_prints n hbelow' fun r' hr' => hsort r' (Reached.field hk (.inr hr'))⟩
          have hbody := hfields.bind (performing_write T dumpStack g.size n (cbrace T)) s₁ (by rw [hseen]; omega)
          rw [hseen] at hbody
          exact hbody
    | nil => exact fun s _ => (perform_end _ s).symm
    | bool b => exact fun s _ => (perform_end _ s).symm
    | num n => exact fun s _ => (perform_end _ s).symm
    | str t => exact fun s _ => (perform_end _ s).symm

/-! ## Line breaks -/

/-- The texts of a sequence have no line breaks. -/
def Unbroken (ps : List Print) : Prop := ∀ text, .write text ∈ ps → LF ∉ text

theorem Unbroken.append {ps ps' : List Print} (h : Unbroken ps) (h' : Unbroken ps') : Unbroken (ps ++ ps') :=
  fun text ht =>
  (List.mem_append.1 ht).elim (h text) (h' text)

theorem Unbroken.write {ps : List Print} {text : Bytes} (ht : LF ∉ text) (h : Unbroken ps) :
    Unbroken (.write text :: ps) := by
  intro text' ht'
  rcases List.mem_cons.1 ht' with heq | ht'
  · cases heq
    exact ht
  · exact h text' ht'

theorem Unbroken.quiet {ps : List Print} {p : Print} (hp : ∀ text, p ≠ .write text) (h : Unbroken ps) :
    Unbroken (p :: ps) :=
  fun text ht => (List.mem_cons.1 ht).elim (fun heq => absurd heq.symm (hp text)) (h text)

theorem unbroken_nil : Unbroken [] := fun _ h => (List.not_mem_nil h).elim

theorem decNat_plain (n : Nat) : ∀ c ∈ decNat n, c ≠ LF ∧ c ≠ 27 := by
  intro c hc
  obtain ⟨d, hd, rfl⟩ := List.mem_map.1 hc
  obtain ⟨hdigit, -, -, -, -, -, -, hline⟩ := digitByte_spec d (decDigits_lt hd)
  refine ⟨hline, fun h => ?_⟩
  rw [h] at hdigit
  cases hdigit

theorem dec_plain (n : Int) : ∀ c ∈ dec n, c ≠ LF ∧ c ≠ 27 := by
  unfold dec
  split
  · exact List.forall_mem_cons.2 ⟨by decide, decNat_plain _⟩
  · exact decNat_plain _

section

variable {T : Terminal} {prints : Value → List Ref → List Print}

theorem unbroken_tostring : ∀ {v : Value}, v.isStr = false → LF ∉ tostring T v
  | .nil, _ => show LF ∉ [110, 105, 108] by decide
  | .bool true, _ => show LF ∉ word true by decide
  | .bool false, _ => show LF ∉ word false by decide
  | .num (.int n), _ => fun h => (dec_plain n _ h).1 rfl
  | .num (.flt b), _ => T.float_unbroken b
  | .tab r, _ => fun h => (List.mem_append.1 h).elim (by decide) (T.address_unbroken r)

theorem unbroken_printsFields (hp : ∀ v seen, Unbroken (prints v seen)) (fields : List (Value × Value)) (total : Nat) :
    ∀ (keylist : List Value) (i : Nat) (seen : List Ref), Unbroken (printsFields T prints fields total i keylist seen)
  | [], _, _ => unbroken_nil
  | k :: keylist, i, seen => by
    have hequals : LF ∉ equals T := unbroken_colorize T.theme .sep (by decide) none
    have hjoin : ∀ {s : Bytes}, LF ∉ s → LF ∉ s ++ equals T := fun hs h => (List.mem_append.1 h).elim hs hequals
    have hkey : Unbroken (printsKey T prints k seen) := by
      unfold printsKey
      cases hname : nameOf k with
      | some name =>
        have hidentifier : LF ∉ name := by
          unfold nameOf at hname
          split at hname
          · split at hname
            · cases hname
              exact unbroken_identifier ‹_›
            · cases hname
          · cases hname
        exact .write (hjoin (unbroken_colorize T.theme .property hidentifier none)) unbroken_nil
      | none =>
        have hclose : LF ∉ cbracket T ++ equals T := hjoin (unbroken_colorize T.theme .property (by decide) none)
        exact .write (unbroken_colorize T.theme .property (by decide) none)
          ((hp k seen).append (.write hclose unbroken_nil))
    have hblock : ∀ {ps : List Print}, Unbroken ps → Unbroken (.indent :: (ps ++ [.unindent])) := fun h =>
      .quiet (by simp) (h.append (.quiet (by simp) unbroken_nil))
    have hvalue : ∀ v seen, Unbroken (printsValue prints v seen) := fun v seen => by
      cases v with
      | tab r => exact hp _ _
      | _ => exact hblock (hp _ _)
    have hentry : Unbroken (printsEntry T prints fields i k seen) := by
      unfold printsEntry
      split
      · exact hp _ _
      · exact hkey.append (hvalue _ _)
    have hsep : LF ∉ (if i < total then comma T else [32]) := by
      split
      · exact unbroken_colorize T.theme .sep (by decide) none
      · decide
    exact (hblock (hentry.append (.write hsep unbroken_nil))).append
      (unbroken_printsFields hp fields total keylist (i + 1) _)

end

/-- **The texts of a value** have no line breaks. -/
theorem unbroken_prints (T : Terminal) (heap : Heap) :
    ∀ (n : Nat) (v : Value) (seen : List Ref), Unbroken (prints T heap n v seen)
  | 0, _, _ => unbroken_nil
  | n + 1, v, seen => by
    have hscalar : ∀ {c : Color} {v : Value}, v.isStr = false →
      Unbroken [.write (colorize T.theme c (tostring T v) none)] := fun hv =>
      .write (unbroken_colorize T.theme _ (unbroken_tostring hv) none) unbroken_nil
    cases v with
    | str s => exact .write (unbroken_quoted T.theme s) unbroken_nil
    | tab r =>
      unfold prints
      dsimp only
      split
      · exact hscalar rfl
      · have hfields := unbroken_printsFields (T := T) (unbroken_prints T heap n) (heap r)
          (sorted ((heap r).map Prod.fst)).length
          (sorted ((heap r).map Prod.fst)) 1 (r :: seen)
        have hclose : Unbroken [.write (cbrace T)] :=
          .write (unbroken_colorize T.theme .braces (by decide) none) unbroken_nil
        exact .quiet (by simp) (.write (unbroken_colorize T.theme .braces (by decide) none) (hfields.append hclose))
    | nil => exact hscalar rfl
    | bool b => exact hscalar rfl
    | num n => exact hscalar rfl

end XCore.Repl
