import XCore.Repl.Prints

/-!
# What `dump` prints of a stack

The stack that `write` calls `dump` for is a list of tables with the keys `index` and `opened`. `process` prints it in a
fixed sequence (`process_stack`), and what this does to the lines depends on the digits of the indices only
(`acts_stack`).
-/

namespace XCore.Repl

open XCore.Lua
open XCore.Blocks

/-! ## The sequence of a stack -/

section

variable (T : Terminal)

/-- A key with a name, and its value. -/
def fieldPrints (name : Bytes) (value sep : Bytes) : List Print :=
  [.indent, .write (colorize T.theme .property name none ++ equals T), .indent, .write value, .unindent,
    .write sep, .unindent]

/-- An entry. -/
def entryPrints (r : Ref) (e : Entry) : List Print :=
  .enter r :: .write (obrace T) :: (fieldPrints T [105, 110, 100, 101, 120]
    (colorize T.theme .number (dec e.index) none) (comma T) ++
    (fieldPrints T [111, 112, 101, 110, 101, 100] (colorize T.theme .boolean (word e.opened) none) [32] ++
      [.write (cbrace T)]))

/-- The entries from the `i`th on. -/
def elementsPrints (total : Nat) : Nat → List Entry → List Print
  | _, [] => []
  | i, e :: stack => .indent :: (entryPrints T i e ++ (.write (if i < total then comma T else [32]) :: .unindent ::
      elementsPrints total (i + 1) stack))

/-- A stack. -/
def stackPrints (stack : List Entry) : List Print :=
  .enter 0 :: .write (obrace T) :: (elementsPrints T stack.length 1 stack ++ [.write (cbrace T)])

end

section

variable {T : Terminal} {dumpStack : List Entry → Except LuaError Unit}

/-- A key with a name, and a value that is no table. -/
theorem printField_eq {process : Value → Locals → Except LuaError Locals} {fields : List (Value × Value)}
    {total i : Nat}
    {name text : Bytes} (hname : isIdentifier name = true) (htab : ∀ r, rawget fields (.str name) ≠ .tab r)
    (hvalue : ∀ s, process (rawget fields (.str name)) s = write T dumpStack text s) (s : Locals) :
    printField T dumpStack process fields total i (.str name) s =
      perform T dumpStack (fieldPrints T name text (if i < total then comma T else [32])) s := by
  have hkey : nameOf (.str name) = some name := if_pos hname
  have hblock : ∀ s, printValue process (rawget fields (.str name)) s =
      write T dumpStack text s.indent >>= fun s => .ok s.unindent := by
    intro s
    rw [← hvalue]
    cases hv : rawget fields (.str name) with
    | tab r => exact absurd hv (htab r)
    | _ => rfl
  unfold printField printEntry
  dsimp only
  rw [if_neg (by simp), printKey, hkey]
  simp only [hblock, perform, Print.perform, fieldPrints, bind_assoc]
  rfl

/-- The keys of an entry are sorted. -/
theorem sort_entry (e : Entry) : sort ((entryFields e).map Prod.fst) = .ok [indexKey, openedKey] := by
  have hsortable : Sortable [indexKey, openedKey] := .inr (.inr rfl)
  have hsorted : [indexKey, openedKey].Pairwise fun a b => lessThan b a = false := by
    refine List.pairwise_pair.2 ?_
    decide
  exact (if_pos hsortable).trans (congrArg Except.ok hsorted.insertionSort_eq)

/-- The keys of a list are sorted. -/
theorem sort_elements (i count : Nat) :
    sort ((elements i count).map Prod.fst) = .ok ((elements i count).map Prod.fst) := by
  have hnum : ((elements i count).map Prod.fst).all Value.isNum = true := by
    rw [List.all_eq_true]
    intro k hk
    obtain ⟨kv, hkv, rfl⟩ := List.mem_map.1 hk
    obtain ⟨j, -, -, rfl⟩ := mem_elements hkv
    rfl
  have hsorted : ((elements i count).map Prod.fst).Pairwise fun a b => lessThan b a = false := by
    unfold elements
    rw [List.map_map, List.pairwise_map]
    refine (List.pairwise_lt_range' (s := i) (n := count)).imp fun {a b} hlt => ?_
    refine decide_eq_false fun h : (b : Int) < a => ?_
    omega
  exact (if_pos (show Sortable _ from .inr (.inl hnum))).trans (congrArg Except.ok hsorted.insertionSort_eq)

/-- The element with some index. -/
theorem rawget_elements : ∀ (count : Nat) {i j : Nat}, i ≤ j → j < i + count →
    rawget (elements i count) (.num (.int j)) = .tab j
  | 0, _, _, h, h' => absurd h (Nat.not_le_of_lt h')
  | count + 1, i, j, h, h' => by
    have hcons : elements i (count + 1) = (.num (.int i), .tab i) :: elements (i + 1) count := by
      unfold elements
      rw [List.range'_succ]
      rfl
    rw [hcons, rawget]
    by_cases heq : i = j
    · rw [heq, if_pos rfl]
    · rw [if_neg (by simpa using heq), rawget_elements count (by omega) (by omega)]

section

variable {stack : List Entry}

/-- An entry is printed, if it has not been. -/
theorem process_entry (n : Nat) {j : Nat} {e : Entry} (he : stack[j]? = some e) {s : Locals} (hs : j + 1 ∉ s.seen) :
    process T (stackHeap stack) dumpStack (n + 2) (.tab (j + 1)) s =
        perform T dumpStack (entryPrints T (j + 1) e) s := by
  have hheap : stackHeap stack (j + 1) = entryFields e := by
    rw [stackHeap, he]
  have hindex : ∀ s, printField T dumpStack (process T (stackHeap stack) dumpStack (n + 1))
      (entryFields e) 2 1 indexKey s =
      perform T dumpStack (fieldPrints T _ (colorize T.theme .number (dec e.index) none) (comma T)) s :=
    printField_eq (by decide) (fun _ h => by cases h) fun _ => rfl
  have hopened : ∀ s, printField T dumpStack (process T (stackHeap stack) dumpStack (n + 1))
      (entryFields e) 2 2 openedKey s =
      perform T dumpStack (fieldPrints T _ (colorize T.theme .boolean (word e.opened) none) [32]) s :=
    printField_eq (by decide) (fun _ h => by cases h) fun _ => rfl
  rw [process, if_neg hs, hheap, sort_entry, entryPrints, perform_enter, perform_write]
  refine bind_congr fun s => ?_
  have hfields : ∀ s, printFields T dumpStack (process T (stackHeap stack) dumpStack (n + 1))
      (entryFields e) 2 1 [indexKey, openedKey] s =
      printField T dumpStack (process T (stackHeap stack) dumpStack (n + 1)) (entryFields e) 2 1 indexKey s >>= fun s =>
        printField T dumpStack (process T (stackHeap stack) dumpStack (n + 1)) (entryFields e) 2 2 openedKey s :=
          fun s =>
    bind_congr fun s => bind_pure _
  change (printFields T dumpStack _ (entryFields e) 2 1 [indexKey, openedKey] s >>= write T dumpStack (cbrace T)) = _
  rw [hfields, hindex, perform_append, bind_assoc]
  refine bind_congr fun s => ?_
  rw [hopened, perform_append]
  exact bind_congr fun s => (perform_end _ s).symm

/-- An entry in the list. -/
theorem printField_element (n : Nat) {j total : Nat} {e : Entry} (he : stack[j]? = some e) {s : Locals}
    (hs : j + 1 ∉ s.seen) :
    printField T dumpStack (process T (stackHeap stack) dumpStack (n + 2)) (elements 1 stack.length) total (j + 1)
        (.num (.int (j + 1 : Nat))) s =
      perform T dumpStack
      (.indent :: (entryPrints T (j + 1) e ++ [.write (if j + 1 < total then comma T else [32]), .unindent])) s := by
  have hlt : j < stack.length := (List.getElem?_eq_some_iff.1 he).1
  have hget : rawget (elements 1 stack.length) (.num (.int (j + 1 : Nat))) = .tab (j + 1) :=
    rawget_elements stack.length (by omega) (by omega)
  have hentry : ∀ s, printEntry T dumpStack (process T (stackHeap stack) dumpStack (n + 2))
      (elements 1 stack.length) (j + 1)
      (.num (.int (j + 1 : Nat))) s = process T (stackHeap stack) dumpStack (n + 2) (.tab (j + 1)) s := by
    intro s
    unfold printEntry
    dsimp only
    rw [if_pos rfl, hget]
  unfold printField
  rw [hentry, process_entry n he (s := s.indent) hs, perform_indent, perform_append]
  refine bind_congr fun s => ?_
  rw [perform_write]
  rfl

/-- The entries of the list. -/
theorem printFields_elements (n : Nat) :
    ∀ (rest : List Entry) {j : Nat} {s : Locals}, stack.drop j = rest → (∀ r ∈ s.seen, r ≤ j) →
    printFields T dumpStack (process T (stackHeap stack) dumpStack (n + 2))
    (elements 1 stack.length) stack.length (j + 1)
        ((elements (j + 1) rest.length).map Prod.fst) s =
      perform T dumpStack (elementsPrints T stack.length (j + 1) rest) s
  | [], _, _, _, _ => rfl
  | e :: rest, j, s, hrest, hs => by
    have he : stack[j]? = some e := by
      rw [← Nat.add_zero j, ← List.getElem?_drop, hrest]
      rfl
    have hrest' : stack.drop (j + 1) = rest := by
      rw [← List.drop_drop, hrest]
      rfl
    have hnew : j + 1 ∉ s.seen := fun h => absurd (hs _ h) (Nat.not_succ_le_self j)
    have hkeys : (elements (j + 1) (e :: rest).length).map Prod.fst =
        .num (.int (j + 1 : Nat)) :: (elements (j + 1 + 1) rest.length).map Prod.fst := by
      unfold elements
      rw [List.length_cons, List.range'_succ]
      rfl
    have hsplit : elementsPrints T stack.length (j + 1) (e :: rest) =
        (.indent :: (entryPrints T (j + 1) e ++
          [.write (if j + 1 < stack.length then comma T else [32]), .unindent])) ++
          elementsPrints T stack.length (j + 1 + 1) rest := by
      rw [elementsPrints, List.cons_append, List.append_assoc]
      rfl
    rw [hkeys, printFields, printField_element n he hnew, hsplit, perform_append]
    cases hentry : perform T dumpStack (.indent :: (entryPrints T (j + 1) e ++
        [.write (if j + 1 < stack.length then comma T else [32]), .unindent])) s with
    | error err => rfl
    | ok s' =>
      refine printFields_elements n rest hrest' fun r hr => ?_
      rw [perform_after hentry, mem_after] at hr
      rcases hr with hr | hr
      · exact Nat.le_succ_of_le (hs r hr)
      · simp [entryPrints, fieldPrints] at hr
        exact Nat.le_of_eq hr

/-- **`process` prints a stack in a fixed sequence.** -/
theorem process_stack {s : Locals} (hs : s.seen = []) :
    process T (stackHeap stack) dumpStack (stack.length + 2) (.tab 0) s =
        perform T dumpStack (stackPrints T stack) s := by
  have hnew : 0 ∉ s.seen := by
    rw [hs]
    exact List.not_mem_nil
  have hsort : sort ((stackHeap stack 0).map Prod.fst) = .ok ((elements (0 + 1) stack.length).map Prod.fst) :=
    sort_elements 1 stack.length
  have hlen : ((elements (0 + 1) stack.length).map Prod.fst).length = stack.length := by
    unfold elements
    rw [List.length_map, List.length_map, List.length_range']
  rw [process, if_neg hnew, hsort]
  change _ = write T dumpStack (obrace T) { s with seen := 0 :: s.seen } >>= perform T dumpStack (_ ++ [_])
  cases hbrace : write T dumpStack (obrace T) { s with seen := 0 :: s.seen } with
  | error err => rfl
  | ok s' =>
    have hseen : s'.seen = [0] := by
      rw [write_seen hbrace, hs]
    have hbelow : ∀ r ∈ s'.seen, r ≤ 0 := fun r hr => by
      rw [hseen] at hr
      exact Nat.le_of_eq (List.mem_singleton.1 hr)
    have hfields : printFields T dumpStack (process T (stackHeap stack) dumpStack (stack.length + 1))
        (elements 1 stack.length)
        stack.length (0 + 1) ((elements (0 + 1) stack.length).map Prod.fst) s' =
        perform T dumpStack (elementsPrints T stack.length (0 + 1) stack) s' := by
      cases stack with
      | nil => rfl
      | cons e rest => exact printFields_elements rest.length (e :: rest) rfl hbelow
    change (printFields T dumpStack _ (elements 1 stack.length) ((elements (0 + 1) stack.length).map Prod.fst).length
      (0 + 1) _ s' >>=
      write T dumpStack (cbrace T)) = perform T dumpStack (_ ++ [_]) s'
    rw [hlen, hfields, perform_append]
    exact bind_congr fun s => (perform_end _ s).symm

end

end

/-! ## What a stack does to the lines -/

/-- The columns of an index. -/
def Entry.digits (e : Entry) : Nat := (dec e.index).length

/-- A key with a name, and its value. -/
def fieldActs (name value sep : Nat) : List Act := [.push, .put name, .push, .put value, .pop, .put sep, .pop]

/-- An entry that is open, for the digits of its index. -/
def entryActs (n : Nat) : List Act := .put 2 :: (fieldActs 8 n 2 ++ (fieldActs 9 4 1 ++ [.put 1]))

/-- Entries. -/
def elementsActs : List Nat → List Act
  | [] => []
  | n :: ns => .push :: (entryActs n ++ (.put (if ns.isEmpty then 1 else 2) :: .pop :: elementsActs ns))

/-- A stack. -/
def stackActs (ns : List Nat) : List Act := .put 2 :: (elementsActs ns ++ [.put 1])

theorem digits_pos (e : Entry) : 0 < e.digits := by
  have hdec : dec e.index = (decDigits e.index).map digitByte := if_neg (Int.not_lt.2 (Int.natCast_nonneg _))
  unfold Entry.digits
  rw [hdec, List.length_map]
  exact List.length_pos_of_ne_nil (decDigits_ne_nil _)

/-- Indices below 100 have two digits at most. -/
theorem digits_le {e : Entry} (he : e.index < 100) : e.digits ≤ 2 := by
  have hdec : dec e.index = (decDigits e.index).map digitByte := if_neg (Int.not_lt.2 (Int.natCast_nonneg _))
  unfold Entry.digits
  rw [hdec, List.length_map]
  unfold decDigits
  split
  · decide
  · rw [List.length_reverse]
    exact (Nat.digits_length_le_iff (by decide) _).2 he

section

variable (T : Terminal)

theorem length_strip_colorize (theme : Option Theme) (c : Color) {s : Bytes} (hs : 27 ∉ s) (reset : Option Color) :
    (strip (colorize theme c s reset)).length = s.length := by
  have h := strip_colorize theme c hs reset []
  rw [List.append_nil] at h
  rw [h, List.length_append]
  rfl

theorem acts_field (name : Bytes) (hname : 27 ∉ name) (value sep : Bytes) :
    actsOf (fieldPrints T name value sep) = fieldActs (name.length + 3) (strip value).length (strip sep).length := by
  have hkey : (strip (colorize T.theme .property name none ++ equals T)).length = name.length + 3 := by
    rw [strip_colorize _ _ hname, List.length_append]
    exact congrArg (name.length + ·) (length_strip_colorize T.theme .sep (by decide) none)
  change [Act.push, .put (strip (colorize T.theme .property name none ++ equals T)).length, .push, .put _, .pop,
    .put _, .pop] = _
  rw [hkey]
  rfl

theorem acts_entry (r : Ref) {e : Entry} (he : e.opened = true) : actsOf (entryPrints T r e) = entryActs e.digits := by
  have hobrace : (strip (obrace T)).length = 2 := length_strip_colorize T.theme .braces (by decide) none
  have hcbrace : (strip (cbrace T)).length = 1 := length_strip_colorize T.theme .braces (by decide) none
  have hcomma : (strip (comma T)).length = 2 := length_strip_colorize T.theme .sep (by decide) none
  have hindex : (strip (colorize T.theme .number (dec e.index) none)).length = e.digits :=
    length_strip_colorize T.theme .number (fun h => (dec_plain e.index _ h).2 rfl) none
  have hopened : (strip (colorize T.theme .boolean (word e.opened) none)).length = 4 := by
    rw [he]
    exact length_strip_colorize T.theme .boolean (by decide) none
  have hfields := acts_field T [105, 110, 100, 101, 120] (by decide)
    (colorize T.theme .number (dec e.index) none) (comma T)
  have hfields' := acts_field T [111, 112, 101, 110, 101, 100] (by decide)
    (colorize T.theme .boolean (word e.opened) none) [32]
  rw [hindex, hcomma] at hfields
  rw [hopened] at hfields'
  unfold actsOf at hfields hfields' ⊢
  rw [entryPrints, List.flatMap_cons, List.flatMap_cons, List.flatMap_append, List.flatMap_append, hfields, hfields']
  change [Act.put (strip (obrace T)).length] ++ (_ ++ (_ ++ [Act.put (strip (cbrace T)).length])) = _
  rw [hobrace, hcbrace]
  rfl

theorem acts_elements (total : Nat) : ∀ {stack : List Entry} {i : Nat}, i + stack.length = total + 1 → AllOpened stack →
    actsOf (elementsPrints T total i stack) = elementsActs (stack.map Entry.digits)
  | [], _, _, _ => rfl
  | e :: stack, i, hi, hopen => by
    have hentry := acts_entry T i (hopen e List.mem_cons_self)
    have hi' : i + 1 + stack.length = total + 1 := by
      rw [List.length_cons] at hi
      omega
    have hrest := acts_elements total hi' fun e' he' => hopen e' (List.mem_cons_of_mem e he')
    have hsep : (strip (if i < total then comma T else [32])).length =
        if (stack.map Entry.digits).isEmpty then 1 else 2 := by
      cases stack with
      | nil =>
        rw [if_neg (by simp at hi; omega)]
        rfl
      | cons e' stack =>
        rw [if_pos (by simp at hi; omega)]
        exact length_strip_colorize T.theme .sep (by decide) none
    unfold actsOf at hentry hrest ⊢
    rw [elementsPrints, List.flatMap_cons, List.flatMap_append, hentry, List.flatMap_cons, List.flatMap_cons, hrest]
    change [Act.push] ++ (_ ++ ([Act.put (strip _).length] ++ ([Act.pop] ++ _))) = _
    rw [hsep]
    rfl

/-- **What a stack does to the lines** depends on the digits of the indices. -/
theorem acts_stack {stack : List Entry} (hopen : AllOpened stack) :
    actsOf (stackPrints T stack) = stackActs (stack.map Entry.digits) := by
  have hobrace : (strip (obrace T)).length = 2 := length_strip_colorize T.theme .braces (by decide) none
  have hcbrace : (strip (cbrace T)).length = 1 := length_strip_colorize T.theme .braces (by decide) none
  have hrest := acts_elements T stack.length (i := 1) (Nat.add_comm ..) hopen
  unfold actsOf at hrest ⊢
  rw [stackPrints, List.flatMap_cons, List.flatMap_cons, List.flatMap_append, hrest]
  change [] ++ ([Act.put (strip (obrace T)).length] ++ (_ ++ [Act.put (strip (cbrace T)).length])) = _
  rw [hobrace, hcbrace]
  rfl

/-! ## Line breaks -/

theorem unbroken_field {name value sep : Bytes} (hname : LF ∉ name) (hvalue : LF ∉ value) (hsep : LF ∉ sep) :
    Unbroken (fieldPrints T name value sep) := by
  have hkey : LF ∉ colorize T.theme .property name none ++ equals T := fun h => (List.mem_append.1 h).elim
    (unbroken_colorize T.theme .property hname none) (unbroken_colorize T.theme .sep (by decide) none)
  have hend : Unbroken [.unindent, .write sep, .unindent] :=
    .quiet (by simp) (.write hsep (.quiet (by simp) unbroken_nil))
  exact .quiet (by simp) (.write hkey (.quiet (by simp) (.write hvalue hend)))

theorem unbroken_entry (r : Ref) (e : Entry) : Unbroken (entryPrints T r e) := by
  have hword : LF ∉ word e.opened := by
    cases e.opened <;> decide
  have hindex := unbroken_colorize T.theme .number (fun h => (dec_plain e.index _ h).1 rfl) none
  have hopened := unbroken_colorize T.theme .boolean hword none
  have hcomma := unbroken_colorize T.theme .sep (show LF ∉ [44, 32] by decide) none
  have hobrace := unbroken_colorize T.theme .braces (show LF ∉ [123, 32] by decide) none
  have hcbrace := unbroken_colorize T.theme .braces (show LF ∉ [125] by decide) none
  have hfirst : Unbroken (fieldPrints T [105, 110, 100, 101, 120] _ _) := unbroken_field T (by decide) hindex hcomma
  have hsecond : Unbroken (fieldPrints T [111, 112, 101, 110, 101, 100] _ [32]) :=
    unbroken_field T (by decide) hopened (by decide)
  exact .quiet (by simp) (.write hobrace (hfirst.append (hsecond.append (.write hcbrace unbroken_nil))))

theorem unbroken_elements (total : Nat) : ∀ (stack : List Entry) (i : Nat), Unbroken (elementsPrints T total i stack)
  | [], _ => unbroken_nil
  | e :: stack, i => by
    have hsep : LF ∉ (if i < total then comma T else [32]) := by
      split
      · exact unbroken_colorize T.theme .sep (by decide) none
      · decide
    have hrest := unbroken_elements total stack (i + 1)
    exact .quiet (by simp) ((unbroken_entry T i e).append (.write hsep (.quiet (by simp) hrest)))

/-- A stack is printed without line breaks in its texts. -/
theorem unbroken_stack (stack : List Entry) : Unbroken (stackPrints T stack) := by
  have hobrace := unbroken_colorize T.theme .braces (show LF ∉ [123, 32] by decide) none
  have hcbrace := unbroken_colorize T.theme .braces (show LF ∉ [125] by decide) none
  exact .quiet (by simp)
    (.write hobrace ((unbroken_elements T stack.length stack 1).append (.write hcbrace unbroken_nil)))

end

end XCore.Repl
