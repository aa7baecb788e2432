import XCore.Repl.Stack

/-!
# The widths that `dump` returns for

Where a text does not fit with all blocks open, `dump` is called for the stack, and may call itself for a stack again.

- In a wide terminal this ends (`ends_wide`): the stacks of a stack have three blocks at most; those of such a stack
  begin before the hundredth text; in what is printed of these only the outermost blocks overflow; and the outermost
  block of such a stack is the first.
- In a narrow one it does not (`never`): a stack with a block has a text again that does not fit in a block.
-/

namespace XCore.Repl

open XCore.Lua
open XCore.Blocks

/-! ## The calls for a stack -/

/-- What `dump` begins with. -/
def start : Locals := ⟨[], [], 0, []⟩

theorem laid_start : Laid start :=
  ⟨fun _ h => (List.not_mem_nil h).elim, fun _ h => (List.not_mem_nil h).elim, List.Pairwise.nil⟩

/-- In a stack with one block, the outermost block is the first one. -/
theorem exists_performs_one (T : Terminal) (hwidth : 2 ≤ T.width) {e : Entry} (he : e.opened = true) :
    ∃ calls s', Performs T (stackPrints T [e]) start calls s' ∧ ∀ c ∈ calls, ∀ i ∈ c.head?.map Entry.index, i = 1 := by
  have hobrace : (strip (obrace T)).length = 2 := length_strip_colorize T.theme .braces (by decide) none
  have hs₁ : Laid { start with seen := [0] } := ⟨laid_start.good, laid_start.unbroken, laid_start.nested⟩
  have hs₂ : Laid ((Locals.mk [0] [] 0 []).append (obrace T)) :=
    laid_append hs₁ (unbroken_colorize T.theme .braces (by decide) none)
  have htail : Unbroken (entryPrints T 1 e ++ [.write [32], .unindent, .write (cbrace T)]) := fun text ht =>
    unbroken_stack T [e] text (List.mem_cons_of_mem _ (List.mem_cons_of_mem _ (List.mem_cons_of_mem _ ht)))
  obtain ⟨calls, s', h⟩ := exists_performs T _ (laid_indent (T := T) hs₂).1 htail
  have hoffset : ¬T.width < ((Locals.mk [0] [] 0 []).append (obrace T)).offset := by
    change ¬T.width < 0 + (strip (obrace T)).length
    omega
  have hline : lineOf ((Locals.mk [0] [] 0 []).append (obrace T)) = (lineOf (Locals.mk [0] [] 0 [])).put T.width
      (strip (obrace T)).length :=
    rfl
  have h₁ := (h.indent hs₂).write hs₂ hline rfl rfl (fun hwide => absurd hwide hoffset) fun _ => rfl
  rw [if_neg hoffset] at h₁
  refine ⟨calls, s', h₁.enter 0, h.base 1 (fun j hj => ?_) ?_⟩
  · exact (Option.some.inj hj).symm
  · have hacts : actsOf (entryPrints T 1 e ++ [.write [32], .unindent, .write (cbrace T)]) =
        entryActs e.digits ++ [.put 1, .pop, .put (strip (cbrace T)).length] := by
      unfold actsOf
      rw [List.flatMap_append]
      exact congrArg (· ++ _) (acts_entry T 1 he)
    rw [hacts]
    change Inside 1 _
    simp [Inside, entryActs, fieldActs]

/-- **The calls of `dump` for a stack**, whose blocks are all open. -/
theorem exists_calls (T : Terminal) {stack : List Entry} (hopen : AllOpened stack) : ∃ calls : List (List Entry),
    calls.map List.length = overflows T.width ⟨0, []⟩ (stackActs (stack.map Entry.digits)) ∧
    (∀ c ∈ calls, AllOpened c ∧ ∀ e ∈ c, e.index ≤ (stackActs (stack.map Entry.digits)).length) ∧
    (∀ e, stack = [e] → 2 ≤ T.width → ∀ c ∈ calls, ∀ i ∈ c.head?.map Entry.index, i = 1) ∧
    ∀ dumpStack, (∃ s, dumpOnce T dumpStack (stackGraph stack) = .ok s) ↔ ∀ c ∈ calls, dumpStack c = .ok () := by
  obtain ⟨calls, s', h, hone⟩ : ∃ calls s', Performs T (stackPrints T stack) start calls s' ∧
      ∀ e, stack = [e] → 2 ≤ T.width → ∀ c ∈ calls, ∀ i ∈ c.head?.map Entry.index, i = 1 := by
    by_cases hone : (∃ e, stack = [e]) ∧ 2 ≤ T.width
    · obtain ⟨⟨e, rfl⟩, hwidth⟩ := hone
      obtain ⟨calls, s', h, hfirst⟩ := exists_performs_one T hwidth (hopen e List.mem_cons_self)
      exact ⟨calls, s', h, fun _ _ _ => hfirst⟩
    · obtain ⟨calls, s', h⟩ := exists_performs T _ laid_start (unbroken_stack T stack)
      exact ⟨calls, s', h, fun e he hwidth => absurd ⟨⟨e, he⟩, hwidth⟩ hone⟩
  have hacts := acts_stack T hopen
  refine ⟨calls, ?_, fun c hc => ⟨h.opened c hc, fun e he => ?_⟩, hone, fun dumpStack => ?_⟩
  · rw [← hacts]
    exact h.sizes
  · have hindex := h.index c hc e he
    have hweight : weight start = 0 := rfl
    rw [hweight, Nat.zero_add, hacts] at hindex
    exact hindex
  · have hprocess : process T (stackHeap stack) dumpStack (stack.length + 2) (.tab 0) start =
        callAll dumpStack calls >>= fun _ => .ok s' := (process_stack rfl).trans (h.perform dumpStack)
    have honce : dumpOnce T dumpStack (stackGraph stack) = callAll dumpStack calls >>= fun _ =>
      .ok s'.output.flatten := by
      change (process T (stackHeap stack) dumpStack (stack.length + 2) (.tab 0) start >>=
        fun s => .ok s.output.flatten) = _
      rw [hprocess, bind_assoc]
      rfl
    rw [← callAll_ok, honce]
    constructor
    · rintro ⟨s, hs⟩
      obtain ⟨u, hu, -⟩ := bind_eq_ok.1 hs
      exact hu
    · intro hu
      exact ⟨_, bind_eq_ok.2 ⟨(), hu, rfl⟩⟩

/-! ## What overflows -/

/-- The widths for which the calls end. -/
def Wide (width : Nat) : Prop := width ∈ 16 :: List.range' 20 9 ∨ 31 ≤ width

instance (width : Nat) : Decidable (Wide width) := inferInstanceAs (Decidable (_ ∨ _))

/-- The widths for which they do not. -/
def Narrow (width : Nat) : Prop := width ∈ List.range 13 ++ [17, 18, 19]

instance (width : Nat) : Decidable (Narrow width) := inferInstanceAs (Decidable (_ ∈ _))

/-- What overflows in a stack. -/
def stackOverflows (width : Nat) (ns : List Nat) : List Nat := overflows width ⟨0, []⟩ (stackActs ns)

/-- In a stack there are three blocks at most, and in two blocks everything fits in a wide line. -/
theorem roomy_stack {width k : Nat} (hk : 1 ≤ k) : ∀ {ns : List Nat}, (k < 3 → 18 ≤ width ∧ ∀ n ∈ ns, 14 + n ≤ width) →
    Roomy width k [] (elementsActs ns ++ [.put 1])
  | [], _ => by
    simp [elementsActs, Roomy]
  | n :: ns, h => by
    have hrest : Roomy width k [] (elementsActs ns ++ [.put 1]) :=
      roomy_stack hk fun hlt => ⟨(h hlt).1, fun m hm => (h hlt).2 m (List.mem_cons_of_mem n hm)⟩
    have hfit : k < 3 → 18 ≤ width ∧ 14 + n ≤ width := fun hlt => ⟨(h hlt).1, (h hlt).2 n List.mem_cons_self⟩
    have hk : k ≠ 0 := by omega
    simp only [elementsActs, entryActs, fieldActs, List.cons_append, List.nil_append, Roomy]
    simp [hrest, hk]
    omega

theorem stackOverflows_le {width k : Nat} (hk : 1 ≤ k) {ns : List Nat}
    (h : k < 3 → 18 ≤ width ∧ ∀ n ∈ ns, 14 + n ≤ width) :
    ∀ d ∈ stackOverflows width ns, d ≤ k := by
  refine overflows_le (l := ⟨0, []⟩) trivial ⟨fun hlt => ?_, roomy_stack hk h⟩
  exact absurd hlt (Nat.not_lt_zero k)

theorem stackOverflows_nil {width : Nat} (h : 3 ≤ width) : stackOverflows width [] = [] := by
  have hfits : ¬width < 2 := by omega
  have hfits' : ¬width < 3 := by omega
  simp [stackOverflows, stackActs, elementsActs, overflows, Line.overflow, Line.step, Line.put, openFrom, hfits, hfits']

/-- In a stack with the first block only, nothing overflows in a block. -/
theorem stackOverflows_one {width : Nat} (h : Wide width) : ∀ d ∈ stackOverflows width [1], d = 0 := by
  rcases h with h | h
  · have hcheck : (16 :: List.range' 20 9).all (fun width => (stackOverflows width [1]).all (· == 0)) = true := by
      decide +kernel
    exact fun d hd => eq_of_beq (List.all_eq_true.1 (List.all_eq_true.1 hcheck width h) d hd)
  · have hroomy : Roomy width 0 [] (stackActs [1]) := by
      simp [stackActs, elementsActs, entryActs, fieldActs, Roomy]
      omega
    exact fun d hd => Nat.le_zero.1 (overflows_le (l := ⟨0, []⟩) trivial hroomy d hd)

/-- The lists of ones and twos of some length at most. -/
def words : Nat → List (List Nat)
  | 0 => [[]]
  | k + 1 => [] :: ((words k).map (1 :: ·) ++ (words k).map (2 :: ·))

theorem mem_words : ∀ {k : Nat} {ns : List Nat}, ns.length ≤ k → (∀ n ∈ ns, 0 < n ∧ n ≤ 2) → ns ∈ words k
  | 0, [], _, _ => List.mem_cons_self
  | k + 1, [], _, _ => List.mem_cons_self
  | k + 1, n :: ns, hlen, h => by
    have hns : ns ∈ words k := mem_words (Nat.le_of_succ_le_succ hlen) fun m hm => h m (List.mem_cons_of_mem n hm)
    have hn : n = 1 ∨ n = 2 := by
      have := h n List.mem_cons_self
      omega
    refine List.mem_cons_of_mem _ (List.mem_append.2 ?_)
    rcases hn with rfl | rfl
    · exact .inl (List.mem_map_of_mem hns)
    · exact .inr (List.mem_map_of_mem hns)

/-- In a stack with few blocks that begin early, nothing overflows in two blocks. -/
theorem stackOverflows_few {width : Nat} (h : Wide width) {ns : List Nat} (hlen : ns.length ≤ 3)
    (hns : ∀ n ∈ ns, 0 < n ∧ n ≤ 2) :
    ∀ d ∈ stackOverflows width ns, d ≤ 1 := by
  have hcases : width = 16 ∨ 18 ≤ width := by
    rcases h with h | h
    · rcases List.mem_cons.1 h with h | h
      · exact .inl h
      · have := (List.mem_range'_1.1 h).1
        omega
    · omega
  rcases hcases with rfl | hwidth
  · have hcheck : (words 3).all (fun ns => (stackOverflows 16 ns).all (Nat.ble · 1)) = true := by decide +kernel
    intro d hd
    exact Nat.le_of_ble_eq_true (List.all_eq_true.1 (List.all_eq_true.1 hcheck ns (mem_words hlen hns)) d hd)
  · refine stackOverflows_le (Nat.le_refl 1) fun _ => ⟨hwidth, fun n hn => ?_⟩
    have := (hns n hn).2
    omega

/-- An index that is longer than the line overflows. -/
theorem overflows_long {width n : Nat} (h : width < n) (acts : List Act) :
    3 ∈ overflows width ⟨0, []⟩ (.put 2 :: .push :: .put 2 :: .push :: .put 8 :: .push :: .put n :: acts) := by
  have hover : ∀ l : Line, l.overflow width (.put n) = true :=
    fun l => decide_eq_true (Nat.lt_of_lt_of_le h (Nat.le_add_left ..))
  have hsplit : ∀ acts' : List Act, overflows width ⟨0, []⟩ (acts' ++ .put n :: acts) = overflows width ⟨0, []⟩ acts' ++
      ([(Line.run width ⟨0, []⟩ acts').blocks.length] ++
        overflows width ((Line.run width ⟨0, []⟩ acts').step width (.put n)) acts) := by
    intro acts'
    rw [overflows_append, overflows, if_pos (hover _)]
  have hlen : (Line.run width ⟨0, []⟩ [Act.put 2, .push, .put 2, .push, .put 8, .push]).blocks.length = 3 := by
    simp [Line.run, Line.step, Line.put, openFrom_length]
  have hall := hsplit [Act.put 2, .push, .put 2, .push, .put 8, .push]
  rw [hlen] at hall
  change 3 ∈ overflows width ⟨0, []⟩ ([Act.put 2, .push, .put 2, .push, .put 8, .push] ++ .put n :: acts)
  rw [hall]
  exact List.mem_append_right _ (List.mem_append_left _ List.mem_cons_self)

/-- **In a narrow line, something overflows in a block** of every stack that has one. -/
theorem stackOverflows_narrow {width : Nat} (h : Narrow width) {n : Nat} (hn : 0 < n) (ns : List Nat) :
    ∃ d ∈ stackOverflows width (n :: ns), 0 < d := by
  have hsplit : stackActs (n :: ns) = (.put 2 :: .push :: (entryActs n ++ [.put (if ns.isEmpty then 1 else 2)])) ++
      .pop :: (elementsActs ns ++ [.put 1]) := by
    simp [stackActs, elementsActs]
  unfold stackOverflows
  by_cases hlong : width < n
  · exact ⟨3, overflows_long hlong _, by decide⟩
  · have hcheck : (List.range 13 ++ [17, 18, 19]).all
        (fun width => (List.range' 1 width).all fun n => [1, 2].all fun sep =>
          (overflows width ⟨0, []⟩ (.put 2 :: .push :: (entryActs n ++ [Act.put sep]))).any (Nat.ble 1 ·)) = true := by
          decide +kernel
    have hn' : n ∈ List.range' 1 width := List.mem_range'_1.2 (by omega)
    have hsep : (if ns.isEmpty then 1 else 2) ∈ [1, 2] := by
      split <;> decide
    obtain ⟨d, hd, hpos⟩ := List.any_eq_true.1
      (List.all_eq_true.1 (List.all_eq_true.1 (List.all_eq_true.1 hcheck width h) n hn') _ hsep)
    rw [hsplit, overflows_append]
    exact ⟨d, List.mem_append_left _ hd, Nat.le_of_ble_eq_true hpos⟩

/-! ## Wide terminals -/

/-- `dump` returns for a stack, from some depth of calls on. -/
def Ends (T : Terminal) (k : Nat) (stack : List Entry) : Prop := ∀ n, k ≤ n → ∃ s, dump T n (stackGraph stack) = .ok s

/-- What is known of the calls for a stack. -/
structure Called (T : Terminal) (stack c : List Entry) : Prop where
  opened : AllOpened c
  size : c.length ∈ stackOverflows T.width (stack.map Entry.digits)
  index : ∀ e ∈ c, e.index ≤ 2 + 19 * stack.length
  first : ∀ e, stack = [e] → 2 ≤ T.width → ∀ i ∈ c.head?.map Entry.index, i = 1

theorem length_elementsActs : ∀ ns : List Nat, (elementsActs ns).length = 19 * ns.length
  | [] => rfl
  | n :: ns => by
    have ih := length_elementsActs ns
    simp only [elementsActs, entryActs, fieldActs, List.cons_append, List.nil_append, List.length_cons, ih]
    omega

theorem length_stackActs (ns : List Nat) : (stackActs ns).length = 2 + 19 * ns.length := by
  unfold stackActs
  rw [List.length_cons, List.length_append, length_elementsActs, List.length_singleton]
  omega

theorem dumpStack_ok {T : Terminal} {n : Nat} {stack : List Entry} :
    (dump T n (stackGraph stack)).map (fun _ => ()) = .ok () ↔ ∃ s, dump T n (stackGraph stack) = .ok s := by
  cases dump T n (stackGraph stack) with
  | error e => exact ⟨fun h => (by cases h), fun ⟨s, h⟩ => (by cases h)⟩
  | ok s => exact ⟨fun _ => ⟨s, rfl⟩, fun _ => rfl⟩

section

variable {T : Terminal} {k k' : Nat} {stack : List Entry} {e : Entry}

theorem Ends.mono (hle : k ≤ k') (h : Ends T k stack) : Ends T k' stack := fun n hn => h n (Nat.le_trans hle hn)

/-- `dump` returns if its calls do. -/
theorem ends_step (hopen : AllOpened stack) (h : ∀ c, Called T stack c → Ends T k c) : Ends T (k + 1) stack := by
  intro n hn
  obtain ⟨n, rfl⟩ : ∃ m, n = m + 1 := ⟨n - 1, by omega⟩
  obtain ⟨calls, hsizes, hcalls, hfirst, hok⟩ := exists_calls T hopen
  refine (hok _).2 fun c hc => ?_
  obtain ⟨hopen', hindex⟩ := hcalls c hc
  have hsize : c.length ∈ stackOverflows T.width (stack.map Entry.digits) := by
    unfold stackOverflows
    rw [← hsizes]
    exact List.mem_map_of_mem hc
  rw [length_stackActs, List.length_map] at hindex
  exact dumpStack_ok.2 (h c ⟨hopen', hsize, hindex, fun e he hwidth => hfirst e he hwidth c hc⟩ n (by omega))

theorem Wide.ge (h : Wide T.width) : 3 ≤ T.width := by
  rcases h with h | h
  · rcases List.mem_cons.1 h with h | h
    · omega
    · have := (List.mem_range'_1.1 h).1
      omega
  · omega

theorem ends_nil (h : 3 ≤ T.width) : Ends T 1 [] := by
  refine ends_step (fun _ h => (List.not_mem_nil h).elim) fun c hc => ?_
  have hsize := hc.size
  rw [List.map_nil, stackOverflows_nil h] at hsize
  exact (List.not_mem_nil hsize).elim

theorem ends_first (h : Wide T.width) (he : e.opened = true) (hindex : e.index = 1) : Ends T 2 [e] := by
  refine ends_step (fun e' he' => List.mem_singleton.1 he' ▸ he) fun c hc => ?_
  have hdigits : e.digits = 1 := by
    unfold Entry.digits
    rw [hindex]
    decide
  have hsize := hc.size
  rw [List.map_singleton, hdigits] at hsize
  rw [List.length_eq_zero_iff.1 (stackOverflows_one h _ hsize)]
  exact ends_nil h.ge

/-- The calls for a stack of few blocks that begin early have one block at most. -/
theorem Called.length_le (h : Wide T.width) (hlen : stack.length ≤ 3) (hearly : ∀ e ∈ stack, e.index < 100)
    {c : List Entry} (hc : Called T stack c) : c.length ≤ 1 := by
  refine stackOverflows_few h (by rwa [List.length_map]) (fun n hn => ?_) _ hc.size
  obtain ⟨e, he, rfl⟩ := List.mem_map.1 hn
  exact ⟨digits_pos e, digits_le (hearly e he)⟩

theorem ends_one (h : Wide T.width) (he : e.opened = true) (hearly : e.index < 100) : Ends T 3 [e] := by
  refine ends_step (fun e' he' => List.mem_singleton.1 he' ▸ he) fun c hc => ?_
  have hfew : [e].length ≤ 3 := Nat.succ_le_succ (Nat.zero_le 2)
  have hlen := hc.length_le h hfew fun e' he' => List.mem_singleton.1 he' ▸ hearly
  match c, hc, hlen with
  | [], _, _ => exact (ends_nil h.ge).mono (by decide)
  | [e'], hc, _ =>
    have hfirst : e'.index = 1 := hc.first e rfl (Nat.le_of_succ_le h.ge) _ rfl
    exact ends_first h (hc.opened e' List.mem_cons_self) hfirst
  | _ :: _ :: _, _, hlen => exact absurd (Nat.le_of_succ_le_succ hlen) (Nat.not_succ_le_zero _)

theorem ends_early (h : Wide T.width) (hopen : AllOpened stack) (hlen : stack.length ≤ 3)
    (hearly : ∀ e ∈ stack, e.index < 100) :
    Ends T 4 stack := by
  refine ends_step hopen fun c hc => ?_
  have hlen' := hc.length_le h hlen hearly
  match c, hc, hlen' with
  | [], _, _ => exact (ends_nil h.ge).mono (by decide)
  | [e'], hc, _ =>
    have hindex := hc.index e' List.mem_cons_self
    exact ends_one h (hc.opened e' List.mem_cons_self) (by omega)
  | _ :: _ :: _, _, hlen' => exact absurd (Nat.le_of_succ_le_succ hlen') (Nat.not_succ_le_zero _)

theorem Called.length_le_three {c : List Entry} (hc : Called T stack c) : c.length ≤ 3 :=
  stackOverflows_le (by decide) (fun h => absurd h (Nat.lt_irrefl 3)) _ hc.size

theorem ends_short (h : Wide T.width) (hopen : AllOpened stack) (hlen : stack.length ≤ 3) : Ends T 5 stack := by
  refine ends_step hopen fun c hc => ends_early h hc.opened hc.length_le_three fun e he => ?_
  have := hc.index e he
  omega

/-- **In a wide terminal, `dump` returns for every stack.** -/
theorem ends_wide (h : Wide T.width) (hopen : AllOpened stack) : Ends T 6 stack :=
  ends_step hopen fun _ hc => ends_short h hc.opened hc.length_le_three

end

/-! ## Narrow terminals -/

/-- **In a narrow terminal, `dump` does not return for a stack that has a block**, and where an empty table does not
fit, for none. -/
theorem never {T : Terminal} (h : Narrow T.width) :
    ∀ (n : Nat) {stack : List Entry}, AllOpened stack → (stack ≠ [] ∨ T.width < 3) →
    ∀ s, dump T n (stackGraph stack) ≠ .ok s
  | 0, _, _, _, _, hs => by cases hs
  | n + 1, stack, hopen, hstack, s, hs => by
    obtain ⟨calls, hsizes, hcalls, -, hok⟩ := exists_calls T hopen
    have hall := (hok _).1 ⟨s, hs⟩
    obtain ⟨c, hc, hagain⟩ : ∃ c ∈ calls, c ≠ [] ∨ T.width < 3 := by
      have hmem : ∀ d ∈ stackOverflows T.width (stack.map Entry.digits), ∃ c ∈ calls, c.length = d := by
        intro d hd
        unfold stackOverflows at hd
        rw [← hsizes] at hd
        exact List.mem_map.1 hd
      match stack, hstack, hmem with
      | e :: stack, _, hmem =>
        obtain ⟨d, hd, hpos⟩ := stackOverflows_narrow h (digits_pos e) (stack.map Entry.digits)
        obtain ⟨c, hc, rfl⟩ := hmem d hd
        exact ⟨c, hc, .inl (List.length_pos_iff.1 hpos)⟩
      | [], hstack, hmem =>
        have hwidth : T.width < 3 := hstack.resolve_left fun h => h rfl
        have hzero : ∀ width < 3, 0 ∈ stackOverflows width [] := by decide
        obtain ⟨c, hc, -⟩ := hmem 0 (hzero T.width hwidth)
        exact ⟨c, hc, .inr hwidth⟩
    obtain ⟨s', hs'⟩ := dumpStack_ok.1 (hall c hc)
    exact never h n (hcalls c hc).1 hagain s' hs'

/-! ## All values -/

/-- What overflows of a value: the numbers of blocks around its texts that do not fit with all blocks open. -/
def valueOverflows (T : Terminal) (g : Graph) : List Nat :=
  overflows T.width ⟨0, []⟩ (actsOf (prints T g.heap (g.size + 1) g.root []))

/-- No text of the value overflows in a block, and where an empty table does not fit none overflows at all. -/
def Fits (T : Terminal) (g : Graph) : Prop :=
  (g.root = .nil ∨ g.root = .bool false) ∨ ∀ d ∈ valueOverflows T g, d = 0 ∧ 3 ≤ T.width

theorem dumpOnce_ok {T : Terminal} {dumpStack : List Entry → Except LuaError Unit} {g : Graph} :
    (∃ s, dumpOnce T dumpStack g = .ok s) ↔
      (g.root = .nil ∨ g.root = .bool false) ∨ ∃ s, process T g.heap dumpStack (g.size + 1) g.root start = .ok s := by
  by_cases hroot : g.root = .nil ∨ g.root = .bool false
  · have honce : dumpOnce T dumpStack g = .ok [110, 105, 108] := by
      unfold dumpOnce
      rcases hroot with h | h <;> rw [h]
    exact ⟨fun _ => .inl hroot, fun _ => ⟨_, honce⟩⟩
  · have honce : dumpOnce T dumpStack g = process T g.heap dumpStack (g.size + 1) g.root start >>= fun s =>
      .ok s.output.flatten := by
      unfold dumpOnce
      cases h : g.root with
      | nil => exact absurd (.inl h) hroot
      | bool b =>
        cases b with
        | false => exact absurd (.inr h) hroot
        | true => rfl
      | num n => rfl
      | str s => rfl
      | tab r => rfl
    rw [honce]
    constructor
    · rintro ⟨s, hs⟩
      obtain ⟨s', hs', -⟩ := bind_eq_ok.1 hs
      exact .inr ⟨s', hs'⟩
    · intro h
      obtain ⟨s', hs'⟩ := h.resolve_left hroot
      exact ⟨_, bind_eq_ok.2 ⟨s', hs', rfl⟩⟩

theorem comparable_of_process {T : Terminal} {dumpStack : List Entry → Except LuaError Unit} {g : Graph} {n : Nat}
    {s : Locals} (h : process T g.heap dumpStack n g.root start = .ok s) : Comparable g := by
  obtain ⟨-, hdone, hroot⟩ := process_visits n g.root start s h
  rintro r ⟨r₀, hr₀, hpath⟩
  have hseen : r ∈ s.seen := by
    induction hpath with
    | refl => exact hroot r₀ (List.mem_singleton.2 hr₀.symm)
    | tail _ hchild ih => exact (hdone _ ih List.not_mem_nil).children _ hchild
  exact (hdone r hseen List.not_mem_nil).sortable

section

variable {T : Terminal} {g : Graph}

theorem Returns.comparable (h : Returns T g) : Comparable g := by
  obtain ⟨n, s, hs⟩ := h
  cases n with
  | zero => cases hs
  | succ n =>
    rcases dumpOnce_ok.1 ⟨s, hs⟩ with hroot | ⟨s', hs'⟩
    · rintro r ⟨r₀, hr₀, -⟩
      rw [hr₀] at hroot
      rcases hroot with h | h <;> cases h
    · exact comparable_of_process hs'

/-- **The calls of `dump` for a value** whose tables can be sorted: one for each text that overflows. -/
theorem value_calls (T : Terminal) (hg : Comparable g) : ∃ calls : List (List Entry),
    calls.map List.length = valueOverflows T g ∧ (∀ c ∈ calls, AllOpened c) ∧
    ∀ dumpStack, (∃ s, dumpOnce T dumpStack g = .ok s) ↔
      (g.root = .nil ∨ g.root = .bool false) ∨ ∀ c ∈ calls, dumpStack c = .ok () := by
  obtain ⟨calls, s', h⟩ := exists_performs T _ laid_start (unbroken_prints T g.heap (g.size + 1) g.root [])
  refine ⟨calls, h.sizes, h.opened, fun dumpStack => dumpOnce_ok.trans (or_congr_right ?_)⟩
  have hunseen : unseen g.size start.seen < g.size + 1 := by
    have hle : unseen g.size start.seen ≤ (Finset.range g.size).card := Finset.card_filter_le ..
    rw [Finset.card_range] at hle
    omega
  have hprocess : process T g.heap dumpStack (g.size + 1) g.root start = callAll dumpStack calls >>= fun _ => .ok s' :=
    (process_prints (g.size + 1) g.rooted hg start hunseen).trans (h.perform dumpStack)
  rw [hprocess, ← callAll_ok]
  constructor
  · rintro ⟨s, hs⟩
    obtain ⟨u, hu, -⟩ := bind_eq_ok.1 hs
    exact hu
  · intro hu
    exact ⟨s', bind_eq_ok.2 ⟨(), hu, rfl⟩⟩

/-- `dump` returns if its calls for stacks do. -/
theorem returns_of_calls (hg : Comparable g) (n : Nat)
    (h : ∀ stack, AllOpened stack → ∃ s, dump T n (stackGraph stack) = .ok s) :
    Returns T g := by
  obtain ⟨calls, -, hopen, hok⟩ := value_calls T hg
  exact ⟨n + 1, (hok _).2 (.inr fun c hc => dumpStack_ok.2 (h c (hopen c hc)))⟩

theorem Fits.returns (hg : Comparable g) (h : Fits T g) : Returns T g := by
  obtain ⟨calls, hsizes, -, hok⟩ := value_calls T hg
  refine ⟨2, (hok _).2 (h.imp_right fun hfits c hc => ?_)⟩
  obtain ⟨hlen, hwidth⟩ := hfits c.length (hsizes ▸ List.mem_map_of_mem hc)
  rw [List.length_eq_zero_iff.1 hlen]
  exact dumpStack_ok.2 (ends_nil hwidth 1 (Nat.le_refl 1))

theorem Returns.fits (hnarrow : Narrow T.width) (h : Returns T g) : Fits T g := by
  obtain ⟨calls, hsizes, hopen, hok⟩ := value_calls T h.comparable
  obtain ⟨n, s, hs⟩ := h
  cases n with
  | zero => cases hs
  | succ n =>
    refine ((hok _).1 ⟨s, hs⟩).imp_right fun hcalls d hd => ?_
    rw [← hsizes] at hd
    obtain ⟨c, hc, rfl⟩ := List.mem_map.1 hd
    obtain ⟨t, ht⟩ := dumpStack_ok.1 (hcalls c hc)
    refine ⟨List.length_eq_zero_iff.2 ?_, ?_⟩
    · exact Classical.byContradiction fun hne => never hnarrow n (hopen c hc) (.inl hne) t ht
    · exact Nat.le_of_not_lt fun hlt => never hnarrow n (hopen c hc) (.inr hlt) t ht

end

/-- **`dump` returns** if the keys of every table can be sorted and the terminal is wide, or no text overflows in a
block. It does not if some keys cannot be sorted, or if the terminal is narrow and a text overflows in a block. -/
theorem dump_returns (T : Terminal) (g : Graph) :
    (Comparable g ∧ (Wide T.width ∨ Fits T g) → Returns T g) ∧
    (Returns T g → Comparable g ∧ (Wide T.width ∨ Fits T g ∨ T.width ∈ [13, 14, 15, 29, 30])) := by
  refine ⟨fun ⟨hg, h⟩ => h.elim (fun hwide => ?_) (Fits.returns hg), fun h => ⟨h.comparable, ?_⟩⟩
  · exact returns_of_calls hg 6 fun stack hopen => ends_wide hwide hopen 6 (Nat.le_refl 6)
  · have hcases : T.width < 31 → Wide T.width ∨ Narrow T.width ∨ T.width ∈ [13, 14, 15, 29, 30] := by
      have hall : ∀ width < 31, Wide width ∨ Narrow width ∨ width ∈ [13, 14, 15, 29, 30] := by decide
      exact hall T.width
    by_cases hwidth : T.width < 31
    · rcases hcases hwidth with hwide | hnarrow | hwidth
      · exact .inl hwide
      · exact .inr (.inl (h.fits hnarrow))
      · exact .inr (.inr hwidth)
    · exact .inl (.inr (Nat.le_of_not_lt hwidth))

/-- A table that is its own element. -/
def cycle : Graph where
  heap _ := [(.num (.int 1), .tab 0)]
  size := 1
  root := .tab 0
  rooted := Nat.zero_lt_one
  closed _ kv hkv := by
    cases List.mem_singleton.1 hkv
    exact ⟨trivial, Nat.zero_lt_one⟩

/-- A terminal with colours, for values without floats. -/
def terminal (width : Nat) : Terminal where
  width
  theme := some theme256
  float _ := [48, 46, 53] -- 0.5
  address r := [48, 120, 52, 48] ++ decNat r -- 0x40
  float_unbroken _ := by decide
  address_unbroken r := by
    intro h
    rcases List.mem_append.1 h with h | h
    · exact absurd h (by decide)
    · exact absurd rfl (decNat_plain r _ h).1

theorem dump_returns_cycle : Returns (terminal 80) cycle :=
  (dump_returns _ cycle).1 ⟨fun _ _ => .inl (Nat.le_refl 1), .inl (by decide)⟩

/-- A table with a number and a string as keys. -/
def mixed : Graph where
  heap _ := [(.num (.int 1), .bool true), (.str [97], .bool true)]
  size := 1
  root := .tab 0
  rooted := Nat.zero_lt_one
  closed _ kv hkv := by
    rcases List.mem_cons.1 hkv with rfl | hkv
    · exact ⟨trivial, trivial⟩
    · cases List.mem_singleton.1 hkv
      exact ⟨trivial, trivial⟩

/-- A table with a long string. -/
def long : Graph where
  heap _ := [(.num (.int 1), .str (List.replicate 16 97))]
  size := 1
  root := .tab 0
  rooted := Nat.zero_lt_one
  closed _ kv hkv := by
    cases List.mem_singleton.1 hkv
    exact ⟨trivial, trivial⟩

/-- `dump` raises for keys of two types, and in a terminal of 19 columns it does not return for a string of 16
characters in a table. -/
theorem dump_raises : (∀ n, dump (terminal 80) (n + 1) mixed = .error .compare) ∧ ¬Returns (terminal 19) long := by
  refine ⟨fun n => rfl, fun h => ?_⟩
  have hover : 1 ∈ valueOverflows (terminal 19) long := by decide +kernel
  rcases h.fits (show Narrow 19 by decide) with (hroot | hroot) | hfits
  · cases hroot
  · cases hroot
  · exact absurd (hfits 1 hover).1 Nat.one_ne_zero

end XCore.Repl
