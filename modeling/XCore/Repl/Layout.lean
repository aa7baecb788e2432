import XCore.Lib.Blocks
import XCore.Repl.Visit

/-!
# The lines of `dump`

What `dump` has put out is a line that is broken at blocks (`lineOf`): `write` does to it what `Line.put` does
(`write_laid`), as long as every block that is not open has no line break behind its beginning, and blocks that are
further in begin later (`Laid`).
-/

namespace XCore.Repl

open XCore.Lua
open XCore.Blocks

/-! ## The size of the output -/

/-- The columns of a text, without those of a line break. -/
def span (text : Bytes) : Nat := if LF ∈ text then 0 else (strip text).length

/-- The columns of some output, without those of line breaks. -/
def spans (output : List Bytes) : Nat := (output.map span).sum

/-- What `write` inserts in front of a block. -/
def lineBreak (n : Nat) : Bytes := LF :: List.replicate n 32

theorem span_lineBreak (n : Nat) : span (lineBreak n) = 0 := if_pos List.mem_cons_self

theorem spans_append (output output' : List Bytes) : spans (output ++ output') = spans output + spans output' := by
  unfold spans
  rw [List.map_append, List.sum_append]

theorem spans_cons (text : Bytes) (output : List Bytes) : spans (text :: output) = span text + spans output := by
  unfold spans
  rw [List.map_cons, List.sum_cons]

theorem lastLine_lineBreak (n : Nat) : lastLine (lineBreak n) = some (List.replicate n 32) := by
  have hall : ∀ c ∈ List.replicate n (32 : UInt8), decide (c ≠ LF) = true := by
    intro c hc
    rw [List.eq_of_mem_replicate hc]
    rfl
  unfold lastLine lineBreak
  rw [if_pos List.mem_cons_self, List.reverse_cons, List.reverse_replicate, List.takeWhile_append_of_pos hall,
    List.takeWhile_cons_of_neg (by decide), List.append_nil, List.reverse_replicate]

theorem length_strip_blanks (n : Nat) : (strip (List.replicate n 32)).length = n := by
  have hno : (27 : UInt8) ∉ List.replicate n (32 : UInt8) := fun h => absurd (List.eq_of_mem_replicate h) (by decide)
  have h := strip_text hno []
  rw [List.append_nil] at h
  rw [h, List.length_append, List.length_replicate]
  rfl

theorem recalcText_unbroken {text : Bytes} (h : LF ∉ text) (offset : Nat) :
    recalcText offset text = offset + (strip text).length := by
  have hline : lastLine text = none := if_neg h
  unfold recalcText
  rw [hline]

theorem recalcText_lineBreak (n offset : Nat) : recalcText offset (lineBreak n) = n := by
  unfold recalcText
  rw [lastLine_lineBreak]
  exact length_strip_blanks n

/-- Where there is no line break, the offset grows by the size. -/
theorem recalcOffset_unbroken : ∀ (output : List Bytes) (offset : Nat), (∀ text ∈ output, LF ∉ text) →
    recalcOffset output 0 offset = offset + spans output
  | [], _, _ => rfl
  | text :: output, offset, h => by
    have htext : LF ∉ text := h text List.mem_cons_self
    have ih := recalcOffset_unbroken output (offset + (strip text).length) fun t ht =>
      h t (List.mem_cons_of_mem text ht)
    have hstep : recalcOffset (text :: output) 0 offset = recalcOffset output 0 (recalcText offset text) := rfl
    rw [hstep, recalcText_unbroken htext, ih, spans_cons, span, if_neg htext, Nat.add_assoc]

/-- The offset behind a line break. -/
theorem recalcOffset_lineBreak {output : List Bytes} (n offset : Nat) (h : ∀ text ∈ output, LF ∉ text) :
    recalcOffset (lineBreak n :: output) 0 offset = n + spans output := by
  have hstep : recalcOffset (lineBreak n :: output) 0 offset = recalcOffset output 0
    (recalcText offset (lineBreak n)) := rfl
  rw [hstep, recalcText_lineBreak, recalcOffset_unbroken output n h]

section

variable {output : List Bytes} {index i : Nat}

/-- In front of what is inserted nothing moves. -/
theorem drop_insertAt_of_le (hi : i ≤ index) (hindex : index ≤ output.length) (text : Bytes) :
    (insertAt output index text).drop i = (output.take index).drop i ++ text :: output.drop index ∧
    output.drop i = (output.take index).drop i ++ output.drop index := by
  have hlen : i ≤ (output.take index).length := by
    rw [List.length_take]
    omega
  constructor
  · exact List.drop_append_of_le_length hlen
  · conv_lhs => rw [← List.take_append_drop index output]
    exact List.drop_append_of_le_length hlen

/-- Behind what is inserted everything moves by one. -/
theorem drop_insertAt_of_ge (hi : index ≤ i) (hindex : index ≤ output.length) (text : Bytes) :
    (insertAt output index text).drop (i + 1) = output.drop i := by
  have hlen : (output.take index).length = index := List.length_take_of_le hindex
  have hsplit : i + 1 = index + (i - index + 1) := by omega
  unfold insertAt
  rw [hsplit, ← List.drop_drop, List.drop_left' hlen, List.drop_succ_cons, List.drop_drop]
  congr 1
  omega

/-- A line break in front of, or behind, the beginning of a block does not count for its size. -/
theorem spans_insertAt (hi : i ≤ index) (hindex : index ≤ output.length) (n : Nat) :
    spans ((insertAt output index (lineBreak n)).drop i) = spans (output.drop i) := by
  obtain ⟨hdrop, hdrop'⟩ := drop_insertAt_of_le hi hindex (lineBreak n)
  rw [hdrop, hdrop', spans_append, spans_append, spans_cons, span_lineBreak, Nat.zero_add]

end

/-! ## The line -/

/-- A block of a line. -/
def blockOf (output : List Bytes) (e : Entry) : Block := ⟨e.opened, spans (output.drop e.index)⟩

/-- The line of what is put out. -/
def lineOf (s : Locals) : Line := ⟨s.offset, s.stack.map (blockOf s.output)⟩

/-- The second block is in the first. -/
def Nested (e e' : Entry) : Prop := e.index ≤ e'.index ∧ (e'.opened = true → e.opened = true)

/-- The blocks are nested, and what is in a block that is not open is on one line. -/
structure Laid (s : Locals) : Prop where
  good : Good s
  unbroken : ∀ e ∈ s.stack, e.opened = false → ∀ text ∈ s.output.drop e.index, LF ∉ text
  nested : s.stack.Pairwise Nested

/-- The output, and a line break for each block that is not open. -/
def weight (s : Locals) : Nat := s.output.length + s.stack.countP fun e => !e.opened

/-- Where the outermost block begins. -/
def base (s : Locals) : Option Nat := s.stack.head?.map Entry.index

section

variable {s : Locals} {pre rest : List Entry} {e : Entry}

theorem opened_stack (hstack : s.stack = pre ++ e :: rest) :
    (s.opened pre.length e).stack = (pre ++ [{ e with opened := true }]) ++ rest.map Entry.bump := by
  unfold Locals.opened
  dsimp only
  rw [hstack, List.take_left' rfl, List.append_assoc]
  congr 2
  rw [List.drop_append, List.drop_eq_nil_of_le (Nat.le_succ _), List.nil_append, Nat.add_sub_cancel_left]
  rfl

theorem Laid.index_le (hs : Laid s) (hstack : s.stack = pre ++ e :: rest) :
    (∀ e' ∈ pre, e'.index ≤ e.index) ∧ (∀ e' ∈ rest, e.index ≤ e'.index) ∧ e.index ≤ s.output.length := by
  have hnested := hs.nested
  rw [hstack, List.pairwise_append] at hnested
  obtain ⟨-, hrest, hpre⟩ := hnested
  refine ⟨fun e' he' => (hpre e' he' e List.mem_cons_self).1,
    fun e' he' => ((List.pairwise_cons.1 hrest).1 e' he').1, ?_⟩
  exact hs.good e (hstack ▸ List.mem_append_right _ List.mem_cons_self)

/-- The blocks of the line, when one of them is opened. -/
theorem opened_blocks (hs : Laid s) (hstack : s.stack = pre ++ e :: rest) :
    (pre ++ [{ e with opened := true }]).map (blockOf (s.opened pre.length e).output) =
      pre.map (blockOf s.output) ++ [{ blockOf s.output e with opened := true }] ∧
    (rest.map Entry.bump).map (blockOf (s.opened pre.length e).output) = rest.map (blockOf s.output) := by
  obtain ⟨hpre, hrest, hindex⟩ := hs.index_le hstack
  constructor
  · rw [List.map_append]
    congr 1
    · refine List.map_congr_left fun e' he' => ?_
      exact congrArg (Block.mk e'.opened) (spans_insertAt (hpre e' he') hindex _)
    · exact congrArg (fun n => [Block.mk true n]) (spans_insertAt (Nat.le_refl _) hindex _)
  · rw [List.map_map]
    refine List.map_congr_left fun e' he' => ?_
    exact congrArg (fun output => Block.mk e'.opened (spans output)) (drop_insertAt_of_ge (hrest e' he') hindex _)

theorem opened_offset (hs : Laid s) (hstack : s.stack = pre ++ e :: rest) (he : e.opened = false) :
    (s.opened pre.length e).offset = 2 * (pre.length + 1) + (blockOf s.output e).size := by
  obtain ⟨-, -, hindex⟩ := hs.index_le hstack
  have hunbroken := hs.unbroken e (hstack ▸ List.mem_append_right _ List.mem_cons_self) he
  have hdrop : (insertAt s.output e.index (lineBreak (2 * (pre.length + 1)))).drop e.index =
      lineBreak (2 * (pre.length + 1)) :: s.output.drop e.index := by
    rw [(drop_insertAt_of_le (Nat.le_refl _) hindex _).1,
      List.drop_eq_nil_of_le (by rw [List.length_take_of_le hindex]), List.nil_append]
  change recalcOffset (insertAt s.output e.index (lineBreak (2 * (pre.length + 1)))) e.index s.offset = _
  change recalcOffset ((insertAt s.output e.index (lineBreak (2 * (pre.length + 1)))).drop e.index) 0 s.offset = _
  rw [hdrop, recalcOffset_lineBreak _ _ hunbroken]
  rfl

theorem laid_opened (hs : Laid s) (hstack : s.stack = pre ++ e :: rest) (hpre : AllOpened pre) :
    Laid (s.opened pre.length e) := by
  have hi : s.stack[pre.length]? = some e := by
    rw [hstack, List.getElem?_append_right (Nat.le_refl _), Nat.sub_self]
    rfl
  obtain ⟨hbefore, hbehind, hindex⟩ := hs.index_le hstack
  have hnested := hs.nested
  rw [hstack, List.pairwise_append] at hnested
  obtain ⟨hpre', hrest, hcross⟩ := hnested
  obtain ⟨hfirst, hrest⟩ := List.pairwise_cons.1 hrest
  refine ⟨good_opened hs.good hi, ?_, ?_⟩
  · intro e' he' hclosed
    rw [opened_stack hstack] at he'
    rcases List.mem_append.1 he' with he' | he'
    · have hopen : e'.opened = true := by
        rcases List.mem_append.1 he' with he' | he'
        · exact hpre e' he'
        · rw [List.mem_singleton.1 he']
      rw [hopen] at hclosed
      cases hclosed
    · obtain ⟨e₀, he₀, rfl⟩ := List.mem_map.1 he'
      have hmem : e₀ ∈ s.stack := hstack ▸ List.mem_append_right _ (List.mem_cons_of_mem e he₀)
      have hunbroken := hs.unbroken e₀ hmem hclosed
      change ∀ text ∈ (insertAt _ _ _).drop (e₀.index + 1), LF ∉ text
      rw [drop_insertAt_of_ge (hbehind e₀ he₀) hindex]
      exact hunbroken
  · rw [opened_stack hstack, List.append_assoc]
    have hbumped : (rest.map Entry.bump).Pairwise Nested := by
      rw [List.pairwise_map]
      exact hrest.imp fun h => ⟨Nat.succ_le_succ h.1, h.2⟩
    refine List.pairwise_append.2 ⟨hpre', List.pairwise_cons.2 ⟨fun e' he' => ?_, hbumped⟩, fun e' he' e'' he'' => ?_⟩
    · obtain ⟨e₀, he₀, rfl⟩ := List.mem_map.1 he'
      exact ⟨Nat.le_succ_of_le (hbehind e₀ he₀), fun _ => rfl⟩
    · refine ⟨?_, fun _ => hpre e' he'⟩
      rcases List.mem_cons.1 he'' with rfl | he''
      · exact hbefore e' he'
      · obtain ⟨e₀, he₀, rfl⟩ := List.mem_map.1 he''
        exact Nat.le_succ_of_le (hcross e' he' e₀ (List.mem_cons_of_mem e he₀)).1

theorem weight_opened (hs : Laid s) (hstack : s.stack = pre ++ e :: rest) (he : e.opened = false) :
    weight (s.opened pre.length e) = weight s := by
  have hlen : (s.opened pre.length e).output.length = s.output.length + 1 := length_insertAt (hs.index_le hstack).2.2 _
  have hsame : (rest.map Entry.bump).countP (fun e => !e.opened) = rest.countP fun e => !e.opened := by
    rw [List.countP_map]
    rfl
  unfold weight
  rw [hlen, opened_stack hstack, hstack]
  simp only [List.countP_append, List.countP_cons, List.countP_nil, hsame, he]
  simp
  omega

theorem base_opened (hstack : s.stack = pre ++ e :: rest) : base (s.opened pre.length e) = base s := by
  unfold base
  rw [opened_stack hstack, hstack]
  cases pre <;> rfl

end

/-- **The loop of `write`** opens the blocks of the line. -/
theorem openBlocks_laid (width length : Nat) :
    ∀ (left : Nat) {pre rest : List Entry} {s : Locals}, rest.length = left → Laid s →
    s.stack = pre ++ rest → AllOpened pre →
    ∃ s', openBlocks width length left pre.length s = .ok s' ∧ Laid s' ∧ s'.seen = s.seen ∧ weight s' = weight s ∧
    base s' = base s ∧
      lineOf s' = ⟨(openFrom width length (pre.length + 1) (rest.map (blockOf s.output)) s.offset).2,
        pre.map (blockOf s.output) ++ (openFrom width length (pre.length + 1) (rest.map (blockOf s.output)) s.offset).1⟩
  | 0, pre, rest, s, hleft, hs, hstack, _ => by
    rw [List.length_eq_zero_iff.1 hleft] at hstack ⊢
    refine ⟨s, rfl, hs, rfl, rfl, rfl, ?_⟩
    unfold lineOf
    rw [hstack, List.append_nil]
    exact congrArg (Line.mk s.offset) (List.append_nil _).symm
  | left + 1, pre, [], s, hleft, _, _, _ => absurd hleft.symm (Nat.succ_ne_zero left)
  | left + 1, pre, e :: rest, s, hleft, hs, hstack, hpre => by
    have hleft : rest.length = left := Nat.succ.inj hleft
    have hi : s.stack[pre.length]? = some e := by
      rw [hstack, List.getElem?_append_right (Nat.le_refl _), Nat.sub_self]
      rfl
    have hlen : ∀ e' : Entry, (pre ++ [e']).length = pre.length + 1 := fun _ => List.length_append
    rw [openBlocks, hi, List.map_cons, openFrom]
    by_cases hwide : width < s.offset + length
    · rw [if_pos hwide, if_pos hwide]
      dsimp only
      cases he : e.opened with
      | true =>
        have hpre' : AllOpened (pre ++ [e]) := fun e' he' =>
          (List.mem_append.1 he').elim (hpre e') fun he' => by rw [List.mem_singleton.1 he']; exact he
        have hstack' : s.stack = (pre ++ [e]) ++ rest := by rw [hstack, List.append_assoc]; rfl
        obtain ⟨s', hok, hs', hseen, hweight, hbase, hline⟩ := openBlocks_laid width length left hleft hs hstack' hpre'
        rw [hlen] at hok hline
        refine ⟨s', hok, hs', hseen, hweight, hbase, ?_⟩
        have hopen : (blockOf s.output e).opened = true := he
        rw [hline, List.map_append, List.append_assoc, if_pos hopen]
        have hsame : blockOf s.output e = { blockOf s.output e with opened := true } := by
          rw [← hopen]
        rw [← hsame]
        rfl
      | false =>
        have hpre' : AllOpened (pre ++ [{ e with opened := true }]) := fun e' he' =>
          (List.mem_append.1 he').elim (hpre e') fun he' => by rw [List.mem_singleton.1 he']
        have hstack' := opened_stack hstack
        obtain ⟨hblocks, hblocks'⟩ := opened_blocks hs hstack
        obtain ⟨s', hok, hs', hseen, hweight, hbase, hline⟩ :=
          openBlocks_laid width length left ((List.length_map _).trans hleft) (laid_opened hs hstack hpre) hstack' hpre'
        have hclosed : ¬(blockOf s.output e).opened = true := by
          change ¬e.opened = true
          rw [he]
          exact Bool.false_ne_true
        rw [hlen] at hok hline
        rw [openBlock_eq hs.good hi]
        refine ⟨s', hok, hs', hseen, hweight.trans (weight_opened hs hstack he), hbase.trans (base_opened hstack), ?_⟩
        rw [hline, hblocks, hblocks', opened_offset hs hstack he, if_neg hclosed, List.append_assoc]
        rfl
    · rw [if_neg hwide, if_neg hwide]
      refine ⟨s, rfl, hs, rfl, rfl, rfl, ?_⟩
      unfold lineOf
      rw [hstack, List.map_append]
      rfl

/-! ## What is printed -/

theorem laid_append {s : Locals} {text : Bytes} (hs : Laid s) (htext : LF ∉ text) : Laid (s.append text) := by
  refine ⟨fun e he => ?_, fun e he hclosed => ?_, hs.nested⟩
  · change e.index ≤ (s.output ++ [text]).length
    rw [List.length_append]
    exact Nat.le_add_right_of_le (hs.good e he)
  · change ∀ text' ∈ (s.output ++ [text]).drop e.index, LF ∉ text'
    rw [List.drop_append_of_le_length (hs.good e he)]
    intro text' htext'
    rcases List.mem_append.1 htext' with h | h
    · exact hs.unbroken e he hclosed text' h
    · rw [List.mem_singleton.1 h]
      exact htext

theorem lineOf_append {s : Locals} {text : Bytes} (hs : Laid s) (htext : LF ∉ text) :
    lineOf (s.append text) = ⟨(lineOf s).offset + (strip text).length,
      (lineOf s).blocks.map fun b => { b with size := b.size + (strip text).length }⟩ := by
  unfold lineOf
  dsimp only
  rw [List.map_map]
  refine congrArg (Line.mk _) (List.map_congr_left fun e he => ?_)
  change Block.mk e.opened (spans ((s.output ++ [text]).drop e.index)) = Block.mk e.opened
    (spans (s.output.drop e.index) + _)
  rw [List.drop_append_of_le_length (hs.good e he), spans_append, spans_cons, span, if_neg htext]
  rfl

/-- **`write` puts a text in the line**, and calls `dump` if it overflows. -/
theorem write_laid (T : Terminal) {s : Locals} {text : Bytes} (hs : Laid s) (htext : LF ∉ text) :
    ∃ s', Laid s' ∧ lineOf s' = (lineOf s).put T.width (strip text).length ∧ weight s' = weight s + 1 ∧
    base s' = base s ∧
      (T.width < s'.offset → AllOpened s'.stack) ∧ ∀ dumpStack,
      write T dumpStack text s = if T.width < s'.offset then dumpStack s'.stack >>= fun _ => .ok s' else .ok s' := by
  obtain ⟨s', hok, hs', -, hweight, hbase, hline⟩ :=
    openBlocks_laid T.width (strip text).length s.stack.length rfl hs (List.nil_append s.stack).symm fun _ h =>
      (List.not_mem_nil h).elim
  obtain ⟨s'', hok', -, -, -, hall⟩ :=
    openBlocks_spec T.width (strip text).length hs.good (Nat.zero_add s.stack.length) fun _ h =>
      (List.not_mem_nil h).elim
  have hsame : s'' = s' := Except.ok.inj (hok'.symm.trans hok)
  rw [hsame] at hall
  refine ⟨s'.append text, laid_append hs' htext, ?_, ?_, hbase, hall, fun dumpStack => ?_⟩
  · rw [lineOf_append hs' htext, hline]
    rfl
  · rw [← hweight]
    unfold weight Locals.append
    rw [List.length_append]
    exact Nat.add_right_comm ..
  · change openBlocks T.width (strip text).length s.stack.length 0 s = _ at hok
    rw [write_eq, hok]
    rfl

/-! ## Sequences -/

/-- What `process` does to the locals. -/
inductive Print
  | enter (r : Ref)
  | indent
  | unindent
  | write (text : Bytes)

/-- What is done to the line. -/
def Print.acts : Print → List Act
  | .enter _ => []
  | .indent => [.push]
  | .unindent => [.pop]
  | .write text => [.put (strip text).length]

/-- What a sequence does to the line. -/
def actsOf (ps : List Print) : List Act := ps.flatMap Print.acts

/-- A step of a sequence. -/
def Print.perform (T : Terminal) (dumpStack : List Entry → Except LuaError Unit) :
    Print → Locals → Except LuaError Locals
  | .enter r, s => .ok { s with seen := r :: s.seen }
  | .indent, s => .ok s.indent
  | .unindent, s => .ok s.unindent
  | .write text, s => XCore.Repl.write T dumpStack text s

/-- A sequence. -/
def perform (T : Terminal) (dumpStack : List Entry → Except LuaError Unit) :
    List Print → Locals → Except LuaError Locals
  | [], s => .ok s
  | p :: ps, s => p.perform T dumpStack s >>= perform T dumpStack ps

/-- Calls for some stacks, one after the other. -/
def callAll (dumpStack : List Entry → Except LuaError Unit) : List (List Entry) → Except LuaError Unit
  | [] => .ok ()
  | c :: calls => dumpStack c >>= fun _ => callAll dumpStack calls

theorem callAll_ok {dumpStack : List Entry → Except LuaError Unit} : ∀ {calls : List (List Entry)},
    callAll dumpStack calls = .ok () ↔ ∀ c ∈ calls, dumpStack c = .ok ()
  | [] => ⟨fun _ _ h => (List.not_mem_nil h).elim, fun _ => rfl⟩
  | c :: calls => by
    rw [List.forall_mem_cons, ← callAll_ok, callAll, bind_eq_ok]
    exact ⟨fun ⟨_, h, h'⟩ => ⟨h, h'⟩, fun ⟨h, h'⟩ => ⟨(), h, h'⟩⟩

/-- No block begins outside the outermost one. -/
def Inside : Nat → List Act → Prop
  | _, [] => True
  | n, .push :: acts => 1 ≤ n ∧ Inside (n + 1) acts
  | n, .pop :: acts => Inside (n - 1) acts
  | n, .put _ :: acts => Inside n acts

/-- What a sequence does: it calls `dump` for some stacks, and if these calls return it leaves `s'`. -/
structure Performs (T : Terminal) (ps : List Print) (s : Locals) (calls : List (List Entry)) (s' : Locals) : Prop where
  perform : ∀ dumpStack, perform T dumpStack ps s = callAll dumpStack calls >>= fun _ => .ok s'
  laid : Laid s'
  line : lineOf s' = (lineOf s).run T.width (actsOf ps)
  weight : weight s' ≤ weight s + (actsOf ps).length
  sizes : calls.map List.length = overflows T.width (lineOf s) (actsOf ps)
  opened : ∀ c ∈ calls, AllOpened c
  index : ∀ c ∈ calls, ∀ e ∈ c, e.index ≤ XCore.Repl.weight s + (actsOf ps).length
  base : ∀ i, (∀ j ∈ base s, j = i) → Inside s.stack.length (actsOf ps) →
    ∀ c ∈ calls, ∀ j ∈ c.head?.map Entry.index, j = i

section

variable {T : Terminal} {ps : List Print} {s s₁ s' : Locals} {calls : List (List Entry)}

theorem laid_indent (hs : Laid s) : Laid s.indent ∧ lineOf s.indent = (lineOf s).step T.width .push := by
  have hnil : s.output.drop s.output.length = [] := List.drop_length
  refine ⟨⟨good_indent hs.good, fun e he hclosed => ?_, ?_⟩, ?_⟩
  · rcases List.mem_append.1 he with he | he
    · exact hs.unbroken e he hclosed
    · rw [List.mem_singleton.1 he]
      change ∀ text ∈ s.output.drop s.output.length, LF ∉ text
      rw [hnil]
      exact fun _ h => (List.not_mem_nil h).elim
  · refine List.pairwise_append.2 ⟨hs.nested, List.pairwise_singleton _ _, fun e he e' he' => ?_⟩
    rw [List.mem_singleton.1 he']
    exact ⟨hs.good e he, fun h => by cases h⟩
  · change Line.mk _ ((s.stack ++ [_]).map (blockOf s.output)) = Line.mk _ (s.stack.map (blockOf s.output) ++ _)
    rw [List.map_append]
    refine congrArg (fun n => Line.mk s.offset (s.stack.map (blockOf s.output) ++ [Block.mk false n])) ?_
    change spans (s.output.drop s.output.length) = 0
    rw [hnil]
    rfl

theorem laid_unindent (hs : Laid s) : Laid s.unindent ∧ lineOf s.unindent = (lineOf s).step T.width .pop := by
  refine ⟨⟨good_unindent hs.good, fun e he => hs.unbroken e (List.mem_of_mem_dropLast he), ?_⟩, ?_⟩
  · exact hs.nested.sublist (List.dropLast_sublist _)
  · change Line.mk _ ((s.stack.dropLast).map (blockOf s.output)) = Line.mk _ (s.stack.map (blockOf s.output)).dropLast
    rw [List.map_dropLast]
    rfl

/-- A step without calls. -/
theorem Performs.quiet {p : Print} {a : List Act} (ha : p.acts = a) (hp : ∀ dumpStack, p.perform T dumpStack s = .ok s₁)
    (hline : lineOf s₁ = (lineOf s).run T.width a) (hweight : XCore.Repl.weight s₁ ≤ XCore.Repl.weight s + a.length)
    (hover : overflows T.width (lineOf s) a = [])
    (hbase : Inside s.stack.length (a ++ actsOf ps) →
      (∀ i ∈ XCore.Repl.base s₁, i ∈ XCore.Repl.base s) ∧ Inside s₁.stack.length (actsOf ps))
    (h : Performs T ps s₁ calls s') : Performs T (p :: ps) s calls s' := by
  have hacts : actsOf (p :: ps) = a ++ actsOf ps := by
    rw [← ha]
    exact List.flatMap_cons
  refine ⟨fun dumpStack => ?_, h.laid, ?_, ?_, ?_, h.opened, fun c hc e he => ?_, fun i hi hinside => ?_⟩
  · rw [XCore.Repl.perform, hp]
    exact h.perform dumpStack
  · rw [h.line, hline, hacts, Line.run, Line.run, Line.run, List.foldl_append]
  · have := h.weight
    rw [hacts, List.length_append]
    omega
  · rw [h.sizes, hline, hacts, overflows_append, hover]
    rfl
  · have := h.index c hc e he
    rw [hacts, List.length_append]
    omega
  · rw [hacts] at hinside
    obtain ⟨hsub, hinside'⟩ := hbase hinside
    exact h.base i (fun j hj => hi j (hsub j hj)) hinside'

/-- A table is entered. -/
theorem Performs.enter (r : Ref) (h : Performs T ps { s with seen := r :: s.seen } calls s') :
    Performs T (.enter r :: ps) s calls s' :=
  h.quiet rfl (fun _ => rfl) rfl (Nat.le_refl _) rfl fun hinside => ⟨fun _ hi => hi, hinside⟩

/-- A block begins. -/
theorem Performs.indent (hs : Laid s) (h : Performs T ps s.indent calls s') :
    Performs T (.indent :: ps) s calls s' := by
  refine h.quiet rfl (fun _ => rfl) (laid_indent (T := T) hs).2 ?_ rfl fun hinside => ⟨?_, ?_⟩
  · change s.output.length + (s.stack ++ [_]).countP _ ≤ s.output.length + s.stack.countP _ + 1
    rw [List.countP_append]
    exact Nat.le_refl _
  · have hlong : 1 ≤ s.stack.length := hinside.1
    have hhead : (s.stack ++ [Entry.mk s.output.length false]).head? = s.stack.head? := by
      cases hstack : s.stack with
      | nil =>
        rw [hstack] at hlong
        cases hlong
      | cons e stack => rfl
    change ∀ i ∈ (s.stack ++ [Entry.mk s.output.length false]).head?.map Entry.index, i ∈ s.stack.head?.map Entry.index
    rw [hhead]
    exact fun _ hi => hi
  · change Inside (s.stack ++ [_]).length _
    rw [List.length_append]
    exact hinside.2

/-- A block ends. -/
theorem Performs.unindent (hs : Laid s) (h : Performs T ps s.unindent calls s') :
    Performs T (.unindent :: ps) s calls s' := by
  refine h.quiet rfl (fun _ => rfl) (laid_unindent (T := T) hs).2 ?_ rfl fun hinside => ⟨?_, ?_⟩
  · have hle := (List.dropLast_sublist s.stack).countP_le (p := fun e => !e.opened)
    change s.output.length + s.stack.dropLast.countP _ ≤ s.output.length + s.stack.countP _ + 1
    omega
  · change ∀ i ∈ s.stack.dropLast.head?.map Entry.index, i ∈ s.stack.head?.map Entry.index
    match s.stack with
    | [] => exact fun _ hi => hi
    | [e] => exact fun _ hi => (by cases hi)
    | _ :: _ :: _ => exact fun _ hi => hi
  · change Inside s.stack.dropLast.length _
    rw [List.length_dropLast]
    exact hinside

/-- A text. -/
theorem Performs.write {text : Bytes} (hs₁ : Laid s₁) (hline : lineOf s₁ = (lineOf s).put T.width (strip text).length)
    (hweight : XCore.Repl.weight s₁ = XCore.Repl.weight s + 1) (hbase : XCore.Repl.base s₁ = XCore.Repl.base s)
    (hopen : T.width < s₁.offset → AllOpened s₁.stack)
    (hwrite : ∀ dumpStack, XCore.Repl.write T dumpStack text s =
      if T.width < s₁.offset then dumpStack s₁.stack >>= fun _ => .ok s₁ else .ok s₁)
    (h : Performs T ps s₁ calls s') :
    Performs T (.write text :: ps) s (if T.width < s₁.offset then s₁.stack :: calls else calls) s' := by
  have hacts : actsOf (.write text :: ps) = .put (strip text).length :: actsOf ps := rfl
  have hlength : s₁.stack.length = (lineOf s).blocks.length := by
    have hblocks : s₁.stack.length = (lineOf s₁).blocks.length := (List.length_map _).symm
    rw [hblocks, hline, Line.put, List.length_map, openFrom_length]
  have hover : (lineOf s).overflow T.width (.put (strip text).length) = decide (T.width < s₁.offset) := by
    change decide (T.width < ((lineOf s).put T.width (strip text).length).offset) = _
    rw [← hline]
    rfl
  have hcall : ∀ {p : List Entry → Prop}, (T.width < s₁.offset → p s₁.stack) → (∀ c ∈ calls, p c) →
      ∀ c ∈ (if T.width < s₁.offset then s₁.stack :: calls else calls), p c := by
    intro p hp hps c hc
    split at hc
    · rename_i hwide
      exact (List.mem_cons.1 hc).elim (fun hc => hc ▸ hp hwide) (hps c)
    · exact hps c hc
  refine ⟨fun dumpStack => ?_, h.laid, ?_, ?_, ?_, hcall hopen h.opened, ?_, fun i hi hinside => ?_⟩
  · rw [XCore.Repl.perform, Print.perform, hwrite]
    split
    · cases hdump : dumpStack s₁.stack with
      | error e => rw [callAll, hdump]; rfl
      | ok u => rw [callAll, hdump]; exact h.perform dumpStack
    · exact h.perform dumpStack
  · rw [h.line, hline, hacts]
    rfl
  · have := h.weight
    rw [hacts, List.length_cons]
    omega
  · rw [hacts, overflows, hover]
    have hsizes := h.sizes
    rw [hline] at hsizes
    change _ = _ ++ overflows T.width ((lineOf s).put T.width (strip text).length) (actsOf ps)
    rw [← hsizes, ← hlength]
    by_cases hwide : T.width < s₁.offset
    · rw [if_pos hwide, if_pos (decide_eq_true hwide)]
      rfl
    · rw [if_neg hwide, if_neg (by rw [decide_eq_true_iff]; exact hwide)]
      rfl
  · rw [hacts, List.length_cons]
    refine hcall (fun _ e he => ?_) fun c hc e he => ?_
    · have hle : e.index ≤ XCore.Repl.weight s₁ := Nat.le_add_right_of_le (hs₁.good e he)
      omega
    · have := h.index c hc e he
      omega
  · have hsame : s.stack.length = s₁.stack.length := by
      rw [hlength]
      exact (List.length_map _).symm
    rw [hacts, Inside, hsame] at hinside
    rw [← hbase] at hi
    exact hcall (fun _ => hi) (h.base i hi hinside)

end

/-- **Every sequence of texts without line breaks is performed.** -/
theorem exists_performs (T : Terminal) :
    ∀ (ps : List Print) {s : Locals}, Laid s → (∀ text, .write text ∈ ps → LF ∉ text) →
    ∃ calls s', Performs T ps s calls s'
  | [], s, hs, _ => by
    refine ⟨[], s, fun _ => rfl, hs, rfl, Nat.le_refl _, rfl, ?_, ?_, ?_⟩
    · exact fun _ h => (List.not_mem_nil h).elim
    · exact fun _ h => (List.not_mem_nil h).elim
    · exact fun _ _ _ _ h => (List.not_mem_nil h).elim
  | p :: ps, s, hs, htext => by
    have hrest : ∀ text, .write text ∈ ps → LF ∉ text := fun text h => htext text (List.mem_cons_of_mem p h)
    cases p with
    | enter r =>
      have hs₁ : Laid { s with seen := r :: s.seen } := ⟨hs.good, hs.unbroken, hs.nested⟩
      obtain ⟨calls, s', h⟩ := exists_performs T ps hs₁ hrest
      exact ⟨calls, s', h.enter r⟩
    | indent =>
      obtain ⟨calls, s', h⟩ := exists_performs T ps (laid_indent (T := T) hs).1 hrest
      exact ⟨calls, s', h.indent hs⟩
    | unindent =>
      obtain ⟨calls, s', h⟩ := exists_performs T ps (laid_unindent (T := T) hs).1 hrest
      exact ⟨calls, s', h.unindent hs⟩
    | write text =>
      obtain ⟨s₁, hs₁, hline, hweight, hbase, hopen, hwrite⟩ := write_laid T hs (htext text List.mem_cons_self)
      obtain ⟨calls, s', h⟩ := exists_performs T ps hs₁ hrest
      exact ⟨_, s', h.write hs₁ hline hweight hbase hopen hwrite⟩

end XCore.Repl
