import Mathlib.Tactic.Common

/-!
# Lines that are broken at blocks

Text is written into nested blocks. Where a piece of text does not fit into the width, the blocks around it are opened,
from the outermost on: a line break is put in front of the block, and what has been written of it follows, two columns
to the right for every block. So of every block only the size counts that has been written, and whether it is open
(`Line`).

A piece overflows if it does not fit with all blocks open. `overflows_le`: it cannot overflow in a block that fits in a
line of its own, if every block begins at least two columns behind the one around it (`Roomy`).
-/

namespace XCore.Blocks

/-- A block, and how much of it is written. -/
structure Block where
  opened : Bool
  size : Nat
  deriving DecidableEq

/-- The column, and the blocks around it from the outermost on. -/
structure Line where
  offset : Nat
  blocks : List Block
  deriving DecidableEq

/-- Blocks are opened until the text fits, from the block at depth `d` on. -/
def openFrom (width length : Nat) : Nat → List Block → Nat → List Block × Nat
  | _, [], offset => ([], offset)
  | d, b :: bs, offset =>
    if width < offset + length then
      let r := openFrom width length (d + 1) bs (if b.opened then offset else 2 * d + b.size)
      ({ b with opened := true } :: r.1, r.2)
    else (b :: bs, offset)

/-- A piece of text. -/
def Line.put (width length : Nat) (l : Line) : Line :=
  let r := openFrom width length 1 l.blocks l.offset
  ⟨r.2 + length, r.1.map fun b => { b with size := b.size + length }⟩

/-- What is done in a line. -/
inductive Act
  | push
  | pop
  | put (length : Nat)

/-- The line after an act. -/
def Line.step (width : Nat) (l : Line) : Act → Line
  | .push => { l with blocks := l.blocks ++ [⟨false, 0⟩] }
  | .pop => { l with blocks := l.blocks.dropLast }
  | .put length => l.put width length

/-- Whether the act is a piece of text that overflows. -/
def Line.overflow (width : Nat) (l : Line) : Act → Bool
  | .put length => width < (l.put width length).offset
  | _ => false

/-- The numbers of blocks around the pieces that overflow. -/
def overflows (width : Nat) : Line → List Act → List Nat
  | _, [] => []
  | l, a :: acts => (if l.overflow width a then [l.blocks.length] else []) ++ overflows width (l.step width a) acts

/-- The line after some acts. -/
def Line.run (width : Nat) (l : Line) (acts : List Act) : Line := acts.foldl (Line.step width) l

theorem overflows_append (width : Nat) : ∀ (acts acts' : List Act) (l : Line),
    overflows width l (acts ++ acts') = overflows width l acts ++ overflows width (l.run width acts) acts'
  | [], _, _ => rfl
  | a :: acts, acts', l => by
    rw [List.cons_append, overflows, overflows, overflows_append width acts acts', List.append_assoc]
    rfl

/-! ## Blocks that are sound -/

/-- The column is not behind what an open block has written, blocks begin two columns behind the ones around them, and
only what is in an open block is open. -/
def Sound (offset : Nat) : Nat → List Block → Prop
  | _, [] => True
  | d, b :: bs => (b.opened = true → offset ≤ 2 * d + b.size) ∧
    (∀ c ∈ bs.head?, c.size + 2 ≤ b.size ∧ (c.opened = true → b.opened = true)) ∧ Sound offset (d + 1) bs

variable {width : Nat}

theorem openFrom_sizes (width length : Nat) : ∀ (bs : List Block) (d offset : Nat),
    (openFrom width length d bs offset).1.map Block.size = bs.map Block.size
  | [], _, _ => rfl
  | b :: bs, d, offset => by
    unfold openFrom
    split
    · exact congrArg (b.size :: ·) (openFrom_sizes width length bs _ _)
    · rfl

theorem openFrom_length (width length : Nat) (bs : List Block) (d offset : Nat) :
    (openFrom width length d bs offset).1.length = bs.length := by
  have h := congrArg List.length (openFrom_sizes width length bs d offset)
  rwa [List.length_map, List.length_map] at h

/-- In a block that is not open nothing is. -/
theorem Sound.closed {offset : Nat} (offset' : Nat) :
    ∀ {bs : List Block} {b : Block} {d : Nat}, Sound offset d (b :: bs) → b.opened = false → Sound offset' (d + 1) bs
  | [], _, _, _, _ => trivial
  | c :: bs, b, d, ⟨_, hhead, hrest⟩, hb => by
    have hc : c.opened = false := by
      cases h : c.opened with
      | false => rfl
      | true => exact absurd ((hhead c rfl).2 h) (by rw [hb]; exact Bool.false_ne_true)
    refine ⟨fun h => ?_, hrest.2.1, Sound.closed offset' hrest hc⟩
    rw [hc] at h
    cases h

/-- Opening keeps blocks sound; the column does not move behind a block, and the text fits if it fits in the innermost
block. -/
theorem openFrom_spec (width length : Nat) : ∀ {bs : List Block} {d offset : Nat}, Sound offset d bs →
    Sound (openFrom width length d bs offset).2 d (openFrom width length d bs offset).1 ∧
    (∀ B, offset ≤ B → (∀ c ∈ bs.head?, 2 * d + c.size ≤ B) → (openFrom width length d bs offset).2 ≤ B) ∧
    (∀ s ∈ (bs.map Block.size).getLast?, 2 * d + 2 * bs.length + s + length ≤ width + 2 →
      (openFrom width length d bs offset).2 + length ≤ width)
  | [], _, _, _ => ⟨trivial, fun _ h _ => h, fun _ h => (by cases h)⟩
  | b :: bs, d, offset, hsound => by
    obtain ⟨hopen, hhead, hrest⟩ := hsound
    by_cases hwide : width < offset + length
    · have hmoved : Sound (if b.opened = true then offset else 2 * d + b.size) (d + 1) bs ∧
          (if b.opened = true then offset else 2 * d + b.size) ≤ 2 * d + b.size := by
        cases hb : b.opened with
        | true => exact ⟨hrest, hopen hb⟩
        | false => exact ⟨Sound.closed _ ⟨hopen, hhead, hrest⟩ hb, Nat.le_refl _⟩
      obtain ⟨hsound, hbound, hfits⟩ := openFrom_spec width length hmoved.1
      have hle := hbound (2 * d + b.size) hmoved.2 fun c hc => by
        have := (hhead c hc).1
        omega
      rw [openFrom, if_pos hwide]
      refine ⟨⟨fun _ => hle, fun c hc => ⟨?_, fun _ => rfl⟩, hsound⟩, fun B _ hB => Nat.le_trans hle (hB b rfl),
        fun s hs hroom => ?_⟩
      · have hsizes := congrArg List.head? (openFrom_sizes width length bs (d + 1)
          (if b.opened = true then offset else 2 * d + b.size))
        rw [List.head?_map, List.head?_map, hc] at hsizes
        cases hbs : bs.head? with
        | none =>
          rw [hbs] at hsizes
          cases hsizes
        | some c' =>
          rw [hbs] at hsizes
          have hsize : c.size = c'.size := Option.some.inj hsizes
          rw [hsize]
          exact (hhead c' hbs).1
      · cases bs with
        | nil =>
          have hs : b.size = s := Option.some.inj hs
          change (if b.opened = true then offset else 2 * d + b.size) + length ≤ width
          have := hmoved.2
          simp only [List.length_cons, List.length_nil] at hroom
          omega
        | cons c bs =>
          refine hfits s hs ?_
          simp only [List.length_cons] at hroom ⊢
          omega
    · rw [openFrom, if_neg hwide]
      exact ⟨⟨hopen, hhead, hrest⟩, fun _ h _ => h, fun _ _ _ => Nat.le_of_not_lt hwide⟩

/-! ## Blocks that fit -/

theorem Sound.grow {offset : Nat} (n : Nat) : ∀ {bs : List Block} {d : Nat}, Sound offset d bs →
    Sound (offset + n) d (bs.map fun b => { b with size := b.size + n })
  | [], _, _ => trivial
  | b :: bs, d, ⟨hopen, hhead, hrest⟩ => by
    refine ⟨fun h => ?_, fun c hc => ?_, Sound.grow n hrest⟩
    · have := hopen h
      dsimp only
      omega
    · cases bs with
      | nil => cases hc
      | cons c' bs =>
        cases hc
        obtain ⟨hsize, hopened⟩ := hhead c' rfl
        refine ⟨?_, hopened⟩
        dsimp only
        omega

theorem Sound.dropLast {offset : Nat} : ∀ {bs : List Block} {d : Nat}, Sound offset d bs → Sound offset d bs.dropLast
  | [], _, _ => trivial
  | [_], _, _ => trivial
  | b :: c :: bs, d, ⟨hopen, hhead, hrest⟩ => by
    refine ⟨hopen, fun c' hc' => ?_, hrest.dropLast⟩
    cases bs with
    | nil => cases hc'
    | cons c'' bs =>
      cases hc'
      exact hhead c rfl

/-- A new block, two columns behind the one around it. -/
theorem Sound.push {offset : Nat} : ∀ {bs : List Block} {d : Nat}, Sound offset d bs →
    (∀ s ∈ (bs.map Block.size).getLast?, 2 ≤ s) → Sound offset d (bs ++ [⟨false, 0⟩])
  | [], _, _, _ => ⟨fun h => (by cases h), fun _ h => (by cases h), trivial⟩
  | [b], _, ⟨hopen, _, _⟩, h => by
    refine ⟨hopen, fun c hc => ?_, fun h => (by cases h), fun _ h => (by cases h), trivial⟩
    cases hc
    exact ⟨by simpa using h b.size rfl, fun h => (by cases h)⟩
  | b :: c :: bs, d, ⟨hopen, hhead, hrest⟩, h => ⟨hopen, fun c' hc' => hhead c' hc', hrest.push h⟩

/-- In what is written, every block begins at least two columns behind the one around it, and where there are more than
`k` blocks, the innermost one fits in a line. -/
def Roomy (width k : Nat) : List Nat → List Act → Prop
  | _, [] => True
  | sizes, .push :: acts => (∀ s ∈ sizes.getLast?, 2 ≤ s) ∧ Roomy width k (sizes ++ [0]) acts
  | sizes, .pop :: acts => Roomy width k sizes.dropLast acts
  | sizes, .put n :: acts => (k < sizes.length → ∀ s ∈ sizes.getLast?, 2 * sizes.length + s + n ≤ width) ∧
    Roomy width k (sizes.map (· + n)) acts

/-- **Where blocks fit, nothing overflows** but in `k` blocks at most. -/
theorem overflows_le {k : Nat} : ∀ {acts : List Act} {l : Line}, Sound l.offset 1 l.blocks →
    Roomy width k (l.blocks.map Block.size) acts → ∀ d ∈ overflows width l acts, d ≤ k
  | [], _, _, _, _, h => by cases h
  | .push :: acts, l, hsound, hall, d, h => by
    obtain ⟨hpush, hroomy⟩ := hall
    refine overflows_le (l := l.step width .push) (hsound.push hpush) ?_ d h
    change Roomy width k ((l.blocks ++ [Block.mk false 0]).map Block.size) acts
    rw [List.map_append]
    exact hroomy
  | .pop :: acts, l, hsound, hroomy, d, h => by
    refine overflows_le (l := l.step width .pop) hsound.dropLast ?_ d h
    change Roomy width k (l.blocks.dropLast.map Block.size) acts
    rw [List.map_dropLast]
    exact hroomy
  | .put n :: acts, l, hsound, hall, d, h => by
    obtain ⟨hput, hroomy⟩ := hall
    obtain ⟨hsound', -, hfits⟩ := openFrom_spec width n hsound
    have hsizes := openFrom_sizes width n l.blocks 1 l.offset
    have hnext : Roomy width k ((l.put width n).blocks.map Block.size) acts := by
      have heq : (l.put width n).blocks.map Block.size = (l.blocks.map Block.size).map (· + n) := by
        rw [← hsizes, List.map_map]
        change List.map _ (List.map _ _) = _
        rw [List.map_map]
        rfl
      rw [heq]
      exact hroomy
    rcases List.mem_append.1 h with h | h
    · split at h
      · rename_i hover
        obtain rfl := List.mem_singleton.1 h
        refine Nat.le_of_not_lt fun hk => ?_
        have hne : l.blocks.map Block.size ≠ [] := by
          intro hnil
          rw [List.map_eq_nil_iff] at hnil
          rw [hnil] at hk
          exact Nat.not_lt_zero _ hk
        have hlast := List.getLast?_eq_some_getLast hne
        have hroom := hput (by rwa [List.length_map]) _ hlast
        rw [List.length_map] at hroom
        have hle := hfits _ hlast (by omega)
        have hover : width < (openFrom width n 1 l.blocks l.offset).2 + n := of_decide_eq_true hover
        omega
      · cases h
    · exact overflows_le (hsound'.grow n) hnext d h

end XCore.Blocks
