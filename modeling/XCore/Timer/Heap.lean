import Mathlib.Data.Finset.Card
import Mathlib.Data.Finset.Image
import Mathlib.Logic.Function.Basic
import Mathlib.Order.Interval.Finset.Nat
import XCore.Lib.BinaryHeap
import XCore.Lib.Loop

/-!
# The heap of libuv (`heap-inl.h`)

`struct heap` is a tree of nodes that point to each other. `Laid` says which node stands at which position of a complete
tree, and that the pointers are those of the positions.

- `walk_path`: the bits of a number lead to its position;
- `Laid.swap`: `heap_node_swap` exchanges two positions;
- `Holds`: the heap has the nodes of a set, in order; `heap_min` is the least of them (`Holds.min`), and `heap_insert`
  and `heap_remove` come to an end, follow no `NULL`, and add and remove a node (`Holds.insert`, `Holds.remove`).
-/

namespace XCore.Timer

open XCore.Loop XCore.BinaryHeap

/-- `struct heap_node`. -/
structure heap_node where
  left : Option Nat
  right : Option Nat
  parent : Option Nat

/-- `struct heap`, with the nodes in memory. -/
structure Heap where
  min : Option Nat
  nelts : Nat
  node : Nat → heap_node

/-- `heap_init`. -/
def Heap.init (node : Nat → heap_node) : Heap := ⟨none, 0, node⟩

/-- A `struct heap_node**`: `&heap->min`, or the address of a field of a node. -/
inductive Place
  | min
  | left (a : Nat)
  | right (a : Nat)

namespace Heap

variable (h : Heap)

/-- `heap_min`. -/
def heap_min : Option Nat := h.min

def setNode (a : Nat) (c : heap_node) : Heap := { h with node := Function.update h.node a c }

def setLeft (a : Nat) (p : Option Nat) : Heap := h.setNode a { h.node a with left := p }

def setRight (a : Nat) (p : Option Nat) : Heap := h.setNode a { h.node a with right := p }

def setParent (a : Nat) (p : Option Nat) : Heap := h.setNode a { h.node a with parent := p }

/-- `if (p != NULL) p->parent = a`. -/
def adopt (p : Option Nat) (a : Nat) : Heap :=
  match p with
  | some s => h.setParent s (some a)
  | none => h

/-- `*p`. -/
def read : Place → Option Nat
  | .min => h.min
  | .left a => (h.node a).left
  | .right a => (h.node a).right

/-- `*p = v`. -/
def write (p : Place) (v : Option Nat) : Heap :=
  match p with
  | .min => { h with min := v }
  | .left a => h.setLeft a v
  | .right a => h.setRight a v

/-- What points to a node under `parent` is to point to `a`. -/
def relink (parent : Option Nat) (old a : Nat) : Heap :=
  match parent with
  | none => { h with min := some a }
  | some q => if (h.node q).left = some old then h.setLeft q (some a) else h.setRight q (some a)

/-- `heap_node_swap`. -/
def heap_node_swap (parent child : Nat) : Heap :=
  let t := h.node parent
  let h := (h.setNode parent (h.node child)).setNode child t
  let h := h.setParent parent (some child)
  let h := if (h.node child).left = some child then
      let h := h.setLeft child (some parent)
      h.adopt (h.node child).right child
    else
      let h := h.setRight child (some parent)
      h.adopt (h.node child).left child
  let h := h.adopt (h.node parent).left parent
  let h := h.adopt (h.node parent).right parent
  h.relink (h.node child).parent parent child

/-- `for (k = 0; n >= 2; k += 1, n /= 2) path = (path << 1) | (n & 1);`, with `path` and `k`; an `unsigned int` is
halved at most 31 times. -/
def bits : Nat → Nat → Nat × Nat → Nat × Nat
  | 0, _, r => r
  | rounds + 1, n, (path, k) => if 2 ≤ n then bits rounds (n / 2) ((2 * path + n % 2) % 2 ^ 32, k + 1) else (path, k)

/-- The walk along a path: the last two places, or nothing where a `NULL` is followed. -/
def walk : Nat → Nat → Place → Place → Option (Place × Place)
  | _, 0, parent, child => some (parent, child)
  | path, k + 1, _, child => do
    let a ← h.read child
    walk (path / 2) k child (if path % 2 = 1 then .right a else .left a)

/-- The walk from the root to the place with a number. -/
def find (n : Nat) : Option (Place × Place) :=
  let r := bits 32 n (0, 0)
  h.walk r.1 r.2 .min .min

variable (less_than : Nat → Nat → Bool)

/-- A round of the walk up: `while (a->parent != NULL && less_than(a, a->parent)) heap_node_swap(heap, a->parent,
a)`. -/
def upRound (a : Nat) (h : Heap) : Round Heap Heap :=
  match (h.node a).parent with
  | none => .leave h
  | some p => if less_than a p then .next (h.heap_node_swap p a) else .leave h

/-- `if (p != NULL && less_than(p, smallest)) smallest = p`. -/
def smaller (p : Option Nat) (smallest : Nat) : Nat :=
  match p with
  | none => smallest
  | some c => if less_than c smallest then c else smallest

/-- A round of the walk down. -/
def downRound (child : Nat) (h : Heap) : Round Heap Heap :=
  let smallest := smaller less_than (h.node child).left child
  let smallest := smaller less_than (h.node child).right smallest
  if smallest = child then .leave h else .next (h.heap_node_swap child smallest)

/-- The first part of `heap_insert`: the node is linked behind the last. -/
def link (newnode : Nat) : Option Heap := do
  let h := h.setNode newnode ⟨none, none, none⟩
  let place ← h.find ((1 + h.nelts) % 2 ^ 32)
  let h := h.setParent newnode (h.read place.1)
  let h := h.write place.2 (some newnode)
  some { h with nelts := (h.nelts + 1) % 2 ^ 32 }

/-- `heap_insert`; a walk has no more rounds than the heap has nodes. -/
def heap_insert (newnode : Nat) : Option Heap := do
  let h ← h.link newnode
  run (upRound less_than newnode) (h.nelts + 1) h

/-- The second part of `heap_remove`: a node is replaced by another. -/
def replace (node child : Nat) : Heap :=
  let h := h.setNode child (h.node node)
  let h := h.adopt (h.node child).left child
  let h := h.adopt (h.node child).right child
  h.relink (h.node node).parent node child

/-- `heap_remove`. -/
def heap_remove (node : Nat) : Option Heap :=
  if h.nelts = 0 then some h
  else do
    let place ← h.find h.nelts
    let h := { h with nelts := h.nelts - 1 }
    let child := h.read place.2
    let h := h.write place.2 none
    if child = some node then
      if child = h.min then some { h with min := none } else some h
    else
      let child ← child
      let h := h.replace node child
      let h ← run (downRound less_than child) (h.nelts + 1) h
      run (upRound less_than child) (h.nelts + 1) h

/-- `heap_dequeue`; an empty heap is left as it is before its `NULL` is followed. -/
def heap_dequeue : Option Heap :=
  match h.heap_min with
  | some a => h.heap_remove less_than a
  | none => if h.nelts = 0 then some h else none

end Heap

/-! ## Positions -/

/-- A pointer to what stands at a position. -/
def slot (f : Nat → Nat) (n i : Nat) : Option Nat := if 1 ≤ i ∧ i ≤ n then some (f i) else none

/-- The node at a position. -/
def cell (f : Nat → Nat) (n i : Nat) : heap_node := ⟨slot f n (2 * i), slot f n (2 * i + 1), slot f n (i / 2)⟩

/-- The heap is a complete tree of `n` nodes, and `f i` stands at the position `i`. -/
structure Laid (h : Heap) (f : Nat → Nat) (n : Nat) : Prop where
  inj : ∀ i j, 1 ≤ i → i ≤ n → 1 ≤ j → j ≤ n → f i = f j → i = j
  node : ∀ i, 1 ≤ i → i ≤ n → h.node (f i) = cell f n i
  min : h.min = slot f n 1
  nelts : h.nelts = n

/-- The place of a position. -/
def placeOf (f : Nat → Nat) (i : Nat) : Place :=
  if i = 1 then .min else if i % 2 = 1 then .right (f (i / 2)) else .left (f (i / 2))

/-- The place above. -/
def parentOf (f : Nat → Nat) (i : Nat) : Place := if i = 1 then .min else placeOf f (i / 2)

variable {h : Heap} {f : Nat → Nat} {n i : Nat}

theorem slot_of_le (hi : 1 ≤ i) (hn : i ≤ n) : slot f n i = some (f i) := if_pos ⟨hi, hn⟩

theorem slot_of_lt (hn : n < i) : slot f n i = none := if_neg fun h => absurd h.2 (by omega)

@[simp] theorem slot_zero : slot f n 0 = none := if_neg fun h => absurd h.1 (by omega)

theorem Laid.slot_eq_iff {j : Nat} (hl : Laid h f n) (hj : 1 ≤ j) (hi : 1 ≤ i) (hn : i ≤ n) :
    slot f n j = some (f i) ↔ j = i := by
  constructor
  · intro he
    by_cases hjn : j ≤ n
    · rw [slot_of_le hj hjn] at he
      exact hl.inj j i hj hjn hi hn (Option.some.inj he)
    · rw [slot_of_lt (by omega)] at he
      cases he
  · rintro rfl
    exact slot_of_le hi hn

theorem Laid.read (hl : Laid h f n) (hi : 1 ≤ i) (hn : i / 2 ≤ n) : h.read (placeOf f i) = slot f n i := by
  unfold placeOf
  split
  · rename_i hone
    rw [hone]
    exact hl.min
  · split
    · have hpar : 2 * (i / 2) + 1 = i := by omega
      simp only [Heap.read, hl.node (i / 2) (by omega) hn, cell, hpar]
    · have hpar : 2 * (i / 2) = i := by omega
      simp only [Heap.read, hl.node (i / 2) (by omega) hn, cell, hpar]

/-- The bits of a number lead from the root to where the bits that are left lead from its position. -/
theorem Laid.walk_bits (hl : Laid h f n) :
    ∀ (rounds m path k : Nat), 1 ≤ m → m / 2 ≤ n → m < 2 ^ (rounds + 1) → path < 2 ^ k → k + rounds ≤ 32 →
    h.walk (Heap.bits rounds m (path, k)).1 (Heap.bits rounds m (path, k)).2 .min .min = h.walk path k (parentOf f m)
    (placeOf f m)
  | 0, m, path, k, hm, _, hlt, _, _ => by
    obtain rfl : m = 1 := by omega
    rfl
  | rounds + 1, m, path, k, hm, hn, hlt, hpath, hk => by
    unfold Heap.bits
    split
    · rename_i htwo
      have hpow : 2 ^ k ≤ 2 ^ 31 := Nat.pow_le_pow_right (by omega) (by omega)
      have hmod : (2 * path + m % 2) % 2 ^ 32 = 2 * path + m % 2 := Nat.mod_eq_of_lt (by omega)
      have hnext : 2 * path + m % 2 < 2 ^ (k + 1) := by omega
      rw [hmod, hl.walk_bits rounds (m / 2) _ (k + 1) (by omega) (by omega) (by omega) hnext (by omega)]
      have hread : h.read (placeOf f (m / 2)) = some (f (m / 2)) := by
        rw [hl.read (by omega) (by omega), slot_of_le (by omega) hn]
      have hhalf : (2 * path + m % 2) / 2 = path := by omega
      have hbit : (2 * path + m % 2) % 2 = m % 2 := by omega
      have hparent : parentOf f m = placeOf f (m / 2) := if_neg (by omega)
      have hplace : placeOf f m = if m % 2 = 1 then .right (f (m / 2)) else .left (f (m / 2)) := if_neg (by omega)
      simp only [Heap.walk, hread, hhalf, hbit, hparent, hplace, Option.bind_eq_bind, Option.bind_some]
    · obtain rfl : m = 1 := by omega
      rfl

/-- **The path** to a position. -/
theorem Laid.find (hl : Laid h f n) (hi : 1 ≤ i) (hn : i / 2 ≤ n) (hlt : i < 2 ^ 32) :
    h.find i = some (parentOf f i, placeOf f i) := by
  have hwalk := hl.walk_bits 32 i 0 0 hi hn (by omega) (by omega) (by omega)
  exact hwalk

/-! ## Exchanging two positions -/

/-- The nodes at the positions. -/
def Heap.At (h : Heap) (f : Nat → Nat) (n : Nat) (C : Nat → heap_node) : Prop := ∀ k, 1 ≤ k → k ≤ n → h.node (f k) = C k

theorem node_setNode {a b : Nat} {c : heap_node} : (h.setNode a c).node b = if b = a then c else h.node b :=
  Function.update_apply ..

section Cells

variable {g : Heap} {C : Nat → heap_node} (hinj : ∀ i j, 1 ≤ i → i ≤ n → 1 ≤ j → j ≤ n → f i = f j → i = j)

include hinj

theorem Heap.At.setNode (hg : g.At f n C) (hi : 1 ≤ i) (hn : i ≤ n) (c : heap_node) :
    (g.setNode (f i) c).At f n fun k => if k = i then c else C k := by
  intro k hk hkn
  simp only [Heap.setNode, Function.update_apply]
  by_cases hki : k = i
  · rw [if_pos hki, if_pos (congrArg f hki)]
  · rw [if_neg hki, if_neg fun he => hki (hinj k i hk hkn hi hn he)]
    exact hg k hk hkn

theorem Heap.At.setLeft (hg : g.At f n C) (hi : 1 ≤ i) (hn : i ≤ n) (p : Option Nat) :
    (g.setLeft (f i) p).At f n fun k => if k = i then { C i with left := p } else C k := by
  rw [Heap.setLeft, hg i hi hn]
  exact hg.setNode hinj hi hn _

theorem Heap.At.setRight (hg : g.At f n C) (hi : 1 ≤ i) (hn : i ≤ n) (p : Option Nat) :
    (g.setRight (f i) p).At f n fun k => if k = i then { C i with right := p } else C k := by
  rw [Heap.setRight, hg i hi hn]
  exact hg.setNode hinj hi hn _

theorem Heap.At.setParent (hg : g.At f n C) (hi : 1 ≤ i) (hn : i ≤ n) (p : Option Nat) :
    (g.setParent (f i) p).At f n fun k => if k = i then { C i with parent := p } else C k := by
  rw [Heap.setParent, hg i hi hn]
  exact hg.setNode hinj hi hn _

theorem Heap.At.adopt (hg : g.At f n C) (a : Nat) :
    (g.adopt (slot f n i) a).At f n fun k => if k = i then { C i with parent := some a } else C k := by
  by_cases hi : 1 ≤ i ∧ i ≤ n
  · rw [slot_of_le hi.1 hi.2]
    exact hg.setParent hinj hi.1 hi.2 _
  · intro k hk hkn
    rw [slot, if_neg hi]
    dsimp only
    rw [if_neg (by rintro rfl; exact hi ⟨hk, hkn⟩)]
    exact hg k hk hkn

/-- The pointer to the node at `i` is changed. -/
theorem Heap.At.relink {o : Nat} (hg : g.At f n C) (hn : i / 2 ≤ n)
    (hC : 2 ≤ i → ((C (i / 2)).left = some o ↔ i % 2 = 0)) (a : Nat) :
    (g.relink (slot f n (i / 2)) o a).At f n fun k =>
      if k = i / 2 then
        if i % 2 = 0 then { C (i / 2) with left := some a } else { C (i / 2) with right := some a }
      else C k := by
  by_cases htwo : 2 ≤ i
  · rw [slot_of_le (by omega) hn]
    dsimp only [Heap.relink]
    rw [hg (i / 2) (by omega) hn]
    by_cases heven : i % 2 = 0
    · rw [if_pos ((hC htwo).2 heven), if_pos heven]
      exact hg.setLeft hinj (by omega) hn _
    · rw [if_neg (mt (hC htwo).1 heven), if_neg heven]
      exact hg.setRight hinj (by omega) hn _
  · intro k hk hkn
    have hzero : i / 2 = 0 := by omega
    rw [hzero, slot_zero]
    dsimp only
    rw [if_neg (by omega)]
    exact hg k hk hkn

theorem Heap.At.write (hg : g.At f n C) (hi : 1 ≤ i) (hn : i / 2 ≤ n) (v : Option Nat) :
    (g.write (placeOf f i) v).At f n fun k =>
    if k = i / 2 then if i % 2 = 1 then { C (i / 2) with right := v } else { C (i / 2) with left := v } else C k := by
  unfold placeOf
  by_cases hone : i = 1
  · subst hone
    rw [if_pos rfl]
    intro k hk hkn
    dsimp only
    rw [if_neg (by omega)]
    exact hg k hk hkn
  · rw [if_neg hone]
    by_cases hodd : i % 2 = 1
    · simp only [if_pos hodd]
      exact hg.setRight hinj (by omega) hn v
    · simp only [if_neg hodd]
      exact hg.setLeft hinj (by omega) hn v

end Cells

theorem min_relink {g : Heap} {q : Option Nat} {a b : Nat} :
    (g.relink q a b).min = if q = none then some b else g.min := by
  cases q with
  | none => rfl
  | some q =>
    unfold Heap.relink
    dsimp only
    split <;> rfl

@[simp] theorem min_adopt {g : Heap} {q : Option Nat} {a : Nat} : (g.adopt q a).min = g.min := by cases q <;> rfl

@[simp] theorem nelts_adopt {g : Heap} {q : Option Nat} {a : Nat} : (g.adopt q a).nelts = g.nelts := by cases q <;> rfl

@[simp] theorem nelts_relink {g : Heap} {q : Option Nat} {a b : Nat} : (g.relink q a b).nelts = g.nelts := by
  cases q with
  | none => rfl
  | some q =>
    unfold Heap.relink
    dsimp only
    split <;> rfl

theorem nelts_heap_node_swap {a b : Nat} : (h.heap_node_swap a b).nelts = h.nelts := by
  unfold Heap.heap_node_swap
  simp only [nelts_relink, nelts_adopt]
  split <;> simp [Heap.setParent, Heap.setLeft, Heap.setRight, Heap.setNode]

/-- The nodes after `heap_node_swap`: the parent of `i` is down there, the node of `i` is up, and their neighbours point
to them. -/
def swapped (f : Nat → Nat) (n i k : Nat) : heap_node :=
  { left := if k = i / 2 / 2 ∧ i / 2 % 2 = 0 then some (f i) else if k = i ∧ i % 2 = 0 then some (f (i / 2))
      else if k = i then slot f n (2 * (i / 2)) else if k = i / 2 then slot f n (2 * i) else slot f n (2 * k)
    right := if k = i / 2 / 2 ∧ i / 2 % 2 = 1 then some (f i) else if k = i ∧ i % 2 = 1 then some (f (i / 2))
      else if k = i then slot f n (2 * (i / 2) + 1) else if k = i / 2 then slot f n (2 * i + 1)
      else slot f n (2 * k + 1)
    parent := if k = i then slot f n (i / 2 / 2) else if k / 2 = i then some (f (i / 2))
      else if k = i / 2 ∨ k / 2 = i / 2 then some (f i) else slot f n (k / 2) }

theorem Laid.swap_node (hl : Laid h f n)
    (hi : 2 ≤ i) (hn : i ≤ n) : (h.heap_node_swap (f (i / 2)) (f i)).At f n (swapped f n i) ∧
    (h.heap_node_swap (f (i / 2)) (f i)).min = if i / 2 = 1 then some (f i) else h.min := by
  have hinj := hl.inj
  have hp : 1 ≤ i / 2 := by omega
  have hpn : i / 2 ≤ n := by omega
  have hi1 : 1 ≤ i := by omega
  unfold Heap.heap_node_swap
  extract_lets t g1 g2 g3 g4 g5 g6 g7
  have hcell : h.At f n (cell f n) := hl.node
  have h1 : g1.At f n _ := (hcell.setNode hinj hp hpn (h.node (f i))).setNode hinj hi1 hn t
  have h2 : g2.At f n _ := h1.setParent hinj hp hpn (some (f i))
  have ht : t = cell f n (i / 2) := hl.node _ hp hpn
  have hne : i / 2 ≠ i := by omega
  rw [hl.node i hi1 hn, ht] at h2
  simp only [if_neg hne, if_pos] at h2
  have h5 : g5.At f n fun k => if k = i then ⟨if i % 2 = 0 then some (f (i / 2)) else slot f n (2 * (i / 2)),
      if i % 2 = 0 then slot f n (2 * (i / 2) + 1) else some (f (i / 2)), slot f n (i / 2 / 2)⟩
      else if k = i / 2 then ⟨slot f n (2 * i), slot f n (2 * i + 1), some (f i)⟩
      else if k / 2 = i / 2 then { cell f n k with parent := some (f i) } else cell f n k := by
    have hleft : (g2.node (f i)).left = slot f n (2 * (i / 2)) := by simp [h2 i hi1 hn, hne.symm, cell]
    by_cases heven : i % 2 = 0
    · have h3 : g3.At f n _ := h2.setLeft hinj hi1 hn (some (f (i / 2)))
      have hright : (g3.node (f i)).right = slot f n (2 * (i / 2) + 1) := by simp [h3 i hi1 hn, hne.symm, cell]
      have hcond : (g2.node (f i)).left = some (f i) := by rw [hleft, show 2 * (i / 2) = i by omega, slot_of_le hi1 hn]
      have heq : g5 = g3.adopt (slot f n (2 * (i / 2) + 1)) (f i) := by
        rw [← hright]
        exact if_pos hcond
      have h5 := h3.adopt (i := 2 * (i / 2) + 1) hinj (f i)
      rw [← heq] at h5
      intro k hk hkn
      rw [h5 k hk hkn]
      grind [cell]
    · have h4 : g4.At f n _ := h2.setRight hinj hi1 hn (some (f (i / 2)))
      have hleft' : (g4.node (f i)).left = slot f n (2 * (i / 2)) := by simp [h4 i hi1 hn, hne.symm, cell]
      have hcond : (g2.node (f i)).left ≠ some (f i) := by
        rw [hleft, Ne, hl.slot_eq_iff (by omega) hi1 hn]
        omega
      have heq : g5 = g4.adopt (slot f n (2 * (i / 2))) (f i) := by
        rw [← hleft']
        exact if_neg hcond
      have h5 := h4.adopt (i := 2 * (i / 2)) hinj (f i)
      rw [← heq] at h5
      intro k hk hkn
      rw [h5 k hk hkn]
      grind [cell]
  have hleft : (g5.node (f (i / 2))).left = slot f n (2 * i) := by simp [h5 (i / 2) hp hpn, hne]
  have h6 := h5.adopt (i := 2 * i) hinj (f (i / 2))
  rw [← hleft] at h6
  change g6.At f n _ at h6
  have hright : (g6.node (f (i / 2))).right = slot f n (2 * i + 1) := by
    simp [h6 (i / 2) hp hpn, hne, show i / 2 ≠ 2 * i by omega]
  have h7 := h6.adopt (i := 2 * i + 1) hinj (f (i / 2))
  rw [← hright] at h7
  change g7.At f n _ at h7
  have hparent : (g7.node (f i)).parent = slot f n (i / 2 / 2) := by
    simp [h7 i hi1 hn, show i ≠ 2 * i + 1 by omega, show i ≠ 2 * i by omega]
  rw [hparent]
  constructor
  · have h8 := h7.relink (i := i / 2) (o := f (i / 2)) hinj (by omega) (fun htwo => ?_) (f i)
    · intro k hk hkn
      rw [h8 k hk hkn]
      grind [cell, swapped]
    · have hiff := hl.slot_eq_iff (j := 2 * (i / 2 / 2)) (by omega) hp hpn
      grind [cell]
  · have hsame : g7.min = h.min := by
      simp only [g7, g6, min_adopt, g5]
      split <;> simp only [min_adopt] <;> rfl
    rw [min_relink, hsame]
    by_cases hone : i / 2 = 1
    · rw [if_pos hone, hone, if_pos slot_zero]
    · rw [if_neg hone, slot_of_le (by omega) (by omega), if_neg (Option.some_ne_none _)]

theorem slot_swap {p j : Nat} (hi : 1 ≤ i) (hn : i ≤ n) (hp : 1 ≤ p) (hpn : p ≤ n) :
    slot (f ∘ Equiv.swap i p) n j = if j = i then some (f p) else if j = p then some (f i) else slot f n j := by
  unfold slot
  rw [Function.comp_apply, Equiv.swap_apply_def]
  grind

/-- **Exchange**: after `heap_node_swap` the nodes have changed their positions. -/
theorem Laid.swap (hl : Laid h f n) (hi : 2 ≤ i) (hn : i ≤ n) :
    Laid (h.heap_node_swap (f (i / 2)) (f i)) (f ∘ Equiv.swap i (i / 2)) n where
  inj j k hj hjn hk hkn he := by
    have hrange : ∀ j, 1 ≤ j → j ≤ n → 1 ≤ Equiv.swap i (i / 2) j ∧ Equiv.swap i (i / 2) j ≤ n := by
      intro j hj hjn
      rw [Equiv.swap_apply_def]
      split
      · omega
      · split <;> omega
    exact (Equiv.swap i (i / 2)).injective
      (hl.inj _ _ (hrange j hj hjn).1 (hrange j hj hjn).2 (hrange k hk hkn).1 (hrange k hk hkn).2 he)
  node k hk hkn := by
    obtain ⟨hnode, -⟩ := hl.swap_node hi hn
    unfold cell
    rw [slot_swap (by omega) hn (by omega) (by omega), slot_swap (by omega) hn (by omega) (by omega),
      slot_swap (by omega) hn (by omega) (by omega), Function.comp_apply, Equiv.swap_apply_def]
    split
    · rw [hnode _ (by omega) (by omega)]
      grind [swapped]
    · split
      · rw [hnode _ (by omega) hn]
        grind [swapped]
      · rw [hnode k hk hkn]
        grind [swapped]
  min := by
    rw [(hl.swap_node hi hn).2, slot_swap (by omega) hn (by omega) (by omega), hl.min]
    split
    · rw [if_neg (by omega), if_pos (by omega)]
    · rw [if_neg (by omega), if_neg (by omega)]
  nelts := nelts_heap_node_swap.trans hl.nelts

/-! ## The walks -/

/-- The nodes of a heap. -/
def nodes (f : Nat → Nat) (n : Nat) : Finset Nat := (Finset.Icc 1 n).image f

theorem mem_nodes {a : Nat} : a ∈ nodes f n ↔ ∃ j, 1 ≤ j ∧ j ≤ n ∧ f j = a := by
  simp [nodes, and_assoc]

theorem nodes_succ : nodes f (n + 1) = insert (f (n + 1)) (nodes f n) := by
  ext a
  rw [Finset.mem_insert, mem_nodes, mem_nodes]
  constructor
  · rintro ⟨j, hj, hjn, rfl⟩
    by_cases hjl : j = n + 1
    · exact .inl (congrArg f hjl)
    · exact .inr ⟨j, hj, by omega, rfl⟩
  · rintro (rfl | ⟨j, hj, hjn, rfl⟩)
    · exact ⟨n + 1, by omega, le_rfl, rfl⟩
    · exact ⟨j, hj, by omega, rfl⟩

/-- The last node in the place of another. -/
theorem Laid.nodes_update (hl : Laid h f (n + 1)) (hi : 1 ≤ i) (hin : i ≤ n) :
    nodes (Function.update f i (f (n + 1))) n = (nodes f (n + 1)).erase (f i) := by
  ext a
  rw [Finset.mem_erase, mem_nodes, mem_nodes]
  constructor
  · rintro ⟨j, hj, hjn, rfl⟩
    by_cases hji : j = i
    · rw [hji, Function.update_self]
      exact ⟨fun he => absurd (hl.inj _ _ (by omega) le_rfl hi (by omega) he) (by omega), n + 1, by omega, le_rfl, rfl⟩
    · rw [Function.update_of_ne hji]
      exact ⟨fun he => hji (hl.inj _ _ hj (by omega) hi (by omega) he), j, hj, by omega, rfl⟩
  · rintro ⟨hne, j, hj, hjn, rfl⟩
    by_cases hjl : j = n + 1
    · exact ⟨i, hi, hin, by rw [Function.update_self, hjl]⟩
    · exact ⟨j, hj, by omega, Function.update_of_ne (fun he => hne (congrArg f he)) _ _⟩

theorem nodes_swap {p : Nat} (hi : 1 ≤ i) (hn : i ≤ n) (hp : 1 ≤ p) (hpn : p ≤ n) :
    nodes (f ∘ Equiv.swap i p) n = nodes f n := by
  have hrange : ∀ j, 1 ≤ j → j ≤ n → 1 ≤ Equiv.swap i p j ∧ Equiv.swap i p j ≤ n := by
    intro j hj hjn
    rw [Equiv.swap_apply_def]
    grind
  ext a
  rw [mem_nodes, mem_nodes]
  constructor
  · rintro ⟨j, hj, hjn, rfl⟩
    exact ⟨Equiv.swap i p j, (hrange j hj hjn).1, (hrange j hj hjn).2, rfl⟩
  · rintro ⟨j, hj, hjn, rfl⟩
    exact ⟨Equiv.swap i p j, (hrange j hj hjn).1, (hrange j hj hjn).2, by simp⟩

section Walks

variable {K : Type*} [LinearOrder K] {key : Nat → K} {less_than : Nat → Nat → Bool}
    (hless : ∀ a b, less_than a b = true ↔ key a < key b)

include hless

/-- **The walk up** from a node that fits under itself. -/
theorem Laid.up : ∀ (rounds : Nat) {h : Heap} {f : Nat → Nat} {i : Nat}, Laid h f n → 1 ≤ i → i ≤ n → i ≤ rounds →
    OrderedExcept key f n i → Below key f n i →
    ∃ h' g, run (Heap.upRound less_than (f i)) rounds h = some h' ∧ Laid h' g n ∧ Ordered key g n ∧
    nodes g n = nodes f n
  | 0, h, f, i, _, hi, _, hrounds, _, _ => by omega
  | rounds + 1, h, f, i, hl, hi, hn, hrounds, hexc, hbelow => by
    have hparent : (h.node (f i)).parent = slot f n (i / 2) := by rw [hl.node i hi hn, cell]
    by_cases hone : i = 1
    · have hleave : Heap.upRound less_than (f i) h = .leave h := by
        unfold Heap.upRound
        rw [hparent, hone, show 1 / 2 = 0 from rfl, slot_zero]
      refine ⟨h, f, ?_, hl, hexc.close hbelow fun htwo => by omega, rfl⟩
      rw [run, hleave]
    · have hround : Heap.upRound less_than (f i) h =
          if less_than (f i) (f (i / 2)) then .next (h.heap_node_swap (f (i / 2)) (f i)) else .leave h := by
        unfold Heap.upRound
        rw [hparent, slot_of_le (by omega) (by omega)]
      by_cases hlt : key (f i) < key (f (i / 2))
      · obtain ⟨hexc', hbelow'⟩ := hexc.up hbelow (by omega) hn hlt
        have hswap := hl.swap (i := i) (by omega) hn
        obtain ⟨h', g, hrun, hl', hord, hnodes⟩ :=
          Laid.up rounds hswap (i := i / 2) (by omega) (by omega) (by omega) hexc' hbelow'
        rw [comp_swap_right] at hrun
        refine ⟨h', g, ?_, hl', hord, hnodes.trans (nodes_swap hi hn (by omega) (by omega))⟩
        rw [run, hround, if_pos ((hless _ _).2 hlt)]
        exact hrun
      · refine ⟨h, f, ?_, hl, hexc.close hbelow fun _ => not_lt.1 hlt, rfl⟩
        rw [run, hround, if_neg (mt (hless _ _).1 hlt)]

/-- The smaller of two nodes, by its position. -/
theorem smaller_slot {j c : Nat} (hj : 1 ≤ j) :
    Heap.smaller less_than (slot f n j) (f c) = f (if j ≤ n ∧ key (f j) < key (f c) then j else c) := by
  by_cases hn : j ≤ n
  · rw [slot_of_le hj hn, Heap.smaller]
    by_cases hlt : key (f j) < key (f c)
    · rw [if_pos ((hless _ _).2 hlt), if_pos ⟨hn, hlt⟩]
    · rw [if_neg (mt (hless _ _).1 hlt), if_neg fun h => hlt h.2]
  · rw [slot_of_lt (by omega), if_neg fun h => hn h.1]
    rfl

/-- **The walk down** from a position whose node is new. -/
theorem Laid.down : ∀ (rounds : Nat) {h : Heap} {f : Nat → Nat} {i : Nat}, Laid h f n → 1 ≤ i → i ≤ n →
    n + 1 ≤ rounds + i → OrderedExcept key f n i →
    ∃ h' g j, run (Heap.downRound less_than (f i)) rounds h = some h' ∧ Laid h' g n ∧ nodes g n = nodes f n ∧ 1 ≤ j ∧
    j ≤ n ∧ g j = f i ∧
      OrderedExcept key g n j ∧ Below key g n j
  | 0, h, f, i, _, hi, _, hrounds, _ => by omega
  | rounds + 1, h, f, i, hl, hi, hn, hrounds, hexc => by
    obtain ⟨c₁, hc₁⟩ : ∃ c, c = if 2 * i ≤ n ∧ key (f (2 * i)) < key (f i) then 2 * i else i := ⟨_, rfl⟩
    obtain ⟨c, hc⟩ : ∃ c, c = if 2 * i + 1 ≤ n ∧ key (f (2 * i + 1)) < key (f c₁) then 2 * i + 1 else c₁ := ⟨_, rfl⟩
    have hround : Heap.downRound less_than (f i) h = if f c = f i then .leave h else .next
        (h.heap_node_swap (f i) (f c)) := by
      unfold Heap.downRound
      rw [hl.node i hi hn, cell]
      dsimp only
      rw [smaller_slot hless (by omega), ← hc₁, smaller_slot hless (by omega), ← hc]
    have hle : key (f c) ≤ key (f c₁) ∧ key (f c₁) ≤ key (f i) := by
      constructor
      · rw [hc]
        split
        · rename_i h
          exact h.2.le
        · exact le_rfl
      · rw [hc₁]
        split
        · rename_i h
          exact h.2.le
        · exact le_rfl
    -- no child comes before the node that is taken
    have hmin : ∀ j, j ≤ n → j / 2 = i → key (f c) ≤ key (f j) := by
      intro j hjn hj
      obtain rfl | rfl : j = 2 * i ∨ j = 2 * i + 1 := by omega
      · refine hle.1.trans ?_
        rw [hc₁]
        split
        · exact le_rfl
        · rename_i h
          exact not_lt.1 fun hlt => h ⟨hjn, hlt⟩
      · rw [hc]
        split
        · exact le_rfl
        · rename_i h
          exact not_lt.1 fun hlt => h ⟨hjn, hlt⟩
    by_cases hci : c = i
    · refine ⟨h, f, i, ?_, hl, rfl, hi, hn, rfl, hexc, fun j hjn hj => ?_⟩
      · rw [run, hround, if_pos (congrArg f hci)]
      · have hfirst := hmin j hjn hj
        rwa [hci] at hfirst
    · have hchild : c ≤ n ∧ c / 2 = i := by
        rw [hc] at hci ⊢
        rw [hc₁] at hci ⊢
        grind
      obtain ⟨hcn, rfl⟩ := hchild
      have hswap := hl.swap (i := c) (by omega) hcn
      obtain ⟨h', g, j, hrun, hl', hnodes, hj, hjn, hgj, hexc', hbelow⟩ :=
        Laid.down rounds hswap (i := c) (by omega) hcn (by omega) (hexc.down (by omega) hcn hmin)
      rw [comp_swap_left] at hrun hgj
      refine ⟨h', g, j, ?_, hl', hnodes.trans (nodes_swap (by omega) hcn (by omega) (by omega)), hj, hjn, hgj,
        hexc', hbelow⟩
      have hne : f c ≠ f (c / 2) := fun he => hci (hl.inj _ _ (by omega) hcn (by omega) hn he)
      rw [run, hround, if_neg hne]
      exact hrun

end Walks

/-! ## The operations -/

section Operations

variable {K : Type*} [LinearOrder K] {key : Nat → K}

/-- The heap has the nodes of a set, in order. -/
def Heap.Holds (h : Heap) (key : Nat → K) (S : Finset Nat) : Prop := ∃ f n, Laid h f n ∧ Ordered key f n ∧ nodes f n = S

variable {S : Finset Nat} {a : Nat}

theorem Heap.holds_init (node : Nat → heap_node) : (Heap.init node).Holds key ∅ := by
  refine ⟨id, 0, ⟨fun i j _ _ _ _ he => he, fun i hi hn => ?_, rfl, rfl⟩, fun j hj hn => ?_, rfl⟩ <;> omega

theorem Laid.card (hl : Laid h f n) : (nodes f n).card = n := by
  have hinj : Set.InjOn f (Finset.Icc 1 n) := fun i hi j hj he => by
    simp only [Finset.coe_Icc, Set.mem_Icc] at hi hj
    exact hl.inj i j hi.1 hi.2 hj.1 hj.2 he
  rw [nodes, Finset.card_image_of_injOn hinj, Nat.card_Icc, Nat.add_sub_cancel]

theorem Heap.Holds.nelts_eq (hh : h.Holds key S) : h.nelts = S.card := by
  obtain ⟨f, n, hl, -, rfl⟩ := hh
  rw [hl.nelts, hl.card]

theorem Heap.Holds.congr {key' : Nat → K} (hh : h.Holds key S) (hkey : ∀ a ∈ S, key' a = key a) : h.Holds key' S := by
  obtain ⟨f, n, hl, hord, rfl⟩ := hh
  refine ⟨f, n, hl, fun j hj hn => ?_, rfl⟩
  rw [hkey _ (mem_nodes.2 ⟨j, by omega, hn, rfl⟩), hkey _ (mem_nodes.2 ⟨j / 2, by omega, by omega, rfl⟩)]
  exact hord j hj hn

theorem Heap.Holds.min_eq_none (hh : h.Holds key S) : h.heap_min = none ↔ S = ∅ := by
  obtain ⟨f, n, hl, -, rfl⟩ := hh
  rw [Heap.heap_min, hl.min, ← Finset.card_eq_zero, hl.card]
  by_cases hn : 1 ≤ n
  · rw [slot_of_le le_rfl hn]
    exact iff_of_false (Option.some_ne_none _) (by omega)
  · rw [slot_of_lt (by omega)]
    exact iff_of_true rfl (by omega)

/-- **The least node** is `heap_min`. -/
theorem Heap.Holds.min_le (hh : h.Holds key S) (ha : h.heap_min = some a) : a ∈ S ∧ ∀ b ∈ S, key a ≤ key b := by
  obtain ⟨f, n, hl, hord, rfl⟩ := hh
  rw [Heap.heap_min, hl.min] at ha
  by_cases hn : 1 ≤ n
  · rw [slot_of_le le_rfl hn, Option.some.injEq] at ha
    subst ha
    refine ⟨mem_nodes.2 ⟨1, le_rfl, hn, rfl⟩, fun b hb => ?_⟩
    obtain ⟨j, hj, hjn, rfl⟩ := mem_nodes.1 hb
    exact hord.root_le j hj hjn
  · rw [slot_of_lt (by omega)] at ha
    cases ha

theorem slot_append {j : Nat} :
    slot (Function.update f (n + 1) a) (n + 1) j = if j = n + 1 then some a else slot f n j := by
  unfold slot
  rw [Function.update_apply]
  grind

theorem slot_update {j : Nat} (hi : 1 ≤ i) (hn : i ≤ n) :
    slot (Function.update f i a) n j = if j = i then some a else slot f n j := by
  unfold slot
  rw [Function.update_apply]
  grind

theorem min_write {g : Heap} {v : Option Nat} : (g.write (placeOf f i) v).min = if i = 1 then v else g.min := by
  unfold placeOf
  split
  · rfl
  · split <;> rfl

/-- The nodes and a new one at a position have different places. -/
theorem Laid.inj_update (hl : Laid h f n) (ha : a ∉ nodes f n) {m : Nat} (hm : ∀ j, j ≤ m → j ≠ i → j ≤ n) (j k : Nat)
    (hj : 1 ≤ j) (hjm : j ≤ m)
    (hk : 1 ≤ k) (hkm : k ≤ m) (he : Function.update f i a j = Function.update f i a k) : j = k := by
  have hne : ∀ j, 1 ≤ j → j ≤ n → f j ≠ a := fun j hj hjn he => ha (mem_nodes.2 ⟨j, hj, hjn, he⟩)
  have := hl.inj j k hj
  rw [Function.update_apply, Function.update_apply] at he
  grind

theorem nelts_write {g : Heap} {p : Place} {v : Option Nat} : (g.write p v).nelts = g.nelts := by cases p <;> rfl

/-- A node is linked behind the last. -/
theorem Laid.link (hl : Laid h f n) (ha : a ∉ nodes f n) (hn : n + 1 < 2 ^ 32) :
    ∃ h', h.link a = some h' ∧ Laid h' (Function.update f (n + 1) a) (n + 1) := by
  obtain ⟨g₁, h₁⟩ : ∃ g, g = h.setNode a ⟨none, none, none⟩ := ⟨_, rfl⟩
  obtain ⟨g₂, h₂⟩ : ∃ g, g = g₁.setParent a (slot f n ((n + 1) / 2)) := ⟨_, rfl⟩
  obtain ⟨g₃, h₃⟩ : ∃ g, g = g₂.write (placeOf f (n + 1)) (some a) := ⟨_, rfl⟩
  have hfresh : Laid g₁ f n := by
    refine ⟨hl.inj, fun k hk hkn => ?_, h₁ ▸ hl.min, h₁ ▸ hl.nelts⟩
    rw [h₁, node_setNode, if_neg fun he => ha (mem_nodes.2 ⟨k, hk, hkn, he⟩)]
    exact hl.node k hk hkn
  have hnelts : g₃.nelts = n := by
    rw [h₃, nelts_write, h₂]
    exact hfresh.nelts
  refine ⟨{ g₃ with nelts := n + 1 }, ?_, hl.inj_update (i := n + 1) (m := n + 1) ha (by omega),
    fun k hk hkn => ?_, ?_, rfl⟩
  · have hread : g₁.read (parentOf f (n + 1)) = slot f n ((n + 1) / 2) := by
      unfold parentOf
      split
      · rename_i hone
        obtain rfl : n = 0 := by omega
        exact hfresh.min
      · exact hfresh.read (by omega) (by omega)
    have hsize : (1 + g₁.nelts) % 2 ^ 32 = n + 1 := by rw [hfresh.nelts, Nat.mod_eq_of_lt (by omega), Nat.add_comm]
    unfold Heap.link
    dsimp only
    rw [← h₁, hsize, hfresh.find (by omega) (by omega) hn]
    simp only [Option.bind_eq_bind, Option.bind_some, hread, ← h₂, ← h₃, hnelts, Nat.mod_eq_of_lt hn]
  · have hnode : g₂.At (Function.update f (n + 1) a) (n + 1) fun k =>
        if k = n + 1 then ⟨none, none, slot f n ((n + 1) / 2)⟩ else cell f n k := by
      intro k hk hkn
      rw [h₂, Heap.setParent, node_setNode, h₁, node_setNode, if_pos rfl]
      by_cases hkl : k = n + 1
      · simp [hkl]
      · have hka : f k ≠ a := fun he => ha (mem_nodes.2 ⟨k, hk, by omega, he⟩)
        dsimp only
        rw [if_neg hkl, Function.update_of_ne hkl, if_neg hka, node_setNode, if_neg hka]
        exact hl.node k hk (by omega)
    have hplace : placeOf f (n + 1) = placeOf (Function.update f (n + 1) a) (n + 1) := by
      unfold placeOf
      grind
    have hwrite := hnode.write (hl.inj_update ha (by omega)) (i := n + 1) (by omega) (by omega) (some a)
    rw [← hplace, ← h₃] at hwrite
    refine (hwrite k hk hkn).trans ?_
    unfold cell
    rw [slot_append, slot_append, slot_append]
    grind [slot]
  · dsimp only
    rw [slot_append, h₃, min_write, h₂, h₁, show
      ((h.setNode a ⟨none, none, none⟩).setParent a (slot f n ((n + 1) / 2))).min = h.min from rfl, hl.min]
    grind

/-- The last node is taken away. -/
theorem Laid.pop (hl : Laid h f (n + 1)) : Laid ({ h with nelts := n }.write (placeOf f (n + 1)) none) f n := by
  have hinj : ∀ i j, 1 ≤ i → i ≤ n → 1 ≤ j → j ≤ n → f i = f j → i = j := fun i j hi hin hj hjn =>
    hl.inj i j hi (by omega) hj (by omega)
  have hnode : ({ h with nelts := n } : Heap).At f n (cell f (n + 1)) := fun k hk hkn => hl.node k hk (by omega)
  refine ⟨hinj, fun k hk hkn => ?_, ?_, ?_⟩
  · rw [hnode.write hinj (i := n + 1) (by omega) (by omega) none k hk hkn]
    grind [cell, slot]
  · rw [min_write]
    dsimp only
    rw [hl.min]
    grind [slot]
  · unfold placeOf
    split
    · rfl
    · split <;> rfl

/-- Another node is put in the place of a node. -/
theorem Laid.replace (hl : Laid h f n) (hi : 1 ≤ i) (hn : i ≤ n) (ha : a ∉ nodes f n) :
    Laid (h.replace (f i) a) (Function.update f i a) n := by
  obtain ⟨g₁, h₁⟩ : ∃ g, g = h.setNode a (h.node (f i)) := ⟨_, rfl⟩
  obtain ⟨g₂, h₂⟩ : ∃ g, g = g₁.adopt (g₁.node a).left a := ⟨_, rfl⟩
  obtain ⟨g₃, h₃⟩ : ∃ g, g = g₂.adopt (g₂.node a).right a := ⟨_, rfl⟩
  obtain ⟨g₄, h₄⟩ : ∃ g, g = g₃.relink (g₃.node (f i)).parent (f i) a := ⟨_, rfl⟩
  have hreplace : h.replace (f i) a = g₄ := by rw [h₄, h₃, h₂, h₁, Heap.replace]
  rw [hreplace]
  have hinj := hl.inj_update (i := i) (m := n) ha (by omega)
  have hself : Function.update f i a i = a := Function.update_self ..
  have hne : ∀ j, 1 ≤ j → j ≤ n → Function.update f i a j ≠ f i := fun j hj hjn he => by
    by_cases hji : j = i
    · rw [hji, hself] at he
      exact ha (mem_nodes.2 ⟨i, hi, hn, he.symm⟩)
    · rw [Function.update_of_ne hji] at he
      exact hji (hl.inj j i hj hjn hi hn he)
  have hslot : ∀ j, j ≠ i → slot f n j = slot (Function.update f i a) n j := fun j hj => by
    rw [slot_update hi hn, if_neg hj]
  have hnode : h.node (f i) = cell f n i := hl.node i hi hn
  have hat₁ : g₁.At (Function.update f i a) n (cell f n) := by
    intro k hk hkn
    rw [h₁, node_setNode]
    by_cases hki : k = i
    · rw [hki, hself, if_pos rfl, hnode]
    · have hka : f k ≠ a := fun he => ha (mem_nodes.2 ⟨k, hk, hkn, he⟩)
      rw [Function.update_of_ne hki, if_neg hka]
      exact hl.node k hk hkn
  have hat₁' : g₁.node (f i) = cell f n i := by
    rw [h₁, node_setNode, if_neg fun he => ha (mem_nodes.2 ⟨i, hi, hn, he⟩)]
    exact hnode
  have hadopt : ∀ {g : Heap} (j : Nat), (g.adopt (slot (Function.update f i a) n j) a).node (f i) = g.node (f i) := by
    intro g j
    by_cases hj : 1 ≤ j ∧ j ≤ n
    · rw [slot_of_le hj.1 hj.2]
      exact Function.update_of_ne (hne j hj.1 hj.2).symm _ _
    · rw [slot, if_neg hj]
      rfl
  have hleft : (g₁.node a).left = slot (Function.update f i a) n (2 * i) := by
    have hcell := hat₁ i hi hn
    rw [hself] at hcell
    rw [hcell, cell, hslot (2 * i) (by omega)]
  rw [hleft] at h₂
  have hat₂ := hat₁.adopt (i := 2 * i) hinj a
  rw [← h₂] at hat₂
  have hright : (g₂.node a).right = slot (Function.update f i a) n (2 * i + 1) := by
    have hcell := hat₂ i hi hn
    rw [hself] at hcell
    simp only [hcell, if_neg (show i ≠ 2 * i by omega), cell, hslot (2 * i + 1) (by omega)]
  rw [hright] at h₃
  have hat₃ := hat₂.adopt (i := 2 * i + 1) hinj a
  rw [← h₃] at hat₃
  have hparent : (g₃.node (f i)).parent = slot (Function.update f i a) n (i / 2) := by
    rw [h₃, hadopt, h₂, hadopt, hat₁', cell, hslot (i / 2) (by omega)]
  rw [hparent] at h₄
  have hat₄ := hat₃.relink (i := i) (o := f i) hinj (by omega) (fun htwo => ?_) a
  · rw [← h₄] at hat₄
    refine ⟨hinj, fun k hk hkn => ?_, ?_, ?_⟩
    · rw [hat₄ k hk hkn]
      have h2 : ∀ j, slot (Function.update f i a) n j = if j = i then some a else slot f n j :=
        fun j => slot_update hi hn
      grind [cell]
    · rw [h₄, min_relink, h₃, min_adopt, h₂, min_adopt, h₁, slot_update hi hn, slot_update hi hn,
        show (h.setNode a (h.node (f i))).min = h.min from rfl, hl.min]
      grind [slot]
    · rw [h₄, nelts_relink, h₃, nelts_adopt, h₂, nelts_adopt, h₁]
      exact hl.nelts
  · have hiff := hl.slot_eq_iff (j := 2 * (i / 2)) (by omega) hi hn
    grind [cell]

variable {less_than : Nat → Nat → Bool} (hless : ∀ a b, less_than a b = true ↔ key a < key b)

include hless

/-- **Insertion** of a node that is not there. -/
theorem Heap.Holds.insert (hh : h.Holds key S) (ha : a ∉ S) (hcard : S.card + 1 < 2 ^ 32) :
    ∃ h', h.heap_insert less_than a = some h' ∧ h'.Holds key (insert a S) := by
  obtain ⟨f, n, hl, hord, rfl⟩ := hh
  rw [hl.card] at hcard
  obtain ⟨h₁, hlink, hl₁⟩ := hl.link ha hcard
  obtain ⟨hexc, hbelow⟩ := hord.append (g := Function.update f (n + 1) a) fun j _ hj =>
    Function.update_of_ne (by omega) _ _
  obtain ⟨h', g, hrun, hl', hord', hnodes⟩ := hl₁.up hless (n + 2) (i := n + 1) (by omega) le_rfl (by omega) hexc hbelow
  rw [Function.update_self] at hrun
  refine ⟨h', ?_, g, n + 1, hl', hord', ?_⟩
  · unfold Heap.heap_insert
    rw [hlink, Option.bind_eq_bind, Option.bind_some, hl₁.nelts]
    exact hrun
  · have hsame : nodes (Function.update f (n + 1) a) n = nodes f n :=
      Finset.image_congr fun j hj => Function.update_of_ne (by simp at hj; omega) _ _
    rw [hnodes, nodes_succ, Function.update_self, hsame]

/-- **Removal** of a node. -/
theorem Heap.Holds.remove (hh : h.Holds key S) (ha : a ∈ S) (hcard : S.card < 2 ^ 32) :
    ∃ h', h.heap_remove less_than a = some h' ∧ h'.Holds key (S.erase a) := by
  obtain ⟨f, n, hl, hord, rfl⟩ := hh
  rw [hl.card] at hcard
  obtain ⟨i, hi, hin, rfl⟩ := mem_nodes.1 ha
  obtain ⟨n, rfl⟩ : ∃ m, n = m + 1 := ⟨n - 1, by omega⟩
  have hread : ({ h with nelts := n } : Heap).read (placeOf f (n + 1)) = some (f (n + 1)) := by
    have hlast := hl.read (i := n + 1) (by omega) (by omega)
    rw [slot_of_le (by omega) le_rfl] at hlast
    rw [← hlast]
    cases placeOf f (n + 1) <;> rfl
  obtain ⟨h₁, hh₁⟩ : ∃ g, g = ({ h with nelts := n } : Heap).write (placeOf f (n + 1)) none := ⟨_, rfl⟩
  have hl₁ : Laid h₁ f n := hh₁ ▸ hl.pop
  have hlast : f (n + 1) ∉ nodes f n := fun hmem => by
    obtain ⟨j, hj, hjn, he⟩ := mem_nodes.1 hmem
    have := hl.inj j (n + 1) hj (by omega) (by omega) le_rfl he
    omega
  have hremove : h.heap_remove less_than (f i) =
      if f (n + 1) = f i then if some (f (n + 1)) = h₁.min then some { h₁ with min := none } else some h₁
      else (run (Heap.downRound less_than (f (n + 1))) ((h₁.replace (f i) (f (n + 1))).nelts + 1)
        (h₁.replace (f i) (f (n + 1)))).bind
        fun h => run (Heap.upRound less_than (f (n + 1))) (h.nelts + 1) h := by
    unfold Heap.heap_remove
    rw [if_neg (by rw [hl.nelts]; omega), hl.nelts, hl.find (by omega) (by omega) hcard]
    simp only [Option.bind_eq_bind, Option.bind_some, Nat.add_sub_cancel, hread, ← hh₁, Option.some.injEq]
  rw [hremove]
  by_cases hlasti : i = n + 1
  · subst hlasti
    have hmin : some (f (n + 1)) ≠ h₁.min := fun he => by
      rw [hl₁.min] at he
      by_cases hn : 1 ≤ n
      · rw [slot_of_le le_rfl hn] at he
        exact hlast (mem_nodes.2 ⟨1, le_rfl, hn, (Option.some.inj he).symm⟩)
      · rw [slot_of_lt (by omega)] at he
        cases he
    rw [if_pos rfl, if_neg hmin, nodes_succ, Finset.erase_insert hlast]
    exact ⟨h₁, rfl, f, n, hl₁, fun j hj hn => hord j hj (by omega), rfl⟩
  · have hne : f (n + 1) ≠ f i := fun he => hlasti (hl.inj _ _ hi hin (by omega) le_rfl he.symm)
    have hl₂ := hl₁.replace hi (by omega) hlast
    have hexc : OrderedExcept key (Function.update f i (f (n + 1))) n i :=
      hord.replace (by omega) fun j _ _ hj => Function.update_of_ne hj _ _
    obtain ⟨h₃, g₃, j, hdown, hl₃, hnodes₃, hj, hjn, hgj, hexc₃, hbelow⟩ :=
      hl₂.down hless (n + 1) hi (by omega) (by omega) hexc
    obtain ⟨h', g, hup, hl', hord', hnodes⟩ := hl₃.up hless (n + 1) hj hjn (by omega) hexc₃ hbelow
    rw [Function.update_self] at hdown hgj
    rw [hgj] at hup
    refine ⟨h', ?_, g, n, hl', hord', ?_⟩
    · rw [if_neg hne, hl₂.nelts, hdown, Option.bind_some, hl₃.nelts, hup]
    · rw [hnodes, hnodes₃]
      exact hl.nodes_update hi (by omega)

/-- **Removal of the least** node. -/
theorem Heap.Holds.dequeue (hh : h.Holds key S) (hcard : S.card < 2 ^ 32) :
    ∃ h', h.heap_dequeue less_than = some h' ∧ ∃ S', h'.Holds key S' ∧
      (S = ∅ ∧ S' = ∅ ∨ ∃ a ∈ S, (∀ b ∈ S, key a ≤ key b) ∧ S' = S.erase a) := by
  unfold Heap.heap_dequeue
  cases hmin : h.heap_min with
  | none =>
    obtain rfl := hh.min_eq_none.1 hmin
    refine ⟨h, if_pos hh.nelts_eq, ∅, hh, .inl ⟨rfl, rfl⟩⟩
  | some a =>
    obtain ⟨ha, hle⟩ := hh.min_le hmin
    obtain ⟨h', hremove, hh'⟩ := hh.remove hless ha hcard
    exact ⟨h', hremove, _, hh', .inr ⟨a, ha, hle, rfl⟩⟩

end Operations

end XCore.Timer
