import Mathlib.Logic.Function.Basic
import Mathlib.Data.List.Nodup

/-!
# Rings of nodes

A list whose nodes point to the next and to the previous one, closed by a head that is no element of it.

- `Ring m h xs`: the elements behind the head `h` are `xs`;
- `Changes m m' s`: nothing is written outside of `s`, so a ring that does not meet it is kept (`Ring.frame`);
- one lemma for each operation: `ring_init`, `Ring.insertHead`, `Ring.insertTail`, `Ring.remove`, `Ring.move`.
-/

namespace XCore.Rings

variable {α : Type} [DecidableEq α]

/-- What the nodes point to. -/
structure Links (α : Type) where
  next : α → α
  prev : α → α

namespace Links

variable (m : Links α)

def setNext (a b : α) : Links α := { m with next := Function.update m.next a b }

def setPrev (a b : α) : Links α := { m with prev := Function.update m.prev a b }

/-- A ring without elements. -/
def init (q : α) : Links α := (m.setNext q q).setPrev q q

def insertHead (h q : α) : Links α :=
  let m := m.setNext q (m.next h)
  let m := m.setPrev q h
  let m := m.setPrev (m.next q) q
  m.setNext h q

def insertTail (h q : α) : Links α :=
  let m := m.setNext q h
  let m := m.setPrev q (m.prev h)
  let m := m.setNext (m.prev q) q
  m.setPrev h q

def remove (q : α) : Links α :=
  let m := m.setNext (m.prev q) (m.next q)
  m.setPrev (m.next q) (m.prev q)

/-- The elements from `q` on get the head `n`. -/
def split (h q n : α) : Links α :=
  let m := m.setPrev n (m.prev h)
  let m := m.setNext (m.prev n) n
  let m := m.setNext n q
  let m := m.setPrev h (m.prev q)
  let m := m.setNext (m.prev h) h
  m.setPrev q n

/-- All elements get the head `n`. -/
def move (h n : α) : Links α := if m.next h = h then m.init n else m.split h (m.next h) n

@[simp] theorem next_setNext (a b x : α) : (m.setNext a b).next x = if x = a then b else m.next x := by
  simp [setNext, Function.update_apply]

@[simp] theorem prev_setNext (a b x : α) : (m.setNext a b).prev x = m.prev x := rfl

@[simp] theorem prev_setPrev (a b x : α) : (m.setPrev a b).prev x = if x = a then b else m.prev x := by
  simp [setPrev, Function.update_apply]

@[simp] theorem next_setPrev (a b x : α) : (m.setPrev a b).next x = m.next x := rfl

end Links

/-! ## Paths -/

/-- The nodes between two nodes. -/
def Path (m : Links α) : α → List α → α → Prop
  | a, [], b => m.next a = b ∧ m.prev b = a
  | a, x :: xs, b => m.next a = x ∧ m.prev x = a ∧ Path m x xs b

variable {m m' : Links α} {a b c h n q x : α} {xs ys l r : List α}

omit [DecidableEq α] in
theorem path_append : Path m a (xs ++ x :: ys) b ↔ Path m a xs x ∧ Path m x ys b := by
  induction xs generalizing a with
  | nil => simp [Path, and_assoc]
  | cons y xs ih => simp [Path, ih, and_assoc]

omit [DecidableEq α] in
theorem Path.congr (hp : Path m a xs b) (hnext : ∀ y ∈ a :: xs, m'.next y = m.next y)
    (hprev : ∀ y ∈ b :: xs, m'.prev y = m.prev y) :
    Path m' a xs b := by
  induction xs generalizing a with
  | nil => exact ⟨(hnext a (by simp)).trans hp.1, (hprev b (by simp)).trans hp.2⟩
  | cons y xs ih =>
    obtain ⟨hay, hya, hrest⟩ := hp
    refine ⟨(hnext a (by simp)).trans hay, (hprev y (by simp)).trans hya, ih hrest (fun z hz => ?_) fun z hz => ?_⟩
    · exact hnext z (List.mem_cons_of_mem a hz)
    · apply hprev z
      simp only [List.mem_cons] at hz ⊢
      tauto

omit [DecidableEq α] in
/-- The last node of a path. -/
theorem Path.prev_mem (hp : Path m a xs b) : m.prev b ∈ a :: xs := by
  induction xs generalizing a with
  | nil => simp [hp.2]
  | cons y xs ih => exact List.mem_cons_of_mem a (ih hp.2.2)

omit [DecidableEq α] in
/-- The first node of a path. -/
theorem Path.next_mem (hp : Path m a xs b) : m.next a ∈ b :: xs := by
  cases xs with
  | nil => simp [hp.1]
  | cons y xs => simp [hp.1]

omit [DecidableEq α] in
/-- A path that gets another end. -/
theorem Path.retarget (hp : Path m a xs b) (hnodup : (a :: xs).Nodup)
    (hnext : ∀ y ∈ a :: xs, y ≠ m.prev b → m'.next y = m.next y)
    (hlast : m'.next (m.prev b) = c) (hprev : ∀ y ∈ xs, m'.prev y = m.prev y) (hback : m'.prev c = m.prev b) :
    Path m' a xs c := by
  induction xs generalizing a with
  | nil =>
    rw [hp.2] at hlast hback
    exact ⟨hlast, hback⟩
  | cons y xs ih =>
    obtain ⟨hay, hya, hrest⟩ := hp
    obtain ⟨hnot, hnodup⟩ := List.nodup_cons.1 hnodup
    have hne : a ≠ m.prev b := fun he => hnot (he ▸ hrest.prev_mem)
    refine ⟨(hnext a (by simp) hne).trans hay, (hprev y (by simp)).trans hya,
      ih hrest hnodup (fun z hz => ?_) fun z hz => ?_⟩
    · exact hnext z (List.mem_cons_of_mem a hz)
    · exact hprev z (List.mem_cons_of_mem y hz)

/-! ## Rings -/

/-- The elements of a ring. -/
structure Ring (m : Links α) (h : α) (xs : List α) : Prop where
  path : Path m h xs h
  nodup : (h :: xs).Nodup

/-- What is written is in `s`. -/
def Changes (m m' : Links α) (s : List α) : Prop := ∀ y ∉ s, m'.next y = m.next y ∧ m'.prev y = m.prev y

omit [DecidableEq α] in
theorem Ring.frame {s : List α} (hr : Ring m h xs) (hc : Changes m m' s) (hs : ∀ y ∈ h :: xs, y ∉ s) : Ring m' h xs :=
  ⟨hr.path.congr (fun y hy => (hc y (hs y hy)).1) fun y hy => (hc y (hs y hy)).2, hr.nodup⟩

omit [DecidableEq α] in
/-- A ring is empty if its head points to itself. -/
theorem Ring.next_eq_self (hr : Ring m h xs) : m.next h = h ↔ xs = [] := by
  cases xs with
  | nil => simp [hr.path.1]
  | cons y xs =>
    have hne : h ≠ y := fun he => (List.nodup_cons.1 hr.nodup).1 (by simp [he])
    simp [hr.path.1, hne.symm]

theorem ring_init (m : Links α) (q : α) : Ring (m.init q) q [] := ⟨by simp [Path, Links.init], by simp⟩

theorem changes_init (m : Links α) (q : α) : Changes m (m.init q) [q] := by
  intro y hy
  simp only [List.mem_singleton] at hy
  simp [Links.init, hy]

theorem Ring.insertHead (hr : Ring m h xs) (hq : q ∉ h :: xs) : Ring (m.insertHead h q) h (q :: xs) := by
  obtain ⟨hpath, hnodup⟩ := hr
  simp only [List.mem_cons, not_or] at hq
  simp only [List.nodup_cons] at hnodup
  refine ⟨?_, by simp only [List.nodup_cons, List.mem_cons, not_or]; exact ⟨⟨Ne.symm hq.1, hnodup.1⟩, hq.2, hnodup.2⟩⟩
  cases xs with
  | nil =>
    obtain ⟨hnext, hprev⟩ := hpath
    simp [Path, Links.insertHead, hnext, hq.1]
  | cons y xs =>
    obtain ⟨hhy, hyh, hrest⟩ := hpath
    simp only [List.mem_cons, List.nodup_cons, not_or] at hq hnodup
    refine ⟨?_, ?_, ?_, ?_, hrest.congr (fun z hz => ?_) fun z hz => ?_⟩
    · simp [Links.insertHead]
    · simp [Links.insertHead, hhy, hq.2.1]
    · simp [Links.insertHead, hhy, hq.1]
    · simp [Links.insertHead, hhy]
    · have hzh : z ≠ h := ne_of_mem_of_not_mem hz (by simp [hnodup.1])
      have hzq : z ≠ q := ne_of_mem_of_not_mem hz (by simp [hq.2])
      simp [Links.insertHead, hzh, hzq]
    · have hzy : z ≠ y := ne_of_mem_of_not_mem hz (by simp [hnodup.2.1, Ne.symm hnodup.1.1])
      have hzq : z ≠ q := ne_of_mem_of_not_mem hz (by simp [hq.1, hq.2.2])
      simp [Links.insertHead, hhy, hzy, hzq]

theorem Ring.changes_insertHead (hr : Ring m h xs) (q : α) : Changes m (m.insertHead h q) (h :: q :: xs) := by
  intro y hy
  have hmem := hr.path.next_mem
  simp only [List.mem_cons, not_or] at hy
  have hne : y ≠ m.next h := (ne_of_mem_of_not_mem hmem (by simp [hy])).symm
  simp [Links.insertHead, hy, hne]

theorem Ring.insertTail (hr : Ring m h xs) (hq : q ∉ h :: xs) : Ring (m.insertTail h q) h (xs ++ [q]) := by
  obtain ⟨hpath, hnodup⟩ := hr
  have hlast := hpath.prev_mem
  have hne : m.prev h ≠ q := fun he => hq (he ▸ hlast)
  have hqh : q ≠ h := fun he => hq (by simp [he])
  refine ⟨path_append.2 ⟨hpath.retarget hnodup (fun y hy hyp => ?_) ?_ (fun y hy => ?_) ?_, ?_⟩, ?_⟩
  · have hyq : y ≠ q := fun he => hq (he ▸ hy)
    simp [Links.insertTail, hyq, hyp]
  · simp [Links.insertTail]
  · have hyq : y ≠ q := fun he => hq (he ▸ List.mem_cons_of_mem h hy)
    have hyh : y ≠ h := fun he => (List.nodup_cons.1 hnodup).1 (he ▸ hy)
    simp [Links.insertTail, hyq, hyh]
  · simp [Links.insertTail, hqh]
  · simp [Path, Links.insertTail, Ne.symm hne]
  · rw [← List.cons_append]
    exact List.nodup_append.2 ⟨hnodup, by simp, fun y hy z hz he => hq (by simp at hz; exact hz ▸ he ▸ hy)⟩

theorem Ring.changes_insertTail (hr : Ring m h xs) (q : α) : Changes m (m.insertTail h q) (h :: q :: xs) := by
  intro y hy
  have hmem := hr.path.prev_mem
  simp only [List.mem_cons, not_or] at hy
  have hne : y ≠ m.prev h := (ne_of_mem_of_not_mem hmem (by simp [hy])).symm
  simp [Links.insertTail, hy, hne]

theorem Ring.remove (hr : Ring m h (l ++ q :: r)) : Ring (m.remove q) h (l ++ r) := by
  obtain ⟨hpath, hnodup⟩ := hr
  obtain ⟨hleft, hright⟩ := path_append.1 hpath
  have hnodup' : (h :: (l ++ r)).Nodup := hnodup.sublist (by simp)
  refine ⟨?_, hnodup'⟩
  simp only [List.nodup_cons, List.mem_append, List.mem_cons, List.nodup_append, not_or] at hnodup
  obtain ⟨⟨hhl, hhq, hhr⟩, hl, ⟨hqr, hr⟩, hdisj⟩ := hnodup
  have hql : q ∉ l := fun hmem => (hdisj q hmem q (.inl rfl)) rfl
  have hlast := hleft.prev_mem
  have hqp : m.prev q ≠ q := ne_of_mem_of_not_mem hlast (by simp [hql, Ne.symm hhq])
  have hleftnodup : (h :: l).Nodup := by simp [hhl, hl]
  cases r with
  | nil =>
    rw [List.append_nil]
    refine hleft.retarget hleftnodup (fun y hy hyp => ?_) ?_ (fun y hy => ?_) ?_
    · simp [Links.remove, hyp]
    · simp [Links.remove, hright.1]
    · have hyh : y ≠ h := fun he => hhl (he ▸ hy)
      simp [Links.remove, hright.1, hyh, Ne.symm hqp]
    · simp [Links.remove, hright.1, Ne.symm hqp]
  | cons n r =>
    obtain ⟨hqn, hnq, hrest⟩ := hright
    simp only [List.mem_cons, not_or, List.nodup_cons] at hhr hr hdisj hlast
    have hnl : n ∉ l := fun hmem => hdisj n hmem n (.inr (.inl rfl)) rfl
    refine path_append.2 ⟨hleft.retarget hleftnodup (fun y hy hyp => ?_) ?_ (fun y hy => ?_) ?_,
      hrest.congr (fun y hy => ?_) fun y hy => ?_⟩
    · simp [Links.remove, hyp]
    · simp [Links.remove, hqn]
    · have hyn : y ≠ n := fun he => hnl (he ▸ hy)
      simp [Links.remove, hqn, hyn, Ne.symm hqp]
    · simp [Links.remove, hqn, Ne.symm hqp]
    · have hyp : y ≠ m.prev q := by
        rintro rfl
        simp only [List.mem_cons] at hy
        rcases hlast with hlast | hlast
        · rw [hlast] at hy
          tauto
        · exact hdisj _ hlast _ (.inr hy) rfl
      simp [Links.remove, hyp]
    · have hyn : y ≠ n := ne_of_mem_of_not_mem hy (by simp [hr.1, Ne.symm hhr.1])
      simp [Links.remove, hqn, hyn, Ne.symm hqp]

theorem Ring.changes_remove (hr : Ring m h (l ++ q :: r)) : Changes m (m.remove q) (h :: (l ++ q :: r)) := by
  intro y hy
  obtain ⟨hleft, hright⟩ := path_append.1 hr.path
  have hlast := hleft.prev_mem
  have hfirst := hright.next_mem
  simp only [List.mem_cons, List.mem_append, not_or] at hy hlast hfirst
  have hyp : y ≠ m.prev q := by
    rintro rfl
    tauto
  have hyn : y ≠ m.next q := by
    rintro rfl
    tauto
  have hqp : q ≠ m.prev q := by
    intro he
    have hnodup := hr.nodup
    simp only [List.nodup_cons, List.mem_append, List.mem_cons, List.nodup_append, not_or] at hnodup
    rw [← he] at hlast
    rcases hlast with hlast | hlast
    · exact hnodup.1.2.1 hlast.symm
    · exact hnodup.2.2.2 q hlast q (.inl rfl) rfl
  simp [Links.remove, hyp, hqp, hyn]

theorem Ring.move (hr : Ring m h xs) (hn : n ∉ h :: xs) : Ring (m.move h n) n xs ∧ Ring (m.move h n) h [] := by
  have hnh : n ≠ h := fun he => hn (by simp [he])
  cases xs with
  | nil =>
    rw [Links.move, if_pos (hr.next_eq_self.2 rfl)]
    refine ⟨ring_init m n, hr.frame (changes_init m n) ?_⟩
    simpa using Ne.symm hnh
  | cons q r =>
    rw [Links.move, if_neg (by simp [hr.next_eq_self])]
    obtain ⟨⟨hhq, hqh, hrest⟩, hnodup⟩ := hr
    simp only [List.mem_cons, not_or] at hn
    have hlast := hrest.prev_mem
    have hnodup' := (List.nodup_cons.1 hnodup).2
    have hhr : h ∉ q :: r := (List.nodup_cons.1 hnodup).1
    have hqh' : q ≠ h := ne_of_mem_of_not_mem List.mem_cons_self hhr
    have hqr : q ∉ r := (List.nodup_cons.1 hnodup').1
    have hlh : m.prev h ≠ h := fun he => hhr (he ▸ hlast)
    have hln : m.prev h ≠ n := ne_of_mem_of_not_mem hlast (by simp [hn.2])
    rw [hhq]
    have hnq : n ≠ q := hn.2.1
    have hnr : n ∉ r := hn.2.2
    refine ⟨⟨⟨?_, ?_, hrest.retarget hnodup' (fun y hy hyp => ?_) ?_ (fun y hy => ?_) ?_⟩, ?_⟩, ⟨⟨?_, ?_⟩, by simp⟩⟩
    · simp [Links.split, hqh, hnh, Ne.symm hnq]
    · simp [Links.split]
    · have hyh : y ≠ h := fun he => hhr (he ▸ hy)
      have hyn : y ≠ n := ne_of_mem_of_not_mem hy (by simp [hn.2])
      simp [Links.split, hqh, hyh, hyn, hyp, Ne.symm hnq]
    · simp [Links.split, hqh, hlh, hln, Ne.symm hnq]
    · have hyq : y ≠ q := fun he => hqr (he ▸ hy)
      have hyh : y ≠ h := fun he => hhr (he ▸ List.mem_cons_of_mem q hy)
      have hyn : y ≠ n := fun he => hnr (he ▸ hy)
      simp [Links.split, hyq, hyh, hyn]
    · simp [Links.split, hnq, hnh]
    · simp only [List.nodup_cons, List.mem_cons, not_or]
      exact ⟨⟨hnq, hnr⟩, List.nodup_cons.1 hnodup'⟩
    · simp [Links.split, hqh, Ne.symm hnq]
    · simp [Links.split, hqh, Ne.symm hqh', Ne.symm hnq]

end XCore.Rings
