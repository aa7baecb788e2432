import Mathlib.Data.List.Basic
import Mathlib.Tactic.Common

/-!
# Requests that are served in turn

A `Ticket` is a request to send some data, of which a part has been taken. A `Book` has the tickets in the order in
which they were made: those whose makers know how they ended, those that have ended, and those that wait. Only the first
that waits is served.

`Book.Sound`: of every ticket a prefix has been taken, all of it if it ended well, and nothing of those behind the first
that waits. Every operation keeps it. What has been taken altogether (`Book.wire`) grows by what is taken, and if all
have ended well it is a prefix of the data.
-/

namespace XCore.Tickets

/-- A request, its data, and the part of it that has been taken. -/
structure Ticket (ι α : Type*) where
  id : ι
  data : List α
  taken : List α

/-- The tickets, and why those that have ended have failed. -/
structure Book (ι α ε : Type*) where
  told : List (Ticket ι α × Option ε)
  ended : List (Ticket ι α × Option ε)
  waiting : List (Ticket ι α)

variable {ι α ε : Type*}

namespace Book

variable (b : Book ι α ε)

def empty : Book ι α ε := ⟨[], [], []⟩

def tickets : List (Ticket ι α) := b.told.map Prod.fst ++ b.ended.map Prod.fst ++ b.waiting

def wire : List α := b.tickets.flatMap Ticket.taken

def submit (id : ι) (data : List α) : Book ι α ε := { b with waiting := b.waiting ++ [⟨id, data, []⟩] }

/-- More is taken of the first that waits. -/
def take (s : List α) : Book ι α ε :=
  match b.waiting with
  | [] => b
  | t :: ts => { b with waiting := { t with taken := t.taken ++ s } :: ts }

/-- The first that waits ends. -/
def finish (r : Option ε) : Book ι α ε :=
  match b.waiting with
  | [] => b
  | t :: ts => { b with ended := b.ended ++ [(t, r)], waiting := ts }

/-- All that wait fail. -/
def abandon (e : ε) : Book ι α ε := { b with ended := b.ended ++ b.waiting.map fun t => (t, some e), waiting := [] }

def tell : Book ι α ε :=
  match b.ended with
  | [] => b
  | p :: ps => { b with told := b.told ++ [p], ended := ps }

/-- A prefix has been taken, all of it if there was no error. -/
def Settled (p : Ticket ι α × Option ε) : Prop := p.1.taken <+: p.1.data ∧ (p.2 = none → p.1.taken = p.1.data)

structure Sound : Prop where
  settled : ∀ p ∈ b.told ++ b.ended, Settled p
  first : ∀ t ∈ b.waiting.head?, t.taken <+: t.data
  behind : ∀ t ∈ b.waiting.tail, t.taken = []

variable {b}

theorem sound_empty : (empty : Book ι α ε).Sound := ⟨by simp [empty], by simp [empty], by simp [empty]⟩

theorem tickets_submit (id : ι) (data : List α) : (b.submit id data).tickets = b.tickets ++ [⟨id, data, []⟩] := by
  simp [tickets, submit]

theorem tickets_finish (r : Option ε) : (b.finish r).tickets = b.tickets := by
  unfold finish
  split
  · rfl
  · rename_i h
    simp [tickets, h]

theorem tickets_abandon (e : ε) : (b.abandon e).tickets = b.tickets := by
  simp [tickets, abandon, Function.comp_def]

theorem tickets_tell : b.tell.tickets = b.tickets := by
  unfold tell
  split
  · rfl
  · rename_i h
    simp [tickets, h]

theorem wire_submit (id : ι) (data : List α) : (b.submit id data).wire = b.wire := by
  simp [wire, tickets_submit]

theorem wire_tell : b.tell.wire = b.wire := by
  simp [wire, tickets_tell]

/-- Nothing has been taken of tickets that wait behind others. -/
theorem flatMap_taken {ts : List (Ticket ι α)} (h : ∀ t ∈ ts, t.taken = []) : ts.flatMap Ticket.taken = [] :=
  List.flatMap_eq_nil_iff.2 h

theorem Sound.submit (h : b.Sound) (id : ι) (data : List α) : (b.submit id data).Sound where
  settled := h.settled
  first t ht := by
    cases hw : b.waiting with
    | nil =>
      obtain rfl : t = ⟨id, data, []⟩ := by simpa [Book.submit, hw, eq_comm] using ht
      exact List.nil_prefix
    | cons t' ts => exact h.first t (by simpa [Book.submit, hw] using ht)
  behind t ht := by
    cases hw : b.waiting with
    | nil => simp [Book.submit, hw] at ht
    | cons t' ts =>
      have hmem : t ∈ ts ∨ t = ⟨id, data, []⟩ := by simpa [Book.submit, hw] using ht
      rcases hmem with hmem | rfl
      · exact h.behind t (by simpa [hw] using hmem)
      · rfl

section First

variable {t : Ticket ι α} {ts : List (Ticket ι α)} (h : b.Sound) (hw : b.waiting = t :: ts)

include h hw

/-- **What is taken is sent**: it goes behind all that was taken before. -/
theorem Sound.wire_take (s : List α) : (b.take s).wire = b.wire ++ s := by
  have hts : ts.flatMap Ticket.taken = [] := flatMap_taken fun t ht => h.behind t (by simpa [hw] using ht)
  simp [wire, tickets, Book.take, hw, hts]

theorem Sound.take {s : List α} (hs : t.taken ++ s <+: t.data) : (b.take s).Sound := by
  have htake : b.take s = { b with waiting := { t with taken := t.taken ++ s } :: ts } := by simp [Book.take, hw]
  rw [htake]
  refine ⟨h.settled, fun t' ht => ?_, fun t' ht => h.behind t' (by simpa [hw] using ht)⟩
  obtain rfl : { t with taken := t.taken ++ s } = t' := by simpa using ht
  exact hs

theorem Sound.finish {r : Option ε} (hr : r = none → t.taken = t.data) : (b.finish r).Sound := by
  have hfinish : b.finish r = { b with ended := b.ended ++ [(t, r)], waiting := ts } := by simp [Book.finish, hw]
  have hbehind : ∀ t' ∈ ts, t'.taken = [] := fun t' ht => h.behind t' (by simpa [hw] using ht)
  rw [hfinish]
  refine ⟨fun p hp => ?_, fun t' ht => ?_, fun t' ht => hbehind t' (List.mem_of_mem_tail ht)⟩
  · rw [← List.append_assoc, List.mem_append, List.mem_singleton] at hp
    rcases hp with hp | rfl
    · exact h.settled p hp
    · exact ⟨h.first t (by simp [hw]), hr⟩
  · rw [hbehind t' (List.mem_of_mem_head? ht)]
    exact List.nil_prefix

end First

/-- What waits has a prefix taken, which is empty behind the first. -/
theorem Sound.waiting (h : b.Sound) : ∀ t ∈ b.waiting, t.taken <+: t.data := by
  intro t ht
  cases hw : b.waiting with
  | nil => simp [hw] at ht
  | cons t' ts =>
    rw [hw, List.mem_cons] at ht
    rcases ht with rfl | ht
    · exact h.first t (by simp [hw])
    · rw [h.behind t (by simpa [hw] using ht)]
      exact List.nil_prefix

theorem Sound.abandon (h : b.Sound) (e : ε) : (b.abandon e).Sound where
  settled p hp := by
    have hmem : p ∈ b.told ++ b.ended ∨ ∃ t ∈ b.waiting, (t, some e) = p := by simpa [Book.abandon, or_assoc] using hp
    rcases hmem with hmem | ⟨t, ht, rfl⟩
    · exact h.settled p hmem
    · exact ⟨h.waiting t ht, fun hnone => by cases hnone⟩
  first t ht := by simp [Book.abandon] at ht
  behind t ht := by simp [Book.abandon] at ht

theorem Sound.tell (h : b.Sound) : b.tell.Sound := by
  unfold Book.tell
  split
  · exact h
  · rename_i p ps he
    exact ⟨by simpa [he] using h.settled, h.first, h.behind⟩

section Fine

variable (h : b.Sound) (hok : ∀ p ∈ b.told ++ b.ended, p.2 = none)

include h hok

/-- Where all that have ended have ended well, only the first that waits has data that is not taken. -/
theorem Sound.wire_eq : b.wire = ((b.told ++ b.ended).map Prod.fst).flatMap Ticket.data ++
    b.waiting.flatMap Ticket.taken := by
  have hended : ∀ t ∈ (b.told ++ b.ended).map Prod.fst, t.taken = t.data := by
    intro t ht
    obtain ⟨p, hp, rfl⟩ := List.mem_map.1 ht
    exact (h.settled p hp).2 (hok p hp)
  rw [← List.flatMap_congr hended]
  simp [wire, tickets]

theorem Sound.wire_begins : b.wire <+: b.tickets.flatMap Ticket.data := by
  have htickets : b.tickets = (b.told ++ b.ended).map Prod.fst ++ b.waiting := by simp [tickets]
  rw [h.wire_eq hok, htickets, List.flatMap_append]
  refine (List.prefix_append_right_inj _).2 ?_
  cases hw : b.waiting with
  | nil => exact List.prefix_rfl
  | cons t ts =>
    have hts : ts.flatMap Ticket.taken = [] := flatMap_taken fun t ht => h.behind t (by simpa [hw] using ht)
    rw [List.flatMap_cons, List.flatMap_cons, hts, List.append_nil]
    exact (h.first t (by simp [hw])).trans (List.prefix_append _ _)

/-- Where nothing waits, all is taken. -/
theorem Sound.wire_all (hw : b.waiting = []) : b.wire = b.tickets.flatMap Ticket.data := by
  rw [h.wire_eq hok]
  simp [tickets, hw]

end Fine

end Book

end XCore.Tickets
