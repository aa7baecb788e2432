import Mathlib.Algebra.BigOperators.Ring.List
import Mathlib.Algebra.Order.BigOperators.Group.List
import Mathlib.Data.List.AList
import Mathlib.Data.List.Sort
import Mathlib.Tactic.Linarith
import XCore.Lib.Run
import XCore.Lib.Sums

/-!
# Traffic statistics (`base/net/monitor.lua`)

The monitor keeps, for each direction, the packets and bytes in total and for each protocol, with the sizes of the
largest and of the smallest packet; `TimerDump` writes them to a log and starts again. `OnSendProtocol` may tell of
several packets at once, with their size in total, which it takes for the size of one packet.

The totals are the sums of the entries, nothing is lost or reported twice, and the bounds hold along runs in which no
call tells of several packets (`traffic_sound`).
-/

namespace XCore.Traffic

open XCore.Run XCore.Sums

/-- The two directions. -/
inductive Dir
  | up
  | down
  deriving DecidableEq

/-- The entry of a protocol. -/
structure Entry where
  Name : String
  Count : Nat
  Size : Nat
  Max : Nat
  Min : Nat
  deriving DecidableEq

variable {κ : Type} [DecidableEq κ]

/-- The statistics of a direction, by protocol ids. -/
structure Data (κ : Type) where
  Count : Nat
  Size : Nat
  List : AList fun _ : κ => Entry

/-- The monitor. -/
structure Monitor (κ : Type) where
  m_State : Bool
  m_UpData : Option (Data κ)
  m_DownData : Option (Data κ)

/-- The protocols that `OnSendProtocol` looks up, with their names. -/
structure Net (κ : Type) where
  IsServer : Bool
  NetS2C : κ → Option String
  NetC2S : κ → Option String

/-- What `Dump` writes: the totals, and the entries. -/
structure Report where
  TotalSize : Nat
  TotalCount : Nat
  lines : List Entry

/-- What `Dump` sorts by. -/
def Entry.before (x y : Entry) : Bool := if x.Size ≠ y.Size then y.Size < x.Size else y.Count < x.Count

/-- An order in which `pairs` and `table.sort` may give entries. -/
structure Sorting where
  sort : List Entry → List Entry
  perm : ∀ l, (sort l).Perm l
  sorted : ∀ l, (sort l).Pairwise fun x y => y.before x = false

theorem before_trans {x y z : Entry} (hxy : y.before x = false) (hyz : z.before y = false) : z.before x = false := by
  simp only [Entry.before] at *
  split_ifs at * <;> simp at * <;> omega

/-- A sort that keeps the order of equal entries. -/
def Sorting.merge : Sorting where
  sort l := l.mergeSort fun x y => !y.before x
  perm l := List.mergeSort_perm l _
  sorted l := by
    have htrans : ∀ x y z : Entry, !y.before x → !z.before y → !z.before x := by
      intro x y z hxy hyz
      simp only [Bool.not_eq_true'] at *
      exact before_trans hxy hyz
    have htotal : ∀ x y : Entry, !y.before x || !x.before y := by
      intro x y
      simp only [Entry.before]
      split_ifs <;> simp <;> omega
    exact (List.pairwise_mergeSort htrans htotal l).imp fun hxy => by simpa using hxy

/-! ## The monitor -/

/-- An entry of a protocol after some packets; a size above the maximum is not compared with the minimum. -/
def Entry.add (e : Entry) (ptolen count : Nat) : Entry :=
  { e with
    Count := e.Count + count
    Size := e.Size + ptolen
    Max := if e.Max < ptolen then ptolen else e.Max
    Min := if e.Max < ptolen then e.Min else if ptolen < e.Min then ptolen else e.Min }

/-- The statistics of a direction after some packets: `OnRecvProtocol` and `OnSendProtocol`. -/
def Data.record (d : Data κ) (ptoid : κ) (ptoname : String) (ptolen count : Nat) : Data κ where
  Count := d.Count + count
  Size := d.Size + ptolen
  List := d.List.insert ptoid (match d.List.lookup ptoid with
    | none => ⟨ptoname, count, ptolen, ptolen, ptolen⟩
    | some list => list.add ptolen count)

/-- `{Count=0, Size=0, List={}}`. -/
def Data.empty : Data κ := ⟨0, 0, ∅⟩

/-- `ptoHandle.name`: a server looks in both tables. -/
def Net.handle (N : Net κ) (ptoid : κ) : Option String :=
  (if N.IsServer then N.NetS2C ptoid else none) <|> N.NetC2S ptoid

/-- The entries of a direction. -/
def Data.entries (d : Data κ) := d.List.entries.map Sigma.snd

/-- What `Dump` writes. -/
def Data.report (S : Sorting) (d : Data κ) : Report := ⟨d.Size, d.Count, S.sort d.entries⟩

namespace Monitor

/-- The monitor after `Init`. -/
def on : Monitor κ := ⟨true, none, none⟩

/-- The statistics of a direction. -/
def data (m : Monitor κ) : Dir → Data κ
  | .up => m.m_UpData.getD .empty
  | .down => m.m_DownData.getD .empty

/-- `OnRecvProtocol`. -/
def OnRecvProtocol (m : Monitor κ) (ptoid : κ) (ptoname : String) (ptolen : Nat) : Monitor κ :=
  if !m.m_State then m
  else { m with m_UpData := some ((m.m_UpData.getD .empty).record ptoid ptoname ptolen 1) }

/-- `OnSendProtocol`. -/
def OnSendProtocol (N : Net κ) (m : Monitor κ) (ptoid : κ) (ptolen : Nat) (count : Option Nat) : Monitor κ :=
  if !m.m_State then m
  else match N.handle ptoid with
    | none => m
    | some name => { m with m_DownData := some ((m.m_DownData.getD .empty).record ptoid name ptolen (count.getD 1)) }

end Monitor

/-- What `TimerDump` does with the statistics of a direction: `Dump` writes them and empties them. -/
def dump (S : Sorting) : Option (Data κ) → Option (Data κ) × Option Report
  | some d => if 0 < d.Count then (some .empty, some (d.report S)) else (some d, none)
  | none => (none, none)

/-- `TimerDump`, with what it writes. -/
def Monitor.TimerDump (S : Sorting) (m : Monitor κ) : Monitor κ × List (Dir × Report) :=
  ({ m with m_UpData := (dump S m.m_UpData).1, m_DownData := (dump S m.m_DownData).1 },
    ((dump S m.m_UpData).2.map fun r => (Dir.up, r)).toList ++
    ((dump S m.m_DownData).2.map fun r => (Dir.down, r)).toList)

/-! ## Runs -/

/-- A call of the monitor. -/
inductive Call (κ : Type)
  | OnRecvProtocol (ptoid : κ) (ptoname : String) (ptolen : Nat)
  | OnSendProtocol (ptoid : κ) (ptolen : Nat) (count : Option Nat)
  | TimerDump

/-- Packets of a protocol, with their size in total. -/
structure Packets (κ : Type) where
  dir : Dir
  ptoid : κ
  Count : Nat
  Size : Nat
  deriving DecidableEq

namespace Call

/-- What a call does, with what it writes. -/
def run (N : Net κ) (S : Sorting) (m : Monitor κ) : Call κ → Monitor κ × List (Dir × Report)
  | .OnRecvProtocol ptoid ptoname ptolen => (m.OnRecvProtocol ptoid ptoname ptolen, [])
  | .OnSendProtocol ptoid ptolen count => (m.OnSendProtocol N ptoid ptolen count, [])
  | .TimerDump => m.TimerDump S

/-- The packets that a call tells of; those of unknown protocols are not counted. -/
def packets (N : Net κ) : Call κ → Option (Packets κ)
  | .OnRecvProtocol ptoid _ ptolen => some ⟨.up, ptoid, 1, ptolen⟩
  | .OnSendProtocol ptoid ptolen count => (N.handle ptoid).map fun _ => ⟨.down, ptoid, count.getD 1, ptolen⟩
  | .TimerDump => none

/-- A call tells of some packet. -/
def Positive : Call κ → Prop
  | .OnSendProtocol _ _ count => 0 < count.getD 1
  | _ => True

/-- A call tells of one packet, or of several that change neither the largest nor the smallest size. -/
def Single (N : Net κ) (m : Monitor κ) : Call κ → Prop
  | .OnSendProtocol ptoid ptolen count => (N.handle ptoid).isSome → count.getD 1 = 1 ∨
    ∃ e, (m.data .down).List.lookup ptoid = some e ∧ e.Min * count.getD 1 ≤ ptolen ∧ ptolen ≤ e.Max
  | _ => True

end Call

/-- The monitor, what it has written, and the packets that it has been told of, which no code reads. -/
structure World (κ : Type) where
  monitor : Monitor κ
  reports : List (Dir × Report)
  packets : List (Packets κ)

namespace World

def init : World κ := ⟨.on, [], []⟩

def next (N : Net κ) (S : Sorting) (w : World κ) (c : Call κ) : World κ where
  monitor := (c.run N S w.monitor).1
  reports := w.reports ++ (c.run N S w.monitor).2
  packets := w.packets ++ (c.packets N).toList

/-- What has been written of a direction. -/
def reportsOf (w : World κ) (dir : Dir) : List Report := (w.reports.filter fun r => r.1 = dir).map Prod.snd

/-- The packets of a direction. -/
def packetsOf (w : World κ) (dir : Dir) : List (Packets κ) := w.packets.filter fun p => p.dir = dir

end World

/-! ## What the statistics tell -/

/-- The packets of a protocol. -/
def ofProtocol (ps : List (Packets κ)) (ptoid : κ) : List (Packets κ) := ps.filter fun p => p.ptoid = ptoid

/-- An entry tells of packets, with the sizes of the largest and of the smallest. -/
structure EntryOf (e : Entry) (ps : List (Packets κ)) : Prop where
  count : e.Count = (ps.map Packets.Count).sum
  size : e.Size = (ps.map Packets.Size).sum
  bound : ∀ p ∈ ps, e.Min * p.Count ≤ p.Size ∧ p.Size ≤ e.Max * p.Count
  max : ∃ p ∈ ps, p.Count = 1 ∧ p.Size = e.Max
  min : ∃ p ∈ ps, p.Count = 1 ∧ p.Size = e.Min

/-- The statistics of a direction tell of packets, in total and by protocol. -/
structure DataOf (d : Data κ) (ps : List (Packets κ)) : Prop where
  count : d.Count = (ps.map Packets.Count).sum
  size : d.Size = (ps.map Packets.Size).sum
  counts : d.Count = (d.entries.map Entry.Count).sum
  sizes : d.Size = (d.entries.map Entry.Size).sum
  entry : ∀ ptoid e, d.List.lookup ptoid = some e → EntryOf e (ofProtocol ps ptoid)
  missing : ∀ ptoid, d.List.lookup ptoid = none → ofProtocol ps ptoid = []

/-- A report tells of packets. -/
structure ReportOf (r : Report) (ps : List (Packets κ)) : Prop where
  count : r.TotalCount = (ps.map Packets.Count).sum
  size : r.TotalSize = (ps.map Packets.Size).sum
  counts : r.TotalCount = (r.lines.map Entry.Count).sum
  sizes : r.TotalSize = (r.lines.map Entry.Size).sum
  line : ∀ e ∈ r.lines, ∃ ptoid, EntryOf e (ofProtocol ps ptoid)

/-- The packets of a direction have been reported, each once, except those that the statistics tell of. -/
def Told (d : Data κ) (rs : List Report) (ps : List (Packets κ)) : Prop :=
  ∃ parts rest, ps = parts.flatten ++ rest ∧ List.Forall₂ ReportOf rs parts ∧ DataOf d rest

/-- The totals are the sums of the entries, an entry has bounds for its packets, and nothing is lost or reported
twice. -/
structure Sound (w : World κ) : Prop where
  totals : ∀ dir, (w.monitor.data dir).Count = ((w.monitor.data dir).entries.map Entry.Count).sum ∧
    (w.monitor.data dir).Size = ((w.monitor.data dir).entries.map Entry.Size).sum
  bounds : ∀ dir ptoid e, (w.monitor.data dir).List.lookup ptoid = some e →
    e.Min * e.Count ≤ e.Size ∧ e.Size ≤ e.Max * e.Count
  once : ∀ dir, Told (w.monitor.data dir) (w.reportsOf dir) (w.packetsOf dir)

variable {e : Entry} {d : Data κ} {p : Packets κ} {ps : List (Packets κ)} {S : Sorting} {N : Net κ} {w : World κ}

/-! ## Entries -/

section

omit [DecidableEq κ]

/-- The entry that is made for packets of equal size. -/
theorem entryOf_new (name : String) (hp : p.Count = 1) : EntryOf ⟨name, p.Count, p.Size, p.Size, p.Size⟩ [p] where
  count := by simp
  size := by simp
  bound := by simp [hp]
  max := ⟨p, List.mem_singleton_self p, hp, rfl⟩
  min := ⟨p, List.mem_singleton_self p, hp, rfl⟩

theorem EntryOf.min_le_max (h : EntryOf e ps) : e.Min ≤ e.Max := by
  obtain ⟨p, hp, hcount, hsize⟩ := h.max
  have hb := (h.bound p hp).1
  rwa [hcount, Nat.mul_one, hsize] at hb

/-- **Bounds**: the size of an entry lies between its bounds for each of its packets. -/
theorem EntryOf.bounds (h : EntryOf e ps) : e.Min * e.Count ≤ e.Size ∧ e.Size ≤ e.Max * e.Count := by
  rw [h.count, h.size, ← List.sum_map_mul_left, ← List.sum_map_mul_left]
  exact ⟨List.sum_le_sum fun p hp => (h.bound p hp).1, List.sum_le_sum fun p hp => (h.bound p hp).2⟩

theorem EntryOf.max_add (h : EntryOf e ps) (hp : p.Count = 1 ∨ p.Size ≤ e.Max) :
    ∃ q ∈ ps ++ [p], q.Count = 1 ∧ q.Size = (e.add p.Size p.Count).Max := by
  dsimp only [Entry.add]
  by_cases hmax : e.Max < p.Size
  · rw [if_pos hmax]
    exact ⟨p, by simp, hp.resolve_right (Nat.not_le.2 hmax), rfl⟩
  · rw [if_neg hmax]
    obtain ⟨q, hq, h⟩ := h.max
    exact ⟨q, List.mem_append_left _ hq, h⟩

theorem EntryOf.min_add (h : EntryOf e ps) (hp : p.Count = 1 ∨ e.Min ≤ p.Size) :
    ∃ q ∈ ps ++ [p], q.Count = 1 ∧ q.Size = (e.add p.Size p.Count).Min := by
  have hold : ∃ q ∈ ps ++ [p], q.Count = 1 ∧ q.Size = e.Min := by
    obtain ⟨q, hq, h⟩ := h.min
    exact ⟨q, List.mem_append_left _ hq, h⟩
  dsimp only [Entry.add]
  split
  · exact hold
  · split
    · rename_i hmin
      exact ⟨p, by simp, hp.resolve_right (Nat.not_le.2 hmin), rfl⟩
    · exact hold

/-- The bounds of an entry after some packets lie between the old ones and the size. -/
theorem add_min_le (ptolen count : Nat) : (e.add ptolen count).Min ≤ e.Min := by
  dsimp only [Entry.add]
  split_ifs <;> omega

theorem le_add_max (ptolen count : Nat) : e.Max ≤ (e.add ptolen count).Max := by
  dsimp only [Entry.add]
  split_ifs <;> omega

theorem add_min_le_size (h : e.Min ≤ e.Max) (ptolen count : Nat) : (e.add ptolen count).Min ≤ ptolen := by
  dsimp only [Entry.add]
  split_ifs <;> omega

theorem size_le_add_max (ptolen count : Nat) : ptolen ≤ (e.add ptolen count).Max := by
  dsimp only [Entry.add]
  split_ifs <;> omega

/-- **An entry after some packets**. -/
theorem EntryOf.add (h : EntryOf e ps) (hpos : 0 < p.Count)
    (hp : p.Count = 1 ∨ e.Min * p.Count ≤ p.Size ∧ p.Size ≤ e.Max) : EntryOf (e.add p.Size p.Count) (ps ++ [p]) where
  count := by simp [Entry.add, h.count]
  size := by simp [Entry.add, h.size]
  bound q hq := by
    rcases List.mem_append.1 hq with hq | hq
    · obtain ⟨hmin, hmax⟩ := h.bound q hq
      exact ⟨(Nat.mul_le_mul_right _ (add_min_le _ _)).trans hmin, hmax.trans (Nat.mul_le_mul_right _ (le_add_max _ _))⟩
    · rw [List.mem_singleton] at hq
      subst q
      refine ⟨?_, (size_le_add_max _ _).trans (Nat.le_mul_of_pos_right _ hpos)⟩
      rcases hp with hp | hp
      · rw [hp, Nat.mul_one]
        exact add_min_le_size h.min_le_max _ _
      · exact (Nat.mul_le_mul_right _ (add_min_le _ _)).trans hp.1
  max := h.max_add (hp.imp_right And.right)
  min := h.min_add (hp.imp_right fun hp => (Nat.le_mul_of_pos_right _ hpos).trans hp.1)

end

/-! ## The statistics of a direction -/

theorem ofProtocol_append (ptoid : κ) :
    ofProtocol (ps ++ [p]) ptoid = if p.ptoid = ptoid then ofProtocol ps ptoid ++ [p] else ofProtocol ps ptoid := by
  rw [ofProtocol, List.filter_append, List.filter_singleton]
  by_cases hp : p.ptoid = ptoid <;> simp [hp, ofProtocol]

theorem dataOf_empty : DataOf (.empty : Data κ) [] where
  count := rfl
  size := rfl
  counts := rfl
  sizes := rfl
  entry _ _ he := by simp [Data.empty] at he
  missing _ _ := rfl

theorem sum_record_new (g : Entry → Nat) (name : String) (h : d.List.lookup p.ptoid = none) :
    ((d.record p.ptoid name p.Size p.Count).entries.map g).sum = g ⟨name, p.Count, p.Size, p.Size, p.Size⟩ +
      (d.entries.map g).sum := by
  simp only [Data.record, Data.entries, h, List.map_map]
  exact sum_insert_of_none (fun e : (Σ _ : κ, Entry) => g e.2) h

theorem sum_record_add (g : Entry → Nat) (name : String) (h : d.List.lookup p.ptoid = some e) :
    ((d.record p.ptoid name p.Size p.Count).entries.map g).sum + g e = (d.entries.map g).sum + g
    (e.add p.Size p.Count) := by
  simp only [Data.record, Data.entries, h, List.map_map]
  exact sum_insert_of_lookup (fun e : (Σ _ : κ, Entry) => g e.2) h

/-- The sums of the entries grow as the totals do. -/
theorem sums_record (name : String) :
    ((d.record p.ptoid name p.Size p.Count).entries.map Entry.Count).sum = (d.entries.map Entry.Count).sum + p.Count ∧
    ((d.record p.ptoid name p.Size p.Count).entries.map Entry.Size).sum = (d.entries.map Entry.Size).sum + p.Size := by
  cases h : d.List.lookup p.ptoid with
  | none =>
    rw [sum_record_new _ name h, sum_record_new _ name h]
    exact ⟨Nat.add_comm _ _, Nat.add_comm _ _⟩
  | some e =>
    have hcount := sum_record_add Entry.Count name h
    have hsize := sum_record_add Entry.Size name h
    dsimp only [Entry.add] at hcount hsize
    omega

theorem lookup_record_self (name : String) : (d.record p.ptoid name p.Size p.Count).List.lookup p.ptoid =
    some ((d.List.lookup p.ptoid).elim ⟨name, p.Count, p.Size, p.Size, p.Size⟩ fun e => e.add p.Size p.Count) := by
  cases h : d.List.lookup p.ptoid <;> simp only [Data.record, h, AList.lookup_insert, Option.elim]

theorem lookup_record_ne {ptoid : κ} (name : String) (h : ptoid ≠ p.ptoid) :
    (d.record p.ptoid name p.Size p.Count).List.lookup ptoid = d.List.lookup ptoid :=
  AList.lookup_insert_ne h

/-- **Recorded packets**: one, or several that lie within the bounds of the entry. -/
theorem DataOf.record (h : DataOf d ps) (name : String) (hpos : 0 < p.Count)
    (hp : p.Count = 1 ∨ ∃ e, d.List.lookup p.ptoid = some e ∧ e.Min * p.Count ≤ p.Size ∧ p.Size ≤ e.Max) :
    DataOf (d.record p.ptoid name p.Size p.Count) (ps ++ [p]) where
  count := by simp [Data.record, h.count]
  size := by simp [Data.record, h.size]
  counts := by
    rw [(sums_record name).1, ← h.counts]
    rfl
  sizes := by
    rw [(sums_record name).2, ← h.sizes]
    rfl
  entry ptoid e he := by
    rw [ofProtocol_append]
    by_cases hk : p.ptoid = ptoid
    · subst hk
      rw [if_pos rfl]
      rw [lookup_record_self] at he
      cases hl : d.List.lookup p.ptoid with
      | none =>
        rw [hl] at he hp
        obtain rfl := Option.some.inj he
        rw [h.missing _ hl]
        exact entryOf_new name (hp.resolve_right fun ⟨_, h, _⟩ => nomatch h)
      | some old =>
        rw [hl] at he hp
        obtain rfl := Option.some.inj he
        refine (h.entry _ _ hl).add hpos (hp.imp_right ?_)
        rintro ⟨_, he, hb⟩
        obtain rfl := Option.some.inj he
        exact hb
    · rw [if_neg hk]
      rw [lookup_record_ne name (Ne.symm hk)] at he
      exact h.entry ptoid e he
  missing ptoid hn := by
    have hk : ptoid ≠ p.ptoid := by
      rintro rfl
      rw [lookup_record_self] at hn
      exact nomatch hn
    rw [lookup_record_ne name hk] at hn
    rw [ofProtocol_append, if_neg (Ne.symm hk)]
    exact h.missing ptoid hn

/-- **What is dumped**. -/
theorem DataOf.report (h : DataOf d ps) (S : Sorting) : ReportOf (d.report S) ps where
  count := h.count
  size := h.size
  counts := h.counts.trans ((S.perm _).map Entry.Count).sum_eq.symm
  sizes := h.sizes.trans ((S.perm _).map Entry.Size).sum_eq.symm
  line e he := by
    obtain ⟨⟨ptoid, e⟩, hmem, rfl⟩ := List.mem_map.1 ((S.perm _).mem_iff.1 he)
    exact ⟨ptoid, h.entry ptoid e (AList.mem_lookup_iff.2 hmem)⟩

/-! ## Runs -/

theorem Told.record {rs : List Report} (h : Told d rs ps) (name : String) (hpos : 0 < p.Count)
    (hp : p.Count = 1 ∨ ∃ e, d.List.lookup p.ptoid = some e ∧ e.Min * p.Count ≤ p.Size ∧ p.Size ≤ e.Max) :
    Told (d.record p.ptoid name p.Size p.Count) rs (ps ++ [p]) := by
  obtain ⟨parts, rest, rfl, hparts, hrest⟩ := h
  exact ⟨parts, rest ++ [p], List.append_assoc _ _ _, hparts, hrest.record name hpos hp⟩

/-- The rest is reported. -/
theorem Told.dump {rs : List Report} (h : Told d rs ps) (S : Sorting) : Told .empty (rs ++ [d.report S]) ps := by
  obtain ⟨parts, rest, rfl, hparts, hrest⟩ := h
  refine ⟨parts ++ [rest], [], by simp, ?_, dataOf_empty⟩
  exact List.rel_append hparts (.cons (hrest.report S) .nil)

theorem Call.Single.packets {c : Call κ} (h : c.Single N w.monitor) (hc : c.packets N = some p) :
    p.Count = 1 ∨ ∃ e, (w.monitor.data p.dir).List.lookup p.ptoid = some e ∧ e.Min * p.Count ≤ p.Size ∧
    p.Size ≤ e.Max := by
  cases c with
  | OnRecvProtocol ptoid ptoname ptolen =>
    obtain rfl := Option.some.inj hc
    exact Or.inl rfl
  | OnSendProtocol ptoid ptolen count =>
    obtain ⟨name, hname, rfl⟩ := Option.map_eq_some_iff.1 hc
    exact h (by rw [hname]; rfl)
  | TimerDump => exact nomatch hc

omit [DecidableEq κ] in
theorem Call.Positive.packets {c : Call κ} (h : c.Positive) (hc : c.packets N = some p) : 0 < p.Count := by
  cases c with
  | OnRecvProtocol ptoid ptoname ptolen =>
    obtain rfl := Option.some.inj hc
    exact Nat.one_pos
  | OnSendProtocol ptoid ptolen count =>
    obtain ⟨name, -, rfl⟩ := Option.map_eq_some_iff.1 hc
    exact h
  | TimerDump => exact nomatch hc

/-- What a call does for a direction: nothing, it counts packets, or it reports. -/
inductive Effect (w w' : World κ) (dir : Dir) (call : Option (Packets κ)) (S : Sorting) : Prop
  | none (data : w'.monitor.data dir = w.monitor.data dir) (reports : w'.reportsOf dir = w.reportsOf dir)
      (packets : w'.packetsOf dir = w.packetsOf dir)
  | record (p : Packets κ) (name : String) (hcall : call = some p) (hdir : p.dir = dir)
      (data : w'.monitor.data dir = (w.monitor.data dir).record p.ptoid name p.Size p.Count)
      (reports : w'.reportsOf dir = w.reportsOf dir) (packets : w'.packetsOf dir = w.packetsOf dir ++ [p])
  | dump (data : w'.monitor.data dir = .empty)
      (reports : w'.reportsOf dir = w.reportsOf dir ++ [(w.monitor.data dir).report S])
      (packets : w'.packetsOf dir = w.packetsOf dir)

theorem next_state (N : Net κ) (S : Sorting) (w : World κ) (c : Call κ) :
    (w.next N S c).monitor.m_State = w.monitor.m_State := by
  cases c with
  | OnRecvProtocol ptoid ptoname ptolen =>
    dsimp only [World.next, Call.run, Monitor.OnRecvProtocol]
    split <;> rfl
  | OnSendProtocol ptoid ptolen count =>
    dsimp only [World.next, Call.run, Monitor.OnSendProtocol]
    split
    · rfl
    · split <;> rfl
  | TimerDump => rfl

theorem reportsOf_next (N : Net κ) (S : Sorting) (w : World κ) (c : Call κ) (dir : Dir) : (w.next N S c).reportsOf dir =
    w.reportsOf dir ++ ((c.run N S w.monitor).2.filter fun r => r.1 = dir).map Prod.snd := by
  simp [World.reportsOf, World.next]

theorem packetsOf_next (N : Net κ) (S : Sorting) (w : World κ) (c : Call κ) (dir : Dir) : (w.next N S c).packetsOf dir =
    w.packetsOf dir ++ (c.packets N).toList.filter fun p => p.dir = dir := by
  simp [World.packetsOf, World.next]

omit [DecidableEq κ] in
/-- The statistics of one direction are dumped, or there are none. -/
theorem dump_cases (S : Sorting) (d : Option (Data κ)) :
    ((dump S d).1.getD .empty = d.getD .empty ∧ (dump S d).2 = none) ∨
    ((dump S d).1.getD .empty = .empty ∧ (dump S d).2 = some ((d.getD .empty).report S)) := by
  cases d with
  | none => exact Or.inl ⟨rfl, rfl⟩
  | some d =>
    dsimp only [dump]
    split
    · exact Or.inr ⟨rfl, rfl⟩
    · exact Or.inl ⟨rfl, rfl⟩

omit [DecidableEq κ] in
theorem reports_TimerDump (S : Sorting) (m : Monitor κ) (dir : Dir) :
    ((m.TimerDump S).2.filter fun r => r.1 = dir).map Prod.snd =
      (dump S (match dir with | .up => m.m_UpData | .down => m.m_DownData)).2.toList := by
  simp only [Monitor.TimerDump, List.filter_append, List.map_append]
  cases dir <;> cases (dump S m.m_UpData).2 <;> cases (dump S m.m_DownData).2 <;> rfl

/-- **One call**. -/
theorem next_effect (hs : w.monitor.m_State = true) (c : Call κ) (dir : Dir) :
    Effect w (w.next N S c) dir (c.packets N) S := by
  have hrep := reportsOf_next N S w c dir
  have hpack := packetsOf_next N S w c dir
  cases c with
  | OnRecvProtocol ptoid ptoname ptolen =>
    rw [show (Call.run N S w.monitor (.OnRecvProtocol ptoid ptoname ptolen)).2 = [] from rfl] at hrep
    cases dir with
    | up =>
      refine .record ⟨.up, ptoid, 1, ptolen⟩ ptoname rfl rfl ?_ (by simpa using hrep) hpack
      simp [World.next, Call.run, Monitor.OnRecvProtocol, Monitor.data, hs]
    | down =>
      refine .none ?_ (by simpa using hrep) (by simpa [Call.packets] using hpack)
      simp [World.next, Call.run, Monitor.OnRecvProtocol, Monitor.data, hs]
  | OnSendProtocol ptoid ptolen count =>
    rw [show (Call.run N S w.monitor (.OnSendProtocol ptoid ptolen count)).2 = [] from rfl] at hrep
    cases hh : N.handle ptoid with
    | none =>
      refine .none ?_ (by simpa using hrep) (by simpa [Call.packets, hh] using hpack)
      simp [World.next, Call.run, Monitor.OnSendProtocol, hs, hh]
    | some name =>
      cases dir with
      | up =>
        refine .none ?_ (by simpa using hrep) (by simpa [Call.packets, hh] using hpack)
        simp [World.next, Call.run, Monitor.OnSendProtocol, Monitor.data, hs, hh]
      | down =>
        refine .record ⟨.down, ptoid, count.getD 1, ptolen⟩ name (by simp [Call.packets, hh]) rfl ?_
          (by simpa using hrep)
          (by simpa [Call.packets, hh] using hpack)
        simp [World.next, Call.run, Monitor.OnSendProtocol, Monitor.data, hs, hh]
  | TimerDump =>
    rw [show Call.run N S w.monitor .TimerDump = w.monitor.TimerDump S from rfl, reports_TimerDump] at hrep
    have hpack : (w.next N S .TimerDump).packetsOf dir = w.packetsOf dir := by simpa [Call.packets] using hpack
    cases dir with
    | up =>
      obtain ⟨hdata, hreport⟩ | ⟨hdata, hreport⟩ := dump_cases S w.monitor.m_UpData
      · exact .none hdata (by simpa [hreport] using hrep) hpack
      · exact .dump hdata (by simpa [hreport, Monitor.data] using hrep) hpack
    | down =>
      obtain ⟨hdata, hreport⟩ | ⟨hdata, hreport⟩ := dump_cases S w.monitor.m_DownData
      · exact .none hdata (by simpa [hreport] using hrep) hpack
      · exact .dump hdata (by simpa [hreport, Monitor.data] using hrep) hpack

/-- The monitor is on, and its statistics and its reports tell of the packets. -/
def Inv (w : World κ) : Prop :=
  w.monitor.m_State = true ∧ ∀ dir, Told (w.monitor.data dir) (w.reportsOf dir) (w.packetsOf dir)

theorem init_inv : Inv (World.init : World κ) := by
  refine ⟨rfl, fun dir => ⟨[], [], rfl, .nil, ?_⟩⟩
  cases dir <;> exact dataOf_empty

theorem Inv.next (h : Inv w) {c : Call κ} (hpos : c.Positive) (hc : c.Single N w.monitor) : Inv (w.next N S c) := by
  refine ⟨(next_state N S w c).trans h.1, fun dir => ?_⟩
  have htold := h.2 dir
  cases next_effect (N := N) (S := S) h.1 c dir with
  | none hdata hreports hpackets => rwa [hdata, hreports, hpackets]
  | record p name hcall hdir hdata hreports hpackets =>
    rw [hdata, hreports, hpackets]
    have hp := hc.packets hcall
    rw [hdir] at hp
    exact htold.record name (hpos.packets hcall) hp
  | dump hdata hreports hpackets =>
    rw [hdata, hreports, hpackets]
    exact htold.dump S

theorem Inv.sound (h : Inv w) : Sound w where
  totals dir := by
    obtain ⟨_, _, -, -, hd⟩ := h.2 dir
    exact ⟨hd.counts, hd.sizes⟩
  bounds dir ptoid e he := by
    obtain ⟨_, _, -, -, hd⟩ := h.2 dir
    exact (hd.entry ptoid e he).bounds
  once := h.2

/-- **Traffic statistics**: along every run in which no call takes the size of several packets for that of one. -/
theorem traffic_sound (N : Net κ) (S : Sorting) {calls : List (Call κ)} (hpos : ∀ c ∈ calls, c.Positive)
    (h : Along (World.next N S) (fun w c => c.Single N w.monitor) .init calls) :
    Throughout (World.next N S) Sound .init calls := by
  have hgood : Along (World.next N S) (fun w c => c.Positive ∧ c.Single N w.monitor) .init calls :=
    (along_forall.2 hpos).and h
  exact (hgood.throughout (fun w c hw hc => hw.next hc.1 hc.2) init_inv).mono fun w hw => hw.sound

/-- One protocol, of which a packet is received and several are sent. -/
theorem traffic_sound_move :
    Throughout (World.next ⟨true, fun ptoid => if ptoid = 7 then some "move" else none, fun _ => none⟩
    .merge) Sound .init [.OnRecvProtocol 1 "login" 10, .OnSendProtocol 7 20 none, .OnSendProtocol 8 20 none, .TimerDump,
      .OnSendProtocol 7 30 (some 1), .OnSendProtocol 7 100 none, .OnSendProtocol 7 65 (some 2)] := by
  apply traffic_sound
  · simp [Call.Positive]
  · exact ⟨trivial, fun _ => Or.inl rfl, fun _ => Or.inl rfl, trivial, fun _ => Or.inl rfl, fun _ => Or.inl rfl,
      fun _ => Or.inr ⟨⟨"move", 2, 130, 100, 30⟩, rfl, by decide, by decide⟩, trivial⟩

/-- Two packets of 10 bytes that are told of at once: their size is taken for that of the smallest packet. -/
theorem several_packets : ¬∀ calls : List (Call Nat), (∀ c ∈ calls, c.Positive) →
    Throughout (World.next ⟨true, fun ptoid => if ptoid = 7 then some "move" else none,
      fun _ => none⟩ .merge) Sound .init calls := by
  intro h
  have hsound := (h [.OnSendProtocol 7 20 (some 2)] (by simp [Call.Positive])).2
  exact absurd (hsound.bounds .down 7 ⟨"move", 2, 20, 20, 20⟩ rfl).1 (by decide)

end XCore.Traffic
