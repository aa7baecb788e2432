import XCore.Redis.Client

/-!
# Commands queued before the connection is initialised

While `m_Inited` is false, `Exec` keeps a command in `m_InitFuncs`, a table keyed by the text of the command; the
callback of `SELECT` hands the entries to `Send` in the order of `pairs`. So of the calls of one command only the last
is kept, and the order is that of the table.

- `queueUp_same`, `table_kept_iff`: what is queued after a list of calls;
- `flush_of_registrable`, `flush_handed`: the loop that hands the entries to `Send`;
- `queue_kept_iff`: when the order is kept and no callback dropped, for every order of `pairs`.
-/

namespace XCore.Redis

open XCore.Lua XCore.Tcp XCore.Effect

/-- The arguments of a call of `Exec`. -/
structure ExecCall (F : Type) where
  cmds : List Bytes
  func : Option F

namespace ExecCall

variable {F : Type}

/-- The text of the command. -/
def msg (c : ExecCall F) : Bytes := message c.cmds

/-- The commands in the order of their first calls. -/
def commands (calls : List (ExecCall F)) : List Bytes := (calls.map msg).eraseDups

/-- The callbacks of the calls of a command. -/
def callbacks (calls : List (ExecCall F)) (m : Bytes) : List (Func F) :=
  calls.filterMap fun c => if c.msg = m then c.func.map .user else none

end ExecCall

/-- The command that is handed to `Send`. -/
def RedisEffect.handedOver {F : Type} : RedisEffect F → Option Bytes
  | .handed msg => some msg
  | _ => none

namespace CRedis

variable {F : Type}

/-- Calls of `Exec` one after another. -/
def execAll (now : Int) : List (ExecCall F) → CRedis F → CRedis F
  | [], self => self
  | c :: cs, self => execAll now cs (self.Exec now c.cmds (c.func.map .user) false).state

/-- Calls of `Exec` before and after the connect handler: the state in which the reply to its `SELECT` arrives. -/
def selecting (now : Int) (before after : List (ExecCall F)) (self : CRedis F) : CRedis F :=
  ((self.execAll now before).onConnect now).state.execAll now after

/-- The entries of `m_InitFuncs`. -/
def queued (self : CRedis F) : List (Σ _ : Bytes, InitCmd F) := (self.m_InitFuncs.map AList.entries).getD []

/-- The functions registered for a command. -/
def funcsOf (self : CRedis F) (m : Bytes) : List (Func F) := ((self.m_LockList.lookup m).bind Lock.funcs).getD []

/-- The commands are handed to `Send` in the order of their first calls, and all callbacks are registered. -/
structure QueueKept (calls : List (ExecCall F)) (s : CRedis F) (r : Did F) : Prop where
  order : r.out.filterMap RedisEffect.handedOver = ExecCall.commands calls
  registered : ∀ m, r.state.funcsOf m = s.funcsOf m ++ ExecCall.callbacks calls m

/-- Nothing is in flight and nothing queued when the connection comes up, and no lock is in the way of `SELECT`. Other
locks may be there from an earlier connection. -/
structure Uninit (s : CRedis F) : Prop where
  inited : s.m_Inited = false
  noInit : s.m_InitFuncs = none
  noSend : s.m_SendList = []
  noSelect : s.m_LockList.lookup (message [SELECT, s.db]) = none

/-- The lock of a command, if there is one, takes a function. -/
def Registrable (self : CRedis F) (m : Bytes) (func : Option (Func F)) : Prop :=
  func ≠ none → ∀ lock, self.m_LockList.lookup m = some lock → lock.funcs ≠ none

/-! ## What is queued -/

/-- The entry that `Exec` makes of a call. -/
def entry (c : ExecCall F) : Σ _ : Bytes, InitCmd F := ⟨c.msg, c.cmds.head?, c.func.map .user⟩

/-- The table after a list of calls. -/
def queueUp (calls : List (ExecCall F)) (t : Option (AList fun _ : Bytes => InitCmd F)) :
    Option (AList fun _ : Bytes => InitCmd F) :=
  calls.foldl (fun t c => some ((t.getD ∅).insert c.msg (entry c).2)) t

/-- `Exec` only queues while `m_Inited` is false. -/
theorem execAll_eq (now : Int) : ∀ (calls : List (ExecCall F)) {self : CRedis F}, self.m_Inited = false →
    self.execAll now calls = { self with m_InitFuncs := queueUp calls self.m_InitFuncs }
  | [], _, _ => rfl
  | c :: cs, self, h => by
    have hstep : (self.Exec now c.cmds (c.func.map .user) false).state =
        { self with m_InitFuncs := some ((self.m_InitFuncs.getD ∅).insert c.msg (entry c).2) } := by
      simp [Exec, h, ExecCall.msg, entry]
    rw [execAll, hstep]
    exact execAll_eq now cs h

/-- The keys of the table are the commands called. -/
theorem mem_queueUp (calls : List (ExecCall F)) (m : Bytes) :
    m ∈ (queueUp calls none).getD ∅ ↔ ∃ c ∈ calls, c.msg = m := by
  induction calls using List.reverseRecOn with
  | nil => simp [queueUp]
  | append_singleton cs c ih =>
    have hstep : queueUp (cs ++ [c]) none = some (((queueUp cs none).getD ∅).insert c.msg (entry c).2) := by
      simp [queueUp]
    rw [hstep, Option.getD_some, AList.mem_insert, ih]
    simp [or_comm, eq_comm]

/-- Calls of one command leave the entry of the last one. -/
theorem queueUp_same {cs : List (ExecCall F)} {c : ExecCall F} (h : ∀ x ∈ cs, x.msg = c.msg) :
    ∃ t, queueUp (cs ++ [c]) none = some t ∧ t.entries = [entry c] := by
  refine ⟨((queueUp cs none).getD ∅).insert c.msg (entry c).2, by simp [queueUp], ?_⟩
  have hkeys : (((queueUp cs none).getD ∅).erase c.msg).keys = [] := by
    rw [List.eq_nil_iff_forall_not_mem]
    intro m hm
    rw [← AList.mem_keys, AList.mem_erase, mem_queueUp] at hm
    obtain ⟨hne, x, hx, hxm⟩ := hm
    exact hne (hxm.symm.trans (h x hx))
  have hent : List.kerase c.msg ((queueUp cs none).getD ∅).entries = [] := List.map_eq_nil_iff.1 hkeys
  rw [AList.entries_insert, hent]
  rfl

/-- A list without repetitions that reads the same backwards has one element at most. -/
theorem eq_of_reverse {α : Type*} : ∀ {l : List α}, l.Nodup → l.reverse = l → ∀ a ∈ l, ∀ b ∈ l, a = b
  | [], _, _, a, ha, _, _ => absurd ha List.not_mem_nil
  | x :: t, hnd, hrev, a, ha, b, hb => by
    rw [List.reverse_cons] at hrev
    cases hr : t.reverse with
    | nil =>
      obtain rfl := List.reverse_eq_nil_iff.1 hr
      rw [List.mem_singleton.1 ha, List.mem_singleton.1 hb]
    | cons y u =>
      rw [hr, List.cons_append] at hrev
      have hy : y ∈ t := by rw [← List.mem_reverse, hr]; exact List.mem_cons_self
      exact absurd ((List.cons.inj hrev).1 ▸ hy) (List.nodup_cons.1 hnd).1

/-- The commands of calls of one command. -/
theorem commands_same {cs : List (ExecCall F)} {c : ExecCall F} (h : ∀ x ∈ cs, x.msg = c.msg) :
    ExecCall.commands (cs ++ [c]) = [c.msg] := by
  cases cs with
  | nil => rfl
  | cons x xs =>
    have hfilter : ((xs ++ [c]).map ExecCall.msg).filter (fun b => !b == c.msg) = [] := by
      rw [List.filter_eq_nil_iff]
      intro m hm
      obtain ⟨y, hy, rfl⟩ := List.mem_map.1 hm
      have hyc : y.msg = c.msg := by
        rcases List.mem_append.1 hy with hy | hy
        · exact h y (by simp [hy])
        · rw [List.mem_singleton.1 hy]
      simp [hyc]
    rw [ExecCall.commands, List.cons_append, List.map_cons, h x (by simp), List.eraseDups_cons, hfilter]
    rfl

/-- The callbacks of calls of one command. -/
theorem callbacks_same {cs : List (ExecCall F)} {c : ExecCall F} (h : ∀ x ∈ cs, x.msg = c.msg) (m : Bytes) :
    ExecCall.callbacks (cs ++ [c]) m =
      if c.msg = m then (cs.filterMap fun x => x.func.map Func.user) ++ (c.func.map Func.user).toList else [] := by
  have hmap : ∀ x ∈ cs ++ [c], (if x.msg = m then x.func.map Func.user else none) =
      if c.msg = m then x.func.map Func.user else none := by
    intro x hx
    rcases List.mem_append.1 hx with hx | hx
    · rw [h x hx]
    · rw [List.mem_singleton.1 hx]
  rw [ExecCall.callbacks, List.filterMap_congr hmap]
  by_cases hm : c.msg = m
  · simp only [if_pos hm, List.filterMap_append]
    cases hf : c.func <;> simp [hf]
  · simp [hm]

/-! ## The loop over the table -/

theorem Send_handedOver (now : Int) (cmd : Option Bytes) (msg : Bytes) (func : Option (Func F)) (self : CRedis F) :
    (self.Send now cmd msg func).out.filterMap RedisEffect.handedOver = [] := by
  refine List.filterMap_eq_nil_iff.2 fun e he => ?_
  rcases Send_out now cmd msg func self e he with ⟨_, _, rfl⟩ | ⟨_, _, rfl⟩ | ⟨_, rfl⟩ <;> rfl

theorem hand_handedOver (now : Int) (e : Σ _ : Bytes, InitCmd F) (self : CRedis F) :
    (hand now e self).out.filterMap RedisEffect.handedOver = [e.1] := by
  have hout : (hand now e self).out = .handed e.1 :: (self.Send now e.2.1 e.1 e.2.2).out := rfl
  rw [hout, List.filterMap_cons, Send_handedOver]
  rfl

/-- The commands that are handed to `Send`, in the order of the entries, up to an error. -/
theorem flush_handed (now : Int) : ∀ (entries : List (Σ _ : Bytes, InitCmd F)) (self : CRedis F),
    (Done.each (hand now) entries self).out.filterMap RedisEffect.handedOver <+: entries.map Sigma.fst
  | [], _ => List.prefix_refl _
  | e :: es, self => by
    have ih := flush_handed now es (hand now e self).state
    rw [Done.each]
    cases herr : (hand now e self).err with
    | some x =>
      rw [Done.andThen_of_err herr, hand_handedOver]
      exact ⟨es.map Sigma.fst, rfl⟩
    | none =>
      rw [Done.andThen_of_ok herr, List.filterMap_append, hand_handedOver]
      exact List.cons_prefix_cons.2 ⟨rfl, ih⟩

/-- `Send` registers a function that the lock takes. -/
theorem Send_registers (now : Int) (cmd : Option Bytes) {msg : Bytes} {func : Option (Func F)} {self : CRedis F}
    (h : self.Registrable msg func) : (self.Send now cmd msg func).err = none ∧
      (∀ m, (self.Send now cmd msg func).state.funcsOf m = self.funcsOf m ++ if msg = m then func.toList else []) ∧
      ∀ m, msg ≠ m → (self.Send now cmd msg func).state.m_LockList.lookup m = self.m_LockList.lookup m := by
  rcases Send_cases now cmd msg func self with
    ⟨lock, hl, ⟨heq, rfl⟩ | ⟨-, hf, hno⟩ | ⟨f, funcs, rfl, hf, heq⟩⟩ | ⟨hl, heq⟩
  · rw [heq]
    exact ⟨rfl, by simp, fun _ _ => rfl⟩
  · exact absurd hno (h hf lock hl)
  · rw [heq]
    refine ⟨rfl, fun m => ?_, fun m hm => AList.lookup_insert_ne (Ne.symm hm)⟩
    by_cases hm : msg = m
    · subst hm
      simp [funcsOf, hl, hf]
    · simp [funcsOf, AList.lookup_insert_ne (Ne.symm hm), hm]
  · rw [heq]
    refine ⟨rfl, fun m => ?_, fun m hm => AList.lookup_insert_ne (Ne.symm hm)⟩
    by_cases hm : msg = m
    · subst hm
      cases func <;> simp [funcsOf, hl]
    · simp [funcsOf, AList.lookup_insert_ne (Ne.symm hm), hm]

/-- Entries whose functions the locks take: each command is handed over, and its function registered. -/
theorem flush_of_registrable (now : Int) : ∀ (entries : List (Σ _ : Bytes, InitCmd F)) {s : CRedis F},
    entries.NodupKeys → (∀ e ∈ entries, s.Registrable e.1 e.2.2) →
    (Done.each (hand now) entries s).err = none ∧
      (Done.each (hand now) entries s).out.filterMap RedisEffect.handedOver = entries.map Sigma.fst ∧
      ∀ m, (Done.each (hand now) entries s).state.funcsOf m =
        s.funcsOf m ++ entries.filterMap fun e => if e.1 = m then e.2.2 else none
  | [], _, _, _ => ⟨rfl, rfl, by simp [Done.each, Done.skip]⟩
  | e :: es, self, hnd, hreg => by
    obtain ⟨herr, hfuncs, hother⟩ := Send_registers now e.2.1 (hreg e (by simp))
    rw [List.nodupKeys_cons] at hnd
    obtain ⟨ih₀, ih₁, ih₂⟩ := flush_of_registrable now es (s := (hand now e self).state) hnd.2 fun x hx hf lock hl =>
      hreg x (by simp [hx]) hf lock <| by
        rw [← hother x.1 fun he => hnd.1 (List.mem_map.2 ⟨x, hx, he.symm⟩)]
        exact hl
    have herr' : (hand now e self).err = none := herr
    rw [Done.each, Done.andThen_of_ok herr']
    refine ⟨ih₀, by rw [List.filterMap_append, hand_handedOver, ih₁]; rfl, fun m => (ih₂ m).trans ?_⟩
    have hstate : (hand now e self).state.funcsOf m = self.funcsOf m ++ if e.1 = m then e.2.2.toList else [] := hfuncs m
    rw [hstate, List.append_assoc]
    by_cases hm : e.1 = m
    · cases hf : e.2.2 <;> simp [hm, hf]
    · simp [hm]

/-- `Send` raises when a function is given to a lock that has none. -/
theorem Send_raises (now : Int) (cmd : Option Bytes) {msg : Bytes} {func : Option (Func F)} {self : CRedis F}
    (h : ¬self.Registrable msg func) : func ≠ none ∧ (self.Send now cmd msg func).state = self := by
  simp only [Registrable, not_forall, not_not] at h
  obtain ⟨hf, lock, hl, hno⟩ := h
  obtain ⟨f, rfl⟩ := Option.ne_none_iff_exists'.1 hf
  exact ⟨hf, by simp [Send, hl, hno]⟩

/-! ## The reply to `SELECT` -/

/-- What is queued when the reply to `SELECT` arrives. -/
theorem selecting_eq {self : CRedis F} (h : self.Uninit) (now : Int) (before after : List (ExecCall F)) :
    selecting now before after self = { self with
      m_LockList := self.m_LockList.insert (message [SELECT, self.db]) ⟨some SELECT, now, some [.select]⟩
      m_SendList := [message [SELECT, self.db]]
      m_InitFuncs := queueUp (before ++ after) none
      timeOut := true } := by
  obtain ⟨hi, hn, hs, hl⟩ := h
  rw [selecting, execAll_eq now before hi, execAll_eq now after (by simp [onConnect, Exec, Send, hl, hi])]
  simp [onConnect, Exec, Send, hl, hs, hn, queueUp]

/-- The callback of `SELECT` runs the loop. -/
theorem selected_handedOver {self : CRedis F} (now : Int) (entries : List (Σ _ : Bytes, InitCmd F))
    (h : self.m_InitFuncs = none → entries = []) :
    (selected now entries self).out.filterMap RedisEffect.handedOver =
        (Done.each (hand now) entries { self with m_Inited := true }).out.filterMap RedisEffect.handedOver ∧
      ∀ m, (selected now entries self).state.funcsOf m =
        (Done.each (hand now) entries { self with m_Inited := true }).state.funcsOf m := by
  rcases Option.eq_none_or_eq_some self.m_InitFuncs with ht | ⟨t, ht⟩
  · obtain rfl := h ht
    simp only [selected, ht]
    exact ⟨rfl, fun _ => rfl⟩
  · obtain ⟨r, hr⟩ : ∃ r, r = Done.each (hand now) entries { self with m_Inited := true } := ⟨_, rfl⟩
    have hsel : selected now entries self = r.andThen fun self =>
      ⟨{ self with m_InitFuncs := none }, [.onInited], none⟩ := by
      simp [hr, selected, ht]
    rw [hsel, ← hr]
    cases herr : r.err with
    | none =>
      rw [Done.andThen_of_ok herr, List.filterMap_append]
      exact ⟨List.append_nil _, fun _ => rfl⟩
    | some e =>
      rw [Done.andThen_of_err herr]
      exact ⟨rfl, fun _ => rfl⟩

/-- The reply to `SELECT` runs the loop, with the locks of the start. -/
theorem recv_selecting {self : CRedis F} (h : self.Uninit) (now : Int) (before after : List (ExecCall F)) (ret : Bool)
    (data : RData) {entries : List (Σ _ : Bytes, InitCmd F)}
    (hperm : entries.Perm (selecting now before after self).queued) :
    ∃ s₀ : CRedis F, (∀ m, s₀.m_LockList.lookup m = self.m_LockList.lookup m) ∧
      ((selecting now before after self).Recv now entries ret data).out.filterMap RedisEffect.handedOver =
        (Done.each (hand now) entries s₀).out.filterMap RedisEffect.handedOver ∧
      ∀ m, ((selecting now before after self).Recv now entries ret data).state.funcsOf m =
        (Done.each (hand now) entries s₀).state.funcsOf m := by
  obtain ⟨s, hs⟩ : ∃ s, s = selecting now before after self := ⟨_, rfl⟩
  rw [← hs] at hperm ⊢
  rw [selecting_eq h] at hs
  obtain ⟨s₁, hs₁⟩ : ∃ s₁, s₁ = s.removed (message [SELECT, self.db]) [] := ⟨_, rfl⟩
  refine ⟨{ s₁ with m_Inited := true }, fun m => ?_, ?_⟩
  · rw [hs₁, hs]
    by_cases hm : m = message [SELECT, self.db]
    · subst hm
      exact (AList.lookup_erase _ _).trans h.noSelect.symm
    · exact (AList.lookup_erase_ne hm).trans (AList.lookup_insert_ne hm)
  · have hdata : (if ret && some SELECT == some HGETALL then hgetall data else .ok (.data data)) = .ok
        (.data data) := by
      cases ret <;> rfl
    have hcall : s.Recv now entries ret data =
        Done.each (callFunc now entries (some (ret, .data data))) [.select] s₁ := by
      rw [hs₁, hs]
      simp only [Recv, AList.lookup_insert, hdata]
      rfl
    obtain ⟨hout, hfuncs⟩ := selected_handedOver now entries fun (hnone : s₁.m_InitFuncs = none) => by
      have hnone : s.m_InitFuncs = none := by rw [hs₁] at hnone; exact hnone
      rw [queued, hnone] at hperm
      exact List.perm_nil.1 hperm
    have hdone : s.Recv now entries ret data = ⟨(selected now entries s₁).state,
        .call .select (some (ret, .data data)) :: (selected now entries s₁).out, (selected now entries s₁).err⟩ := by
      rw [hcall]
      cases herr : (selected now entries s₁).err <;> simp [Done.each, callFunc, Done.andThen, Done.skip, herr]
    rw [← hout, hdone]
    exact ⟨rfl, hfuncs⟩

/-- A list that comes before another, with all its elements, is that list if it has no repetitions. -/
theorem eq_of_prefix {α : Type*} {l₁ l₂ : List α} (hnd : l₂.Nodup) (h : l₁ <+: l₂) (hsub : ∀ a ∈ l₂, a ∈ l₁) :
    l₁ = l₂ := by
  obtain ⟨t, rfl⟩ := h
  cases t with
  | nil => simp
  | cons a t => exact absurd rfl ((List.nodup_append.1 hnd).2.2 a (hsub a (by simp)) a (by simp))

/-- Calls of one command, of which only the last may have a callback that the lock takes, are kept. -/
theorem queue_kept_same {self s₀ : CRedis F}
    (hlocks : ∀ m, s₀.m_LockList.lookup m = self.m_LockList.lookup m) (now : Int)
    {cs : List (ExecCall F)} {c : ExecCall F} (hsame : ∀ x ∈ cs, x.msg = c.msg) :
    ((Done.each (hand now) [entry c] s₀).out.filterMap RedisEffect.handedOver = ExecCall.commands (cs ++ [c]) ∧
      ∀ m, (Done.each (hand now) [entry c] s₀).state.funcsOf m = self.funcsOf m ++ ExecCall.callbacks (cs ++ [c]) m) ↔
      (∀ x ∈ cs, x.func = none) ∧ self.Registrable c.msg (c.func.map .user) := by
  have hfuncsOf : ∀ m, s₀.funcsOf m = self.funcsOf m := fun m => by rw [funcsOf, hlocks, funcsOf]
  have hreg : s₀.Registrable c.msg (c.func.map .user) ↔ self.Registrable c.msg (c.func.map .user) := by
    simp only [Registrable, hlocks]
  have hlast : ∀ m, ([entry c].filterMap fun e => if e.1 = m then e.2.2 else none) =
      if c.msg = m then (c.func.map Func.user).toList else [] := by
    intro m
    by_cases hm : c.msg = m
    · cases hf : c.func <;> simp [entry, hm, hf]
    · simp [entry, hm]
  by_cases hr : s₀.Registrable c.msg (c.func.map .user)
  · obtain ⟨-, hout, hfuncs⟩ := flush_of_registrable now [entry c] (List.nodupKeys_singleton _)
      (fun e he => by rw [List.mem_singleton.1 he]; exact hr)
    rw [hout, commands_same hsame]
    simp only [hfuncs, hlast, hfuncsOf, callbacks_same hsame, List.append_cancel_left_eq]
    constructor
    · rintro ⟨-, h⟩
      have hnil := h c.msg
      rw [if_pos rfl, if_pos rfl] at hnil
      refine ⟨fun x hx => ?_, hreg.1 hr⟩
      simpa using List.filterMap_eq_nil_iff.1 (List.append_left_eq_self.1 hnil.symm) x hx
    · rintro ⟨hnone, -⟩
      have hnil : (cs.filterMap fun x => x.func.map Func.user) = [] :=
        List.filterMap_eq_nil_iff.2 fun x hx => by rw [hnone x hx]; rfl
      exact ⟨rfl, fun m => by rw [hnil, List.nil_append]⟩
  · -- the callback of the last call is lost
    refine iff_of_false ?_ fun h => hr (hreg.2 h.2)
    rintro ⟨-, h⟩
    obtain ⟨hf, hstate⟩ := Send_raises now c.cmds.head? hr
    obtain ⟨f, hf⟩ := Option.ne_none_iff_exists'.1 hf
    have hself : (Done.each (hand now) [entry c] s₀).state = s₀ := by
      rw [Done.each]
      have hhand : (hand now (entry c) s₀).state = s₀ := hstate
      cases herr : (hand now (entry c) s₀).err with
      | none => rw [Done.andThen_of_ok herr]; exact hhand
      | some e => rw [Done.andThen_of_err herr]; exact hhand
    have hcall := h c.msg
    rw [hself, hfuncsOf, callbacks_same hsame, if_pos rfl, hf, List.self_eq_append_right] at hcall
    simp at hcall

/-- The table of the calls, in an order of its own. -/
theorem queued_eq {self : CRedis F} (h : self.Uninit) (now : Int) (before after : List (ExecCall F)) :
    (selecting now before after self).queued = ((queueUp (before ++ after) none).map AList.entries).getD [] := by
  rw [selecting_eq h]
  rfl

theorem mem_queued {self : CRedis F} (h : self.Uninit) (now : Int) (before after : List (ExecCall F)) (m : Bytes) :
    m ∈ (selecting now before after self).queued.map Sigma.fst ↔ ∃ c ∈ before ++ after, c.msg = m := by
  rw [← mem_queueUp, queued_eq h]
  cases queueUp (before ++ after) none <;> rfl

theorem nodup_queued {self : CRedis F} (h : self.Uninit) (now : Int) (before after : List (ExecCall F)) :
    ((selecting now before after self).queued.map Sigma.fst).Nodup := by
  rw [queued_eq h]
  cases queueUp (before ++ after) none with
  | none => exact List.nodup_nil
  | some t => exact t.nodupKeys

/-- Where the order of the calls is that of every order of the table, all calls are of one command. -/
theorem msg_eq_of_kept {self : CRedis F} (h : self.Uninit) (now : Int) (before after : List (ExecCall F)) (ret : Bool)
    (data : RData) (hkept : ∀ entries, entries.Perm (selecting now before after self).queued →
      QueueKept (before ++ after) self ((selecting now before after self).Recv now entries ret data)) :
    ∀ c ∈ before ++ after, ∀ c' ∈ before ++ after, c.msg = c'.msg := by
  have hkeys := mem_queued h now before after
  have hnd := nodup_queued h now before after
  have hcommands : ∀ entries : List (Σ _ : Bytes, InitCmd F), entries.Perm (selecting now before after self).queued →
      ExecCall.commands (before ++ after) = entries.map Sigma.fst := by
    intro entries hperm
    obtain ⟨s₀, -, hout, -⟩ := recv_selecting h now before after ret data hperm
    rw [← (hkept entries hperm).order, hout]
    refine eq_of_prefix ((hperm.map _).nodup_iff.2 hnd) (flush_handed now entries s₀) fun m hm => ?_
    obtain ⟨c, hc, rfl⟩ := (hkeys m).1 ((hperm.map _).mem_iff.1 hm)
    rw [← hout, (hkept entries hperm).order, ExecCall.commands, List.mem_eraseDups]
    exact List.mem_map.2 ⟨c, hc, rfl⟩
  intro c hc c' hc'
  refine eq_of_reverse hnd ?_ _ ((hkeys _).2 ⟨c, hc, rfl⟩) _ ((hkeys _).2 ⟨c', hc', rfl⟩)
  rw [← List.map_reverse, ← hcommands _ (List.reverse_perm _), ← hcommands _ (List.Perm.refl _)]

/-- **The queue** is handed to `Send` in the order of the first calls, and no callback is dropped, whatever the order of
`pairs`, if and only if all calls are of one command, only the last of them may have a callback, and a lock left from
before takes that callback. -/
theorem queue_kept_iff {self : CRedis F} (h : self.Uninit) (now : Int) (before after : List (ExecCall F)) (ret : Bool)
    (data : RData) :
    (∀ entries, entries.Perm (selecting now before after self).queued →
      QueueKept (before ++ after) self ((selecting now before after self).Recv now entries ret data)) ↔
      (∀ c ∈ before ++ after, ∀ c' ∈ before ++ after, c.msg = c'.msg) ∧
        (∀ c ∈ (before ++ after).dropLast, c.func = none) ∧
        ∀ c ∈ (before ++ after).getLast?, self.Registrable c.msg (c.func.map .user) := by
  have hqueued := queued_eq h now before after
  rw [← and_iff_right_of_imp (msg_eq_of_kept h now before after ret data)]
  refine and_congr_right fun hsame => ?_
  rcases List.eq_nil_or_concat (before ++ after) with hnil | ⟨cs, c, hcalls⟩
  · rw [hnil] at hqueued ⊢
    refine iff_of_true (fun entries hperm => ?_) (by simp)
    obtain ⟨s₀, hlocks, hout, hfuncs⟩ := recv_selecting h now before after ret data hperm
    rw [hqueued] at hperm
    obtain rfl := List.perm_nil.1 hperm
    refine ⟨hout, fun m => ?_⟩
    rw [hfuncs]
    simp [Done.each, Done.skip, funcsOf, hlocks, ExecCall.callbacks]
  · rw [List.concat_eq_append] at hcalls
    rw [hcalls] at hqueued hsame ⊢
    have hcs : ∀ x ∈ cs, x.msg = c.msg := fun x hx => hsame x (by simp [hx]) c (by simp)
    obtain ⟨t, ht, hent⟩ := queueUp_same hcs
    rw [ht, Option.map_some, Option.getD_some, hent] at hqueued
    have hkept : ∀ entries, entries.Perm (selecting now before after self).queued →
        (QueueKept (cs ++ [c]) self ((selecting now before after self).Recv now entries ret data) ↔
          (∀ x ∈ cs, x.func = none) ∧ self.Registrable c.msg (c.func.map .user)) := by
      intro entries hperm
      obtain ⟨s₀, hlocks, hout, hfuncs⟩ := recv_selecting h now before after ret data hperm
      rw [hqueued] at hperm
      obtain rfl := List.perm_singleton.1 hperm
      rw [← queue_kept_same hlocks now hcs, ← hout]
      simp only [← hfuncs]
      exact ⟨fun h => ⟨h.order, h.registered⟩, fun h => ⟨h.1, h.2⟩⟩
    rw [List.dropLast_concat, List.getLast?_concat]
    simp only [Option.mem_def, Option.some.injEq, forall_eq']
    exact ⟨fun h => (hkept _ (List.Perm.refl _)).1 (h _ (List.Perm.refl _)),
      fun h entries hperm => (hkept entries hperm).2 h⟩

theorem create_uninit (db : Bytes) : (Create db : CRedis F).Uninit := ⟨rfl, rfl, rfl, rfl⟩

/-- `GET k` with a callback. -/
def getK (f : Nat) : ExecCall Nat := ⟨[[71, 69, 84], [107]], some f⟩

/-- `GET k` is queued once, with its callback. -/
theorem queue_kept_get :
    QueueKept [getK 0] (Create [49])
      ((selecting 0 [getK 0] [] (Create [49])).Recv 0 [entry (getK 0)] true (.str [79, 75])) :=
  (queue_kept_iff (create_uninit [49]) 0 [getK 0] [] true (.str [79, 75])).2
    ⟨by simp, by simp, fun c hc hf lock hl => by cases hl⟩ [entry (getK 0)] (List.Perm.refl _)

/-- `GET k` twice: the first callback is dropped. -/
theorem queue_dropped_get : ¬∀ entries, entries.Perm (selecting 0 [getK 0, getK 1] [] (Create [49])).queued →
    QueueKept [getK 0, getK 1] (Create [49])
      ((selecting 0 [getK 0, getK 1] [] (Create [49])).Recv 0 entries true (.str [79, 75])) := by
  intro h
  have hfuncs := (h _ (List.Perm.refl _)).registered (getK 0).msg
  revert hfuncs
  decide

end CRedis

end XCore.Redis
