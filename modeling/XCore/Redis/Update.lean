import XCore.Redis.Encoding
import XCore.Redis.Lock

/-!
# The updates that reach the database

Redis executes what is written, in the order in which it is written. On an initialised connection that stays up, an
`Exec` is written unless the same command is outstanding (the comment on `m_LockList`: the same command is only executed
once at the same time). So what the database executes are the calls in their order, less those of a command that is
outstanding: `written_eq_issued`, `database_eq`. This is for commands whose arguments `%s` does not cut: their texts
tell them apart, and Redis reads from them what was called.
-/

namespace XCore.Redis

open XCore.Lua XCore.Tcp XCore.Effect XCore.Run

variable {F : Type}

/-- The command of a step. -/
def Act.command : Act F → Option (List Bytes)
  | .exec _ cmds _ _ => some cmds
  | .reply .. => none

/-- What a run writes to the socket. -/
def written : CRedis F → List (Act F) → List Bytes
  | _, [] => []
  | self, a :: as => (self.act a).out.filterMap RedisEffect.written ++ written (self.step a) as

/-- The commands of all `Exec` calls of a run. -/
def called (acts : List (Act F)) : List (List Bytes) := acts.filterMap Act.command

/-- The commands of the `Exec` calls of a run that are not outstanding when they are called; `out` are the outstanding
ones at the start, and a reply answers the first of them. -/
def issued : List (List Bytes) → List (Act F) → List (List Bytes)
  | _, [] => []
  | out, .exec _ cmds _ _ :: as => if cmds ∈ out then issued out as else cmds :: issued (out ++ [cmds]) as
  | out, .reply .. :: as => issued out.tail as

namespace CRedis

/-- The command of an `Exec` has no lock left from a command that was answered: no command whose lock has no callback is
called again after its reply. -/
def NoOldLock (self : CRedis F) : Act F → Prop
  | .exec _ cmds _ _ => message cmds ∈ self.m_LockList → message cmds ∈ self.m_SendList
  | .reply .. => True

/-- What a run writes are the calls of commands that are not outstanding, in their order, each as Redis takes it. -/
theorem written_eq_issued : ∀ (acts : List (Act F)) {self : CRedis F} {out : List (List Bytes)}, self.Held →
    self.m_SendList = out.map request → (∀ cmds ∈ called acts, Args Whole cmds) → Along step NoOldLock self acts →
    written self acts = (issued out acts).map request
  | [], _, _, _, _, _, _ => rfl
  | .exec now cmds func ignore :: acts, self, out, h, hsend, hwhole, ha => by
    obtain ⟨hw, hwhole⟩ := List.forall_mem_cons.1 (show ∀ c ∈ cmds :: called acts, Args Whole c from hwhole)
    have hmsg := message_eq_request hw
    have hmem : message cmds ∈ self.m_SendList ↔ cmds ∈ out := by
      rw [hsend, hmsg, List.mem_map_of_injective delimits_request.injective]
    have hheld := h.exec now cmds (func.map .user) ignore
    obtain ⟨⟨hin, -, hs, hout⟩ | ⟨hno, -, hs, -, hout⟩, -⟩ := h.exec_cases now cmds (func.map .user) ignore
    · -- the command is outstanding, and nothing is written
      rw [written, step, act, hout, List.nil_append, written_eq_issued acts hheld (hs.trans hsend) hwhole ha.2,
        issued, if_pos (hmem.1 (ha.1 hin))]
    · have hno' : cmds ∉ out := fun hm => hno (h.held _ (hmem.2 hm))
      have hsend' : (self.Exec now cmds (func.map .user) ignore).state.m_SendList = (out ++ [cmds]).map request := by
        rw [hs, hsend, hmsg, List.map_append]
        rfl
      rw [written, step, act, written_eq_issued acts hheld hsend' hwhole ha.2, hout, issued, if_neg hno',
        List.map_cons, ← hmsg]
      rfl
  | .reply now entries ret data :: acts, self, out, h, hsend, hwhole, ha => by
    obtain ⟨hs, hout, -⟩ := h.reply_cases now entries ret data
    have ih := written_eq_issued acts (h.reply now entries ret data)
      (hs.trans (by rw [hsend, List.map_tail])) hwhole ha.2
    rw [written, step, act, hout, List.nil_append, ih, issued]

/-- The commands that are issued are called. -/
theorem issued_subset_called : ∀ {out : List (List Bytes)} {acts : List (Act F)} {cmds : List Bytes},
    cmds ∈ issued out acts → cmds ∈ called acts
  | _, [], _, h => h
  | out, .exec _ c _ _ :: acts, cmds, h => by
    rw [issued] at h
    split at h
    · exact List.mem_cons_of_mem c (issued_subset_called h)
    · rcases List.mem_cons.1 h with rfl | h
      · exact List.mem_cons_self
      · exact List.mem_cons_of_mem c (issued_subset_called h)
  | out, .reply .. :: acts, _, h => by
    have ih : _ ∈ called acts := issued_subset_called h
    exact ih

/-- **The database** after a run is that of the calls in their order, less those of a command that is outstanding when
it is called; Redis executes (`execute`) the command that it reads from a text. -/
theorem database_eq {self : CRedis F} (h : self.Held) {out : List (List Bytes)}
    (hsend : self.m_SendList = out.map request)
    (acts : List (Act F)) (hwhole : ∀ cmds ∈ called acts, Args Whole cmds) (ha : Along step NoOldLock self acts)
    {Db : Type} (run : Db → List Bytes → Db) (execute : Db → Bytes → Db)
    (hexecute : ∀ db, ∀ cmds ∈ called acts, execute db (request cmds) = run db cmds) (db : Db) :
    (written self acts).foldl execute db = (issued out acts).foldl run db := by
  rw [written_eq_issued acts h hsend hwhole ha, List.foldl_map]
  exact List.foldl_ext _ _ db fun db cmds hc => hexecute db cmds (issued_subset_called hc)

/-- `SET k v`. -/
def set (v : UInt8) (func : Option Nat) : Act Nat := .exec 0 [[83, 69, 84], [107], [v]] func false

/-- A reply `OK`. -/
def ok : Act Nat := .reply 0 [] true (.str [79, 75])

/-- The command `SET k v` on the value of `k`. -/
def setK (db : Option Bytes) : List Bytes → Option Bytes
  | [[83, 69, 84], [107], v] => some v
  | _ => db

/-- Redis on the value of `k`: it reads a command from its text, and executes it. -/
def executeK (db : Option Bytes) (msg : Bytes) : Option Bytes :=
  if msg = request [[83, 69, 84], [107], [49]] then setK db [[83, 69, 84], [107], [49]]
  else if msg = request [[83, 69, 84], [107], [50]] then setK db [[83, 69, 84], [107], [50]]
  else db

theorem executeK_request (db : Option Bytes) {v : Bytes} (h : v = [49] ∨ v = [50]) :
    executeK db (request [[83, 69, 84], [107], v]) = setK db [[83, 69, 84], [107], v] := by
  have hne : request [[83, 69, 84], [107], [50]] ≠ request [[83, 69, 84], [107], [49]] := by decide
  rcases h with rfl | rfl
  · exact if_pos rfl
  · exact (if_neg hne).trans (if_pos rfl)

/-- `SET k 1`, its reply, and `SET k 1` twice, with callbacks: the last call is not written. -/
theorem database_eq_set :
    (written ready [set 49 (some 0), ok, set 49 (some 1), set 49 (some 2)]).foldl executeK none =
      (issued [] [set 49 (some 0), ok, set 49 (some 1), set 49 (some 2)]).foldl setK none :=
  database_eq ready_locked.toHeld rfl [set 49 (some 0), ok, set 49 (some 1), set 49 (some 2)] (by decide)
    ⟨fun h => absurd h (by decide), trivial, fun h => absurd h (by decide), fun _ => by decide, trivial⟩ setK executeK
    (fun db cmds h => by
      obtain rfl := List.eq_of_mem_replicate (show cmds ∈ List.replicate 3 [[83, 69, 84], [107], [49]] from h)
      exact executeK_request db (Or.inl rfl)) none

/-- Of `SET k 1`, `SET k 2` and `SET k 1` without a reply in between, the third is not written: `k` stays `2`. -/
theorem database_ne_called :
    (written ready [set 49 none, set 50 none, set 49 none, ok, ok]).foldl executeK none ≠
      (called [set 49 none, set 50 none, set 49 none, ok, ok]).foldl setK none := by
  decide

end CRedis

end XCore.Redis
