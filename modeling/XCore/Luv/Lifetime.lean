import XCore.Luv.Owned

/-!
# How long handles and requests live

libuv keeps a pointer to a handle until its closing has been called back, and to a request until it has been completed.
`Legal` is what it promises for its callbacks, and what a program has to keep to that passes a request to a function;
`Reach` are the worlds of legal runs, with what has happened before.

- `crash_iff`: the next action crashes the process exactly if it starts a stream after the callback of its closing,
  completes a request that was cancelled or a scan that was at its end before its callback, or asks for an entry of a
  scan that has failed or has none yet;
- `pinned`: the userdata that libuv may call back for is in the registry;
- `nothing_left`: what a program has closed and completed leaves nothing behind, if no request has failed at once.
-/

namespace XCore.Luv

open XCore.Refs XCore.Lua

variable {S R F : Type}

/-! ## Legal runs -/

/-- What `uv_cancel` can cancel. -/
def Kind.cancels : Kind F → Bool
  | .dns | .fs | .access | .scandir _ => true
  | _ => false

/-- What libuv calls back, and what a program passes: a request to `uv_cancel` that is under way, a scan to
`luv_fs_scandir_next`, which comes upon `NULL` for want of anything written only before the callback. -/
def World.Legal (w : World S R F) : Action F → Prop
  | .cancel r true => ∃ x, w.reqs[r]? = some x ∧ x.flying = true ∧ x.kind.cancels = true
  | .scandir_next r next => ∃ x, w.reqs[r]? = some x ∧ x.kind.cleans = false ∧ (next = .null → x.flying = true)
  | .event h => ∃ x, w.handles[h]? = some x ∧ x.phase = .opened
  | .close_cb h => ∃ x, w.handles[h]? = some x ∧ x.phase = .closing
  | .complete r => ∃ x, w.reqs[r]? = some x ∧ x.flying = true
  | .ret => w.pending ≠ []
  | _ => True

/-- The worlds of legal runs. -/
inductive Reach (ops : Ops S R (Value F)) (w₀ : World S R F) : List (Action F) → World S R F → Prop
  | init : Reach ops w₀ [] w₀
  | step {as : List (Action F)} {w w' : World S R F} {a : Action F} {c : Option (Value F)} :
      Reach ops w₀ as w → w.Legal a → w.step ops a = some (w', c) → Reach ops w₀ (as ++ [a]) w'

/-- The request was cancelled, or read to its end. -/
def Withdrawn (as : List (Action F)) (r : Nat) : Prop := .cancel r true ∈ as ∨ .scandir_next r .eof ∈ as

/-- No request has failed at once. -/
def AllOk (as : List (Action F)) : Prop := ∀ kind h f ok, .request kind h f ok ∈ as → ok = true

/-! ## The invariant -/

section Invariant

variable {as : List (Action F)} {ps : List Pending} {h r : Nat}

/-- A handle has its data until the callback of its closing has returned. -/
structure Handle.Good (ps : List Pending) (h : Nat) (x : Handle (Value F)) : Prop where
  data : x.data.isSome ↔ x.phase ≠ .closed ∨ Pending.close h ∈ ps
  phase : Pending.close h ∈ ps → x.phase = .closed
  ref : ∀ data, x.data = some data → data.ref = .handle h

/-- A request that is under way has its data unless it was withdrawn, and a request that is completed has none left. -/
structure Req.Good (as : List (Action F)) (ps : List Pending) (r : Nat) (x : Req (Value F) F) : Prop where
  flying : x.flying = true → (x.data.isSome ↔ ¬Withdrawn as r)
  pending : Pending.complete r ∈ ps → x.flying = false ∧ (x.kind.cleans = true → x.data.isSome)
  ref : ∀ data, x.data = some data → data.req_ref = .req r
  rest : AllOk as → x.data.isSome → x.flying = true ∨ Pending.complete r ∈ ps ∨ x.kind.cleans = false

structure Good (as : List (Action F)) (o : World Unit (Value F) F) : Prop where
  handles : ∀ h x, o.handles[h]? = some x → Handle.Good o.pending h x
  reqs : ∀ r x, o.reqs[r]? = some x → Req.Good as o.pending r x
  once : (o.pending.filter (· ≠ .event)).Nodup
  known : ∀ p ∈ o.pending, p = .event ∨ (∃ h, p = .close h ∧ h < o.handles.length) ∨ ∃ r, p = .complete r ∧
    r < o.reqs.length
  withdrawn : ∀ r, Withdrawn as r → r < o.reqs.length

theorem good_init : Good [] (World.init () : World Unit (Value F) F) where
  handles h x hx := by cases hx
  reqs r x hx := by cases hx
  once := List.nodup_nil
  known p hp := absurd hp List.not_mem_nil
  withdrawn r hr := by simp [Withdrawn] at hr

theorem withdrawn_snoc {a : Action F} :
    Withdrawn (as ++ [a]) r ↔ Withdrawn as r ∨ a = .cancel r true ∨ a = .scandir_next r .eof := by
  unfold Withdrawn
  simp only [List.mem_append, List.mem_singleton]
  grind

theorem AllOk.of_snoc {a : Action F} (h : AllOk (as ++ [a])) : AllOk as :=
  fun kind h' f ok hmem => h kind h' f ok (List.mem_append_left _ hmem)

theorem Handle.Good.congr {ps' : List Pending} {x : Handle (Value F)} (hx : Handle.Good ps h x)
    (hps : Pending.close h ∈ ps' ↔ Pending.close h ∈ ps) : Handle.Good ps' h x :=
  ⟨by rw [hps]; exact hx.data, by rw [hps]; exact hx.phase, hx.ref⟩

theorem Req.Good.congr {as' : List (Action F)} {ps' : List Pending} {x : Req (Value F) F} (hx : Req.Good as ps r x)
    (has : Withdrawn as' r ↔ Withdrawn as r) (hall : AllOk as' → AllOk as)
    (hps : Pending.complete r ∈ ps' ↔ Pending.complete r ∈ ps) : Req.Good as' ps' r x :=
  ⟨by rw [has]; exact hx.flying, by rw [hps]; exact hx.pending, hx.ref, by rw [hps]; exact fun h => hx.rest (hall h)⟩

variable {o : World Unit (Value F) F}

theorem Good.close_lt (hg : Good as o) (hp : .close h ∈ o.pending) : h < o.handles.length := by
  obtain heq | ⟨h', heq, hlt⟩ | ⟨r, heq, -⟩ := hg.known _ hp
  · cases heq
  · cases heq
    exact hlt
  · cases heq

theorem Good.complete_lt (hg : Good as o) (hp : .complete r ∈ o.pending) : r < o.reqs.length := by
  obtain heq | ⟨h', heq, -⟩ | ⟨r', heq, hlt⟩ := hg.known _ hp
  · cases heq
  · cases heq
  · cases heq
    exact hlt

/-- Nothing but callbacks of events comes or goes. -/
theorem Good.events (hg : Good as o) (hps : ∀ q, q ≠ Pending.event → (q ∈ ps ↔ q ∈ o.pending))
    (honce : (ps.filter (· ≠ .event)).Nodup) : Good as { o with pending := ps } where
  handles h x hx := (hg.handles h x hx).congr (hps _ nofun)
  reqs r x hx := (hg.reqs r x hx).congr Iff.rfl id (hps _ nofun)
  once := honce
  known p hp := by
    by_cases he : p = .event
    · exact .inl he
    · exact hg.known p ((hps p he).1 hp)
  withdrawn := hg.withdrawn

/-- One handle changes. -/
theorem Good.setHandle (hg : Good as o) {x y : Handle (Value F)} (hx : o.handles[h]? = some x)
    (hps : ∀ q, q ≠ Pending.event → q ≠ .close h → (q ∈ ps ↔ q ∈ o.pending)) (honce : (ps.filter (· ≠ .event)).Nodup)
    (hy : Handle.Good ps h y) : Good as { o with handles := o.handles.set h y, pending := ps } where
  handles h' z hz := by
    by_cases heq : h = h'
    · subst heq
      rw [List.getElem?_set_self (List.getElem?_eq_some_iff.1 hx).1] at hz
      cases hz
      exact hy
    · rw [List.getElem?_set_ne heq] at hz
      exact (hg.handles h' z hz).congr (hps _ nofun fun h => heq (Pending.close.inj h).symm)
  reqs r z hz := (hg.reqs r z hz).congr Iff.rfl id (hps _ nofun nofun)
  once := honce
  known p hp := by
    dsimp only
    rw [List.length_set]
    by_cases he : p = .event
    · exact .inl he
    · by_cases hc : p = .close h
      · exact .inr (.inl ⟨h, hc, (List.getElem?_eq_some_iff.1 hx).1⟩)
      · exact hg.known p ((hps p he hc).1 hp)
  withdrawn := hg.withdrawn

/-- One request changes. -/
theorem Good.setReq (hg : Good as o) {as' : List (Action F)} {x y : Req (Value F) F} (hx : o.reqs[r]? = some x)
    (hps : ∀ q, q ≠ Pending.event → q ≠ .complete r → (q ∈ ps ↔ q ∈ o.pending)) (honce : (ps.filter (· ≠ .event)).Nodup)
    (has : ∀ i, i ≠ r → (Withdrawn as' i ↔ Withdrawn as i)) (hall : AllOk as' → AllOk as)
    (hy : Req.Good as' ps r y) : Good as' { o with reqs := o.reqs.set r y, pending := ps } where
  handles h z hz := (hg.handles h z hz).congr (hps _ nofun nofun)
  reqs r' z hz := by
    by_cases heq : r = r'
    · subst heq
      rw [List.getElem?_set_self (List.getElem?_eq_some_iff.1 hx).1] at hz
      cases hz
      exact hy
    · rw [List.getElem?_set_ne heq] at hz
      exact (hg.reqs r' z hz).congr (has r' fun h => heq h.symm) hall
        (hps _ nofun fun h => heq (Pending.complete.inj h).symm)
  once := honce
  known p hp := by
    dsimp only
    rw [List.length_set]
    by_cases he : p = .event
    · exact .inl he
    · by_cases hc : p = .complete r
      · exact .inr (.inr ⟨r, hc, (List.getElem?_eq_some_iff.1 hx).1⟩)
      · exact hg.known p ((hps p he hc).1 hp)
  withdrawn i hi := by
    dsimp only
    rw [List.length_set]
    by_cases hr : i = r
    · exact hr ▸ (List.getElem?_eq_some_iff.1 hx).1
    · exact hg.withdrawn i ((has i hr).1 hi)

/-- An action that withdraws no request. -/
theorem Good.snoc (hg : Good as o) {a : Action F} (ha : ∀ r, a ≠ .cancel r true ∧ a ≠ .scandir_next r .eof) :
    Good (as ++ [a]) o where
  handles := hg.handles
  reqs r x hx := (hg.reqs r x hx).congr (by rw [withdrawn_snoc, or_iff_left (not_or.2 (ha r))]) AllOk.of_snoc Iff.rfl
  once := hg.once
  known := hg.known
  withdrawn r hr := hg.withdrawn r (by rwa [withdrawn_snoc, or_iff_left (not_or.2 (ha r))] at hr)

end Invariant

/-! ## Steps of handles -/

section Steps

variable {as : List (Action F)} {o o' : World Unit (Value F) F} {h r : Nat}

@[simp] theorem luv_handle_t.put_ref (data : luv_handle_t R) (id : luv_callback_id) (i : R) :
    (data.put id i).ref = data.ref := by
  cases id <;> rfl

theorem Good.start (hg : Good as o) {checked : Bool} {f : F} (ho : o.start (ideal (Value F)) h checked f = some o') :
    Good as o' := by
  unfold World.start at ho
  split at ho
  · cases ho
    exact hg
  · rename_i x hx
    split at ho
    · split at ho
      · cases ho
        exact hg
      · cases ho
    · rename_i data hdata
      cases ho
      obtain ⟨hd, hp, hr⟩ := hg.handles h x hx
      refine hg.setHandle hx (fun _ _ _ => Iff.rfl) hg.once ⟨?_, hp, ?_⟩
      · rw [← hd, hdata]
        exact iff_of_true rfl rfl
      · rintro _ ⟨⟩
        exact (luv_handle_t.put_ref ..).trans (hr data hdata)

theorem Good.close (hg : Good as o) {f : Option F} (ho : o.luv_handle_close (ideal (Value F)) h f = some o') :
    Good as o' := by
  unfold World.luv_handle_close at ho
  split at ho
  · cases ho
    exact hg
  · rename_i x hx
    split at ho
    · cases ho
      exact hg
    · rename_i hphase
      obtain ⟨hd, hp, hr⟩ := hg.handles h x hx
      have hopen : x.phase = .opened := not_not.1 hphase
      have hp' : Pending.close h ∉ o.pending := fun hmem => by
        rw [hp hmem] at hopen
        cases hopen
      have hsome : x.data.isSome := hd.2 (.inl (by rw [hopen]; exact nofun))
      split at ho
      · cases ho
        refine hg.setHandle hx (fun _ _ _ => Iff.rfl) hg.once ⟨?_, fun hmem => absurd hmem hp', hr⟩
        exact iff_of_true hsome (.inl nofun)
      · split at ho
        · cases ho
        · rename_i data hdata
          cases ho
          refine hg.setHandle hx (fun _ _ _ => Iff.rfl) hg.once ⟨?_, fun hmem => absurd hmem hp', ?_⟩
          · exact iff_of_true rfl (.inl nofun)
          · rintro _ ⟨⟩
            exact (luv_handle_t.put_ref ..).trans (hr data hdata)

theorem Good.make (hg : Good as o) : Good as (o.make (ideal (Value F))) where
  handles h' x hx := by
    unfold World.make at hx
    dsimp only at hx
    rcases Nat.lt_trichotomy h' o.handles.length with hlt | rfl | hgt
    · rw [List.getElem?_append_left hlt] at hx
      exact hg.handles h' x hx
    · rw [List.getElem?_concat_length] at hx
      cases hx
      refine ⟨iff_of_true rfl (.inl nofun), fun hmem => absurd (hg.close_lt hmem) (Nat.lt_irrefl _), ?_⟩
      rintro _ ⟨⟩
      rfl
    · rw [List.getElem?_eq_none (by simp; omega)] at hx
      cases hx
  reqs := hg.reqs
  once := hg.once
  known p hp := by
    obtain heq | ⟨h', heq, hlt⟩ | hr := hg.known p hp
    · exact .inl heq
    · refine .inr (.inl ⟨h', heq, ?_⟩)
      unfold World.make
      rw [List.length_append, List.length_singleton]
      omega
    · exact .inr (.inr hr)
  withdrawn := hg.withdrawn

/-- A frame that is not there yet. -/
theorem Good.once_cons (hg : Good as o) {p : Pending} (hp : p ∉ o.pending) :
    ((p :: o.pending).filter (· ≠ .event)).Nodup := by
  rw [List.filter_cons]
  split
  · exact List.nodup_cons.2 ⟨fun hmem => hp (List.mem_of_mem_filter hmem), hg.once⟩
  · exact hg.once

theorem Good.once_tail (hg : Good as o) {p : Pending} {ps : List Pending} (hp : o.pending = p :: ps) :
    (ps.filter (· ≠ .event)).Nodup ∧ (p ≠ .event → p ∉ ps) := by
  have := hg.once
  rw [hp, List.filter_cons] at this
  split at this
  · rename_i hne
    obtain ⟨hnot, hnodup⟩ := List.nodup_cons.1 this
    exact ⟨hnodup, fun _ hmem => hnot (List.mem_filter.2 ⟨hmem, hne⟩)⟩
  · rename_i heq
    exact ⟨this, fun hne => absurd (decide_eq_true hne) heq⟩

theorem Good.event (hg : Good as o) {c : Option (Value F)} (ho : o.event (ideal (Value F)) h = some (o', c)) :
    Good as o' := by
  unfold World.event at ho
  split at ho
  · cases ho
    exact hg
  · split at ho
    · cases ho
    · unfold World.call at ho
      split at ho
      · cases ho
        exact hg
      · cases ho
        refine hg.events (fun q hq => ?_) ?_
        · rw [List.mem_cons, or_iff_right hq]
        · rw [List.filter_cons_of_neg (by simp)]
          exact hg.once

/-- After the callback of its closing a handle has no data. -/
theorem Good.closed (hg : Good as o) {ps : List Pending}
    (hps : ∀ q, q ≠ Pending.event → q ≠ .close h → (q ∈ ps ↔ q ∈ o.pending))
    (honce : (ps.filter (· ≠ .event)).Nodup) (hp : .close h ∉ ps)
    (hphase : ∀ x, o.handles[h]? = some x → x.phase = .closed)
    (hlt : h < o.handles.length) (ho : World.closed (ideal (Value F)) { o with pending := ps } h = some o') :
    Good as o' := by
  unfold World.closed at ho
  split at ho
  · rename_i hx
    exact absurd (List.getElem?_eq_none_iff.1 hx) (Nat.not_le.2 hlt)
  · rename_i x hx
    split at ho
    · cases ho
    · cases ho
      refine hg.setHandle hx hps honce ⟨iff_of_false nofun ?_, fun hmem => absurd hmem hp, nofun⟩
      exact not_or.2 ⟨not_not.2 (hphase x hx), hp⟩

theorem Good.close_cb (hg : Good as o) {c : Option (Value F)} (hlegal : o.Legal (.close_cb h))
    (ho : o.luv_handle_close_cb (ideal (Value F)) h = some (o', c)) : Good as o' := by
  obtain ⟨x, hx, hclosing⟩ := hlegal
  obtain ⟨hd, hp, hr⟩ := hg.handles h x hx
  have hp' : Pending.close h ∉ o.pending := fun hmem => by
    rw [hp hmem] at hclosing
    cases hclosing
  have hlt := (List.getElem?_eq_some_iff.1 hx).1
  obtain ⟨data, hdata⟩ := Option.isSome_iff_exists.1 (hd.2 (.inl (by rw [hclosing]; exact nofun)))
  unfold World.luv_handle_close_cb at ho
  rw [hx] at ho
  dsimp only at ho
  rw [hdata] at ho
  dsimp only at ho
  unfold World.call at ho
  split at ho
  · obtain ⟨o₁, ho₁, heq⟩ := Option.map_eq_some_iff.1 ho
    cases heq
    unfold World.closed World.setHandle at ho₁
    dsimp only at ho₁
    rw [List.getElem?_set_self hlt] at ho₁
    cases ho₁
    rw [List.set_set]
    exact hg.setHandle hx (fun _ _ _ => Iff.rfl) hg.once
      ⟨iff_of_false nofun (not_or.2 ⟨not_not.2 rfl, hp'⟩), fun _ => rfl, nofun⟩
  · cases ho
    refine hg.setHandle hx (fun q _ hq => ?_) (hg.once_cons hp') ⟨?_, fun _ => rfl, ?_⟩
    · exact List.mem_cons.trans (or_iff_right hq)
    · exact iff_of_true rfl (.inr (List.mem_cons_self ..))
    · rintro _ ⟨⟩
      exact hr data hdata

/-! ## Steps of requests -/

/-- The data of a request is given back. -/
theorem Good.release (hg : Good as o) {as' : List (Action F)} {ps : List Pending}
    (hps : ∀ q, q ≠ Pending.event → q ≠ .complete r → (q ∈ ps ↔ q ∈ o.pending)) (honce : (ps.filter (· ≠ .event)).Nodup)
    (has : ∀ i, i ≠ r → (Withdrawn as' i ↔ Withdrawn as i)) (hall : AllOk as' → AllOk as) {x : Req (Value F) F}
    (hx : o.reqs[r]? = some x) (hflying : x.flying = true → Withdrawn as' r)
    (hp : .complete r ∈ ps → x.flying = false ∧ x.kind.cleans = false)
    (ho : World.release (ideal (Value F)) { o with pending := ps } r = some o') : Good as' o' := by
  unfold World.release at ho
  dsimp only at ho
  rw [hx] at ho
  dsimp only at ho
  split at ho
  · cases ho
  · cases ho
    refine hg.setReq hx hps honce has hall
      ⟨fun h => iff_of_false nofun (not_not.2 (hflying h)), fun hmem => ?_, nofun, fun _ => nofun⟩
    obtain ⟨hf, hc⟩ := hp hmem
    exact ⟨hf, fun h => absurd (hc.symm.trans h) nofun⟩

/-- A request that is withdrawn, or whose data was gone. -/
theorem Good.withdraw (hg : Good as o) {a : Action F} {ok : Bool}
    (ha : ok = true → a = .cancel r true ∨ a = .scandir_next r .eof)
    (ha' : ∀ i, a = .cancel i true ∨ a = .scandir_next i .eof → i = r ∧ ok = true) {x : Req (Value F) F}
    (hx : o.reqs[r]? = some x)
    (hkind : ok = true → x.flying = true ∨ x.kind.cleans = false) (ho : o.withdraw (ideal (Value F)) r ok = some o') :
    Good (as ++ [a]) o' := by
  have hgood := hg.reqs r x hx
  have has : ∀ i, i ≠ r → (Withdrawn (as ++ [a]) i ↔ Withdrawn as i) := fun i hi => by
    rw [withdrawn_snoc, or_iff_left fun h => hi (ha' i h).1]
  unfold World.withdraw at ho
  rw [hx] at ho
  dsimp only at ho
  cases ok with
  | false =>
    rw [Bool.and_false, if_neg Bool.false_ne_true] at ho
    cases ho
    exact hg.snoc fun i => ⟨fun h => Bool.false_ne_true (ha' i (.inl h)).2,
      fun h => Bool.false_ne_true (ha' i (.inr h)).2⟩
  | true =>
    have hwith : Withdrawn (as ++ [a]) r := withdrawn_snoc.2 (.inr (ha rfl))
    rw [Bool.and_true] at ho
    split at ho
    · refine hg.release (fun _ _ _ => Iff.rfl) hg.once has AllOk.of_snoc hx (fun _ => hwith) (fun hmem => ?_) ho
      obtain ⟨hf, -⟩ := hgood.pending hmem
      refine ⟨hf, (hkind rfl).resolve_left fun h => ?_⟩
      rw [hf] at h
      cases h
    · rename_i hnone
      cases ho
      have hset : o.reqs.set r x = o.reqs := by
        obtain ⟨hlt, rfl⟩ := List.getElem?_eq_some_iff.1 hx
        exact List.set_getElem_self hlt
      have := hg.setReq (y := x) hx (fun _ _ _ => Iff.rfl) hg.once has AllOk.of_snoc
        ⟨fun _ => iff_of_false hnone (not_not.2 hwith), hgood.pending, hgood.ref, fun _ h => absurd h hnone⟩
      rwa [hset] at this

theorem withdraw_of_scandir_next {next : Next} (ho : o.scandir_next (ideal (Value F)) r next = some o') :
    o.withdraw (ideal (Value F)) r (next == .eof) = some o' := by
  unfold World.scandir_next at ho
  split at ho
  · rename_i hx
    unfold World.withdraw
    rw [hx]
    exact ho
  · split at ho
    · cases ho
    · exact ho

theorem Kind.keeps_of_flies {kind : Kind F} {c ok : Bool} (h : kind.flies c ok = true) : kind.keeps c ok = true := by
  cases kind <;> cases c <;> cases ok <;> first | rfl | cases h

/-- A request that libuv has accepted is under way, over, or a directory. -/
theorem Kind.flies_of_keeps {kind : Kind F} {c : Bool} (h : kind.keeps c true = true) :
    kind.flies c true = true ∨ kind.cleans = false := by
  cases kind <;> cases c <;> first | exact .inl rfl | exact .inr rfl | cases h

theorem Good.request (hg : Good as o) (kind : Kind F) (h : Nat) (f : Option F) (ok : Bool) :
    Good (as ++ [.request kind h f ok]) (o.request (ideal (Value F)) kind f ok) := by
  have hsnoc := hg.snoc (a := .request kind h f ok) fun r => ⟨nofun, nofun⟩
  have hnew : ∀ {data : Option (luv_req_t (Value F))}, (kind.keeps f.isSome ok = true ↔ data.isSome) →
      (∀ d, data = some d → d.req_ref = .req o.reqs.length) →
      Good (as ++ [.request kind h f ok]) { o with reqs := o.reqs ++ [⟨kind, kind.flies f.isSome ok, data⟩] } := by
    intro data hkeeps hdata
    refine ⟨hg.handles, fun r x hx => ?_, hg.once, fun p hp => ?_, fun r hr => ?_⟩
    · dsimp only at hx
      rcases Nat.lt_trichotomy r o.reqs.length with hlt | rfl | hgt
      · rw [List.getElem?_append_left hlt] at hx
        exact hsnoc.reqs r x hx
      · rw [List.getElem?_concat_length] at hx
        cases hx
        have hnot : .complete o.reqs.length ∉ o.pending := fun hmem => absurd (hg.complete_lt hmem) (Nat.lt_irrefl _)
        have hnot' : ¬Withdrawn (as ++ [.request kind h f ok]) o.reqs.length :=
          fun hw => absurd (hsnoc.withdrawn _ hw) (Nat.lt_irrefl _)
        refine ⟨fun hf => iff_of_true (hkeeps.1 (Kind.keeps_of_flies hf)) hnot', fun hmem => absurd hmem hnot, hdata,
          fun hall hs => ?_⟩
        have hok : ok = true := hall kind h f ok (List.mem_append_right _ (List.mem_singleton_self _))
        subst hok
        exact (Kind.flies_of_keeps (hkeeps.2 hs)).imp_right .inr
      · rw [List.getElem?_eq_none (by simp; omega)] at hx
        cases hx
    · obtain heq | hh | ⟨r, heq, hlt⟩ := hg.known p hp
      · exact .inl heq
      · exact .inr (.inl hh)
      · refine .inr (.inr ⟨r, heq, ?_⟩)
        rw [List.length_append, List.length_singleton]
        omega
    · have hlt := hsnoc.withdrawn r hr
      dsimp only
      rw [List.length_append, List.length_singleton]
      omega
  unfold World.request
  split
  · rename_i hkeeps
    refine hnew (iff_of_true hkeeps rfl) ?_
    rintro _ ⟨⟩
    rfl
  · rename_i hkeeps
    refine hnew (iff_of_false hkeeps Bool.false_ne_true) fun d hd => ?_
    cases hd

/-- After its callback a request has no data, unless it is a directory. -/
theorem Good.completed (hg : Good as o) {ps : List Pending}
    (hps : ∀ q, q ≠ Pending.event → q ≠ .complete r → (q ∈ ps ↔ q ∈ o.pending))
    (honce : (ps.filter (· ≠ .event)).Nodup) (hp : .complete r ∉ ps) {x : Req (Value F) F} (hx : o.reqs[r]? = some x)
    (hflying : x.flying = false) (ho : World.completed (ideal (Value F)) { o with pending := ps } r = some o') :
    Good as o' := by
  unfold World.completed at ho
  dsimp only at ho
  rw [hx] at ho
  dsimp only at ho
  split at ho
  · refine hg.release hps honce (fun _ _ => Iff.rfl) id hx (fun h => ?_) (fun hmem => absurd hmem hp) ho
    rw [hflying] at h
    cases h
  · rename_i hcleans
    cases ho
    have hset : o.reqs.set r x = o.reqs := by
      obtain ⟨hlt, rfl⟩ := List.getElem?_eq_some_iff.1 hx
      exact List.set_getElem_self hlt
    have := hg.setReq (y := x) hx hps honce (fun _ _ => Iff.rfl) id
      ⟨(hg.reqs r x hx).flying, fun hmem => absurd hmem hp,
      (hg.reqs r x hx).ref, fun _ _ => .inr (.inr (Bool.not_eq_true _ ▸ hcleans))⟩
    rwa [hset] at this

theorem Good.complete (hg : Good as o) {c : Option (Value F)} (hlegal : o.Legal (.complete r))
    (ho : o.complete (ideal (Value F)) r = some (o', c)) : Good as o' := by
  obtain ⟨x, hx, hflying⟩ := hlegal
  obtain ⟨hf, hp, hr, hrest⟩ := hg.reqs r x hx
  have hp' : Pending.complete r ∉ o.pending := fun hmem => by
    rw [(hp hmem).1] at hflying
    cases hflying
  have hlt := (List.getElem?_eq_some_iff.1 hx).1
  unfold World.complete at ho
  rw [hx] at ho
  dsimp only at ho
  split at ho
  · cases ho
  · rename_i data hdata
    unfold World.call at ho
    split at ho
    · obtain ⟨o₁, ho₁, heq⟩ := Option.map_eq_some_iff.1 ho
      cases heq
      unfold World.completed World.setReq at ho₁
      dsimp only at ho₁
      rw [List.getElem?_set_self hlt] at ho₁
      dsimp only at ho₁
      split at ho₁
      · unfold World.release at ho₁
        dsimp only at ho₁
        rw [List.getElem?_set_self hlt, hdata] at ho₁
        cases ho₁
        unfold World.setReq
        rw [List.set_set]
        exact hg.setReq hx (fun _ _ _ => Iff.rfl) hg.once (fun _ _ => Iff.rfl) id
          ⟨nofun, fun hmem => absurd hmem hp', nofun, fun _ => nofun⟩
      · rename_i hcleans
        cases ho₁
        exact hg.setReq hx (fun _ _ _ => Iff.rfl) hg.once (fun _ _ => Iff.rfl) id
          ⟨nofun, fun hmem => absurd hmem hp', hr, fun _ _ => .inr (.inr (Bool.not_eq_true _ ▸ hcleans))⟩
    · cases ho
      refine hg.setReq hx (fun q _ hq => List.mem_cons.trans (or_iff_right hq)) (hg.once_cons hp')
        (fun _ _ => Iff.rfl) id
        ⟨nofun, fun _ => ⟨rfl, fun _ => ?_⟩, hr, fun _ _ => .inr (.inl (List.mem_cons_self ..))⟩
      dsimp only
      rw [hdata]
      rfl

theorem Good.ret (hg : Good as o) (ho : o.ret (ideal (Value F)) = some o') : Good as o' := by
  unfold World.ret at ho
  split at ho
  · cases ho
    exact hg
  · rename_i ps hps
    cases ho
    refine hg.events (fun q hq => ?_) (hg.once_tail hps).1
    rw [hps, List.mem_cons, or_iff_right hq]
  · rename_i h ps hps
    have hmem : Pending.close h ∈ o.pending := hps ▸ List.mem_cons_self ..
    obtain ⟨honce, hnot⟩ := hg.once_tail hps
    refine hg.closed (fun q _ hq => ?_) honce (hnot nofun) (fun x hx => (hg.handles h x hx).phase hmem)
      (hg.close_lt hmem) ho
    rw [hps, List.mem_cons, or_iff_right hq]
  · rename_i r ps hps
    have hmem : Pending.complete r ∈ o.pending := hps ▸ List.mem_cons_self ..
    obtain ⟨honce, hnot⟩ := hg.once_tail hps
    obtain ⟨x, hx⟩ : ∃ x, o.reqs[r]? = some x := ⟨_, List.getElem?_eq_getElem (hg.complete_lt hmem)⟩
    refine hg.completed (fun q _ hq => ?_) honce (hnot nofun) hx ((hg.reqs r x hx).pending hmem).1 ho
    rw [hps, List.mem_cons, or_iff_right hq]

end Steps

/-! ## Runs -/

section Runs

variable {as : List (Action F)} {o o' : World Unit (Value F) F}

/-- A legal action keeps the invariant. -/
theorem Good.step (hg : Good as o) {a : Action F} {c : Option (Value F)} (hlegal : o.Legal a)
    (ho : o.step (ideal (Value F)) a = some (o', c)) : Good (as ++ [a]) o' := by
  have quiet : ∀ {p : Option (World Unit (Value F) F)}, p.map (fun w => (w, (none : Option (Value F)))) = some
      (o', c) → p = some o' := by
    rintro (_ | w) h
    · cases h
    · cases h
      rfl
  cases a with
  | make =>
    cases ho
    exact hg.make.snoc fun _ => ⟨nofun, nofun⟩
  | start h checked f => exact (hg.start (quiet ho)).snoc fun _ => ⟨nofun, nofun⟩
  | close h f => exact (hg.close (quiet ho)).snoc fun _ => ⟨nofun, nofun⟩
  | request kind h f ok =>
    cases ho
    split
    · exact hg.request kind h f ok
    · exact hg.snoc fun _ => ⟨nofun, nofun⟩
  | cancel r ok =>
    cases ok with
    | false =>
      have hsame : o' = o := by
        have := quiet ho
        unfold World.withdraw at this
        split at this
        · cases this
          rfl
        · rw [Bool.and_false, if_neg Bool.false_ne_true] at this
          cases this
          rfl
      rw [hsame]
      exact hg.snoc fun _ => ⟨nofun, nofun⟩
    | true =>
      obtain ⟨x, hx, hf, -⟩ := hlegal
      refine hg.withdraw (fun _ => .inl rfl) (fun i h => ?_) hx (fun _ => .inl hf) (quiet ho)
      obtain h | h := h
      · cases h
        exact ⟨rfl, rfl⟩
      · cases h
  | scandir_next r next =>
    obtain ⟨x, hx, hkind, -⟩ := hlegal
    refine hg.withdraw (fun h => .inr ?_) (fun i h => ?_) hx (fun _ => .inr hkind) (withdraw_of_scandir_next (quiet ho))
    · rw [beq_iff_eq] at h
      rw [h]
    · obtain h | h := h
      · cases h
      · cases h
        exact ⟨rfl, rfl⟩
  | event h => exact (hg.event ho).snoc fun _ => ⟨nofun, nofun⟩
  | close_cb h => exact (hg.close_cb hlegal ho).snoc fun _ => ⟨nofun, nofun⟩
  | complete r => exact (hg.complete hlegal ho).snoc fun _ => ⟨nofun, nofun⟩
  | ret => exact (hg.ret (quiet ho)).snoc fun _ => ⟨nofun, nofun⟩

/-- Every world of a legal run is good. -/
theorem Reach.good (h : Reach (ideal (Value F)) (World.init ()) as o) : Good as o := by
  induction h with
  | init => exact good_init
  | step _ hlegal ho ih => exact ih.step hlegal ho

end Runs

/-! ## Crashes -/

/-- A stream is started after the callback of its closing has returned, a request is completed that was withdrawn, or
the next entry is asked of a scan that has failed or has written none. -/
def World.Crashes (w : World S R F) (as : List (Action F)) : Action F → Prop
  | .start h false _ => ∃ x, w.handles[h]? = some x ∧ x.phase = .closed ∧ Pending.close h ∉ w.pending
  | .complete r => Withdrawn as r
  | .scandir_next r next => ∃ x, w.reqs[r]? = some x ∧ x.data.isSome ∧ (x.failed = true ∨ next = .null)
  | _ => False

section Crashes

variable {as : List (Action F)} {o : World Unit (Value F) F} {h r : Nat}

theorem Handle.Good.data_none {ps : List Pending} {x : Handle (Value F)} (hx : Handle.Good ps h x) :
    x.data = none ↔ x.phase = .closed ∧ Pending.close h ∉ ps := by
  rw [← Option.not_isSome_iff_eq_none, hx.data, not_or, not_not]

theorem Good.closed_ne_none (hg : Good as o) {ps : List Pending} (hmem : Pending.close h ∈ o.pending) :
    World.closed (ideal (Value F)) { o with pending := ps } h ≠ none := by
  unfold World.closed
  dsimp only
  split
  · exact nofun
  · rename_i x hx
    have hdata := (hg.handles h x hx).data.2 (.inr hmem)
    split
    · rename_i hnone
      rw [hnone] at hdata
      cases hdata
    · exact nofun

theorem Good.completed_ne_none (hg : Good as o) {ps : List Pending} (hmem : Pending.complete r ∈ o.pending) :
    World.completed (ideal (Value F)) { o with pending := ps } r ≠ none := by
  unfold World.completed
  dsimp only
  split
  · exact nofun
  · rename_i x hx
    split
    · rename_i hcleans
      have hdata := ((hg.reqs r x hx).pending hmem).2 hcleans
      unfold World.release
      dsimp only
      rw [hx]
      dsimp only
      split
      · rename_i hnone
        rw [hnone] at hdata
        cases hdata
      · exact nofun
    · exact nofun

theorem withdraw_ne_none (o : World Unit (Value F) F) (r : Nat) (ok : Bool) :
    o.withdraw (ideal (Value F)) r ok ≠ none := by
  unfold World.withdraw
  split
  · exact nofun
  · rename_i x hx
    split
    · rename_i hsome
      rw [Bool.and_eq_true] at hsome
      unfold World.release
      rw [hx]
      dsimp only
      split
      · rename_i hnone
        rw [hnone] at hsome
        exact absurd hsome.1 nofun
      · exact nofun
    · exact nofun

theorem scandir_next_eq_none {next : Next} : o.scandir_next (ideal (Value F)) r next = none ↔
    ∃ x, o.reqs[r]? = some x ∧ x.data.isSome ∧ (x.failed = true ∨ next = .null) := by
  unfold World.scandir_next
  split
  · rename_i hx
    simp [hx]
  · rename_i x hx
    split
    · rename_i hnull
      rw [Bool.and_eq_true, Bool.or_eq_true, beq_iff_eq] at hnull
      exact iff_of_true rfl ⟨x, hx, hnull⟩
    · rename_i hnull
      rw [Bool.and_eq_true, Bool.or_eq_true, beq_iff_eq] at hnull
      refine iff_of_false (withdraw_ne_none o r _) ?_
      rintro ⟨y, hy, h⟩
      rw [hx] at hy
      cases hy
      exact hnull h

theorem call_eq_none {v : Option (Value F)} {p : Pending} {rest : Option (World Unit (Value F) F)}
    (hrest : rest ≠ none) :
    o.call v p rest ≠ none := by
  cases v with
  | none => rwa [World.call, Ne, Option.map_eq_none_iff]
  | some v => exact nofun

theorem start_eq_none {checked : Bool} {f : F} :
    o.start (ideal (Value F)) h checked f = none ↔ checked = false ∧ ∃ x, o.handles[h]? = some x ∧ x.data = none := by
  unfold World.start
  split
  · rename_i hx
    simp [hx]
  · rename_i x hx
    split
    · rename_i hnone
      cases checked <;> simp [hx, hnone]
    · rename_i data hdata
      simp [hx, hdata]

theorem Good.close_ne_none (hg : Good as o) (f : Option F) : o.luv_handle_close (ideal (Value F)) h f ≠ none := by
  unfold World.luv_handle_close
  split
  · exact nofun
  · rename_i x hx
    split
    · exact nofun
    · rename_i hphase
      split
      · exact nofun
      · split
        · rename_i hnone
          have hclosed := ((hg.handles h x hx).data_none.1 hnone).1
          rw [hclosed] at hphase
          exact absurd nofun hphase
        · exact nofun

theorem Good.event_ne_none (hg : Good as o) (hlegal : o.Legal (.event h)) : o.event (ideal (Value F)) h ≠ none := by
  obtain ⟨x, hx, hopen⟩ := hlegal
  unfold World.event
  rw [hx]
  dsimp only
  split
  · rename_i hnone
    have hclosed := ((hg.handles h x hx).data_none.1 hnone).1
    rw [hopen] at hclosed
    cases hclosed
  · exact call_eq_none nofun

theorem close_cb_ne_none (o : World Unit (Value F) F) (h : Nat) : o.luv_handle_close_cb (ideal (Value F)) h ≠ none := by
  unfold World.luv_handle_close_cb
  split
  · exact nofun
  · rename_i x hx
    dsimp only
    split
    · exact nofun
    · rename_i data hdata
      refine call_eq_none ?_
      unfold World.closed World.setHandle
      dsimp only
      rw [List.getElem?_set_self (List.getElem?_eq_some_iff.1 hx).1]
      dsimp only
      rw [hdata]
      exact nofun

theorem complete_eq_none : o.complete (ideal (Value F)) r = none ↔ ∃ x, o.reqs[r]? = some x ∧ x.data = none := by
  unfold World.complete
  split
  · rename_i hx
    simp [hx]
  · rename_i x hx
    split
    · rename_i hnone
      simp [hx, hnone]
    · rename_i data hdata
      refine iff_of_false (call_eq_none ?_) ?_
      · have hget : (o.setReq r { x with flying := false } o.store).reqs[r]? = some { x with flying := false } :=
          List.getElem?_set_self (List.getElem?_eq_some_iff.1 hx).1
        unfold World.completed
        rw [hget]
        dsimp only
        split
        · unfold World.release
          rw [hget]
          dsimp only
          rw [hdata]
          exact nofun
        · exact nofun
      · rintro ⟨y, hy, hnone⟩
        rw [hx] at hy
        cases hy
        rw [hdata] at hnone
        cases hnone

/-- The exact condition, where everything is owned. -/
theorem Good.step_eq_none (hg : Good as o) {a : Action F} (hlegal : o.Legal a) :
    o.step (ideal (Value F)) a = none ↔ o.Crashes as a := by
  cases a with
  | make => exact iff_of_false nofun id
  | start h checked f =>
    have hdata : (∃ x, o.handles[h]? = some x ∧ x.data = none) ↔
        ∃ x, o.handles[h]? = some x ∧ x.phase = .closed ∧ Pending.close h ∉ o.pending :=
      exists_congr fun x => and_congr_right fun hx => (hg.handles h x hx).data_none
    have hstep : o.step (ideal (Value F)) (.start h checked f) = none ↔ o.start (ideal (Value F)) h checked f = none :=
      Option.map_eq_none_iff
    rw [hstep, start_eq_none, hdata]
    cases checked with
    | false => exact and_iff_right rfl
    | true => exact iff_of_false (fun h => Bool.noConfusion h.1) id
  | close h f => exact iff_of_false (fun heq => hg.close_ne_none f (Option.map_eq_none_iff.1 heq)) id
  | request kind h f ok => exact iff_of_false nofun id
  | cancel r ok => exact iff_of_false (fun heq => withdraw_ne_none o r ok (Option.map_eq_none_iff.1 heq)) id
  | scandir_next r next => exact Option.map_eq_none_iff.trans scandir_next_eq_none
  | event h => exact iff_of_false (hg.event_ne_none hlegal) id
  | close_cb h => exact iff_of_false (close_cb_ne_none o h) id
  | complete r =>
    obtain ⟨x, hx, hf⟩ := hlegal
    refine complete_eq_none.trans ?_
    change _ ↔ Withdrawn as r
    have hdata := (hg.reqs r x hx).flying hf
    constructor
    · rintro ⟨y, hy, hnone⟩
      rw [hx] at hy
      cases hy
      rw [hnone] at hdata
      exact not_not.1 fun h => Bool.false_ne_true (hdata.2 h)
    · intro hw
      exact ⟨x, hx, Option.not_isSome_iff_eq_none.1 fun h => hdata.1 h hw⟩
  | ret =>
    refine iff_of_false (fun heq => ?_) id
    have hret : o.ret (ideal (Value F)) = none := Option.map_eq_none_iff.1 heq
    unfold World.ret at hret
    split at hret
    · cases hret
    · cases hret
    · rename_i h ps hps
      exact hg.closed_ne_none (hps ▸ List.mem_cons_self ..) hret
    · rename_i r ps hps
      exact hg.completed_ne_none (hps ▸ List.mem_cons_self ..) hret

end Crashes

/-! ## The registry -/

section Registry

variable {ops : Ops S R (Value F)} {Holds : S → Multiset (R × Value F) → Prop} {base : Multiset (R × Value F)}
    {as : List (Action F)}
  {w : World S R F} {o : World Unit (Value F) F} {val : R → Value F}

theorem World.legal_map {a : Action F} : (w.map val).Legal a ↔ w.Legal a := by
  cases a with
  | cancel r ok => cases ok <;> simp [World.Legal, Req.map]
  | _ => simp [World.Legal, Req.map, Handle.map, World.map]

theorem World.crashes_map {a : Action F} : (w.map val).Crashes as a ↔ w.Crashes as a := by
  cases a with
  | start h checked f => cases checked <;> simp [World.Crashes, Handle.map, World.map]
  | scandir_next r next =>
    dsimp only [World.Crashes]
    rw [World.map_reqs]
    cases hx : w.reqs[r]? with
    | none => simp
    | some x =>
      have hsome : (x.map val).data.isSome = x.data.isSome := Option.isSome_map
      simp [Req.failed_map, hsome]
  | _ => exact Iff.rfl

/-- A legal run on the registry is one where everything is owned. -/
theorem Reach.owned (hops : Lawful ops Holds) {w₀ : World S R F} {o₀ : World Unit (Value F) F}
    (h₀ : Refines Holds base w₀ o₀)
    (h : Reach ops w₀ as w) : ∃ o, Reach (ideal (Value F)) o₀ as o ∧ Refines Holds base w o := by
  induction h with
  | init => exact ⟨o₀, .init, h₀⟩
  | @step as w w' a c _ hlegal hstep ih =>
    obtain ⟨o, hreach, hrefines⟩ := ih
    have hfollows := step_follows hops a hrefines
    obtain ⟨val, -, rfl⟩ := hrefines
    rw [hstep] at hfollows
    generalize ho : (w.map val).step (ideal (Value F)) a = q at hfollows
    cases hfollows with
    | some hsame => exact ⟨_, hreach.step (World.legal_map.2 hlegal) ho, hsame.1⟩

end Registry

variable {as : List (Action F)} {registry : Registry (Value F)} {base : Multiset (Nat × Value F)}
    {w : World (Registry (Value F)) Nat F}

/-- **Crashes**: in a legal run the next action crashes the process exactly if it starts a stream after the callback of
its closing, completes a request that was cancelled or a scan that was at its end before, or asks for an entry of a scan
that has failed, or of one under way that has written none. -/
theorem crash_iff (h : registry.Holds base) (hreach : Reach (registryOps (Value F)) (World.init registry) as w)
    (a : Action F) (hlegal : w.Legal a) : w.step (registryOps (Value F)) a = none ↔ w.Crashes as a := by
  obtain ⟨o, ho, hrefines⟩ := hreach.owned (registry_lawful (Value F)) (Refines.init h)
  have hfollows := step_follows (registry_lawful (Value F)) a hrefines
  obtain ⟨val, -, rfl⟩ := hrefines
  have hcrash : (w.map val).Crashes as a ↔ w.Crashes as a := World.crashes_map
  rw [← hcrash, ← ho.good.step_eq_none (World.legal_map.2 hlegal)]
  generalize w.step (registryOps (Value F)) a = p at hfollows
  generalize (w.map val).step (ideal (Value F)) a = q at hfollows
  cases hfollows <;> simp

theorem reach_init : Reach (registryOps (Value Nat)) (World.init ⟨.next 0, []⟩) [] (World.init ⟨.next 0, []⟩) := .init

/-- A request to the file system that is cancelled, and that libuv then calls back for. -/
theorem crash_iff_cancelled :
    ∃ w, Reach (registryOps (Value Nat)) (World.init ⟨.next 0, []⟩) [.request .fs 0 (some 7) true, .cancel 0 true] w ∧
    w.step (registryOps (Value Nat)) (.complete 0) = none := by
  have hreach := Reach.step (Reach.step reach_init (a := .request .fs 0 (some 7) true) trivial rfl)
    (a := .cancel 0 true) ⟨_, rfl, rfl, rfl⟩ rfl
  exact ⟨_, hreach, (crash_iff Registry.holds_nil hreach (.complete 0) ⟨_, rfl, rfl⟩).2 (.inl (by simp))⟩

/-- **Pinned**: a handle that is not closed and a request that is under way, and was not withdrawn, have their own
userdata in the registry. -/
theorem pinned (h : registry.Holds base) (hreach : Reach (registryOps (Value F)) (World.init registry) as w) :
    (∀ i x, w.handles[i]? = some x → x.phase ≠ .closed →
      ∃ data, x.data = some data ∧ w.store.rawgeti data.ref = some (.handle i)) ∧
    ∀ r x, w.reqs[r]? = some x → x.flying = true → ¬Withdrawn as r →
      ∃ data, x.data = some data ∧ w.store.rawgeti data.req_ref = some (.req r) := by
  obtain ⟨o, ho, val, hb, rfl⟩ := hreach.owned (registry_lawful (Value F)) (Refines.init h)
  have hg := ho.good
  constructor
  · intro i x hx hphase
    have hgood := hg.handles i (x.map val) (by simp [hx])
    obtain ⟨phase, _ | data⟩ := x
    · cases hgood.data.2 (.inl hphase)
    · rw [World.refs_handle hx] at hb
      refine ⟨data, rfl, (Backs.get (registry_lawful (Value F)) hb ?_).trans (congrArg some (hgood.ref _ rfl))⟩
      simp [Handle.refs, luv_handle_t.refs]
  · intro r x hx hf hw
    have hgood := hg.reqs r (x.map val) (by simp [hx])
    obtain ⟨kind, flying, _ | data⟩ := x
    · cases (hgood.flying hf).2 hw
    · rw [World.refs_req hx] at hb
      refine ⟨data, rfl, (Backs.get (registry_lawful (Value F)) hb ?_).trans (congrArg some (hgood.ref _ rfl))⟩
      simp [Req.refs, luv_req_t.refs]

/-- A stream with a callback, and a write under way. -/
theorem pinned_write : ∃ w, Reach (registryOps (Value Nat)) (World.init ⟨.next 0, []⟩)
      [.make, luv_stream_read_start 0 7, luv_stream_write 0 8 (some 9) true] w ∧
    (∃ x data, w.handles[0]? = some x ∧ x.data = some data ∧ w.store.rawgeti data.ref = some (.handle 0)) ∧
    ∃ x data, w.reqs[0]? = some x ∧ x.data = some data ∧ w.store.rawgeti data.req_ref = some (.req 0) := by
  have hreach := Reach.step (Reach.step (Reach.step reach_init (a := .make) trivial rfl)
    (a := luv_stream_read_start 0 7) trivial rfl) (a := luv_stream_write 0 8 (some 9) true) trivial rfl
  obtain ⟨hhandles, hreqs⟩ := pinned Registry.holds_nil hreach
  obtain ⟨data, hdata, href⟩ := hhandles 0 _ rfl nofun
  obtain ⟨req, hreq, hrref⟩ := hreqs 0 _ rfl rfl (by simp [Withdrawn, luv_stream_read_start, luv_stream_write])
  exact ⟨_, hreach, ⟨_, data, rfl, hdata, href⟩, _, req, rfl, hreq, hrref⟩

/-- **Nothing is left**: when all handles are closed, all requests are over and all directories are read to their end,
the registry has what it had before, if no request has failed at once. -/
theorem nothing_left (h : registry.Holds base) (hreach : Reach (registryOps (Value F)) (World.init registry) as w)
    (hok : AllOk as)
    (hhandles : ∀ x ∈ w.handles, x.phase = .closed)
    (hreqs : ∀ x ∈ w.reqs, x.flying = false ∧ (x.kind.cleans = false → x.data = none))
    (hpending : w.pending = []) : w.store.Holds base := by
  obtain ⟨o, ho, val, hb, rfl⟩ := hreach.owned (registry_lawful (Value F)) (Refines.init h)
  have hg := ho.good
  have hp : (w.map val).pending = [] := hpending
  have hzero : w.refs = 0 := by
    unfold World.refs total
    rw [List.sum_eq_zero, List.sum_eq_zero, add_zero]
    · intro m hm
      obtain ⟨x, hx, rfl⟩ := List.mem_map.1 hm
      obtain ⟨r, hr⟩ := List.getElem?_of_mem hx
      obtain ⟨hf, hdir⟩ := hreqs x hx
      have hgood := hg.reqs r (x.map val) (by simp [hr])
      rw [hp] at hgood
      obtain ⟨kind, flying, _ | data⟩ := x
      · rfl
      · obtain h | h | h := hgood.rest hok rfl
        · exact absurd (hf.symm.trans h) nofun
        · exact absurd h List.not_mem_nil
        · exact absurd (hdir h) nofun
    · intro m hm
      obtain ⟨x, hx, rfl⟩ := List.mem_map.1 hm
      obtain ⟨i, hi⟩ := List.getElem?_of_mem hx
      have hgood := hg.handles i (x.map val) (by simp [hi])
      rw [hp] at hgood
      have hnone := hgood.data_none.2 ⟨hhandles x hx, List.not_mem_nil⟩
      obtain ⟨phase, _ | data⟩ := x
      · rfl
      · cases hnone
  unfold Backs at hb
  rwa [hzero, Multiset.map_zero, add_zero] at hb

/-- A timer is started and closed. -/
theorem nothing_left_timer : ∃ w, Reach (registryOps (Value Nat)) (World.init ⟨.next 0, []⟩)
      [.make, luv_timer_start 0 7, .close 0 (some 8), .close_cb 0, .ret] w ∧ w.store.Holds 0 ∧
      w.store.slots.length = 3 := by
  have hreach := Reach.step
    (Reach.step
      (Reach.step (Reach.step (Reach.step reach_init (a := .make) trivial rfl) (a := luv_timer_start 0 7) trivial rfl)
        (a := .close 0 (some 8)) trivial rfl)
    (a := .close_cb 0) ⟨_, rfl, rfl⟩ rfl) (a := .ret) nofun rfl
  refine ⟨_, hreach, nothing_left Registry.holds_nil hreach ?_ ?_ ?_ rfl, rfl⟩
  · rintro kind h f ok hmem
    simp [luv_timer_start] at hmem
  · rintro x hx
    obtain rfl := List.mem_singleton.1 hx
    rfl
  · rintro x hx
    cases hx

end XCore.Luv
