import XCore.Luv.World
import XCore.Lua.Registry
import Mathlib.Tactic.Abel
import Mathlib.Data.Option.Basic

/-!
# Handles and requests own what they refer to

The values themselves take the place of references: a handle has its userdata and its callbacks, a request its userdata,
its continuation and its data, and there is nothing to mix up. `World.map val` is the world in which every reference is
what it resolves to.

- Each function keeps to it (`check_follows`, `setup_follows`, `Backs.cleanup`, `Backs.req_cleanup`), with the rest of
  the references as they are;
- each action does (`step_follows`);
- so a program runs on the registry as it does where everything is owned, whatever the order of its calls and of those
  of libuv (`runs_owned`).
-/

namespace XCore.Luv

open XCore.Refs XCore.Lua

variable {S R F : Type}

/-! ## References -/

namespace luv_handle_t

def refs (data : luv_handle_t R) : Multiset R :=
  {data.ref} + held (data.callbacks .CLOSED) + held (data.callbacks .EVENT)

def map (val : R → Value F) (data : luv_handle_t R) : luv_handle_t (Value F) :=
  ⟨val data.ref, fun id => (data.callbacks id).map val⟩

end luv_handle_t

namespace luv_req_t

def refs (data : luv_req_t R) : Multiset R := {data.req_ref} + held data.callback_ref + held data.data_ref

def map (val : R → Value F) (data : luv_req_t R) : luv_req_t (Value F) :=
  ⟨val data.req_ref, data.callback_ref.map val, data.data_ref.map val⟩

end luv_req_t

namespace Handle

def refs (x : Handle R) : Multiset R := x.data.elim 0 luv_handle_t.refs

def map (val : R → Value F) (x : Handle R) : Handle (Value F) := ⟨x.phase, x.data.map (luv_handle_t.map val)⟩

end Handle

namespace Req

def refs (x : Req R F) : Multiset R := x.data.elim 0 luv_req_t.refs

def map (val : R → Value F) (x : Req R F) : Req (Value F) F := ⟨x.kind, x.flying, x.data.map (luv_req_t.map val)⟩

theorem failed_map (val : R → Value F) (x : Req R F) : (x.map val).failed = x.failed := by
  obtain ⟨kind, flying, _ | data⟩ := x
  · rfl
  · cases kind <;> simp [Req.failed, map, luv_req_t.map]

end Req

namespace World

/-- What the world refers to. -/
def refs (w : World S R F) : Multiset R := total Handle.refs w.handles + total Req.refs w.reqs

/-- The world with the values in place of the references. -/
def map (val : R → Value F) (w : World S R F) : World Unit (Value F) F :=
  ⟨(), w.handles.map (Handle.map val), w.reqs.map (Req.map val), w.pending⟩

variable {val val' : R → Value F} {w : World S R F}

@[simp] theorem map_handles (h : Nat) : (w.map val).handles[h]? = w.handles[h]?.map (Handle.map val) :=
  List.getElem?_map ..

@[simp] theorem map_reqs (r : Nat) : (w.map val).reqs[r]? = w.reqs[r]?.map (Req.map val) := List.getElem?_map ..

end World

theorem map_held {val val' : R → Value F} {c : Option R} (h : ∀ r ∈ held c, val' r = val r) :
    c.map val' = c.map val := by
  cases c with
  | none => rfl
  | some r => exact congrArg some (h r (Multiset.mem_singleton_self r))

theorem natural_handle_t : Natural (R := R) luv_handle_t.refs (luv_handle_t.map (F := F)) := by
  intro val val' data h
  simp only [luv_handle_t.refs, Multiset.mem_add, Multiset.mem_singleton] at h
  have hcall : ∀ id, (data.callbacks id).map val' = (data.callbacks id).map val := by
    rintro (_ | _)
    · exact map_held fun r hr => h r (.inl (.inr hr))
    · exact map_held fun r hr => h r (.inr hr)
  unfold luv_handle_t.map
  rw [h _ (.inl (.inl rfl)), funext hcall]

theorem natural_req_t : Natural (R := R) luv_req_t.refs (luv_req_t.map (F := F)) := by
  intro val val' data h
  simp only [luv_req_t.refs, Multiset.mem_add, Multiset.mem_singleton] at h
  unfold luv_req_t.map
  rw [h _ (.inl (.inl rfl)), map_held fun r hr => h r (.inl (.inr hr)), map_held fun r hr => h r (.inr hr)]

theorem natural_handle : Natural (R := R) Handle.refs (Handle.map (F := F)) := by
  rintro val val' ⟨phase, _ | data⟩ h
  · rfl
  · exact congrArg (Handle.mk phase ∘ some) (natural_handle_t val val' data h)

theorem natural_req : Natural (R := R) (Req.refs (F := F)) Req.map := by
  rintro val val' ⟨kind, flying, _ | data⟩ h
  · rfl
  · exact congrArg (Req.mk kind flying ∘ some) (natural_req_t val val' data h)

namespace luv_handle_t

/-- The references but for one callback. -/
def rest (data : luv_handle_t R) : luv_callback_id → Multiset R
  | .CLOSED => {data.ref} + held (data.callbacks .EVENT)
  | .EVENT => {data.ref} + held (data.callbacks .CLOSED)

theorem refs_eq (data : luv_handle_t R) (id : luv_callback_id) :
    data.refs = held (data.callbacks id) + data.rest id := by
  cases id <;> unfold refs rest <;> dsimp only <;> abel

theorem put_refs (data : luv_handle_t R) (id : luv_callback_id) (r : R) :
    (data.put id r).refs = {r} + data.rest id := by
  cases id <;> unfold refs rest put <;> dsimp only <;> rw [held_some] <;> abel

/-- The other callback stays what it is. -/
theorem put_map {val val' : R → Value F} {data : luv_handle_t R} {id : luv_callback_id} {r : R}
    (h : ∀ r ∈ data.rest id, val' r = val r) : (data.put id r).map val' = (data.map val).put id (val' r) := by
  cases id with
  | CLOSED =>
    simp only [rest, Multiset.mem_add, Multiset.mem_singleton] at h
    unfold map put
    rw [h _ (.inl rfl), luv_handle_t.mk.injEq]
    refine ⟨rfl, funext fun id => ?_⟩
    cases id with
    | CLOSED => rfl
    | EVENT => exact map_held fun r hr => h r (.inr hr)
  | EVENT =>
    simp only [rest, Multiset.mem_add, Multiset.mem_singleton] at h
    unfold map put
    rw [h _ (.inl rfl), luv_handle_t.mk.injEq]
    refine ⟨rfl, funext fun id => ?_⟩
    cases id with
    | CLOSED => exact map_held fun r hr => h r (.inr hr)
    | EVENT => rfl

end luv_handle_t

/-! ## The functions -/

section Functions

variable {ops : Ops S R (Value F)} {Holds : S → Multiset (R × Value F) → Prop} (hops : Lawful ops Holds)
    {base : Multiset (R × Value F)}
  {val : R → Value F} {s : S} {m : Multiset R} {data : luv_handle_t R} {req : luv_req_t R}

include hops

theorem setup_follows (h : Backs Holds base val s m) (n : Nat) :
    ∃ val', Backs Holds base val' (luv_handle_setup ops s n).2
    ((luv_handle_setup ops s n).1.refs + m) ∧ (∀ r ∈ m, val' r = val r) ∧
      (luv_handle_setup ops s n).1.map val' = (luv_handle_setup (ideal (Value F)) () n).1 := by
  obtain ⟨val', hb, hsame, hnew⟩ := h.ref hops (.handle n)
  refine ⟨val', ?_, hsame, ?_⟩
  · unfold luv_handle_setup luv_handle_t.refs
    simpa using hb
  · unfold luv_handle_setup luv_handle_t.map
    simp [hnew, ideal]

theorem check_follows (h : Backs Holds base val s (data.refs + m)) (id : luv_callback_id) (f : F) :
    ∃ val', Backs Holds base val' (luv_callback_check ops s data id f).2
    ((luv_callback_check ops s data id f).1.refs + m) ∧
      (∀ r ∈ m, val' r = val r) ∧
      (luv_callback_check ops s data id f).1.map val' =
          (luv_callback_check (ideal (Value F)) () (data.map val) id f).1 := by
  rw [data.refs_eq id, add_assoc] at h
  obtain ⟨val', hb, hsame, hnew⟩ := (h.unref? hops).ref hops (.lua f)
  refine ⟨val', ?_, fun r hr => hsame r (Multiset.mem_add.2 (.inr hr)), ?_⟩
  · unfold luv_callback_check
    dsimp only
    rw [luv_handle_t.put_refs, add_assoc, Multiset.singleton_add]
    exact hb
  · unfold luv_callback_check
    dsimp only
    rw [luv_handle_t.put_map fun r hr => hsame r (Multiset.mem_add.2 (.inl hr)), hnew]
    rfl

theorem Backs.cleanup (h : Backs Holds base val s (data.refs + m)) :
    Backs Holds base val (luv_handle_cleanup ops s data) m := by
  unfold luv_handle_t.refs at h
  rw [add_assoc, add_assoc, Multiset.singleton_add] at h
  exact ((h.unref hops).unref? hops).unref? hops

theorem Backs.req_cleanup (h : Backs Holds base val s (req.refs + m)) :
    Backs Holds base val (luv_req_cleanup ops s req) m := by
  unfold luv_req_t.refs at h
  rw [add_assoc, add_assoc, Multiset.singleton_add] at h
  exact ((h.unref hops).unref? hops).unref? hops

theorem store_follows (h : Backs Holds base val s m) (v : Option F) :
    ∃ val', Backs Holds base val' (store ops s v).2 (held (store ops s v).1 + m) ∧ (∀ r ∈ m, val' r = val r) ∧
      (store ops s v).1.map val' = (store (ideal (Value F)) () v).1 := by
  cases v with
  | none => exact ⟨val, by simpa [store] using h, fun _ _ => rfl, rfl⟩
  | some v =>
    obtain ⟨val', hb, hsame, hnew⟩ := h.ref hops (.lua v)
    exact ⟨val', by simpa [store] using hb, hsame, congrArg some hnew⟩

/-- A request has the three values that it was made of. -/
theorem req_follows (h : Backs Holds base val s m) (n : Nat) (f v : Option F) :
    ∃ val', Backs Holds base val' (luv_req ops s n f v).2 ((luv_req ops s n f v).1.refs + m) ∧
    (∀ r ∈ m, val' r = val r) ∧
      (luv_req ops s n f v).1.map val' = (luv_req (ideal (Value F)) () n f v).1 := by
  obtain ⟨val₁, h₁, hsame₁, hf⟩ := store_follows hops h f
  obtain ⟨val₂, h₂, hsame₂, hr⟩ := h₁.ref hops (.req n)
  obtain ⟨val₃, h₃, hsame₃, hv⟩ := store_follows hops h₂ v
  simp only [Multiset.mem_add, Multiset.mem_cons] at hsame₂ hsame₃
  refine ⟨val₃, ?_, fun r hm => ?_, ?_⟩
  · have hrefs : (luv_req ops s n f v).1.refs + m = held (store ops (ops.ref (store ops s f).2 (.req n)).2 v).1 +
        ((ops.ref (store ops s f).2 (.req n)).1 ::ₘ (held (store ops s f).1 + m)) := by
      rw [← Multiset.singleton_add]
      unfold luv_req luv_req_t.refs luv_req_setup luv_req_check_continuation
      dsimp only
      abel
    rw [hrefs]
    exact h₃
  · rw [hsame₃ r (.inr (.inr hm)), hsame₂ r (.inr hm), hsame₁ r hm]
  · have hf₃ : (store ops s f).1.map val₃ = (store (ideal (Value F)) () f).1 := by
      rw [map_held fun r hm => hsame₃ r (.inr (.inl hm)), map_held fun r hm => hsame₂ r (.inl hm), hf]
    have hr₃ := (hsame₃ _ (.inl rfl)).trans hr
    unfold luv_req luv_req_t.map luv_req_check_continuation luv_req_setup
    rw [luv_req_t.mk.injEq]
    exact ⟨hr₃, hf₃, hv⟩

/-- A callback is what the handle owns. -/
theorem call_follows (h : Backs Holds base val s (data.refs + m)) (id : luv_callback_id) :
    luv_callback_call ops s data id = luv_callback_call (ideal (Value F)) () (data.map val) id := by
  have hmem : ∀ r, data.callbacks id = some r → r ∈ data.refs + m := by
    intro r hr
    unfold luv_handle_t.refs
    cases id <;> simp [hr]
  unfold luv_callback_call luv_handle_t.map
  dsimp only
  cases hc : data.callbacks id with
  | none => rfl
  | some r => exact h.get hops (hmem r hc)

theorem fulfill_follows (h : Backs Holds base val s (req.refs + m)) :
    luv_req_fulfill ops s req = luv_req_fulfill (ideal (Value F)) () (req.map val) := by
  unfold luv_req_fulfill luv_req_t.map
  dsimp only
  cases hc : req.callback_ref with
  | none => rfl
  | some r => exact h.get hops (by simp [luv_req_t.refs, hc])

end Functions

/-! ## The world -/

/-- The store holds the references of the world, and `o` is the world with what they resolve to. -/
def Refines (Holds : S → Multiset (R × Value F) → Prop) (base : Multiset (R × Value F)) (w : World S R F)
    (o : World Unit (Value F) F) : Prop :=
  ∃ val, Backs Holds base val w.store w.refs ∧ o = w.map val

section World

variable {ops : Ops S R (Value F)} {Holds : S → Multiset (R × Value F) → Prop} (hops : Lawful ops Holds)
    {base : Multiset (R × Value F)}
  {val val' : R → Value F} {w : World S R F} {s : S} {h r : Nat}

/-- The references but for one handle. -/
def World.butHandle (w : World S R F) (h : Nat) : Multiset R :=
  total Handle.refs (w.handles.eraseIdx h) + total Req.refs w.reqs

/-- The references but for one request. -/
def World.butReq (w : World S R F) (r : Nat) : Multiset R :=
  total Handle.refs w.handles + total Req.refs (w.reqs.eraseIdx r)

theorem World.refs_handle {x : Handle R} (hx : w.handles[h]? = some x) : w.refs = x.refs + w.butHandle h := by
  unfold World.refs World.butHandle
  rw [total_eq hx, add_assoc]

theorem World.refs_req {x : Req R F} (hx : w.reqs[r]? = some x) : w.refs = x.refs + w.butReq r := by
  unfold World.refs World.butReq
  rw [total_eq hx, add_left_comm]

/-- One handle changes. -/
theorem Refines.setHandle {x y : Handle R} (hx : w.handles[h]? = some x)
    (hb : Backs Holds base val' s (y.refs + w.butHandle h))
    (hsame : ∀ r ∈ w.butHandle h, val' r = val r) :
    Refines Holds base (w.setHandle h y s) ((w.map val).setHandle h (y.map val') ()) := by
  refine ⟨val', ?_, ?_⟩
  · change Backs Holds base val' s (total Handle.refs (w.handles.set h y) + total Req.refs w.reqs)
    rwa [total_set hx, add_assoc]
  · unfold World.map World.setHandle
    dsimp only
    rw [map_set natural_handle fun r hr => hsame r (Multiset.mem_add.2 (.inl hr)),
      map_congr natural_req fun r hr => hsame r (Multiset.mem_add.2 (.inr hr))]

/-- One request changes. -/
theorem Refines.setReq {x y : Req R F} (hx : w.reqs[r]? = some x) (hb : Backs Holds base val' s (y.refs + w.butReq r))
    (hsame : ∀ i ∈ w.butReq r, val' i = val i) :
    Refines Holds base (w.setReq r y s) ((w.map val).setReq r (y.map val') ()) := by
  refine ⟨val', ?_, ?_⟩
  · change Backs Holds base val' s (total Handle.refs w.handles + total Req.refs (w.reqs.set r y))
    rwa [total_set hx, add_left_comm]
  · unfold World.map World.setReq
    dsimp only
    rw [map_set natural_req fun i hi => hsame i (Multiset.mem_add.2 (.inr hi)),
      map_congr natural_handle fun i hi => hsame i (Multiset.mem_add.2 (.inl hi))]

theorem Refines.push (p : Pending) {o : World Unit (Value F) F} :
    Refines Holds base w o → Refines Holds base (w.push p) (o.push p)
  | ⟨val, hb, ho⟩ => ⟨val, hb, ho ▸ rfl⟩

include hops

variable (hb : Backs Holds base val w.store w.refs)

include hb

theorem start_follows (checked : Bool) (f : F) :
    Option.Rel (Refines Holds base) (w.start ops h checked f) ((w.map val).start (ideal (Value F)) h checked f) := by
  unfold World.start
  rw [World.map_handles]
  cases hx : w.handles[h]? with
  | none => exact .some ⟨val, hb, rfl⟩
  | some x =>
    obtain ⟨phase, _ | data⟩ := x
    · cases checked
      · exact .none
      · exact .some ⟨val, hb, rfl⟩
    · rw [World.refs_handle hx] at hb
      obtain ⟨val', hb', hsame, hmap⟩ := check_follows hops hb .EVENT f
      have := Refines.setHandle (y := ⟨phase, some (luv_callback_check ops w.store data .EVENT f).1⟩) hx hb' hsame
      unfold Handle.map at this
      rw [Option.map_some, hmap] at this
      exact .some this

theorem close_follows (f : Option F) :
    Option.Rel (Refines Holds base) (w.luv_handle_close ops h f)
    ((w.map val).luv_handle_close (ideal (Value F)) h f) := by
  unfold World.luv_handle_close
  rw [World.map_handles]
  cases hx : w.handles[h]? with
  | none => exact .some ⟨val, hb, rfl⟩
  | some x =>
    obtain ⟨phase, data⟩ := x
    simp only [Option.map_some, Handle.map]
    split
    · exact .some ⟨val, hb, rfl⟩
    · rw [World.refs_handle hx] at hb
      cases f with
      | none => exact .some (Refines.setHandle (y := ⟨.closing, data⟩) hx hb fun _ _ => rfl)
      | some f =>
        cases data with
        | none => exact .none
        | some data =>
          obtain ⟨val', hb', hsame, hmap⟩ := check_follows hops hb .CLOSED f
          have := Refines.setHandle
            (y := ⟨.closing, some (luv_callback_check ops w.store data .CLOSED f).1⟩) hx hb' hsame
          unfold Handle.map at this
          rw [Option.map_some, hmap] at this
          exact .some this

theorem release_follows :
    Option.Rel (Refines Holds base) (w.release ops r) ((w.map val).release (ideal (Value F)) r) := by
  unfold World.release
  rw [World.map_reqs]
  cases hx : w.reqs[r]? with
  | none => exact .some ⟨val, hb, rfl⟩
  | some x =>
    obtain ⟨kind, flying, _ | data⟩ := x
    · exact .none
    · rw [World.refs_req hx] at hb
      have hb' := Backs.req_cleanup hops hb
      rw [← zero_add (w.butReq r)] at hb'
      exact .some (Refines.setReq (y := ⟨kind, flying, none⟩) hx hb' fun _ _ => rfl)

theorem withdraw_follows (ok : Bool) :
    Option.Rel (Refines Holds base) (w.withdraw ops r ok) ((w.map val).withdraw (ideal (Value F)) r ok) := by
  unfold World.withdraw
  rw [World.map_reqs]
  cases hx : w.reqs[r]? with
  | none => exact .some ⟨val, hb, rfl⟩
  | some x =>
    simp only [Option.map_some, Req.map, Option.isSome_map]
    split
    · exact release_follows hops hb
    · exact .some ⟨val, hb, rfl⟩

theorem scandir_next_follows (next : Next) :
    Option.Rel (Refines Holds base) (w.scandir_next ops r next)
    ((w.map val).scandir_next (ideal (Value F)) r next) := by
  unfold World.scandir_next
  rw [World.map_reqs]
  cases hx : w.reqs[r]? with
  | none => exact .some ⟨val, hb, rfl⟩
  | some x =>
    have hsome : (x.map val).data.isSome = x.data.isSome := Option.isSome_map
    dsimp only [Option.map_some]
    rw [hsome, Req.failed_map]
    split
    · exact .none
    · exact withdraw_follows hops hb _

theorem closed_follows : Option.Rel (Refines Holds base) (w.closed ops h) ((w.map val).closed (ideal (Value F)) h) := by
  unfold World.closed
  rw [World.map_handles]
  cases hx : w.handles[h]? with
  | none => exact .some ⟨val, hb, rfl⟩
  | some x =>
    obtain ⟨phase, _ | data⟩ := x
    · exact .none
    · rw [World.refs_handle hx] at hb
      have hb' := Backs.cleanup hops hb
      rw [← zero_add (w.butHandle h)] at hb'
      exact .some (Refines.setHandle (y := ⟨phase, none⟩) hx hb' fun _ _ => rfl)

theorem completed_follows :
    Option.Rel (Refines Holds base) (w.completed ops r) ((w.map val).completed (ideal (Value F)) r) := by
  unfold World.completed
  rw [World.map_reqs]
  cases hx : w.reqs[r]? with
  | none => exact .some ⟨val, hb, rfl⟩
  | some x =>
    simp only [Option.map_some, Req.map]
    split
    · exact release_follows hops hb
    · exact .some ⟨val, hb, rfl⟩

theorem ret_follows : Option.Rel (Refines Holds base) (w.ret ops) ((w.map val).ret (ideal (Value F))) := by
  unfold World.ret
  rw [show (w.map val).pending = w.pending from rfl]
  cases w.pending with
  | nil => exact .some ⟨val, hb, rfl⟩
  | cons p ps =>
    cases p with
    | event => exact .some ⟨val, hb, rfl⟩
    | close h => exact closed_follows (w := { w with pending := ps }) hops hb
    | complete r => exact completed_follows (w := { w with pending := ps }) hops hb

theorem make_follows : Refines Holds base (w.make ops) ((w.map val).make (ideal (Value F))) := by
  obtain ⟨val', hb', hsame, hmap⟩ := setup_follows hops hb w.handles.length
  refine ⟨val', ?_, ?_⟩
  · unfold World.make World.refs
    dsimp only
    rw [total_append, add_assoc]
    exact hb'
  · unfold World.make World.map
    dsimp only
    unfold World.refs at hsame
    rw [List.map_append, map_congr natural_handle fun r hr => hsame r (Multiset.mem_add.2 (.inl hr)),
      map_congr natural_req fun r hr => hsame r (Multiset.mem_add.2 (.inr hr)), List.length_map,
      List.map_singleton, ← hmap]
    rfl

theorem request_follows (kind : Kind F) (f : Option F) (ok : Bool) :
    Refines Holds base (w.request ops kind f ok) ((w.map val).request (ideal (Value F)) kind f ok) := by
  obtain ⟨val', hb', hsame, hmap⟩ := req_follows hops hb w.reqs.length f (kind.written ok)
  have hhandles : w.handles.map (Handle.map val') = w.handles.map (Handle.map val) :=
    map_congr natural_handle fun r hr => hsame r (Multiset.mem_add.2 (.inl hr))
  have hreqs : w.reqs.map (Req.map val') = w.reqs.map (Req.map val) :=
    map_congr natural_req fun r hr => hsame r (Multiset.mem_add.2 (.inr hr))
  have hlen : (w.map val).reqs.length = w.reqs.length := List.length_map ..
  unfold World.request
  rw [hlen]
  split
  · refine ⟨val', ?_, ?_⟩
    · unfold World.refs
      dsimp only
      rw [total_append, add_left_comm]
      exact hb'
    · unfold World.map
      dsimp only
      rw [List.map_append, hhandles, hreqs, List.map_singleton, ← hmap]
      rfl
  · refine ⟨val', ?_, ?_⟩
    · unfold World.refs
      dsimp only
      rw [total_append, add_left_comm]
      exact (zero_add w.refs).symm ▸ Backs.req_cleanup hops hb'
    · unfold World.map
      rw [List.map_append, hhandles, hreqs, List.map_singleton]
      rfl

end World

/-! ## Actions -/

section Actions

variable {ops : Ops S R (Value F)} {Holds : S → Multiset (R × Value F) → Prop} (hops : Lawful ops Holds)
    {base : Multiset (R × Value F)}
  {val : R → Value F} {w : World S R F}

/-- The same world is left, and the same value was called. -/
def Same (Holds : S → Multiset (R × Value F) → Prop) (base : Multiset (R × Value F))
    (p : World S R F × Option (Value F)) (q : World Unit (Value F) F × Option (Value F)) : Prop :=
  Refines Holds base p.1 q.1 ∧ p.2 = q.2

theorem Same.quiet {p : Option (World S R F)} {q : Option (World Unit (Value F) F)}
    (h : Option.Rel (Refines Holds base) p q) :
    Option.Rel (Same Holds base) (p.map fun w => (w, none)) (q.map fun w => (w, none)) := by
  cases h with
  | none => exact .none
  | some h => exact .some ⟨h, rfl⟩

theorem Same.call {o : World Unit (Value F) F} (h : Refines Holds base w o) (v : Option (Value F)) (p : Pending)
    {rest : Option (World S R F)} {rest' : Option (World Unit (Value F) F)}
    (hrest : Option.Rel (Refines Holds base) rest rest') :
    Option.Rel (Same Holds base) (w.call v p rest) (o.call v p rest') := by
  cases v with
  | none => exact Same.quiet hrest
  | some v => exact .some ⟨h.push p, rfl⟩

include hops

theorem event_follows (hb : Backs Holds base val w.store w.refs) (h : Nat) :
    Option.Rel (Same Holds base) (w.event ops h) ((w.map val).event (ideal (Value F)) h) := by
  unfold World.event
  rw [World.map_handles]
  cases hx : w.handles[h]? with
  | none => exact .some ⟨⟨val, hb, rfl⟩, rfl⟩
  | some x =>
    obtain ⟨phase, _ | data⟩ := x
    · exact .none
    · have hcall := call_follows hops (World.refs_handle hx ▸ hb) .EVENT
      dsimp only [Option.map_some, Handle.map]
      rw [hcall]
      exact Same.call ⟨val, hb, rfl⟩ _ .event (.some ⟨val, hb, rfl⟩)

theorem close_cb_follows (hb : Backs Holds base val w.store w.refs) (h : Nat) :
    Option.Rel (Same Holds base) (w.luv_handle_close_cb ops h)
    ((w.map val).luv_handle_close_cb (ideal (Value F)) h) := by
  unfold World.luv_handle_close_cb
  rw [World.map_handles]
  cases hx : w.handles[h]? with
  | none => exact .some ⟨⟨val, hb, rfl⟩, rfl⟩
  | some x =>
    rw [World.refs_handle hx] at hb
    obtain ⟨val', hb', ho⟩ := Refines.setHandle (y := { x with phase := .closed }) hx hb fun _ _ => rfl
    obtain ⟨phase, _ | data⟩ := x
    · exact .some ⟨⟨val', hb', ho⟩, rfl⟩
    · have hcall := call_follows hops hb .CLOSED
      dsimp only [Option.map_some, Handle.map] at ho ⊢
      rw [hcall, ho]
      exact Same.call ⟨val', hb', rfl⟩ _ (.close h) (closed_follows hops hb')

theorem complete_follows (hb : Backs Holds base val w.store w.refs) (r : Nat) :
    Option.Rel (Same Holds base) (w.complete ops r) ((w.map val).complete (ideal (Value F)) r) := by
  unfold World.complete
  rw [World.map_reqs]
  cases hx : w.reqs[r]? with
  | none => exact .some ⟨⟨val, hb, rfl⟩, rfl⟩
  | some x =>
    rw [World.refs_req hx] at hb
    obtain ⟨val', hb', ho⟩ := Refines.setReq (y := { x with flying := false }) hx hb fun _ _ => rfl
    obtain ⟨kind, flying, _ | data⟩ := x
    · exact .none
    · have hcall := fulfill_follows hops hb
      dsimp only [Option.map_some, Req.map] at ho ⊢
      rw [hcall, ho]
      exact Same.call ⟨val', hb', rfl⟩ _ (.complete r) (completed_follows hops hb')

/-- **Actions**: an action does on references what it does on the values. -/
theorem step_follows (a : Action F) {o : World Unit (Value F) F} (h : Refines Holds base w o) :
    Option.Rel (Same Holds base) (w.step ops a) (o.step (ideal (Value F)) a) := by
  obtain ⟨val, hb, rfl⟩ := h
  cases a with
  | make => exact .some ⟨make_follows hops hb, rfl⟩
  | start h checked f => exact Same.quiet (start_follows hops hb checked f)
  | close h f => exact Same.quiet (close_follows hops hb f)
  | request kind h f ok =>
    have hadmits : (w.map val).admits kind h = w.admits kind h := by
      unfold World.admits
      rw [World.map_handles]
      cases hx : w.handles[h]? with
      | none => rfl
      | some x => simp [Handle.map]
    refine .some ⟨?_, rfl⟩
    dsimp only
    rw [hadmits]
    split
    · exact request_follows hops hb kind f ok
    · exact ⟨val, hb, rfl⟩
  | cancel r ok => exact Same.quiet (withdraw_follows hops hb ok)
  | scandir_next r next => exact Same.quiet (scandir_next_follows hops hb next)
  | event h => exact event_follows hops hb h
  | close_cb h => exact close_cb_follows hops hb h
  | complete r => exact complete_follows hops hb r
  | ret => exact Same.quiet (ret_follows hops hb)

/-- Runs. -/
theorem run_follows : ∀ (as : List (Action F)) {w : World S R F} {o : World Unit (Value F) F}, Refines Holds base w o →
    (w.run ops as).1 = (o.run (ideal (Value F)) as).1 ∧
      Option.Rel (Refines Holds base) (w.run ops as).2 (o.run (ideal (Value F)) as).2
  | [], _, _, h => ⟨rfl, .some h⟩
  | a :: as, w, o, h => by
    have hstep := step_follows hops a h
    unfold World.run
    generalize w.step ops a = p at hstep
    generalize o.step (ideal (Value F)) a = q at hstep
    cases hstep with
    | none => exact ⟨rfl, .none⟩
    | some hsame =>
      obtain ⟨hrefines, hcalls⟩ := hsame
      obtain ⟨ih, ihw⟩ := run_follows as hrefines
      exact ⟨congrArg₂ List.cons hcalls ih, ihw⟩

end Actions

/-! ## The registry -/

/-- The operations of the registry. -/
def registryOps (V : Type) : Ops (Registry V) Nat V := ⟨Registry.luaL_ref, Registry.luaL_unref, Registry.rawgeti⟩

theorem registry_lawful (V : Type) : Lawful (registryOps V) Registry.Holds where
  nodup h := h.nodup
  get h hmem := h.get hmem
  ref v h := (h.ref v).1
  unref h := h.unref.1

/-- A world with no handle and no request. -/
def World.init (s : S) : World S R F := ⟨s, [], [], []⟩

theorem Refines.init {registry : Registry (Value F)} {base : Multiset (Nat × Value F)} (h : registry.Holds base) :
    Refines Registry.Holds base (World.init registry) (World.init ()) := by
  refine ⟨fun _ => .handle 0, ?_, rfl⟩
  have : (World.init registry : World (Registry (Value F)) Nat F).refs = 0 := rfl
  unfold Backs
  rw [this, Multiset.map_zero, add_zero]
  exact h

/-- **What is owned**: whatever a program and libuv do, in whatever order, the same values are called as where handles
and requests own their userdata, their callbacks and their data, and the process crashes where it crashes there. -/
theorem runs_owned (registry : Registry (Value F)) (base : Multiset (Nat × Value F)) (h : registry.Holds base)
    (as : List (Action F)) :
    ((World.init registry).run (registryOps (Value F)) as).1 = ((World.init ()).run (ideal (Value F)) as).1 ∧
      (((World.init registry).run (registryOps (Value F)) as).2.isNone ↔
        ((World.init ()).run (ideal (Value F)) as).2.isNone) := by
  obtain ⟨hcalls, hworlds⟩ := run_follows (registry_lawful (Value F)) as (Refines.init h)
  refine ⟨hcalls, ?_⟩
  generalize ((World.init registry).run (registryOps (Value F)) as).2 = p at hworlds
  generalize ((World.init ()).run (ideal (Value F)) as).2 = q at hworlds
  cases hworlds <;> simp

/-- A timer fires twice, with another callback the second time. -/
theorem runs_owned_timer : ((World.init ⟨.next 0, []⟩).run (registryOps (Value Nat))
      [.make, luv_timer_start 0 7, .event 0, luv_timer_start 0 8, .ret, .event 0]).1 =
    [none, none, some (.lua 7), none, none, some (.lua 8)] := by
  rw [(runs_owned _ 0 Registry.holds_nil _).1]
  rfl

end XCore.Luv
