import XCore.Lib.Run
import XCore.Tcp.Server

/-!
# The tables of a server

Runs of calls of `Accept`, `Recv`, `OnClientLost` and `CloseClient`, in any order, on a server that has just been
created.

- The tables of clients are inverse to each other, the keys belong to the same clients, and a number is not used again
  (`tables_kept`): each method keeps `Tables`.
- Buffered data belongs to clients that are connected exactly as long as no client is closed that has any
  (`buffers_connected_iff`): `OnClientLost` and `CloseClient` clear the other tables only.
-/

namespace XCore.Tcp

open XCore.Lua XCore.Run

/-- A call of a method of a server: `uv.tcp_new` gives the handle of an accepted client and `os.time` the time, `fuel`
is a bound on the rounds of the package loop. -/
inductive Call
  | accept (client : Nat) (time : Int)
  | recv (fuel vfd : Nat) (str : Bytes)
  | lost (client : Nat)
  | close (vfd : Nat)

namespace CTcpServer

variable {P : Type}

/-- What a call does. `uv.tcp_new` does not return the handle of a client; a package loop that is not left within its
bound is no call. -/
def call (self : CTcpServer P) : Call → CTcpServer P × List (ServerEffect P)
  | .accept client time => if self.m_ClientObj2Vfd client = none then self.Accept client time else (self, [])
  | .recv fuel vfd str =>
    match self.Recv fuel vfd str with
    | none => (self, [])
    | some (self', out, _) => (self', out)
  | .lost client => self.OnClientLost client
  | .close vfd => self.CloseClient vfd

/-- The server after a call. -/
abbrev next (self : CTcpServer P) (c : Call) : CTcpServer P := (self.call c).1

/-- A server that has just been created, perhaps with a package parser. -/
def listening (parser : Option (PackageParser Empty P)) : CTcpServer P := { Create with m_PackageParser := parser }

/-- A client has the number `vfd`. -/
def Connected (self : CTcpServer P) (vfd : Nat) : Prop := ∃ client, self.m_ClientVfd2Obj vfd = some client

instance (self : CTcpServer P) (vfd : Nat) : Decidable (self.Connected vfd) :=
  decidable_of_iff (self.m_ClientVfd2Obj vfd).isSome Option.isSome_iff_exists

/-! ## What the methods change -/

theorem isSome_update {key : Nat → Option Int} {vfd : Nat} {k k' : Int} (hkey : key vfd = some k) (v : Nat) :
    (Function.update key vfd (some k') v).isSome = (key v).isSome := by
  by_cases hv : v = vfd
  · subst hv
    simp [hkey]
  · rw [Function.update_of_ne hv]

/-- `Decode` changes the key of its client, if it has one. -/
theorem Decode_tables (self : CTcpServer P) (vfd : Nat) (str : Bytes) :
    (self.Decode vfd str).1.m_ClientVfd2Obj = self.m_ClientVfd2Obj ∧
      (self.Decode vfd str).1.m_ClientObj2Vfd = self.m_ClientObj2Vfd ∧
      ∀ v, ((self.Decode vfd str).1.m_ClientKey v).isSome = (self.m_ClientKey v).isSome := by
  unfold Decode
  split
  · exact ⟨rfl, rfl, fun _ => rfl⟩
  · rename_i key hkey
    exact ⟨rfl, rfl, isSome_update hkey⟩

theorem RecvDecoded_tables {fuel vfd : Nat} {self self' : CTcpServer P} {data : Bytes} {out : List (ServerEffect P)}
    {err : Option LuaError} (h : self.RecvDecoded fuel vfd data = some (self', out, err)) :
    self'.m_ClientVfd2Obj = self.m_ClientVfd2Obj ∧ self'.m_ClientObj2Vfd = self.m_ClientObj2Vfd ∧
      self'.m_ClientKey = self.m_ClientKey := by
  unfold RecvDecoded at h
  split at h
  · cases h
    exact ⟨rfl, rfl, rfl⟩
  · obtain ⟨r, -, hr⟩ := Option.map_eq_some_iff.1 h
    cases hr
    exact ⟨rfl, rfl, rfl⟩

/-- **What `Recv` can do**: it changes the value of its client's key and its client's package. -/
theorem Recv_fields {fuel vfd : Nat} {self self' : CTcpServer P} {str : Bytes} {out : List (ServerEffect P)}
    {err : Option LuaError} (h : self.Recv fuel vfd str = some (self', out, err)) :
    self'.m_ClientVfd = self.m_ClientVfd ∧ self'.m_ClientVfd2Obj = self.m_ClientVfd2Obj ∧
      self'.m_ClientObj2Vfd = self.m_ClientObj2Vfd ∧ self'.m_PackageParser = self.m_PackageParser ∧
      (∀ v, (self'.m_ClientKey v).isSome = (self.m_ClientKey v).isSome) ∧
      ∀ v ≠ vfd, self'.cached v = self.cached v := by
  have hd : (self.Decode vfd str).1.RecvDecoded fuel vfd (self.Decode vfd str).2 = some (self', out, err) := h
  obtain ⟨hparser, hcache, hvfd⟩ := Decode_fields self vfd str
  obtain ⟨hv2o, ho2v, hkeys⟩ := Decode_tables self vfd str
  obtain ⟨hparser', hvfd', hcached'⟩ := RecvDecoded_fields hd
  obtain ⟨hv2o', ho2v', hkeys'⟩ := RecvDecoded_tables hd
  refine ⟨hvfd'.trans hvfd, hv2o'.trans hv2o, ho2v'.trans ho2v, hparser'.trans hparser, fun v => ?_, fun v hv => ?_⟩
  · rw [hkeys', hkeys]
  · rw [hcached' v hv, cached, hcache, cached]

/-! ## The tables -/

/-- The tables of a server fit together. -/
structure Tables (s : CTcpServer P) : Prop where
  inverse : ∀ vfd client, s.m_ClientVfd2Obj vfd = some client ↔ s.m_ClientObj2Vfd client = some vfd
  keys : ∀ vfd, (s.m_ClientKey vfd).isSome ↔ s.Connected vfd
  range : ∀ vfd, s.Connected vfd → 1 ≤ vfd ∧ vfd ≤ s.m_ClientVfd

theorem tables_listening (parser : Option (PackageParser Empty P)) : (listening parser).Tables where
  inverse _ _ := by simp [listening, Create]
  keys _ := by simp [listening, Create, Connected]
  range _ := by rintro ⟨client, h⟩; cases h

variable {self : CTcpServer P}

/-- `Accept` keeps the tables. -/
theorem Tables.accept (h : self.Tables) {client : Nat} (hnew : self.m_ClientObj2Vfd client = none) (time : Int) :
    (self.Accept client time).1.Tables := by
  -- the new number is not in use
  have hnumber : self.m_ClientVfd2Obj (self.m_ClientVfd + 1) = none := by
    by_contra hne
    have hle := (h.range _ (Option.ne_none_iff_exists'.1 hne)).2
    omega
  refine ⟨fun v c => ?_, fun v => ?_, fun v => ?_⟩
  · have hinv := h.inverse
    simp only [Accept, SendKey, Function.update_apply]
    split <;> split
    · simp_all
    · rename_i hv hc
      have hne : self.m_ClientObj2Vfd c ≠ some v := by rw [Ne, ← hinv, hv, hnumber]; simp
      simp [hne, Ne.symm hc]
    · rename_i hv hc
      have hne : self.m_ClientVfd2Obj v ≠ some c := by rw [Ne, hinv, hc, hnew]; simp
      simp [hne, Ne.symm hv]
    · exact hinv v c
  · have hkeys := h.keys v
    simp only [Accept, SendKey, Connected, Function.update_apply] at hkeys ⊢
    split
    · simp
    · exact hkeys
  · rintro ⟨c, hc⟩
    simp only [Accept, SendKey, Function.update_apply] at hc ⊢
    split at hc
    · omega
    · have hrange := h.range v ⟨c, hc⟩
      omega

/-- Removing a client from all tables keeps them. -/
theorem Tables.remove (h : self.Tables) {vfd client : Nat} (hc : self.m_ClientVfd2Obj vfd = some client) :
    Tables { self with
      m_ClientVfd2Obj := Function.update self.m_ClientVfd2Obj vfd none
      m_ClientObj2Vfd := Function.update self.m_ClientObj2Vfd client none
      m_ClientKey := Function.update self.m_ClientKey vfd none } := by
  refine ⟨fun v c => ?_, fun v => ?_, fun v => ?_⟩
  · have hinv := h.inverse
    have hclient := (hinv vfd client).1 hc
    simp only [Function.update_apply]
    split <;> split
    · simp
    · rename_i hv hne
      have hother : self.m_ClientObj2Vfd c ≠ some v := by
        rw [Ne, ← hinv, hv, hc, Option.some.injEq]
        exact Ne.symm hne
      simp [hother]
    · rename_i hne hv
      have hother : self.m_ClientVfd2Obj v ≠ some c := by
        rw [Ne, hinv, hv, hclient, Option.some.injEq]
        exact Ne.symm hne
      simp [hother]
    · exact hinv v c
  · have hkeys := h.keys v
    simp only [Connected, Function.update_apply] at hkeys ⊢
    split
    · simp
    · exact hkeys
  · rintro ⟨c, hv⟩
    simp only [Function.update_apply] at hv
    split at hv
    · cases hv
    · exact h.range v ⟨c, hv⟩

theorem Tables.lost (h : self.Tables) (client : Nat) : (self.OnClientLost client).1.Tables := by
  unfold OnClientLost
  split
  · exact h
  · rename_i vfd hvfd
    exact h.remove ((h.inverse vfd client).2 hvfd)

theorem Tables.close (h : self.Tables) (vfd : Nat) : (self.CloseClient vfd).1.Tables := by
  unfold CloseClient
  split
  · exact h
  · rename_i client hclient
    exact h.remove hclient

theorem Tables.recv (h : self.Tables) {fuel vfd : Nat} {self' : CTcpServer P} {str : Bytes}
    {out : List (ServerEffect P)}
    {err : Option LuaError} (hr : self.Recv fuel vfd str = some (self', out, err)) : self'.Tables := by
  obtain ⟨hvfd, hv2o, ho2v, -, hkeys, -⟩ := Recv_fields hr
  refine ⟨fun v c => ?_, fun v => ?_, fun v => ?_⟩
  · rw [hv2o, ho2v]
    exact h.inverse v c
  · rw [hkeys, Connected, hv2o]
    exact h.keys v
  · rw [Connected, hv2o, hvfd]
    exact h.range v

/-- **Every call keeps the tables.** -/
theorem Tables.next (h : self.Tables) (c : Call) : (self.next c).Tables := by
  cases c with
  | accept client time =>
    simp only [CTcpServer.next, call]
    split
    · rename_i hnew
      exact h.accept hnew time
    · exact h
  | recv fuel vfd str =>
    simp only [CTcpServer.next, call]
    split
    · exact h
    · rename_i hr
      exact h.recv hr
  | lost client => exact h.lost client
  | close vfd => exact h.close vfd

/-! ## Numbers -/

theorem connected_accept (client : Nat) (time : Int) (vfd : Nat) :
    (self.Accept client time).1.Connected vfd ↔ vfd = self.m_ClientVfd + 1 ∨ self.Connected vfd := by
  simp only [Connected, Accept, SendKey, Function.update_apply]
  split <;> simp_all

theorem connected_lost (client vfd : Nat) :
    (self.OnClientLost client).1.Connected vfd ↔ self.Connected vfd ∧ self.m_ClientObj2Vfd client ≠ some vfd := by
  unfold OnClientLost
  split
  · rename_i hnone
    simp [hnone]
  · rename_i v hv
    simp only [Connected, Function.update_apply, hv, Ne, Option.some.injEq]
    split
    · simp_all
    · rename_i hne
      simp [Ne.symm hne]

theorem connected_close (v vfd : Nat) : (self.CloseClient v).1.Connected vfd ↔ self.Connected vfd ∧ v ≠ vfd := by
  unfold CloseClient
  split
  · rename_i hnone
    refine ⟨fun h => ⟨h, ?_⟩, And.left⟩
    rintro rfl
    obtain ⟨c, hc⟩ := h
    rw [hnone] at hc
    cases hc
  · simp only [Connected, Function.update_apply]
    split
    · simp_all
    · rename_i hne
      simp [Ne.symm hne]

/-- A number that has been given out and belongs to nobody. -/
def Retired (self : CTcpServer P) (vfd : Nat) : Prop := vfd ≤ self.m_ClientVfd ∧ ¬self.Connected vfd

/-- It stays so. -/
theorem Retired.next {vfd : Nat} (h : self.Retired vfd) (c : Call) : (self.next c).Retired vfd := by
  obtain ⟨hle, hnot⟩ := h
  cases c with
  | accept client time =>
    simp only [CTcpServer.next, call]
    split
    · refine ⟨Nat.le_succ_of_le hle, ?_⟩
      rw [connected_accept]
      rintro (rfl | hvfd)
      · exact absurd hle (Nat.not_succ_le_self _)
      · exact hnot hvfd
    · exact ⟨hle, hnot⟩
  | recv fuel v str =>
    simp only [CTcpServer.next, call]
    split
    · exact ⟨hle, hnot⟩
    · rename_i hr
      obtain ⟨hvfd, hv2o, -⟩ := Recv_fields hr
      exact ⟨by rw [hvfd]; exact hle, by rw [Connected, hv2o]; exact hnot⟩
  | lost client =>
    refine ⟨?_, fun hvfd => hnot ((connected_lost client vfd).1 hvfd).1⟩
    simp only [CTcpServer.next, call, OnClientLost]
    split <;> exact hle
  | close v =>
    refine ⟨?_, fun hvfd => hnot ((connected_close v vfd).1 hvfd).1⟩
    simp only [CTcpServer.next, call, CloseClient]
    split <;> exact hle

/-- The server after a run of calls. -/
def after (self : CTcpServer P) (cs : List Call) : CTcpServer P := cs.foldl CTcpServer.next self

theorem after_append (self : CTcpServer P) (cs cs' : List Call) : self.after (cs ++ cs') = (self.after cs).after cs' :=
  List.foldl_append

theorem Tables.after (h : self.Tables) (cs : List Call) : (self.after cs).Tables := by
  induction cs generalizing self with
  | nil => exact h
  | cons c cs ih => exact ih (h.next c)

theorem Retired.after {vfd : Nat} (h : self.Retired vfd) (cs : List Call) : (self.after cs).Retired vfd := by
  induction cs generalizing self with
  | nil => exact h
  | cons c cs ih => exact ih (h.next c)

/-- The count of numbers grows. -/
theorem m_ClientVfd_next (self : CTcpServer P) (c : Call) : self.m_ClientVfd ≤ (self.next c).m_ClientVfd := by
  cases c with
  | accept client time =>
    simp only [CTcpServer.next, call]
    split
    · exact Nat.le_succ _
    · exact Nat.le_refl _
  | recv fuel v str =>
    simp only [CTcpServer.next, call]
    split
    · exact Nat.le_refl _
    · rename_i hr
      rw [(Recv_fields hr).1]
  | lost client =>
    simp only [CTcpServer.next, call, OnClientLost]
    split <;> exact Nat.le_refl _
  | close v =>
    simp only [CTcpServer.next, call, CloseClient]
    split <;> exact Nat.le_refl _

theorem m_ClientVfd_after (self : CTcpServer P) (cs : List Call) : self.m_ClientVfd ≤ (self.after cs).m_ClientVfd := by
  induction cs generalizing self with
  | nil => exact Nat.le_refl _
  | cons c cs ih => exact (m_ClientVfd_next self c).trans (ih _)

/-- **The tables of a server**: after any calls they fit together, and a number whose client has gone is not used
again. -/
theorem tables_kept (parser : Option (PackageParser Empty P)) (cs : List Call) :
    ((listening parser).after cs).Tables ∧
      ∀ vfd, ((listening parser).after cs).Connected vfd →
        ∀ cs', ¬((listening parser).after (cs ++ cs')).Connected vfd →
          ∀ cs'', ¬((listening parser).after (cs ++ cs' ++ cs'')).Connected vfd := by
  have h := (tables_listening parser).after cs
  refine ⟨h, fun vfd hvfd cs' hgone cs'' => ?_⟩
  have hle := (h.range vfd hvfd).2.trans (m_ClientVfd_after _ cs')
  rw [after_append] at hgone
  have hretired : (((listening parser).after cs).after cs').Retired vfd := ⟨hle, hgone⟩
  rw [after_append, after_append]
  exact (hretired.after cs'').2

/-! ## Buffered data -/

/-- A call that leaves no buffered data behind: data is received from a client, and a client that is closed has none
buffered. -/
def Clears (self : CTcpServer P) : Call → Prop
  | .accept .. => True
  | .recv fuel vfd str => (self.Recv fuel vfd str).isSome → self.Connected vfd
  | .lost client => ∀ vfd, self.m_ClientObj2Vfd client = some vfd → self.cached vfd = none
  | .close vfd => self.cached vfd = none

/-- Buffered data belongs to clients. -/
def Buffers (self : CTcpServer P) : Prop := ∀ vfd, self.cached vfd ≠ none → self.Connected vfd

/-- The data buffered after a call of another method. -/
theorem cached_lost (client vfd : Nat) : (self.OnClientLost client).1.cached vfd = self.cached vfd := by
  unfold OnClientLost
  split <;> rfl

theorem cached_close (v vfd : Nat) : (self.CloseClient v).1.cached vfd = self.cached vfd := by
  unfold CloseClient
  split <;> rfl

/-- With a package parser, `Recv` leaves a package for its client. -/
theorem cached_recv {parser : PackageParser Empty P} (hp : self.m_PackageParser = some parser) {fuel vfd : Nat}
    {self' : CTcpServer P} {str : Bytes} {out : List (ServerEffect P)} {err : Option LuaError}
    (h : self.Recv fuel vfd str = some (self', out, err)) : self'.cached vfd ≠ none := by
  have hd : (self.Decode vfd str).1.RecvDecoded fuel vfd (self.Decode vfd str).2 = some (self', out, err) := h
  rw [RecvDecoded, (Decode_fields self vfd str).1, hp] at hd
  obtain ⟨r, -, hr⟩ := Option.map_eq_some_iff.1 hd
  cases hr
  simp [cached, setCached]

/-- A call that clears keeps the buffers. -/
theorem Buffers.next (h : self.Buffers) {c : Call} (hc : self.Clears c) : (self.next c).Buffers := by
  intro vfd hcached
  cases c with
  | accept client time =>
    simp only [CTcpServer.next, call] at hcached ⊢
    split at hcached
    · rename_i hnew
      rw [if_pos hnew, connected_accept]
      exact Or.inr (h vfd hcached)
    · rename_i hnew
      rw [if_neg hnew]
      exact h vfd hcached
  | recv fuel v str =>
    simp only [CTcpServer.next, call] at hcached ⊢
    cases hr : self.Recv fuel v str with
    | none =>
      rw [hr] at hcached
      exact h vfd hcached
    | some r =>
      obtain ⟨self', out, err⟩ := r
      rw [hr] at hcached
      obtain ⟨-, hv2o, -, -, -, hothers⟩ := Recv_fields hr
      rw [Connected, hv2o]
      by_cases hv : vfd = v
      · subst hv
        exact hc (by rw [hr]; rfl)
      · exact h vfd (by rw [← hothers vfd hv]; exact hcached)
  | lost client =>
    have hsame : self.cached vfd ≠ none := by rwa [← cached_lost client vfd]
    exact (connected_lost client vfd).2 ⟨h vfd hsame, fun hvfd => hsame (hc vfd hvfd)⟩
  | close v =>
    have hsame : self.cached vfd ≠ none := by rwa [← cached_close v vfd]
    refine (connected_close v vfd).2 ⟨h vfd hsame, ?_⟩
    rintro rfl
    exact hsame hc

/-- A call that keeps the buffers clears. -/
theorem Clears.of_next {parser : PackageParser Empty P} (hp : self.m_PackageParser = some parser) {c : Call}
    (h : (self.next c).Buffers) : self.Clears c := by
  cases c with
  | accept client time => exact trivial
  | recv fuel vfd str =>
    intro hsome
    obtain ⟨⟨self', out, err⟩, hr⟩ := Option.isSome_iff_exists.1 hsome
    simp only [CTcpServer.next, call, hr] at h
    have hvfd := h vfd (cached_recv hp hr)
    rwa [Connected, (Recv_fields hr).2.1] at hvfd
  | lost client =>
    intro vfd hvfd
    by_contra hcached
    have hconn := h vfd (by rw [CTcpServer.next, call, cached_lost]; exact hcached)
    exact ((connected_lost client vfd).1 hconn).2 hvfd
  | close vfd =>
    by_contra hcached
    have hconn := h vfd (by rw [CTcpServer.next, call, cached_close]; exact hcached)
    exact ((connected_close vfd vfd).1 hconn).2 rfl

theorem m_PackageParser_next (c : Call) : (self.next c).m_PackageParser = self.m_PackageParser := by
  cases c with
  | accept client time =>
    simp only [CTcpServer.next, call]
    split <;> rfl
  | recv fuel v str =>
    simp only [CTcpServer.next, call]
    split
    · rfl
    · rename_i hr
      exact (Recv_fields hr).2.2.2.1
  | lost client =>
    simp only [CTcpServer.next, call, OnClientLost]
    split <;> rfl
  | close v =>
    simp only [CTcpServer.next, call, CloseClient]
    split <;> rfl

/-- **Buffers outlive connections**: throughout a run, buffered data belongs to clients exactly as long as every call
clears. -/
theorem buffers_connected_iff (parser : PackageParser Empty P) (cs : List Call) :
    Throughout CTcpServer.next Buffers (listening (some parser)) cs ↔
      Along CTcpServer.next Clears (listening (some parser)) cs := by
  refine throughout_iff_along (I := fun s : CTcpServer P => s.Buffers ∧ s.m_PackageParser = some parser)
    (fun s h => h.1)
    (fun s c h hc => ⟨h.1.next hc, by rw [m_PackageParser_next]; exact h.2⟩) (fun s c h hP => Clears.of_next h.2 hP)
    ⟨?_, rfl⟩
  intro vfd h
  exact absurd rfl h

/-- The buffer of a client that is closed after its first byte. -/
theorem buffers_not_connected :
    ¬∀ (parser : PackageParser Empty Unit) (cs : List Call),
      Throughout CTcpServer.next Buffers (listening (some parser)) cs := by
  intro h
  have hlast := (h (fun pkg => ⟨pkg, .ok false⟩) [.accept 7 0, .recv 1 1 [0], .close 1]).last
  exact absurd (hlast 1 (by decide)) (by decide)

end CTcpServer

end XCore.Tcp
