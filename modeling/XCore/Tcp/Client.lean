import XCore.Tcp.Package

/-!
# `CTcpClient` of `tcp.lua`

The connection flag, the package parser and the buffered package of a client, and what it does to the outside. Handlers
of the socket callbacks are `Connected`, `Error`, `Close` and `Recv`.
-/

namespace XCore.Tcp

open XCore.Lua

/-- The state of a `CTcpClient`. -/
structure CTcpClient (L P : Type) where
  m_Connected : Bool
  m_PackageParser : Option (PackageParser L P)
  m_CacheData : Option (Pkg L P)

/-- What a client does to the outside: its socket, and the events it posts. -/
inductive ClientEffect (P : Type)
  | connectSock
  | closeSock
  | write (data : Bytes)
  | onConnect
  | onError
  | onClose
  | onRecv (payload : Payload P)
  deriving DecidableEq

namespace CTcpClient

variable {L P : Type}

/-- `CTcpClient:Create`. -/
def Create : CTcpClient L P := ⟨false, none, none⟩

/-- `CTcpClient:SetPackageParser`. -/
def SetPackageParser (self : CTcpClient L P) (func : PackageParser L P) : CTcpClient L P :=
  { self with m_PackageParser := some func }

/-- `CTcpClient:ReStart`: a new socket, which starts to connect. -/
def ReStart (self : CTcpClient L P) : CTcpClient L P × List (ClientEffect P) :=
  ({ self with m_Connected := false }, [.closeSock, .connectSock])

/-- `CTcpClient:Connected`. -/
def Connected (self : CTcpClient L P) : CTcpClient L P × List (ClientEffect P) :=
  ({ self with m_Connected := true }, [.onConnect])

/-- `CTcpClient:Error`. -/
def Error (self : CTcpClient L P) : CTcpClient L P × List (ClientEffect P) :=
  ({ self with m_Connected := false }, [.onError])

/-- `CTcpClient:Close`. -/
def Close (self : CTcpClient L P) : CTcpClient L P × List (ClientEffect P) :=
  ({ self with m_Connected := false }, [.onClose])

/-- `CTcpClient:Stop`. -/
def Stop (self : CTcpClient L P) : CTcpClient L P × List (ClientEffect P) :=
  ({ self with m_Connected := false }, [.closeSock, .onClose])

/-- `CTcpClient:Send`: nothing is written while the client is not connected. -/
def Send (self : CTcpClient L P) (data : Bytes) : List (ClientEffect P) :=
  if self.m_Connected then [.write data] else []

/-- The package after a chunk has been appended to the buffered data. -/
def append (self : CTcpClient L P) (data : Bytes) : Pkg L P :=
  match self.m_CacheData with
  | none => ⟨data, none, none⟩
  | some pkg => { pkg with metaStr := pkg.metaStr ++ data }

/-- `CTcpClient:Recv`, with a number of rounds for the package loop. -/
def Recv (fuel : Nat) (self : CTcpClient L P) (data : Bytes) :
    Option (CTcpClient L P × List (ClientEffect P) × Option LuaError) :=
  match self.m_PackageParser with
  | none => some (self, [.onRecv (.data data)], none)
  | some parser => (parseLoop parser fuel (self.append data)).map fun r =>
    ({ self with m_CacheData := some r.pkg }, r.paks.map fun p => .onRecv (.pak p), r.err)

/-- Chunks received one after another. An error that a callback raises is reported and does not end the client, so the
next chunk is received in the state it leaves. -/
def RecvChunks (fuel : Nat) : CTcpClient L P → List Bytes →
    Option (CTcpClient L P × List (ClientEffect P) × List LuaError)
  | self, [] => some (self, [], [])
  | self, c :: cs => do
    let (self, out, err) ← self.Recv fuel c
    let (self, outs, errs) ← RecvChunks fuel self cs
    return (self, out ++ outs, err.toList ++ errs)

/-- The emission of a parsed payload. -/
abbrev onPak (p : P) : ClientEffect P := .onRecv (.pak p)

/-- Nothing is buffered. -/
def Drained (self : CTcpClient L P) : Prop := self.m_CacheData = none ∨ self.m_CacheData = some ⟨[], none, none⟩

theorem Drained.append {self : CTcpClient L P} (h : self.Drained) (data : Bytes) :
    self.append data = ⟨data, none, none⟩ := by
  rcases h with h | h <;> simp [CTcpClient.append, h]

/-- What is buffered. -/
def buffered (self : CTcpClient L P) : Pkg L P := self.m_CacheData.getD ⟨[], none, none⟩

theorem append_eq (self : CTcpClient L P) (data : Bytes) :
    self.append data = { self.buffered with metaStr := self.buffered.metaStr ++ data } := by
  cases h : self.m_CacheData <;> simp [CTcpClient.append, buffered, h]

/-- Receiving a chunk is running the package loop on what is buffered then. -/
theorem Recv_iff {self : CTcpClient L P} {parser : PackageParser L P} (hp : self.m_PackageParser = some parser)
    (data : Bytes) (r : Received L P) :
    (∃ fuel, self.Recv fuel data = some ({ self with m_CacheData := some r.pkg }, r.paks.map onPak, r.err)) ↔
      Parses parser (self.append data) r := by
  have hinj : Function.Injective (onPak (P := P)) := fun _ _ h => by cases h; rfl
  constructor
  · rintro ⟨fuel, h⟩
    simp only [Recv, hp] at h
    obtain ⟨⟨pkg, paks, err⟩, hr', heq⟩ := Option.map_eq_some_iff.1 h
    obtain ⟨pkg', paks', err'⟩ := r
    simp only [Prod.mk.injEq, mk.injEq, Option.some.injEq, true_and] at heq
    obtain ⟨rfl, hpaks, rfl⟩ := heq
    rw [← hinj.list_map hpaks]
    exact ⟨fuel, hr'⟩
  · rintro ⟨fuel, h⟩
    exact ⟨fuel, by simp only [Recv, hp, parseLoop, h, Option.map_some]⟩

/-! ## Runs over chunks -/

/-- More rounds do not change what is received. -/
theorem Recv_mono {n m : Nat} (hnm : n ≤ m) {self : CTcpClient L P} {data : Bytes}
    {r : CTcpClient L P × List (ClientEffect P) × Option LuaError} (h : self.Recv n data = some r) :
    self.Recv m data = some r := by
  unfold Recv at h ⊢
  split
  · rename_i hp; simpa only [hp] using h
  · rename_i parser hp
    simp only [hp] at h
    obtain ⟨r', hr', hr⟩ := Option.map_eq_some_iff.1 h
    exact Option.map_eq_some_iff.2 ⟨r', Loop.run_mono hnm hr', by rw [← hr, hp]⟩

theorem RecvChunks_cons {fuel : Nat} {self : CTcpClient L P} {c : Bytes} {cs : List Bytes}
    {r : CTcpClient L P × List (ClientEffect P) × List LuaError} :
    self.RecvChunks fuel (c :: cs) = some r ↔ ∃ self' out err r', self.Recv fuel c = some (self', out, err) ∧
      RecvChunks fuel self' cs = some r' ∧ r = (r'.1, out ++ r'.2.1, err.toList ++ r'.2.2) := by
  simp only [RecvChunks, Option.bind_eq_bind, Option.bind_eq_some_iff, Option.pure_def, Option.some.injEq]
  constructor
  · rintro ⟨⟨self', out, err⟩, h, r', h', heq⟩
    exact ⟨self', out, err, r', h, h', heq.symm⟩
  · rintro ⟨self', out, err, r', h, h', rfl⟩
    exact ⟨(self', out, err), h, r', h', rfl⟩

theorem RecvChunks_mono {n m : Nat} (hnm : n ≤ m) : ∀ {cs : List Bytes} {self : CTcpClient L P}
    {r : CTcpClient L P × List (ClientEffect P) × List LuaError},
    self.RecvChunks n cs = some r → self.RecvChunks m cs = some r
  | [], _, _, h => h
  | c :: cs, self, r, h => by
    obtain ⟨self', out, err, r', h1, h2, rfl⟩ := RecvChunks_cons.1 h
    exact RecvChunks_cons.2 ⟨self', out, err, r', Recv_mono hnm h1, RecvChunks_mono hnm h2, rfl⟩

theorem RecvChunks_unique {n m : Nat} {cs : List Bytes} {self : CTcpClient L P}
    {r r' : CTcpClient L P × List (ClientEffect P) × List LuaError} (h : self.RecvChunks n cs = some r)
    (h' : self.RecvChunks m cs = some r') : r = r' := by
  have h1 := RecvChunks_mono (Nat.le_max_left n m) h
  have h2 := RecvChunks_mono (Nat.le_max_right n m) h'
  exact Option.some.inj (h1.symm.trans h2)

/-- One chunk and then the others. -/
theorem RecvChunks_of_cons {n m : Nat} {self self' : CTcpClient L P} {c : Bytes} {cs : List Bytes}
    {out : List (ClientEffect P)} {err : Option LuaError} {r : CTcpClient L P × List (ClientEffect P) × List LuaError}
    (h : self.Recv n c = some (self', out, err)) (h' : self'.RecvChunks m cs = some r) :
    self.RecvChunks (max n m) (c :: cs) = some (r.1, out ++ r.2.1, err.toList ++ r.2.2) :=
  RecvChunks_cons.2 ⟨self', out, err, r, Recv_mono (Nat.le_max_left n m) h,
    RecvChunks_mono (Nat.le_max_right n m) h', rfl⟩

/-- An invariant of `left` that the parser keeps holds of what a run leaves behind. -/
theorem RecvChunks_left_inv {parser : PackageParser L P} {I : Option L → Prop}
    (hI : ∀ pkg, I pkg.left → I (parser pkg).pkg.left) : ∀ {cs : List Bytes} {fuel : Nat} {self self' : CTcpClient L P}
    {out : List (ClientEffect P)} {errs : List LuaError}, self.m_PackageParser = some parser → I self.buffered.left →
    self.RecvChunks fuel cs = some (self', out, errs) → self'.m_PackageParser = some parser ∧ I self'.buffered.left
  | [], _, _, _, _, _, hp, h0, h => by
    cases h
    exact ⟨hp, h0⟩
  | c :: cs, fuel, self, self', out, errs, hp, h0, h => by
    obtain ⟨next, out₁, err, ⟨last, outs, errs₁⟩, hr, hrs, heq⟩ := RecvChunks_cons.1 h
    obtain ⟨r', hrun, hnext⟩ : ∃ r' : Received L P, parseLoop parser fuel (self.append c) = some r' ∧
        next = { self with m_CacheData := some r'.pkg } := by
      simp only [Recv, hp] at hr
      obtain ⟨r', hrun, hr'⟩ := Option.map_eq_some_iff.1 hr
      exact ⟨r', hrun, by cases hr'; simp [hp]⟩
    have hleft : I (self.append c).left := by rwa [append_eq]
    have hkept : I next.buffered.left := by
      rw [hnext]
      exact (parseLoop_parses hrun).left_inv hI hleft
    have := RecvChunks_left_inv hI (by rw [hnext]; exact hp) hkept hrs
    cases heq
    exact this

/-- The calls of the parser in a run over chunks. -/
inductive Calls (parser : PackageParser L P) : CTcpClient L P → List Bytes → Pkg L P → Prop
  | here {self : CTcpClient L P} {c : Bytes} {cs : List Bytes} {pkg : Pkg L P} (h : Visits parser (self.append c) pkg) :
      Calls parser self (c :: cs) pkg
  | later {self self' : CTcpClient L P} {fuel : Nat} {c : Bytes} {cs : List Bytes} {out : List (ClientEffect P)}
      {err : Option LuaError} {pkg : Pkg L P} (h : self.Recv fuel c = some (self', out, err))
      (h' : Calls parser self' cs pkg) : Calls parser self (c :: cs) pkg

/-- An invariant of `left` that the parser keeps holds in every call of a run. -/
theorem Calls.left_inv {parser : PackageParser L P} {I : Option L → Prop}
    (hI : ∀ pkg, I pkg.left → I (parser pkg).pkg.left) {self : CTcpClient L P} {cs : List Bytes} {pkg : Pkg L P}
    (hp : self.m_PackageParser = some parser) (h0 : ∀ c, I (self.append c).left) (h : Calls parser self cs pkg) :
    I pkg.left := by
  induction h with
  | here h => exact h.left_inv hI (h0 _)
  | @later self self' fuel c cs out err pkg hr _ ih =>
    simp only [Recv, hp] at hr
    obtain ⟨r, hrun, heq⟩ := Option.map_eq_some_iff.1 hr
    have hleft := (parseLoop_parses hrun).left_inv hI (h0 c)
    cases heq
    exact ih rfl fun _ => hleft

/-- A run in which every call that returns true shortens the buffered data comes to its end. -/
theorem RecvChunks_of_shortens {parser : PackageParser L P} : ∀ (cs : List Bytes) {s : CTcpClient L P},
    s.m_PackageParser = some parser → (∀ pkg, Calls parser s cs pkg → Shortens parser pkg) →
    ∃ fuel r, s.RecvChunks fuel cs = some r
  | [], self, _, _ => ⟨0, _, rfl⟩
  | c :: cs, self, hp, h => by
    obtain ⟨r, hr⟩ := parses_of_shortens fun (pkg : Pkg L P) (hv : Visits parser (self.append c) pkg) =>
      h pkg (.here hv)
    obtain ⟨n, hn⟩ := (Recv_iff hp c r).2 hr
    obtain ⟨m, r', hm⟩ := RecvChunks_of_shortens cs (s := { self with m_CacheData := some r.pkg }) hp
      fun pkg hv => h pkg (.later hn hv)
    exact ⟨max n m, _, RecvChunks_of_cons hn hm⟩

end CTcpClient

end XCore.Tcp
