import Mathlib.Logic.Function.Basic
import XCore.Lua.Number
import XCore.Tcp.Package

/-!
# `CTcpServer` of `tcp.lua`

The state of a server is its tables of clients, keys and buffered packages, each keyed by the client's number `vfd`.
`Recv` decrypts a chunk (`Decode`), appends it to the client's `meta` and runs the package loop (`RecvDecoded`).

Client numbers are never used twice, so a client that has just been accepted has no buffered data, whatever ran before
(`Reachable.fresh`).
-/

namespace XCore.Tcp

open XCore.Lua

/-- The state of a `CTcpServer`. Client handles are numbers; nil entries of a table are `none`. -/
structure CTcpServer (P : Type) where
  m_ClientVfd : Nat
  m_ClientVfd2Obj : Nat → Option Nat
  m_ClientObj2Vfd : Nat → Option Nat
  m_ClientKey : Nat → Option Int
  m_PackageParser : Option (PackageParser Empty P)
  m_CacheData : Option (Nat → Option (Pkg Empty P))

/-- What a server does to the outside. -/
inductive ServerEffect (P : Type)
  | write (client : Nat) (data : Bytes)
  | close (client : Nat)
  | onAccept (vfd : Nat)
  | onRecv (vfd : Nat) (payload : Payload P)
  | onClose (vfd : Option Nat)
  deriving DecidableEq

namespace CTcpServer

variable {P : Type}

/-- `CTcpServer:Create`. -/
def Create : CTcpServer P where
  m_ClientVfd := 0
  m_ClientVfd2Obj := fun _ => none
  m_ClientObj2Vfd := fun _ => none
  m_ClientKey := fun _ => none
  m_PackageParser := none
  m_CacheData := none

/-- `CTcpServer:SetPackageParser`. -/
def SetPackageParser (self : CTcpServer P) (func : PackageParser Empty P) : CTcpServer P :=
  { self with m_PackageParser := some func }

/-! ## Keys -/

/-- The low byte of a key. -/
def lowByte (key : Int) : UInt8 := UInt8.ofNat (key % 256).toNat

/-- The loop of `CTcpServer:Encode`: the output and the key after it. -/
def encodeLoop : Int → Bytes → Bytes × Int
  | key, [] => ([], key)
  | key, src :: s =>
    let r := encodeLoop (wrap (key + (src &&& 3).toNat)) s
    ((src ^^^ lowByte key) :: r.1, r.2)

/-- The loop of `CTcpServer:Decode`: the output and the key after it. -/
def decodeLoop : Int → Bytes → Bytes × Int
  | key, [] => ([], key)
  | key, c :: s =>
    let src := c ^^^ lowByte key
    let r := decodeLoop (wrap (key + (src &&& 3).toNat)) s
    (src :: r.1, r.2)

/-- `CTcpServer:Encode`. -/
def Encode (self : CTcpServer P) (vfd : Nat) (data : Bytes) : CTcpServer P × Bytes :=
  match self.m_ClientKey vfd with
  | none => (self, data)
  | some key =>
    let r := encodeLoop key data
    ({ self with m_ClientKey := Function.update self.m_ClientKey vfd (some r.2) }, r.1)

/-- `CTcpServer:Decode`. -/
def Decode (self : CTcpServer P) (vfd : Nat) (data : Bytes) : CTcpServer P × Bytes :=
  match self.m_ClientKey vfd with
  | none => (self, data)
  | some key =>
    let r := decodeLoop key data
    ({ self with m_ClientKey := Function.update self.m_ClientKey vfd (some r.2) }, r.1)

/-- `CTcpServer:SendKey`: `string.pack("BI", 4, key)`; the key is a time in seconds below 2^32 (`string.pack` raises for
later ones). -/
def SendKey (self : CTcpServer P) (vfd client : Nat) (time : Int) : CTcpServer P × List (ServerEffect P) :=
  let byte (i : Nat) : UInt8 := lowByte (time / 256 ^ i)
  ({ self with m_ClientKey := Function.update self.m_ClientKey vfd (some time) },
    [.write client [4, byte 0, byte 1, byte 2, byte 3]])

/-! ## Clients -/

/-- `CTcpServer:Accept`, with the handle that `uv.tcp_new` returns and the time that `os.time` returns. -/
def Accept (self : CTcpServer P) (client : Nat) (time : Int) : CTcpServer P × List (ServerEffect P) :=
  let vfd := self.m_ClientVfd + 1
  let self := { self with
    m_ClientVfd := vfd
    m_ClientObj2Vfd := Function.update self.m_ClientObj2Vfd client (some vfd)
    m_ClientVfd2Obj := Function.update self.m_ClientVfd2Obj vfd (some client) }
  let (self, out) := self.SendKey vfd client time
  (self, out ++ [.onAccept vfd])

/-- `CTcpServer:OnClientLost`. -/
def OnClientLost (self : CTcpServer P) (client : Nat) : CTcpServer P × List (ServerEffect P) :=
  match self.m_ClientObj2Vfd client with
  | none => (self, [.close client, .onClose none])
  | some vfd =>
    ({ self with
      m_ClientObj2Vfd := Function.update self.m_ClientObj2Vfd client none
      m_ClientVfd2Obj := Function.update self.m_ClientVfd2Obj vfd none
      m_ClientKey := Function.update self.m_ClientKey vfd none }, [.close client, .onClose (some vfd)])

/-- `CTcpServer:CloseClient`. -/
def CloseClient (self : CTcpServer P) (vfd : Nat) : CTcpServer P × List (ServerEffect P) :=
  match self.m_ClientVfd2Obj vfd with
  | none => (self, [.onClose (some vfd)])
  | some client =>
    ({ self with
      m_ClientVfd2Obj := Function.update self.m_ClientVfd2Obj vfd none
      m_ClientObj2Vfd := Function.update self.m_ClientObj2Vfd client none
      m_ClientKey := Function.update self.m_ClientKey vfd none }, [.close client, .onClose (some vfd)])

/-- `CTcpServer:Send`. -/
def Send (self : CTcpServer P) (vfd : Nat) (data : Bytes) : List (ServerEffect P) :=
  match self.m_ClientVfd2Obj vfd with
  | none => []
  | some client => [.write client data]

/-! ## Receiving -/

/-- The buffered package of a client. -/
def cached (self : CTcpServer P) (vfd : Nat) : Option (Pkg Empty P) := self.m_CacheData.bind (· vfd)

/-- The package after a chunk has been appended to the buffered data. -/
def append (self : CTcpServer P) (vfd : Nat) (data : Bytes) : Pkg Empty P :=
  match self.cached vfd with
  | none => ⟨data, none, none⟩
  | some pkg => { pkg with metaStr := pkg.metaStr ++ data }

/-- The table of packages with the package of one client replaced. -/
def setCached (self : CTcpServer P) (vfd : Nat) (pkg : Pkg Empty P) : CTcpServer P :=
  { self with m_CacheData := some (Function.update (self.m_CacheData.getD fun _ => none) vfd (some pkg)) }

/-- `CTcpServer:Recv` from the decrypted chunk on, with a number of rounds for the package loop. -/
def RecvDecoded (fuel : Nat) (self : CTcpServer P) (vfd : Nat) (data : Bytes) :
    Option (CTcpServer P × List (ServerEffect P) × Option LuaError) :=
  match self.m_PackageParser with
  | none => some (self, [.onRecv vfd (.data data)], none)
  | some parser => (parseLoop parser fuel (self.append vfd data)).map fun r =>
    (self.setCached vfd r.pkg, r.paks.map fun p => .onRecv vfd (.pak p), r.err)

/-- `CTcpServer:Recv`. -/
def Recv (fuel : Nat) (self : CTcpServer P) (vfd : Nat) (str : Bytes) :
    Option (CTcpServer P × List (ServerEffect P) × Option LuaError) :=
  let (self, data) := self.Decode vfd str
  self.RecvDecoded fuel vfd data

/-- A list of decrypted chunks, received one after another: the server after them and the effects of all of them.
`none` when the loop runs out of rounds or an error is raised. -/
def RecvChunks (fuel : Nat) : CTcpServer P → Nat → List Bytes → Option (CTcpServer P × List (ServerEffect P))
  | self, _, [] => some (self, [])
  | self, vfd, c :: cs =>
    match self.RecvDecoded fuel vfd c with
    | some (self', out, none) => (RecvChunks fuel self' vfd cs).map fun r => (r.1, out ++ r.2)
    | _ => none

/-- More rounds do not change what is received. -/
theorem RecvDecoded_mono {n m vfd : Nat} (hnm : n ≤ m) {self : CTcpServer P} {data : Bytes}
    {r : CTcpServer P × List (ServerEffect P) × Option LuaError} (h : self.RecvDecoded n vfd data = some r) :
    self.RecvDecoded m vfd data = some r := by
  unfold RecvDecoded at h ⊢
  split
  · rename_i hp; simpa only [hp] using h
  · rename_i parser hp
    simp only [hp] at h
    obtain ⟨r', hr', hr⟩ := Option.map_eq_some_iff.1 h
    exact Option.map_eq_some_iff.2 ⟨r', Loop.run_mono hnm hr', hr⟩

theorem RecvChunks_mono {n m vfd : Nat} (hnm : n ≤ m) : ∀ {cs : List Bytes} {self : CTcpServer P}
    {r : CTcpServer P × List (ServerEffect P)}, self.RecvChunks n vfd cs = some r → self.RecvChunks m vfd cs = some r
  | [], _, _, h => h
  | c :: cs, self, r, h => by
    simp only [RecvChunks] at h ⊢
    split at h
    · rename_i self' out hr
      rw [RecvDecoded_mono hnm hr]
      obtain ⟨r', hr', hr⟩ := Option.map_eq_some_iff.1 h
      exact Option.map_eq_some_iff.2 ⟨r', RecvChunks_mono hnm hr', hr⟩
    · cases h

theorem RecvChunks_unique {n m vfd : Nat} {cs : List Bytes} {self : CTcpServer P}
    {r r' : CTcpServer P × List (ServerEffect P)} (h : self.RecvChunks n vfd cs = some r)
    (h' : self.RecvChunks m vfd cs = some r') : r = r' := by
  have h1 := RecvChunks_mono (Nat.le_max_left n m) h
  have h2 := RecvChunks_mono (Nat.le_max_right n m) h'
  exact Option.some.inj (h1.symm.trans h2)

/-- The client has `m` buffered and nothing else pending. -/
def Buffered (self : CTcpServer P) (vfd : Nat) (m : Bytes) : Prop :=
  (self.cached vfd = none ∧ m = []) ∨ self.cached vfd = some ⟨m, none, none⟩

theorem Buffered.append {self : CTcpServer P} {vfd : Nat} {m : Bytes} (h : self.Buffered vfd m) (c : Bytes) :
    self.append vfd c = ⟨m ++ c, none, none⟩ := by
  rcases h with ⟨h, rfl⟩ | h <;> simp [CTcpServer.append, h]

theorem buffered_setCached (self : CTcpServer P) (vfd : Nat) (m : Bytes) :
    (self.setCached vfd ⟨m, none, none⟩).Buffered vfd m := by
  right
  simp [cached, setCached]

/-- One chunk that the parser takes without an error. -/
theorem RecvDecoded_of_parses {self : CTcpServer P} {parser : PackageParser Empty P} {vfd : Nat} {m c : Bytes}
    {r : Received Empty P} (hp : self.m_PackageParser = some parser) (hb : self.Buffered vfd m)
    (hr : Parses parser ⟨m ++ c, none, none⟩ r) :
    ∃ fuel, self.RecvDecoded fuel vfd c =
      some (self.setCached vfd r.pkg, r.paks.map fun p => .onRecv vfd (.pak p), r.err) := by
  obtain ⟨fuel, hfuel⟩ := hr
  exact ⟨fuel, by simp only [RecvDecoded, hp, hb.append, parseLoop, hfuel, Option.map_some]⟩

/-! ## New clients have no buffered data -/

/-- Servers that are reached by accepting, receiving and closing. -/
inductive Reachable (parser : PackageParser Empty P) : CTcpServer P → Prop
  | create : Reachable parser (Create.SetPackageParser parser)
  | accept {self : CTcpServer P} (client : Nat) (time : Int) (h : Reachable parser self) :
      Reachable parser (self.Accept client time).1
  | lost {self : CTcpServer P} (client : Nat) (h : Reachable parser self) :
      Reachable parser (self.OnClientLost client).1
  | close {self : CTcpServer P} (vfd : Nat) (h : Reachable parser self) : Reachable parser (self.CloseClient vfd).1
  | recv {self self' : CTcpServer P} {fuel vfd : Nat} {str : Bytes} {out : List (ServerEffect P)}
      {err : Option LuaError} (h : Reachable parser self) (hv : vfd ≤ self.m_ClientVfd)
      (hr : self.Recv fuel vfd str = some (self', out, err)) : Reachable parser self'

theorem Decode_fields (self : CTcpServer P) (vfd : Nat) (str : Bytes) :
    (self.Decode vfd str).1.m_PackageParser = self.m_PackageParser ∧
      (self.Decode vfd str).1.m_CacheData = self.m_CacheData ∧
      (self.Decode vfd str).1.m_ClientVfd = self.m_ClientVfd := by
  unfold Decode
  split <;> exact ⟨rfl, rfl, rfl⟩

/-- What one `RecvDecoded` changes: the package of its client. -/
theorem RecvDecoded_fields {fuel vfd : Nat} {self self' : CTcpServer P} {data : Bytes} {out : List (ServerEffect P)}
    {err : Option LuaError} (h : self.RecvDecoded fuel vfd data = some (self', out, err)) :
    self'.m_PackageParser = self.m_PackageParser ∧ self'.m_ClientVfd = self.m_ClientVfd ∧
      ∀ v ≠ vfd, self'.cached v = self.cached v := by
  unfold RecvDecoded at h
  split at h
  · cases h; exact ⟨rfl, rfl, fun _ _ => rfl⟩
  · obtain ⟨r, _, hr⟩ := Option.map_eq_some_iff.1 h
    cases hr
    refine ⟨rfl, rfl, fun v hv => ?_⟩
    cases hc : self.m_CacheData <;> simp [cached, setCached, hc, Function.update_of_ne hv]

/-- The parser stays, and no client has buffered data before it is accepted. -/
theorem Reachable.inv {parser : PackageParser Empty P} {self : CTcpServer P} (h : Reachable parser self) :
    self.m_PackageParser = some parser ∧ ∀ vfd, self.m_ClientVfd < vfd → self.cached vfd = none := by
  induction h with
  | create => exact ⟨rfl, fun _ _ => rfl⟩
  | accept client time _ ih => exact ⟨ih.1, fun vfd hv => ih.2 vfd (by simp [Accept, SendKey] at hv; omega)⟩
  | lost client _ ih =>
    unfold OnClientLost
    split <;> exact ih
  | close vfd _ ih =>
    unfold CloseClient
    split <;> exact ih
  | @recv self self' fuel vfd str out err _ hv hr ih =>
    obtain ⟨hd1, hd2, hd3⟩ := Decode_fields self vfd str
    have hr' : (self.Decode vfd str).1.RecvDecoded fuel vfd (self.Decode vfd str).2 = some (self', out, err) := hr
    obtain ⟨h1, h2, h3⟩ := RecvDecoded_fields hr'
    refine ⟨by rw [h1, hd1]; exact ih.1, fun v hlt => ?_⟩
    rw [h2, hd3] at hlt
    rw [h3 v (by omega)]
    have := ih.2 v hlt
    simpa [cached, hd2] using this

/-- **A client that has just been accepted has no buffered data.** -/
theorem Reachable.fresh {parser : PackageParser Empty P} {self : CTcpServer P} (h : Reachable parser self)
    (client : Nat) (time : Int) :
    (self.Accept client time).1.m_PackageParser = some parser ∧
      (self.Accept client time).1.cached (self.m_ClientVfd + 1) = none :=
  ⟨h.inv.1, h.inv.2 _ (Nat.lt_succ_self _)⟩

end CTcpServer

end XCore.Tcp
