import Mathlib.Data.Int.ModEq
import XCore.Lib.Mealy
import XCore.Tcp.Server

/-!
# The stream cipher of `tcp.lua`

`CTcpServer:Encode` and `CTcpServer:Decode` code a stream byte by byte; the key is their state, and the next key depends
on the plain byte. Two keys that are congruent modulo 256 give the same bytes and stay congruent (`lowByte_congr`,
`key_congr`), so a receiver that starts with the low part of the sender's key follows it through any stream and any
division of it into chunks (`decode_encode`).
-/

namespace XCore.Tcp.CTcpServer

open XCore.Lua XCore.Mealy

variable {P : Type}

/-- A method on chunks, one after another. -/
def codeChunks (method : CTcpServer P → Bytes → CTcpServer P × Bytes) :
    CTcpServer P → List Bytes → CTcpServer P × List Bytes
  | self, [] => (self, [])
  | self, c :: cs =>
    let r := codeChunks method (method self c).1 cs
    (r.1, (method self c).2 :: r.2)

/-- `CTcpServer:Encode` on the chunks of a stream. -/
def EncodeChunks (self : CTcpServer P) (vfd : Nat) (cs : List Bytes) : CTcpServer P × List Bytes :=
  codeChunks (fun self c => self.Encode vfd c) self cs

/-- `CTcpServer:Decode` on the chunks of a stream. -/
def DecodeChunks (self : CTcpServer P) (vfd : Nat) (cs : List Bytes) : CTcpServer P × List Bytes :=
  codeChunks (fun self c => self.Decode vfd c) self cs

/-! ## One byte -/

/-- The key after a plain byte. -/
def nextKey (key : Int) (src : UInt8) : Int := wrap (key + (src &&& 3).toNat)

/-- A byte of `Encode`. -/
def encodeByte (key : Int) (src : UInt8) : UInt8 × Int := (src ^^^ lowByte key, nextKey key src)

/-- A byte of `Decode`. -/
def decodeByte (key : Int) (c : UInt8) : UInt8 × Int := (c ^^^ lowByte key, nextKey key (c ^^^ lowByte key))

theorem encodeLoop_eq (key : Int) (s : Bytes) : encodeLoop key s = run encodeByte key s := by
  induction s generalizing key with
  | nil => rfl
  | cons src s ih => rw [encodeLoop, ih, run]; rfl

theorem decodeLoop_eq (key : Int) (s : Bytes) : decodeLoop key s = run decodeByte key s := by
  induction s generalizing key with
  | nil => rfl
  | cons c s ih => rw [decodeLoop, ih, run]; rfl

theorem wrap_modEq (n : Int) : wrap n ≡ n [ZMOD 256] := by
  have h : wrap n ≡ n [ZMOD 2 ^ 64] := Int.bmod_emod
  exact h.of_dvd (by decide)

/-- Congruent keys have the same low byte. -/
theorem lowByte_congr {key key' : Int} (h : key ≡ key' [ZMOD 256]) : lowByte key = lowByte key' := by
  rw [lowByte, lowByte, show key % 256 = key' % 256 from h]

/-- The next keys are congruent, too. -/
theorem key_congr {key key' : Int} (h : key ≡ key' [ZMOD 256]) (src : UInt8) :
    nextKey key src ≡ nextKey key' src [ZMOD 256] :=
  ((wrap_modEq _).trans (h.add_right _)).trans (wrap_modEq _).symm

/-- **One byte**: it is decoded, and the keys stay congruent. -/
theorem decodeByte_encodeByte (key key' : Int) (src : UInt8) (h : key ≡ key' [ZMOD 256]) :
    (decodeByte key' (encodeByte key src).1).1 = src ∧
      (encodeByte key src).2 ≡ (decodeByte key' (encodeByte key src).1).2 [ZMOD 256] := by
  have hsrc : src ^^^ lowByte key ^^^ lowByte key' = src := by
    rw [lowByte_congr h, UInt8.xor_assoc, UInt8.xor_self, UInt8.xor_zero]
  simp only [encodeByte, decodeByte, hsrc]
  exact ⟨trivial, key_congr h src⟩

/-! ## Streams -/

/-- A method that runs a coder on the key of a client runs it on the chunks. -/
theorem codeChunks_eq {method : CTcpServer P → Bytes → CTcpServer P × Bytes}
    {step : Int → UInt8 → UInt8 × Int} {vfd : Nat} (hmethod : ∀ self key c, self.m_ClientKey vfd = some key →
      (method self c).2 = (run step key c).1 ∧ (method self c).1.m_ClientKey vfd = some (run step key c).2)
    (self : CTcpServer P) (cs : List Bytes) {key : Int} (hkey : self.m_ClientKey vfd = some key) :
    (codeChunks method self cs).2 = (chunks (run step) key cs).1 ∧
      (codeChunks method self cs).1.m_ClientKey vfd = some (chunks (run step) key cs).2 := by
  induction cs generalizing self key with
  | nil => exact ⟨rfl, hkey⟩
  | cons c cs ih =>
    obtain ⟨hout, hnext⟩ := hmethod self key c hkey
    obtain ⟨hcs, hlast⟩ := ih _ hnext
    exact ⟨by rw [codeChunks, chunks, hcs, hout], hlast⟩

theorem Encode_eq {vfd : Nat} (self : CTcpServer P) (key : Int) (c : Bytes) (hkey : self.m_ClientKey vfd = some key) :
    (self.Encode vfd c).2 = (run encodeByte key c).1 ∧
      (self.Encode vfd c).1.m_ClientKey vfd = some (run encodeByte key c).2 := by
  simp [Encode, hkey, encodeLoop_eq]

theorem Decode_eq {vfd : Nat} (self : CTcpServer P) (key : Int) (c : Bytes) (hkey : self.m_ClientKey vfd = some key) :
    (self.Decode vfd c).2 = (run decodeByte key c).1 ∧
      (self.Decode vfd c).1.m_ClientKey vfd = some (run decodeByte key c).2 := by
  simp [Decode, hkey, decodeLoop_eq]

/-- **The cipher stays synchronised**: from congruent keys, the chunks of a stream are decoded to it, however the coded
stream is cut, and the keys after it are congruent. -/
theorem decode_encode (self peer : CTcpServer P) (v w : Nat) {key key' : Int} (hkey : self.m_ClientKey v = some key)
    (hkey' : peer.m_ClientKey w = some key') (h : key ≡ key' [ZMOD 256]) {cs ds : List Bytes}
    (hds : ds.flatten = (self.EncodeChunks v cs).2.flatten) :
    (peer.DecodeChunks w ds).2.flatten = cs.flatten ∧
      ∃ k k', (self.EncodeChunks v cs).1.m_ClientKey v = some k ∧ (peer.DecodeChunks w ds).1.m_ClientKey w = some k' ∧
        k ≡ k' [ZMOD 256] := by
  obtain ⟨henc, hk⟩ := codeChunks_eq Encode_eq self cs hkey
  obtain ⟨hdec, hk'⟩ := codeChunks_eq Decode_eq peer ds hkey'
  rw [EncodeChunks, henc] at hds
  obtain ⟨hout, hcongr⟩ := chunks_inverse decodeByte_encodeByte h hds
  exact ⟨by rw [DecodeChunks, hdec, hout], _, _, hk, hk', hcongr⟩


/-- A stream that is cut otherwise when it has been coded, with the keys 515 and 3. -/
theorem decode_encode_recut :
    (((Create (P := Unit)).Accept 8 3).1.DecodeChunks 1 [[107], [106, 20]]).2.flatten = [[104, 105], [16]].flatten ∧
      ∃ k k', (((Create (P := Unit)).Accept 7 515).1.EncodeChunks 1 [[104, 105], [16]]).1.m_ClientKey 1 = some k ∧
        (((Create (P := Unit)).Accept 8 3).1.DecodeChunks 1 [[107], [106, 20]]).1.m_ClientKey 1 = some k' ∧
        k ≡ k' [ZMOD 256] :=
  decode_encode ((Create (P := Unit)).Accept 7 515).1 ((Create (P := Unit)).Accept 8 3).1 1 1 rfl rfl
    (by decide) (by decide)

end XCore.Tcp.CTcpServer
