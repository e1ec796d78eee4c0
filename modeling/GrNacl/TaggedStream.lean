import GrNacl.PmtValues
import GrNacl.CountedLoop

/-! The block crypt_tagged_stream: its constructor, one call of work, and the runs
in which the scheduler calls work once for every tagged packet. -/
namespace GrNacl
set_option autoImplicit false

open EffectTrace

structure CryptTaggedStream where
  dKey : StreamKey
  dNonce : StreamNonce
  dRotateNonce : Bool
  deriving DecidableEq

def cryptTaggedStream (key nonce : Bytes) (rotateNonce : Bool) : Handler CryptTaggedStream :=
  -- error handling of key and nonce sizes, the key first
  if hk : key.length = cryptoStreamKEYBYTES then
    if hn : nonce.length = cryptoStreamNONCEBYTES then
      pure ⟨⟨key.toArray,hk⟩, ⟨nonce.toArray,hn⟩, rotateNonce⟩
    else do
      Run.emit (.cout ("Nonce size (needed/given): " ++ toString cryptoStreamNONCEBYTES ++ "/" ++
        toString nonce.length))
      Run.fail (.runtimeError "Wrong nonce size.")
  else do
    Run.emit (.cout ("Key size (needed/given): " ++ toString cryptoStreamKEYBYTES ++ "/" ++
      toString key.length))
    Run.fail (.runtimeError "Wrong key size.")

/-- The rotation of work: all bytes are shifted in place, then the stored top bit
of the first byte becomes the low bit of the last byte. -/
def rotateNonce (nonce : StreamNonce) : StreamNonce :=
  -- store bit of the first byte before the shift drops it
  let storeBit := (0b10000000 : UInt8) &&& nonce.get ⟨0, by decide⟩
  -- shift left char array
  let shifted := Fin.foldl cryptoStreamNONCEBYTES
    (fun (d : StreamNonce) k => d.set k (d[k] <<< 1)) nonce
  -- add stored bit at the end
  let last := cryptoStreamNONCEBYTES-1
  if storeBit = 0 then shifted.set last (shifted[last] &&& 0b11111110) (by decide)
  else shifted.set last (shifted[last] ||| 0b00000001) (by decide)

structure StreamCall where
  input : Bytes
  nonce : StreamNonce
  key : StreamKey
  deriving DecidableEq

structure WorkResult where
  ret : ℤ
  out : Bytes
  block : CryptTaggedStream
  call : Option StreamCall
  deriving DecidableEq

/-- The leading output items that crypto_stream_xor wrote in this call. -/
def WorkResult.written (r : WorkResult) : ℕ :=
  match r.call with
  | some c => c.input.length
  | none => 0

def calculateOutputStreamLength (ninputItems : ℤ) : ℤ := ninputItems

/-- The second half of work: the status decides what is reported as produced. -/
def reportProduced (b : CryptTaggedStream) (status ninputItems : ℤ) (out : Bytes)
    (call : Option StreamCall) : WorkResult :=
  -- the nonce moves on after its use, and only after a success
  if status = 0 then
    ⟨ninputItems, out, if b.dRotateNonce then { b with dNonce := rotateNonce b.dNonce } else b, call⟩
  else ⟨0, out, b, call⟩

/-- One call of work. The buffers carry noutput_items and ninput_items[0]; garbage
is what the uninitialised local status holds. -/
def work (S : Sodium) (b : CryptTaggedStream) (garbage : ℤ) (input out : Bytes) : WorkResult :=
  let ninputItems : ℤ := input.length
  let noutputItems : ℤ := out.length
  -- encrypt single input buffer of tagged stream size
  if ninputItems ≠ 0 ∧ noutputItems ≥ ninputItems then
    let r := S.cryptoStreamXor input b.dNonce b.dKey
    reportProduced b r.1 ninputItems (r.2 ++ out.drop input.length)
      (some ⟨input, b.dNonce, b.dKey⟩)
  -- past the guard status was never assigned
  else reportProduced b garbage ninputItems out none

/-- What the scheduler leaves open in a call: output space beyond the packet, the
old contents of the output buffer and the garbage in the local variable. -/
structure Schedule where
  extra : ℕ
  stale : ℕ → UInt8
  garbage : ℤ

def Schedule.outBuffer (s : Schedule) (packet : Bytes) : Bytes :=
  (List.range ((calculateOutputStreamLength packet.length).toNat+s.extra)).map s.stale

def workPacket (S : Sodium) (b : CryptTaggedStream) (s : Schedule) (packet : Bytes) : WorkResult :=
  work S b s.garbage packet (s.outBuffer packet)

/-- The packet a call hands on: the items it reports as produced. -/
def WorkResult.packet (r : WorkResult) : Bytes := r.out.take r.ret.toNat

/-- One call of work for every packet, the i-th under schedule i. -/
def runPackets (S : Sodium) (sched : ℕ → Schedule) :
    ℕ → CryptTaggedStream → List Bytes → List WorkResult
  | _, _, [] => []
  | i, b, packet :: rest =>
    let r := workPacket S b (sched i) packet
    r :: runPackets S sched (i+1) r.block rest

/-- The nonces a run passed to crypto_stream_xor, in order. -/
def usedNonces (rs : List WorkResult) : List StreamNonce :=
  rs.filterMap (fun r => r.call.map StreamCall.nonce)

theorem reportProduced_call (b : CryptTaggedStream) (status n : ℤ) (out : Bytes)
    (call : Option StreamCall) : (reportProduced b status n out call).call = call := by
  unfold reportProduced
  split <;> rfl

theorem reportProduced_out (b : CryptTaggedStream) (status n : ℤ) (out : Bytes)
    (call : Option StreamCall) : (reportProduced b status n out call).out = out := by
  unfold reportProduced
  split <;> rfl

theorem reportProduced_ret (b : CryptTaggedStream) (status n : ℤ) (out : Bytes)
    (call : Option StreamCall) :
    (reportProduced b status n out call).ret = if status = 0 then n else 0 := by
  unfold reportProduced
  split <;> rfl

theorem work_encrypts (S : Sodium) (b : CryptTaggedStream) (g : ℤ) (input out : Bytes)
    (hne : input ≠ []) (hfit : input.length ≤ out.length) :
    work S b g input out = reportProduced b (S.cryptoStreamXor input b.dNonce b.dKey).1 input.length
      ((S.cryptoStreamXor input b.dNonce b.dKey).2 ++ out.drop input.length)
      (some ⟨input, b.dNonce, b.dKey⟩) := by
  have hpos : 0 < input.length := List.length_pos_iff.mpr hne
  exact if_pos (by omega)

theorem work_skips (S : Sodium) (b : CryptTaggedStream) (g : ℤ) (input out : Bytes)
    (h : input = [] ∨ out.length < input.length) :
    work S b g input out = reportProduced b g input.length out none := by
  apply if_neg
  rcases h with h | h
  · simp [h]
  · omega

end GrNacl
