import GrNacl.Decryptors

/-! The block hash_sha3, and the seven message blocks under one interface. The four
clear-text blocks read one field, and a message is to them what that field is. -/
namespace GrNacl
set_option autoImplicit false

open EffectTrace CountedLoop

structure HashSha3 where
  dSha3512 : Bool

/-- The digest call of the block: its status and the bytes of the digest. -/
def HashSha3.cryptoHash (S : Sodium) (b : HashSha3) (data : Bytes) : ℤ × Bytes :=
  if b.dSha3512 then
    let (hashStatus, digest) := S.cryptoHashSha3512 data
    (hashStatus,digest.toList)
  else
    let (hashStatus, digest) := S.cryptoHashSha3256 data
    (hashStatus,digest.toList)

def HashSha3.digestTag (b : HashSha3) : String :=
  if b.dSha3512 then "hash_sha3_512" else "hash_sha3_256"

def HashSha3.handleMsg (S : Sodium) (b : HashSha3) (msg : Pmt) : Handler Unit := do
  let data ← scanClear sizeCounter msg
  if data.length = 0 then pure ()
  else do
    let digestLen := if b.dSha3512 then cryptoHashSha3512BYTES else cryptoHashSha3256BYTES
    let _ ← vector digestLen
    let (hashStatus, digest) := b.cryptoHash S data
    if hashStatus ≠ 0 then Run.emit (.cout "Failed to compute SHA3 hash.")
    else do
      let msgOut := Pmt.list2 (.symbol b.digestTag) (.initU8vector digest.length digest)
      Run.emit (.messagePortPub (Pmt.list1 msgOut))

/-- The digest PDU of a payload. -/
def HashSha3.hashPdu (S : Sodium) (b : HashSha3) (data : Bytes) : List Entry :=
  [.field b.digestTag (b.cryptoHash S data).2]

/-- A block that reads msg_clear, with the random draws of one call. -/
inductive ClearTextBlock (S : Sodium)
  | encryptSecret (b : EncryptSecret) (nonce : SecretboxNonce)
  | encryptPublic (b : EncryptPublic) (nonce : BoxNonce)
  | encryptKem (b : EncryptKem S) (draws : KemDraws)
  | hashSha3 (b : HashSha3)

namespace ClearTextBlock

variable {S : Sodium}

def handleMsg : ClearTextBlock S → Pmt → Handler Unit
  | .encryptSecret b nonce => b.handleMsg S nonce
  | .encryptPublic b nonce => b.handleMsg S nonce
  | .encryptKem b draws => b.handleMsg S draws
  | .hashSha3 b => b.handleMsg S

/-- The counter of the loops in handle_msg. -/
def counter : ClearTextBlock S → Counter
  | .encryptSecret _ _ => intCounter
  | .encryptPublic _ _ => intCounter
  | .encryptKem _ _ => sizeCounter
  | .hashSha3 _ => sizeCounter

/-- What the block does with a payload: its handler on the message of that field alone. -/
def onPayload (b : ClearTextBlock S) (data : Bytes) : Handler Unit :=
  b.handleMsg (messagePmt [.field "msg_clear" data])

theorem covers_one (b : ClearTextBlock S) : b.counter.Covers 1 := by
  cases b with
  | encryptSecret b nonce => exact (covers_some _ _).mpr (by decide)
  | encryptPublic b nonce => exact (covers_some _ _).mpr (by decide)
  | encryptKem b draws => exact covers_none _
  | hashSha3 b => exact covers_none _

/-- All four handlers are a scan and something done to the bytes it leaves. -/
theorem handleMsg_bind (b : ClearTextBlock S) :
    ∃ rest : Bytes → Handler Unit, ∀ msg, b.handleMsg msg = scanClear b.counter msg >>= rest := by
  cases b with
  | encryptSecret b nonce => exact ⟨_, fun _ => rfl⟩
  | encryptPublic b nonce => exact ⟨_, fun _ => rfl⟩
  | encryptKem b draws => exact ⟨_, fun _ => rfl⟩
  | hashSha3 b => exact ⟨_, fun _ => rfl⟩

/-- A clear-text block sees of a message what its scan leaves. -/
theorem handleMsg_scan (b : ClearTextBlock S) (entries : List Entry) :
    b.handleMsg (messagePmt entries) =
      if b.counter.Covers entries.length then
        b.onPayload ((lookup "msg_clear" entries).getD [])
      else Run.fail .undefinedBehaviour := by
  obtain ⟨rest,hrest⟩ := b.handleMsg_bind
  have hone (data : Bytes) : b.onPayload data = rest data := by
    rw [onPayload, hrest, scanClear_eq, List.length_singleton, if_pos b.covers_one, pure_bind]
    rfl
  rw [hrest, scanClear_eq, hone]
  by_cases hc : b.counter.Covers entries.length
  · rw [if_pos hc, if_pos hc, pure_bind]
  · rw [if_neg hc, if_neg hc, Run.fail_bind]

theorem handleMsg_counted (b : ClearTextBlock S) (entries : List Entry)
    (hc : b.counter.Covers entries.length) :
    b.handleMsg (messagePmt entries) = b.onPayload ((lookup "msg_clear" entries).getD []) := by
  rw [b.handleMsg_scan, if_pos hc]

/-- The scan of a message of one field leaves that field. -/
theorem scanClear_one (c : Counter) (hc : c.Covers 1) (data : Bytes) :
    scanClear c (messagePmt [.field "msg_clear" data]) = pure data := by
  rw [scanClear_eq, List.length_singleton, if_pos hc]
  rfl

theorem encryptSecret_onPayload (b : EncryptSecret) (nonce : SecretboxNonce) (data : Bytes) :
    (encryptSecret b nonce : ClearTextBlock S).onPayload data =
      if data.length ≠ 0 then
        encryptData intCounter cryptoSecretboxMACBYTES
          (fun m n => S.cryptoSecretboxEasy m n b.dKey) [] (pure []) nonce data
      else pure () := by
  change EncryptSecret.handleMsg S b nonce _ = _
  rw [EncryptSecret.handleMsg, scanClear_one _ ((covers_some _ _).mpr (by decide)), pure_bind]

theorem encryptPublic_onPayload (b : EncryptPublic) (nonce : BoxNonce) (data : Bytes) :
    (encryptPublic b nonce : ClearTextBlock S).onPayload data =
      if data.length ≠ 0 then
        encryptData intCounter cryptoBoxMACBYTES
          (fun m n => S.cryptoBoxEasy m n b.dPk b.dSk) [] (pure []) nonce data
      else pure () := by
  change EncryptPublic.handleMsg S b nonce _ = _
  rw [EncryptPublic.handleMsg, scanClear_one _ ((covers_some _ _).mpr (by decide)), pure_bind]

/-- encrypt_kem on a payload: the encapsulation, then the secretbox under its secret
with the KEM ciphertext in front. -/
theorem encryptKem_onPayload (b : EncryptKem S) (draws : KemDraws) (data : Bytes)
    (hne : data.length ≠ 0) (st : ℤ) (ct : Vector UInt8 S.cryptoKemCIPHERTEXTBYTES)
    (ss : SharedSecret) (henc : S.cryptoKemEnc b.dPk draws.coins = (st,ct,ss)) :
    (encryptKem b draws : ClearTextBlock S).onPayload data =
      if st ≠ 0 then
        Run.emitAll [.fill .ss,.cout "Failed to perform KEM encapsulation.",.sodiumMemzero .ss]
      else Run.emit (.fill .ss) >>= fun _ =>
        encryptData sizeCounter cryptoSecretboxMACBYTES (fun m n => S.cryptoSecretboxEasy m n ss)
          [.sodiumMemzero .ss] (pure ((kemFront ct.toList).map Entry.toPmt)) draws.nonce data := by
  -- the copy of the ciphertext is the one entry in front
  have hfront : (do
      let kemCtVec ← repack sizeCounter S.cryptoKemCIPHERTEXTBYTES ct.toList
      pure [Pmt.list2 (.symbol "kem_ciphertext") (.initU8vector kemCtVec.length kemCtVec)] :
        Handler (List Pmt)) = pure ((kemFront ct.toList).map Entry.toPmt) := by
    rw [repack_eq sizeCounter _ _ ct.length_toList S.kem_ciphertext_fits, if_pos (covers_none _),
      pure_bind, Pmt.initU8vector_length]
    rfl
  change EncryptKem.handleMsg S b draws _ = _
  rw [EncryptKem.handleMsg, scanClear_one _ (covers_none _), pure_bind, if_neg hne, henc]
  dsimp only
  by_cases hst : st ≠ 0
  · rw [if_pos hst, if_pos hst, Run.emit_bind]
    rfl
  · rw [if_neg hst, if_neg hst, hfront]

theorem hashSha3_onPayload (b : HashSha3) (data : Bytes) (hne : data.length ≠ 0) :
    (hashSha3 b : ClearTextBlock S).onPayload data =
      if (b.cryptoHash S data).1 ≠ 0 then Run.emit (.cout "Failed to compute SHA3 hash.")
      else Run.emit (.messagePortPub (messagePmt (b.hashPdu S data))) := by
  have hlen : (if b.dSha3512 then cryptoHashSha3512BYTES else cryptoHashSha3256BYTES) ≤ maxSize := by
    split <;> decide
  change HashSha3.handleMsg S b _ = _
  rw [HashSha3.handleMsg, scanClear_one _ (covers_none _), pure_bind, if_neg hne]
  dsimp only
  rw [vector_of_le _ hlen, pure_bind, Pmt.initU8vector_length]
  rfl

/-- No payload, or an empty one: the handlers return at once. -/
theorem onPayload_nil (b : ClearTextBlock S) : b.onPayload [] = pure () := by
  have hempty : ¬([] : Bytes).length ≠ 0 := fun h => h rfl
  cases b with
  | encryptSecret b nonce => rw [encryptSecret_onPayload, if_neg hempty]
  | encryptPublic b nonce => rw [encryptPublic_onPayload, if_neg hempty]
  | encryptKem b draws =>
    change EncryptKem.handleMsg S b draws _ = _
    rw [EncryptKem.handleMsg, scanClear_one _ (covers_none _)]
    rfl
  | hashSha3 b =>
    change HashSha3.handleMsg S b _ = _
    rw [HashSha3.handleMsg, scanClear_one _ (covers_none _)]
    rfl

end ClearTextBlock

/-- The four clear-text blocks, without their keys and draws. -/
inductive ClearTextKind
  | encryptSecret | encryptPublic | encryptKem | hashSha3
  deriving DecidableEq, Repr

namespace ClearTextKind

def counter : ClearTextKind → Counter
  | .encryptSecret => intCounter
  | .encryptPublic => intCounter
  | .encryptKem => sizeCounter
  | .hashSha3 => sizeCounter

/-- The payloads the copying loops and the vectors of the block can take. -/
def Fits : ClearTextKind → ℕ → Prop
  | .encryptSecret, n => 16+n ≤ 2147483647
  | .encryptPublic, n => 16+n ≤ 2147483647
  | .encryptKem, n => 16+n ≤ maxSize
  | .hashSha3, _ => True

theorem fits_zero (k : ClearTextKind) : k.Fits 0 := by
  cases k with
  | encryptSecret => exact Nat.le_add_left 16 2147483631
  | encryptPublic => exact Nat.le_add_left 16 2147483631
  | encryptKem => exact Nat.le_add_left 16 9223372036854775791
  | hashSha3 => trivial

end ClearTextKind

namespace ClearTextBlock

variable {S : Sodium}

def kind : ClearTextBlock S → ClearTextKind
  | .encryptSecret _ _ => .encryptSecret
  | .encryptPublic _ _ => .encryptPublic
  | .encryptKem _ _ => .encryptKem
  | .hashSha3 _ => .hashSha3

theorem counter_eq (b : ClearTextBlock S) : b.counter = b.kind.counter := by
  cases b <;> rfl

end ClearTextBlock

/-- The tags the scan of a decryptor looks for. -/
def Decryptor.tags {S : Sodium} : Decryptor S → List String
  | .secret _ => ["msg_encrypted","nonce"]
  | .box _ => ["msg_encrypted","nonce"]
  | .kem _ => ["kem_ciphertext","msg_encrypted","nonce"]

/-- A message block, with the random draws of one call. -/
inductive MessageBlock (S : Sodium)
  | clearText (b : ClearTextBlock S)
  | decryptor (d : Decryptor S)

namespace MessageBlock

variable {S : Sodium}

def handleMsg : MessageBlock S → Pmt → Handler Unit
  | .clearText b => b.handleMsg
  | .decryptor d => d.handleMsg

def counter : MessageBlock S → Counter
  | .clearText b => b.counter
  | .decryptor d => d.counter

/-- The tags the scan of the block looks for. -/
def tags : MessageBlock S → List String
  | .clearText _ => ["msg_clear"]
  | .decryptor d => d.tags

/-- Every counter of the blocks covers what an int covers. -/
theorem counter_covers (b : MessageBlock S) (n : ℕ) (hn : n ≤ 2147483647) : b.counter.Covers n := by
  have hint : intCounter.Covers n := (covers_some _ _).mpr hn
  cases b with
  | clearText b => cases b <;> first | exact hint | exact covers_none _
  | decryptor d => cases d <;> first | exact hint | exact covers_none _

end MessageBlock

end GrNacl
