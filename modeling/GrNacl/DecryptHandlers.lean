import GrNacl.EncryptHandlers

/-! The blocks decrypt_secret, decrypt_public and decrypt_kem: how handle_msg treats
the fields of a PDU, whatever their lengths. -/
namespace GrNacl
set_option autoImplicit false

open EffectTrace CountedLoop

structure DecryptSecret where
  dFilenameKey : String
  dKey : SecretboxKey

structure DecryptPublic where
  dFilenamePk : String
  dFilenameSk : String
  dPk : BoxPublicKey
  dSk : BoxSecretKey

structure DecryptKem (S : Sodium) where
  dFilenameSk : String
  dSk : Vector UInt8 S.cryptoKemSECRETKEYBYTES

-- how an output stream prints a bool
def coutBool (b : Bool) : String := if b then "1" else "0"

/-- The lines printed when the call did not open the data. -/
def failureLines (found : List String) (status : ℤ) : List Event :=
  ("Failed to decrypt message." :: found ++ ["Message decryption status: " ++ toString status]).map
    Event.cout

/-- What the handlers share once the fields were found: the copies, the length of
the clear text, the call, and the published message or the lines about a failure. -/
def decryptData (c : Counter) (macbytes : ℕ) (openEasy : CipherCall) (wiped : List Event)
    (found : List String) (data nonce : Bytes) : Handler Unit := do
  let dataChar ← vector data.length
  let nonceChar ← vector nonce.length
  let dataCharSz := data.length
  let dataChar ← copyBytes c data.length dataChar data
  let nonceChar ← copyBytes c nonce.length nonceChar nonce
  -- data_char_sz - MACBYTES without a check, so short data wraps
  let msgLen := sizeSub dataCharSz macbytes
  let _ ← vector msgLen
  -- the call reads as many bytes of the nonce as its key needs
  Run.emit (.openEasy nonceChar)
  let nonceRead ← readArray 24 nonceChar
  let (msgStatus, msgDecrypted) := openEasy dataChar nonceRead
  Run.emitAll wiped
  -- check whether msg is successfully decrypted
  if msgStatus = 0 then do
    let msgDecryptedVec ← repack c msgLen msgDecrypted
    let msgOut := Pmt.list2 (.symbol "msg_decrypted")
      (.initU8vector msgDecryptedVec.length msgDecryptedVec)
    Run.emit (.messagePortPub (Pmt.list1 msgOut))
  else Run.emitAll (failureLines found msgStatus)

def foundLines (s : EncryptedFields) : List String :=
  ["Nonce found: " ++ coutBool s.nonceFound,
    "Encrypted message found: " ++ coutBool s.msgEncryptedFound]

def DecryptSecret.handleMsg (S : Sodium) (b : DecryptSecret) (msg : Pmt) : Handler Unit := do
  let s ← scanEncrypted intCounter msg
  if s.msgEncryptedFound && s.nonceFound then
    decryptData intCounter cryptoSecretboxMACBYTES
      (fun c n => S.cryptoSecretboxOpenEasy c n b.dKey) [] (foundLines s) s.data s.nonce
  else pure ()

def DecryptPublic.handleMsg (S : Sodium) (b : DecryptPublic) (msg : Pmt) : Handler Unit := do
  let s ← scanEncrypted intCounter msg
  if s.msgEncryptedFound && s.nonceFound then
    decryptData intCounter cryptoBoxMACBYTES
      (fun c n => S.cryptoBoxOpenEasy c n b.dPk b.dSk) [] (foundLines s) s.data s.nonce
  else pure ()

def DecryptKem.handleMsg (S : Sodium) (b : DecryptKem S) (msg : Pmt) : Handler Unit := do
  let s ← scanKem sizeCounter msg
  if !s.kemCiphertextFound || !s.rest.msgEncryptedFound || !s.rest.nonceFound then pure ()
  -- the one length that is checked
  else if h : s.kemCt.length = S.cryptoKemCIPHERTEXTBYTES then do
    let (kemStatus, ss) := S.cryptoKemDec ⟨s.kemCt.toArray,h⟩ b.dSk
    Run.emit (.fill .ss)
    if kemStatus ≠ 0 then
      Run.emitAll [.cout "Failed to perform KEM decapsulation.", .sodiumMemzero .ss]
    else
      decryptData sizeCounter cryptoSecretboxMACBYTES
        (fun c n => S.cryptoSecretboxOpenEasy c n ss) [.sodiumMemzero .ss]
        (("KEM ciphertext found: " ++ coutBool s.kemCiphertextFound) :: foundLines s.rest)
        s.rest.data s.rest.nonce
  else Run.emit (.cout "Invalid KEM ciphertext length.")

def decryptedPdu (m : Bytes) : List Entry := [.field "msg_decrypted" m]

/-- What follows the call on either status. -/
def afterOpen (found : List String) (r : ℤ × Bytes) : List Event :=
  if r.1 = 0 then [.messagePortPub (messagePmt (decryptedPdu r.2))] else failureLines found r.1

/-! The four ways through decryptData. -/

section DecryptData

variable (c : Counter) (macbytes : ℕ) (openEasy : CipherCall) (wiped : List Event)
  (found : List String) (data nonce : Bytes)

/-- A counter that does not cover one of the fields overflows in its copy. -/
theorem decryptData_overflow (hd : data.length ≤ maxSize) (hn : nonce.length ≤ maxSize)
    (h : ¬(c.Covers data.length ∧ c.Covers nonce.length)) :
    decryptData c macbytes openEasy wiped found data nonce = Run.fail .undefinedBehaviour := by
  have hdata := copyBytes_eq c (List.replicate data.length 0) data List.length_replicate
  have hnonce := copyBytes_eq c (List.replicate nonce.length 0) nonce List.length_replicate
  rw [decryptData, vector_of_le _ hd, pure_bind, vector_of_le _ hn, pure_bind]
  dsimp only
  rw [hdata, hnonce]
  by_cases hcd : c.Covers data.length
  · have hcn : ¬c.Covers nonce.length := fun hcn => h ⟨hcd,hcn⟩
    rw [if_pos hcd, if_neg hcn, pure_bind, Run.fail_bind]
  · rw [if_neg hcd, Run.fail_bind]

/-- Past the copies: the vector for the clear text is requested. -/
theorem decryptData_covered (hd : data.length ≤ maxSize) (hn : nonce.length ≤ maxSize)
    (hcd : c.Covers data.length) (hcn : c.Covers nonce.length) :
    decryptData c macbytes openEasy wiped found data nonce = (do
      let _ ← vector (sizeSub data.length macbytes)
      Run.emit (.openEasy nonce)
      let nonceRead ← readArray 24 nonce
      Run.emitAll wiped
      if (openEasy data nonceRead).1 = 0 then do
        let msg ← repack c (sizeSub data.length macbytes) (openEasy data nonceRead).2
        Run.emit (.messagePortPub (messagePmt (decryptedPdu msg)))
      else Run.emitAll (failureLines found (openEasy data nonceRead).1)) := by
  have hdata := copyBytes_eq c (List.replicate data.length 0) data List.length_replicate
  have hnonce := copyBytes_eq c (List.replicate nonce.length 0) nonce List.length_replicate
  rw [decryptData, vector_of_le _ hd, pure_bind, vector_of_le _ hn, pure_bind]
  dsimp only
  rw [hdata, hnonce, if_pos hcd, if_pos hcn, pure_bind, pure_bind]
  simp only [Pmt.initU8vector_length]
  rfl

/-- Data below the MAC size: the length wraps and no vector is that long. -/
theorem decryptData_short (hd : data.length ≤ maxSize) (hn : nonce.length ≤ maxSize)
    (hcd : c.Covers data.length) (hcn : c.Covers nonce.length) (hmac : macbytes ≤ maxSize)
    (h : data.length < macbytes) :
    decryptData c macbytes openEasy wiped found data nonce = Run.fail .lengthError := by
  have hwrap := maxSize_lt_sizeSub data.length macbytes h hmac
  rw [decryptData_covered c macbytes openEasy wiped found data nonce hd hn hcd hcn,
    vector_of_lt _ hwrap, Run.fail_bind]

/-- A nonce field below the nonce size: the call reads past its copy. -/
theorem decryptData_overread (hd : data.length ≤ maxSize) (hn : nonce.length ≤ maxSize)
    (hcd : c.Covers data.length) (hcn : c.Covers nonce.length) (h : macbytes ≤ data.length)
    (hshort : nonce.length < 24) :
    decryptData c macbytes openEasy wiped found data nonce =
      ⟨[.openEasy nonce], .error .undefinedBehaviour⟩ := by
  have hlen : sizeSub data.length macbytes ≤ maxSize := by
    rw [sizeSub_of_le _ _ h hd]
    omega
  have hread : readArray 24 nonce = Run.fail .undefinedBehaviour := by
    rw [readArray, arrayOf_of_lt 24 nonce hshort]
  rw [decryptData_covered c macbytes openEasy wiped found data nonce hd hn hcd hcn,
    vector_of_le _ hlen, pure_bind, hread, Run.emit_bind, Run.fail_bind]
  rfl

/-- Fields that are long enough reach the call, and its status decides. -/
theorem decryptData_opens (hd : data.length ≤ maxSize) (hn : nonce.length ≤ maxSize)
    (hcd : c.Covers data.length) (hcn : c.Covers nonce.length) (h : macbytes ≤ data.length)
    (hopen : ∀ n, (openEasy data n).2.length = data.length-macbytes) (n : Vector UInt8 24)
    (hread : arrayOf 24 nonce = some n) :
    decryptData c macbytes openEasy wiped found data nonce =
      Run.emitAll (.openEasy nonce :: wiped ++ afterOpen found (openEasy data n)) := by
  have hsub := sizeSub_of_le data.length macbytes h hd
  have hmsg := repack_eq c (data.length-macbytes) (openEasy data n).2 (hopen n) (by omega)
  -- the clear text is shorter than the data, so its copy is covered as well
  have hcm : c.Covers (data.length-macbytes) := hcd.mono (by omega)
  have hreads : readArray 24 nonce = pure n := by
    rw [readArray, hread]
  rw [decryptData_covered c macbytes openEasy wiped found data nonce hd hn hcd hcn, hsub,
    vector_of_le _ (by omega), pure_bind, hreads, Run.emit_bind, pure_bind,
    hmsg, if_pos hcm, pure_bind, Run.emitAll_bind, afterOpen]
  by_cases hs : (openEasy data n).1 = 0
  · rw [if_pos hs, if_pos hs]
    rfl
  · rw [if_neg hs, if_neg hs]
    rfl

end DecryptData

end GrNacl
