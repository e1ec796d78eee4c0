import GrNacl.MessageFields

/-! The blocks encrypt_secret, encrypt_public and encrypt_kem: how handle_msg turns
the clear field of a message into an encrypted PDU. -/
namespace GrNacl
set_option autoImplicit false

open EffectTrace CountedLoop

/-- crypto_secretbox_easy, crypto_box_easy or an opening call with its keys bound. -/
abbrev CipherCall := Bytes → Vector UInt8 24 → ℤ × Bytes

structure EncryptSecret where
  dFilenameKey : String
  dKey : SecretboxKey

structure EncryptPublic where
  dFilenamePk : String
  dFilenameSk : String
  dPk : BoxPublicKey
  dSk : BoxSecretKey

structure EncryptKem (S : Sodium) where
  dFilenamePk : String
  dPk : Vector UInt8 S.cryptoKemPUBLICKEYBYTES

/-- What the handlers share once there is something to encrypt: the copy of the
data, the call, and the PDU behind the entries of `front`. -/
def encryptData (c : Counter) (macbytes : ℕ) (easy : CipherCall) (wiped : List Event)
    (front : Handler (List Pmt)) (nonce : Vector UInt8 24) (data : Bytes) : Handler Unit := do
  -- encrypt message
  let dataChar ← repack c data.length data
  let dataCharSz := data.length
  let ciphertextLen := sizeAdd macbytes dataCharSz
  let _ ← vector ciphertextLen
  let (encryptStatus, ciphertext) := easy dataChar nonce
  Run.emitAll wiped
  if encryptStatus ≠ 0 then Run.emit (.cout "Failed to encrypt message.")
  else do
    -- repack msg with symbol 'msg_encrypted' and nonce with symbol 'nonce'
    let front ← front
    let msgEncrypted ← repack c ciphertextLen ciphertext
    let nonceVec ← repack c 24 nonce.toList
    let msgOutNonce := Pmt.list2 (.symbol "nonce") (.initU8vector nonceVec.length nonceVec)
    let msgOutData := Pmt.list2 (.symbol "msg_encrypted")
      (.initU8vector msgEncrypted.length msgEncrypted)
    -- publish msg
    Run.emit (.messagePortPub (Pmt.ofList (front ++ [msgOutNonce,msgOutData])))

def EncryptSecret.handleMsg (S : Sodium) (b : EncryptSecret) (nonce : SecretboxNonce) (msg : Pmt) :
    Handler Unit := do
  let data ← scanClear intCounter msg
  if data.length ≠ 0 then
    encryptData intCounter cryptoSecretboxMACBYTES (fun m n => S.cryptoSecretboxEasy m n b.dKey)
      [] (pure []) nonce data
  else pure ()

def EncryptPublic.handleMsg (S : Sodium) (b : EncryptPublic) (nonce : BoxNonce) (msg : Pmt) :
    Handler Unit := do
  let data ← scanClear intCounter msg
  if data.length ≠ 0 then
    encryptData intCounter cryptoBoxMACBYTES (fun m n => S.cryptoBoxEasy m n b.dPk b.dSk)
      [] (pure []) nonce data
  else pure ()

/-- The random draws of one call: inside crypto_kem_enc, and for the nonce. -/
structure KemDraws where
  coins : Bytes
  nonce : SecretboxNonce

def EncryptKem.handleMsg (S : Sodium) (b : EncryptKem S) (draws : KemDraws) (msg : Pmt) :
    Handler Unit := do
  let data ← scanClear sizeCounter msg
  -- an empty payload returns before the encapsulation
  if data.length = 0 then pure ()
  else do
    let (kemStatus, kemCt, ss) := S.cryptoKemEnc b.dPk draws.coins
    Run.emit (.fill .ss)
    -- a failed encapsulation wipes the shared secret too
    if kemStatus ≠ 0 then
      Run.emitAll [.cout "Failed to perform KEM encapsulation.", .sodiumMemzero .ss]
    else
      encryptData sizeCounter cryptoSecretboxMACBYTES (fun m n => S.cryptoSecretboxEasy m n ss)
        [.sodiumMemzero .ss]
        (do
          let kemCtVec ← repack sizeCounter S.cryptoKemCIPHERTEXTBYTES kemCt.toList
          pure [Pmt.list2 (.symbol "kem_ciphertext") (.initU8vector kemCtVec.length kemCtVec)])
        draws.nonce data

/-- The front of a KEM PDU. -/
def kemFront (ct : Bytes) : List Entry := [.field "kem_ciphertext" ct]

/-- The entries of an encrypted PDU behind those of `front`. -/
def encryptedPdu (front : List Entry) (nonce ciphertext : Bytes) : List Entry :=
  front ++ [.field "nonce" nonce,.field "msg_encrypted" ciphertext]

theorem messagePmt_encryptedPdu (front : List Entry) (nonce ciphertext : Bytes) :
    messagePmt (encryptedPdu front nonce ciphertext) =
      Pmt.ofList (front.map Entry.toPmt ++
        [Pmt.list2 (.symbol "nonce") (.initU8vector nonce.length nonce),
          Pmt.list2 (.symbol "msg_encrypted") (.initU8vector ciphertext.length ciphertext)]) := by
  rw [messagePmt, encryptedPdu, List.map_append, Pmt.initU8vector_length, Pmt.initU8vector_length]
  rfl

/-! What a receiver looks up in a PDU. -/

theorem encryptedPdu_eq (front : List Entry) (nonce ciphertext : Bytes) :
    encryptedPdu front nonce ciphertext =
      (front ++ [.field "nonce" nonce]) ++ [.field "msg_encrypted" ciphertext] := by
  rw [encryptedPdu, List.append_assoc]
  rfl

theorem lookup_encryptedPdu_data (front : List Entry) (nonce ciphertext : Bytes) :
    lookup "msg_encrypted" (encryptedPdu front nonce ciphertext) = some ciphertext := by
  rw [encryptedPdu_eq, lookup_append, value_field_self, Option.some_or]

theorem lookup_encryptedPdu_nonce (front : List Entry) (nonce ciphertext : Bytes) :
    lookup "nonce" (encryptedPdu front nonce ciphertext) = some nonce := by
  rw [encryptedPdu_eq, lookup_append, value_field_of_ne _ _ _ (by decide), Option.none_or,
    lookup_append, value_field_self, Option.some_or]

theorem encryptedPdu_injective (front : List Entry) (nonce : Bytes) :
    Function.Injective (fun ciphertext => messagePmt (encryptedPdu front nonce ciphertext)) := by
  intro c c' h
  have hdata := congrArg (lookup "msg_encrypted") (messagePmt_injective h)
  rw [lookup_encryptedPdu_data, lookup_encryptedPdu_data] at hdata
  exact Option.some.inj hdata

-- the two entries behind the front do not hide what it holds
theorem lookup_encryptedPdu_front (name : String) (hn : name ≠ "nonce")
    (hm : name ≠ "msg_encrypted") (front : List Entry) (nonce ciphertext : Bytes) :
    lookup name (encryptedPdu front nonce ciphertext) = lookup name front := by
  rw [encryptedPdu_eq, lookup_append, value_field_of_ne _ _ _ (Ne.symm hm), Option.none_or,
    lookup_append, value_field_of_ne _ _ _ (Ne.symm hn), Option.none_or]

theorem leavesRoom_encryptedPdu (extra : ℕ) (front : List Entry) (nonce ciphertext : Bytes)
    (hf : LeavesRoom extra front) (hn : nonce.length+extra ≤ maxSize)
    (hc : ciphertext.length+extra ≤ maxSize) :
    LeavesRoom extra (encryptedPdu front nonce ciphertext) := by
  have hback : LeavesRoom extra [.field "nonce" nonce,.field "msg_encrypted" ciphertext] := by
    rw [leavesRoom_field_cons, leavesRoom_field_cons]
    exact ⟨hn,hc,leavesRoom_nil extra⟩
  intro e he
  rw [encryptedPdu] at he
  rcases List.mem_append.mp he with hfront | hrest
  · exact hf e hfront
  · exact hback e hrest

/-- An encrypted PDU as a message of its own. -/
def pduMessage (nonce ciphertext : Bytes) (hn : nonce.length ≤ maxSize)
    (hc : ciphertext.length ≤ maxSize) : Message 0 :=
  ⟨encryptedPdu [] nonce ciphertext,
    leavesRoom_encryptedPdu 0 [] nonce ciphertext (leavesRoom_nil 0) hn hc⟩

/-- The outcome of encryptData on data that leaves room for its MAC. -/
theorem encryptData_eq (c : Counter) (macbytes : ℕ) (easy : CipherCall) (wiped : List Event)
    (front : List Entry) (nonce : Vector UInt8 24) (data : Bytes)
    (hroom : macbytes+data.length ≤ maxSize) (hc : c.Covers 24)
    (heasy : (easy data nonce).2.length = macbytes+data.length) :
    encryptData c macbytes easy wiped (pure (front.map Entry.toPmt)) nonce data =
      if c.Covers data.length then
        if (easy data nonce).1 ≠ 0 then
          Run.emitAll (wiped ++ [.cout "Failed to encrypt message."])
        else if c.Covers (macbytes+data.length) then
          Run.emitAll (wiped ++ [.messagePortPub
            (messagePmt (encryptedPdu front nonce.toList (easy data nonce).2))])
        else ⟨wiped, .error .undefinedBehaviour⟩
      else Run.fail .undefinedBehaviour := by
  have hdata := repack_eq c data.length data rfl (by omega)
  have hout := repack_eq c (macbytes+data.length) (easy data nonce).2 heasy hroom
  have hnonce := repack_eq c 24 nonce.toList nonce.length_toList (by decide)
  by_cases hd : c.Covers data.length
  · rw [encryptData, hdata, if_pos hd, if_pos hd, pure_bind]
    dsimp only
    -- the length of the ciphertext does not wrap, and the vector can be had
    rw [sizeAdd_of_le _ _ hroom, vector_of_le _ hroom, pure_bind]
    rw [Run.emitAll_bind]
    by_cases hs : (easy data nonce).1 ≠ 0
    · rw [if_pos hs, if_pos hs]
      rfl
    · -- the ciphertext is longer than the data, so its copy can still overflow
      rw [if_neg hs, if_neg hs, pure_bind, hout]
      by_cases ho : c.Covers (macbytes+data.length)
      · rw [if_pos ho, if_pos ho, pure_bind, hnonce, if_pos hc, pure_bind, messagePmt_encryptedPdu]
        rfl
      · rw [if_neg ho, if_neg ho, Run.fail_bind, Run.events_fail, Run.result_fail, List.append_nil]
  · rw [encryptData, hdata, if_neg hd, if_neg hd, Run.fail_bind]

/-- On data whose ciphertext is counted the status of the call decides what is done. -/
theorem encryptData_counted (c : Counter) (macbytes : ℕ) (easy : CipherCall) (wiped : List Event)
    (front : List Entry) (nonce : Vector UInt8 24) (data : Bytes)
    (hroom : macbytes+data.length ≤ maxSize) (hc : c.Covers 24)
    (heasy : (easy data nonce).2.length = macbytes+data.length)
    (hcount : c.Covers (macbytes+data.length)) :
    encryptData c macbytes easy wiped (pure (front.map Entry.toPmt)) nonce data =
      Run.emitAll (wiped ++ [if (easy data nonce).1 ≠ 0 then .cout "Failed to encrypt message."
        else .messagePortPub (messagePmt (encryptedPdu front nonce.toList (easy data nonce).2))]) := by
  rw [encryptData_eq c macbytes easy wiped front nonce data hroom hc heasy,
    if_pos (hcount.mono (by omega)), if_pos hcount]
  split <;> rfl

/-- The handler returns, having published just this. -/
structure Answers (x : Handler Unit) (msgs : List Pmt) : Prop where
  returned : x.result = .ok ()
  messages : published x.events = msgs

theorem answers_pub (events : List Event) (hquiet : published events = []) (msg : Pmt) :
    Answers (Run.emitAll (events ++ [.messagePortPub msg])) [msg] := by
  refine ⟨rfl,?_⟩
  rw [Run.events_emitAll, published_append, hquiet]
  rfl

theorem encryptData_answers (c : Counter) (easy : CipherCall) (wiped : List Event)
    (hwiped : published wiped = []) (front : List Entry) (nonce : Vector UInt8 24) (p : Bytes)
    (hroom : 16+p.length ≤ maxSize) (hc : c.Covers 24)
    (heasy : (easy p nonce).2.length = 16+p.length) (hcounted : c.Covers (16+p.length))
    (hstatus : (easy p nonce).1 = 0) :
    Answers (encryptData c 16 easy wiped (pure (front.map Entry.toPmt)) nonce p)
      [messagePmt (encryptedPdu front nonce.toList (easy p nonce).2)] := by
  rw [encryptData_counted c 16 easy wiped front nonce p hroom hc heasy hcounted,
    if_neg (not_not_intro hstatus)]
  exact answers_pub wiped hwiped _

/-- Data that the counter does not cover overflows it in the first copy. -/
theorem encryptData_uncounted (c : Counter) (macbytes : ℕ) (easy : CipherCall)
    (wiped : List Event) (front : Handler (List Pmt)) (nonce : Vector UInt8 24) (data : Bytes)
    (hd : data.length ≤ maxSize) (hc : ¬c.Covers data.length) :
    encryptData c macbytes easy wiped front nonce data = Run.fail .undefinedBehaviour := by
  rw [encryptData, repack_eq c data.length data rfl hd, if_neg hc, Run.fail_bind]

/-- Data with no room for its MAC ends in the exception of a vector. -/
theorem encryptData_tooLong (c : Counter) (macbytes : ℕ) (easy : CipherCall) (wiped : List Event)
    (front : Handler (List Pmt)) (nonce : Vector UInt8 24) (data : Bytes)
    (hmac : macbytes ≤ maxSize) (hc : c.Covers data.length)
    (hlong : maxSize < macbytes+data.length) :
    encryptData c macbytes easy wiped front nonce data = Run.fail .lengthError := by
  have hmax : maxSize = 9223372036854775807 := rfl
  by_cases hd : data.length ≤ maxSize
  · -- the sum is below 2^64, so it does not wrap to a length a vector can have
    have hsum : sizeAdd macbytes data.length = macbytes+data.length :=
      Nat.mod_eq_of_lt (by omega)
    rw [encryptData, repack_eq c data.length data rfl hd, if_pos hc, pure_bind]
    dsimp only
    rw [hsum, vector_of_lt _ hlong, Run.fail_bind]
  · rw [encryptData, repack, vector_of_lt _ (by omega), Run.fail_bind, Run.fail_bind]

/-- A successful call makes the handler return exactly when the counter covers the
ciphertext and a vector can hold it. -/
theorem encryptData_returns_iff (c : Counter) (macbytes : ℕ) (easy : CipherCall)
    (wiped : List Event) (front : List Entry) (nonce : Vector UInt8 24) (data : Bytes)
    (hmac : macbytes ≤ maxSize) (hc : c.Covers 24)
    (heasy : (easy data nonce).2.length = macbytes+data.length)
    (hstatus : (easy data nonce).1 = 0) :
    (encryptData c macbytes easy wiped (pure (front.map Entry.toPmt)) nonce data).result = .ok () ↔
      c.Covers (macbytes+data.length) ∧ macbytes+data.length ≤ maxSize := by
  by_cases hroom : macbytes+data.length ≤ maxSize
  · rw [encryptData_eq c macbytes easy wiped front nonce data hroom hc heasy,
      if_neg (not_not_intro hstatus)]
    by_cases hd : c.Covers data.length
    · rw [if_pos hd]
      by_cases ho : c.Covers (macbytes+data.length)
      · rw [if_pos ho]
        exact iff_of_true (Run.result_emitAll _) ⟨ho,hroom⟩
      · rw [if_neg ho]
        exact iff_of_false (fun h => nomatch h) (fun h => ho h.1)
    · rw [if_neg hd]
      exact iff_of_false (fun h => nomatch h) (fun h => hd (h.1.mono (by omega)))
  · apply iff_of_false _ (fun h => hroom h.2)
    -- one of the two vectors cannot be had
    intro h
    obtain ⟨dataChar,hdata,hrest⟩ := (Run.bind_result_ok_iff _ _ _).mp h
    obtain ⟨dst,hdst,_⟩ := (Run.bind_result_ok_iff _ _ _).mp hdata
    have hmax : maxSize = 9223372036854775807 := rfl
    have hlen : data.length ≤ maxSize := by
      by_contra hlong
      rw [vector_of_lt _ (by omega)] at hdst
      cases hdst
    obtain ⟨ct,hct,_⟩ := (Run.bind_result_ok_iff _ _ _).mp hrest
    have hsum : sizeAdd macbytes data.length = macbytes+data.length := Nat.mod_eq_of_lt (by omega)
    rw [hsum, vector_of_lt _ (by omega)] at hct
    cases hct

end GrNacl
