import GrNacl.MessageBlocks
import GrNacl.KeyGeneration
import GrNacl.SodiumInstance

/-! What is left of the KEM secrets on the stack. The source wipes them by hand before
each return, so a statement that throws in between leaves them. -/
namespace GrNacl
set_option autoImplicit false

open EffectTrace CountedLoop

/-- Whether a buffer holds its secret after an event. -/
def SecretBuffer.step (b : SecretBuffer) (held : Bool) : Event → Bool
  | .fill b' => if b' = b then true else held
  | .sodiumMemzero b' => if b' = b then false else held
  | _ => held

/-- Left by a return or by an exception, the call has wiped the buffer. -/
def LeftWiped (b : SecretBuffer) (x : Handler Unit) : Prop :=
  x.result ≠ .error .undefinedBehaviour → observe b.step false x.events = false

theorem leftWiped_of_ends {b : SecretBuffer} {x : Handler Unit} {r : Except Fault Unit}
    (h : x.Ends b.step false r false) : LeftWiped b x := fun _ => h.observed

theorem not_leftWiped_of_ends {b : SecretBuffer} {x : Handler Unit} {r : Except Fault Unit}
    (h : x.Ends b.step false r true) (hr : r ≠ .error .undefinedBehaviour) : ¬LeftWiped b x := by
  intro hleft
  have hheld := hleft (h.result ▸ hr)
  rw [h.observed] at hheld
  cases hheld

/-- Nothing that follows the call to open a message touches a secret. -/
theorem observe_afterOpen (b : SecretBuffer) (held : Bool) (found : List String) (r : ℤ × Bytes) :
    observe b.step held (afterOpen found r) = held := by
  apply observe_ignored
  intro e he s
  unfold afterOpen at he
  split at he
  · rw [List.mem_singleton.mp he]
    rfl
  · obtain ⟨line,_,hline⟩ := List.mem_map.mp he
    rw [← hline]
    rfl

section Handlers

variable {S : Sodium}

/-- encrypt_kem keeps the secret only where no vector can hold the ciphertext. -/
theorem encryptKem_leftWiped_iff (b : EncryptKem S) (draws : KemDraws) (entries : List Entry) :
    LeftWiped .ss (b.handleMsg S draws (messagePmt entries)) ↔
      (S.cryptoKemEnc b.dPk draws.coins).1 ≠ 0 ∨
        16+((lookup "msg_clear" entries).getD []).length ≤ maxSize := by
  have hmsg : b.handleMsg S draws (messagePmt entries) = _ :=
    ClearTextBlock.handleMsg_counted (.encryptKem b draws) entries (covers_none _)
  rw [hmsg]
  generalize (lookup "msg_clear" entries).getD [] = p
  rcases henc : S.cryptoKemEnc b.dPk draws.coins with ⟨st,ct,ss⟩
  dsimp only
  by_cases hne : p.length ≠ 0
  · rw [ClearTextBlock.encryptKem_onPayload b draws p hne st ct ss henc]
    by_cases hst : st ≠ 0
    · rw [if_pos hst]
      exact iff_of_true (leftWiped_of_ends (Run.ends_emitAll _)) (Or.inl hst)
    · rw [if_neg hst]
      by_cases hroom : 16+p.length ≤ maxSize
      · rw [encryptData_counted sizeCounter 16 _ _ _ draws.nonce p hroom (covers_none _)
          (S.secretbox_easy_size p draws.nonce ss) (covers_none _)]
        -- what is printed or published after the wiping does not fill the buffer again
        have hafter (e : Prop) [Decidable e] (line : String) (msg : Pmt) :
            (Run.emitAll ([.sodiumMemzero .ss] ++ [if e then .cout line else .messagePortPub msg]) :
              Handler Unit).Ends SecretBuffer.ss.step true (.ok ()) false := by
          refine ⟨rfl,?_⟩
          split <;> rfl
        exact iff_of_true (leftWiped_of_ends ((Run.ends_emit _).bind (hafter _ _ _))) (Or.inr hroom)
      · rw [encryptData_tooLong sizeCounter 16 _ _ _ draws.nonce p (by decide) (covers_none _)
          (by omega)]
        apply iff_of_false
        · exact not_leftWiped_of_ends ((Run.ends_emit _).bind (Run.ends_fail _))
            (fun h => nomatch h)
        · exact fun h => h.elim hst hroom
  · have hnil : p = [] := List.length_eq_zero_iff.mp (not_not.mp hne)
    rw [hnil, ClearTextBlock.onPayload_nil]
    exact iff_of_true (fun _ => rfl) (Or.inr (by decide))

/-- The one way decrypt_kem is not left: the call reads past a short nonce. -/
theorem decryptKem_undefined_iff (b : DecryptKem S) (entries : List Entry)
    (hroom : LeavesRoom 0 entries) :
    (b.handleMsg S (messagePmt entries)).result = .error .undefinedBehaviour ↔
      ∃ a, (Decryptor.kem b).attempt entries = some a ∧ 16 ≤ a.data.length ∧
        a.nonce.length < 24 := by
  have hcounted (a : Attempt) : (Decryptor.kem b).counter.Covers a.data.length ∧
      (Decryptor.kem b).counter.Covers a.nonce.length := ⟨covers_none _,covers_none _⟩
  cases decryptKem_outcome entries hroom b with
  | scanOverflows hscan hx => exact absurd (covers_none _) hscan
  | idle hscan hnone hresult hquiet =>
    rw [hresult, hnone]
    exact iff_of_false (fun h => nomatch h) (fun ⟨a,ha,_⟩ => nomatch ha)
  | attempted a hscan ha hx =>
    have honly : (∃ a', (Decryptor.kem b).attempt entries = some a' ∧ 16 ≤ a'.data.length ∧
        a'.nonce.length < 24) ↔ 16 ≤ a.data.length ∧ a.nonce.length < 24 := by
      rw [ha]
      exact ⟨fun ⟨a',he,h⟩ => Option.some.inj he ▸ h, fun h => ⟨a,rfl,h⟩⟩
    rw [honly]
    cases hx with
    | copyOverflows hcopy hresult hquiet => exact absurd (hcounted a) hcopy
    | lengthWraps hcopy hshort hresult hquiet =>
      rw [hresult]
      exact iff_of_false (fun h => nomatch h) (fun h => by omega)
    | overreads hcopy hdata hshort hresult hpublished hopened =>
      exact iff_of_true hresult ⟨hdata,hshort⟩
    | opens n hcopy hdata hread hresult hpublished hopened =>
      have hlong := ((arrayOf_eq_some_iff 24 a.nonce n).mp hread).1
      rw [hresult]
      exact iff_of_false (fun h => nomatch h) (fun h => by omega)

/-- decrypt_kem keeps the secret exactly when it comes to data without room for a MAC. -/
theorem decryptKem_leftWiped_iff (b : DecryptKem S) (entries : List Entry)
    (hroom : LeavesRoom 0 entries) :
    LeftWiped .ss (b.handleMsg S (messagePmt entries)) ↔
      ∀ a, (Decryptor.kem b).attempt entries = some a → 16 ≤ a.data.length := by
  rcases decryptKem_cases b entries with ⟨hnone,hidle⟩ | ⟨ss,data,nonce,ha,hx⟩
  · apply iff_of_true
    · rcases hidle with hx | hx | hx <;> rw [hx] <;> exact fun _ => rfl
    · intro a ha
      rw [hnone] at ha
      cases ha
  · obtain ⟨_,hdata,hnonce⟩ := Decryptor.attempt_fields _ entries _ ha
    have hd := lookup_leavesRoom 0 entries hroom "msg_encrypted" data hdata
    have hn := lookup_leavesRoom 0 entries hroom "nonce" nonce hnonce
    have honly : (∀ a, (Decryptor.kem b).attempt entries = some a → 16 ≤ a.data.length) ↔
        16 ≤ data.length := by
      rw [ha]
      exact ⟨fun h => h _ rfl, fun h a he => Option.some.inj he ▸ h⟩
    rw [hx, honly]
    by_cases hmac : 16 ≤ data.length
    · apply iff_of_true _ hmac
      by_cases hlong : 24 ≤ nonce.length
      · obtain ⟨n,hread⟩ := exists_arrayOf 24 nonce hlong
        rw [decryptData_opens sizeCounter 16 _ _ _ data nonce hd hn (covers_none _) (covers_none _)
          hmac (fun n => S.secretbox_open_size data n ss) n hread]
        -- the call is followed by the wiping on either status
        exact leftWiped_of_ends ((Run.ends_emit _).bind ⟨rfl,observe_afterOpen .ss false _ _⟩)
      · rw [decryptData_overread sizeCounter 16 _ _ _ data nonce hd hn (covers_none _)
          (covers_none _) hmac (by omega)]
        exact fun hexit => absurd rfl hexit
    · -- the vector for the clear text throws before the call and the wiping behind it
      rw [decryptData_short sizeCounter 16 _ _ _ data nonce hd hn (covers_none _) (covers_none _)
        (by decide) (by omega)]
      apply iff_of_false _ hmac
      exact not_leftWiped_of_ends ((Run.ends_emit _).bind (Run.ends_fail _)) (fun h => nomatch h)

end Handlers

/-- Writing a key to a file does not touch the buffer it came from. -/
theorem writeKey_held (b : SecretBuffer) (held : Bool) {n : ℕ} (out : OutFile)
    (filename notOpened : String) (key : Vector UInt8 n) :
    (writeKey out filename notOpened key).Ends b.step held
      (if out.opens then .ok () else .error (.runtimeError notOpened)) held := by
  unfold writeKey
  split
  · exact ⟨rfl,rfl⟩
  · exact ⟨rfl,rfl⟩

/-- generate_kem_keypair, once it has a pair, wipes the secret half only if both files open. -/
theorem generateKemKeypair_leftWiped_iff (S : Sodium) (seed : Bytes) (outSk outPk : OutFile)
    (filenameSk filenamePk : String) (hinit : ¬S.sodiumInit < 0)
    (hstatus : (S.cryptoKemKeypair seed).1 = 0) :
    LeftWiped .sk (generateKemKeypair S seed outSk outPk filenameSk filenamePk) ↔
      outSk.opens = true ∧ outPk.opens = true := by
  have hsk := writeKey_held .sk true outSk filenameSk
    "Failed to open secret-key file for writing." (S.cryptoKemKeypair seed).2.2
  have hpk := writeKey_held .sk true outPk filenamePk
    "Failed to open public-key file for writing." (S.cryptoKemKeypair seed).2.1
  rw [generateKemKeypair, if_neg hinit]
  dsimp only
  rw [if_neg (not_not_intro hstatus)]
  by_cases hoSk : outSk.opens = true
  · rw [if_pos hoSk] at hsk
    by_cases hoPk : outPk.opens = true
    · rw [if_pos hoPk] at hpk
      apply iff_of_true _ ⟨hoSk,hoPk⟩
      exact leftWiped_of_ends ((Run.ends_emitAll _).bind ((Run.ends_emit _).bind
        (hsk.bind (hpk.bind ((Run.ends_emit _).bind (Run.ends_emitAll _))))))
    · rw [if_neg hoPk] at hpk
      apply iff_of_false _ (fun h => hoPk h.2)
      exact not_leftWiped_of_ends ((Run.ends_emitAll _).bind ((Run.ends_emit _).bind
        (hsk.bind hpk.bind_error))) (by decide)
  · rw [if_neg hoSk] at hsk
    apply iff_of_false _ (fun h => hoSk h.1)
    exact not_leftWiped_of_ends ((Run.ends_emitAll _).bind ((Run.ends_emit _).bind
      hsk.bind_error)) (by decide)

/-- When the three functions wipe their secrets on every exit, and when decrypt_kem has none. -/
theorem secrets_wiped_iff (S : Sodium) (entries : List Entry) (hroom : LeavesRoom 0 entries) :
    (∀ (b : EncryptKem S) (draws : KemDraws),
      LeftWiped .ss (b.handleMsg S draws (messagePmt entries)) ↔
        (S.cryptoKemEnc b.dPk draws.coins).1 ≠ 0 ∨
          16+((lookup "msg_clear" entries).getD []).length ≤ maxSize) ∧
    (∀ b : DecryptKem S,
      (LeftWiped .ss (b.handleMsg S (messagePmt entries)) ↔
        ∀ a, (Decryptor.kem b).attempt entries = some a → 16 ≤ a.data.length) ∧
      ((b.handleMsg S (messagePmt entries)).result = .error .undefinedBehaviour ↔
        ∃ a, (Decryptor.kem b).attempt entries = some a ∧ 16 ≤ a.data.length ∧
          a.nonce.length < 24)) ∧
    ∀ (seed : Bytes) (outSk outPk : OutFile) (filenameSk filenamePk : String),
      (¬S.sodiumInit < 0 → (S.cryptoKemKeypair seed).1 = 0 →
        LeftWiped .sk (generateKemKeypair S seed outSk outPk filenameSk filenamePk)) ↔
      S.sodiumInit < 0 ∨ (S.cryptoKemKeypair seed).1 ≠ 0 ∨
        (outSk.opens = true ∧ outPk.opens = true) := by
  refine ⟨?_,?_,?_⟩
  · intro b draws
    exact encryptKem_leftWiped_iff b draws entries
  · intro b
    exact ⟨decryptKem_leftWiped_iff b entries hroom,decryptKem_undefined_iff b entries hroom⟩
  · intro seed outSk outPk filenameSk filenamePk
    by_cases hinit : S.sodiumInit < 0
    · exact iff_of_true (fun h => absurd hinit h) (Or.inl hinit)
    · by_cases hstatus : (S.cryptoKemKeypair seed).1 = 0
      · have hiff := generateKemKeypair_leftWiped_iff S seed outSk outPk filenameSk filenamePk
          hinit hstatus
        constructor
        · intro h
          exact Or.inr (Or.inr (hiff.mp (h hinit hstatus)))
        · intro h _ _
          rcases h with h | h | h
          · exact absurd h hinit
          · exact absurd hstatus h
          · exact hiff.mpr h
      · exact iff_of_true (fun _ h => absurd h hstatus) (Or.inr (Or.inl hstatus))

/-- A payload, and the fields of a PDU of nothing but a MAC. -/
def clearAndSealed : List Entry :=
  [.field "msg_clear" [1],.field "kem_ciphertext" (List.replicate 1120 0),
    .field "nonce" (List.replicate 24 0),.field "msg_encrypted" (List.replicate 16 0)]

theorem clearAndSealed_leavesRoom : LeavesRoom 0 clearAndSealed := by
  simp only [clearAndSealed, leavesRoom_field_cons, List.length_replicate]
  exact ⟨by decide,by decide,by decide,by decide,leavesRoom_nil 0⟩

theorem secrets_wiped_iff_sealed :
    let sender : EncryptKem referenceSodium := ⟨"kem.pk",Vector.replicate 1216 0⟩
    let receiver : DecryptKem referenceSodium := ⟨"kem.sk",Vector.replicate 32 0⟩
    LeavesRoom 0 clearAndSealed ∧
      LeftWiped .ss (sender.handleMsg referenceSodium ⟨[],Vector.replicate 24 0⟩
        (messagePmt clearAndSealed)) ∧
      LeftWiped .ss (receiver.handleMsg referenceSodium (messagePmt clearAndSealed)) ∧
      (receiver.handleMsg referenceSodium (messagePmt clearAndSealed)).result ≠
        .error .undefinedBehaviour ∧
      LeftWiped .sk (generateKemKeypair referenceSodium [] ⟨true,32⟩ ⟨true,1216⟩ "kem.sk"
        "kem.pk") := by
  intro sender receiver
  have hroom := clearAndSealed_leavesRoom
  obtain ⟨hsender,hreceiver,hgenerator⟩ := secrets_wiped_iff referenceSodium clearAndSealed hroom
  have hfields (a : Attempt)
      (ha : (Decryptor.kem receiver).attempt clearAndSealed = some a) :
      a.data.length = 16 ∧ a.nonce.length = 24 := by
    obtain ⟨_,hdata,hnonce⟩ := Decryptor.attempt_fields _ clearAndSealed a ha
    rw [← Option.some.inj hdata, ← Option.some.inj hnonce]
    exact ⟨rfl,rfl⟩
  refine ⟨hroom,?_,?_,?_,?_⟩
  · exact (hsender sender ⟨[],Vector.replicate 24 0⟩).mpr (Or.inr (by decide))
  · apply (hreceiver receiver).1.mpr
    intro a ha
    exact Nat.le_of_eq (hfields a ha).1.symm
  · intro hundefined
    obtain ⟨a,ha,_,hshort⟩ := (hreceiver receiver).2.mp hundefined
    rw [(hfields a ha).2] at hshort
    exact absurd hshort (by decide)
  · exact (hgenerator [] ⟨true,32⟩ ⟨true,1216⟩ "kem.sk" "kem.pk").mpr (Or.inr (Or.inr ⟨rfl,rfl⟩))
      (by decide) rfl

/-- A PDU whose KEM ciphertext is good and whose encrypted field is empty. -/
def macless : List Entry :=
  [.field "kem_ciphertext" (List.replicate 1120 0),.field "nonce" (List.replicate 24 0),
    .field "msg_encrypted" []]

theorem macless_leavesRoom : LeavesRoom 0 macless := by
  simp only [macless, leavesRoom_field_cons, List.length_replicate, List.length_nil]
  exact ⟨by decide,by decide,by decide,leavesRoom_nil 0⟩

/-- The secret stays behind the exception of a vector in decrypt_kem, and behind that of
an output file in generate_kem_keypair. -/
theorem secret_left_behind :
    let receiver : DecryptKem referenceSodium := ⟨"kem.sk",Vector.replicate 32 0⟩
    ¬LeftWiped .ss (receiver.handleMsg referenceSodium (messagePmt macless)) ∧
      ¬LeftWiped .sk (generateKemKeypair referenceSodium [] ⟨true,1216⟩ ⟨false,1216⟩
        "kem.sk" "kem.pk") := by
  intro receiver
  constructor
  · rw [decryptKem_leftWiped_iff receiver macless macless_leavesRoom]
    have hcipher := Decryptor.cipher_kem receiver macless (List.replicate 1120 0) rfl
    have hlen : (List.replicate 1120 (0 : UInt8)).length =
        referenceSodium.cryptoKemCIPHERTEXTBYTES := List.length_replicate
    have hss := (receiver.sharedSecret_eq _ hlen).trans (if_pos rfl)
    rw [hss, Option.map_some] at hcipher
    have ha := Decryptor.attempt_eq _ macless _ [] (List.replicate 24 0) hcipher rfl rfl
    intro h
    have hshort : 16 ≤ ([] : Bytes).length := h _ ha
    exact absurd hshort (by decide)
  · rw [generateKemKeypair_leftWiped_iff referenceSodium [] _ _ _ _ (by decide) rfl]
    exact fun h => nomatch h.2

end GrNacl
