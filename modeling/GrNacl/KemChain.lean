import GrNacl.MessageBlocks
import GrNacl.MessageChains
import GrNacl.KeyGeneration
import GrNacl.SodiumInstance

/-! The KEM chain: generate_kem_keypair, both constructors, and encrypt_kem feeding
decrypt_kem. Its handlers count with a size_t, so every message goes through. -/
namespace GrNacl
set_option autoImplicit false

open EffectTrace CountedLoop

theorem readKey_written {n : ℕ} (files : Files) (filename missing tooShort : String)
    (key : Vector UInt8 n) (hfile : files filename = some key.toList) :
    readKey n files filename missing tooShort = pure key := by
  rw [readKey, hfile]
  dsimp only
  rw [arrayOf_toList]

theorem encryptKem_written (S : Sodium) (files : Files) (filenamePk : String)
    (pk : Vector UInt8 S.cryptoKemPUBLICKEYBYTES) (hfile : files filenamePk = some pk.toList) :
    encryptKem S files filenamePk = pure ⟨filenamePk,pk⟩ := by
  rw [encryptKem, readKey_written files _ _ _ pk hfile]
  rfl

theorem decryptKem_written (S : Sodium) (files : Files) (filenameSk : String)
    (sk : Vector UInt8 S.cryptoKemSECRETKEYBYTES) (hfile : files filenameSk = some sk.toList) :
    decryptKem S files filenameSk = pure ⟨filenameSk,sk⟩ := by
  rw [decryptKem, readKey_written files _ _ _ sk hfile]
  rfl

theorem lookup_kemFront (ct : Bytes) : lookup "kem_ciphertext" (kemFront ct) = some ct := by
  have h := lookup_append "kem_ciphertext" [] (.field "kem_ciphertext" ct)
  rw [value_field_self, Option.some_or] at h
  exact h

/-- The shared secret of a ciphertext that came from an array. -/
theorem sharedSecret_toList (S : Sodium) (d : DecryptKem S)
    (ct : Vector UInt8 S.cryptoKemCIPHERTEXTBYTES) (ss : SharedSecret)
    (h : S.cryptoKemDec ct d.dSk = (0,ss)) : d.sharedSecret S ct.toList = some ss := by
  have hlen : ct.toList.length = S.cryptoKemCIPHERTEXTBYTES := ct.length_toList
  have hct : (⟨ct.toList.toArray,hlen⟩ : Vector UInt8 S.cryptoKemCIPHERTEXTBYTES) = ct :=
    Vector.toList_inj.mp List.toList_toArray
  rw [d.sharedSecret_eq ct.toList hlen, hct, h, if_pos rfl]

/-- encrypt_kem on a payload whose encapsulation succeeds publishes one PDU. -/
theorem encryptKem_publishes (S : Sodium) (hS : S.SecretboxInverts) (e : EncryptKem S)
    (draws : KemDraws) (m : Message 16) (p : Bytes) (hp : m.payload = some p)
    (ct : Vector UInt8 S.cryptoKemCIPHERTEXTBYTES) (ss : SharedSecret)
    (henc : S.cryptoKemEnc e.dPk draws.coins = (0,ct,ss)) :
    e.handleMsg S draws m.toPmt = Run.emitAll [.fill .ss,.sodiumMemzero .ss,.messagePortPub
      (messagePmt (encryptedPdu (kemFront ct.toList) draws.nonce.toList
        (S.cryptoSecretboxEasy p draws.nonce ss).2))] := by
  obtain ⟨hfield,hne⟩ := payload_field m p hp
  have hlen := lookup_leavesRoom 16 m.entries m.inMemory "msg_clear" p hfield
  have hlookup : lookup "msg_clear" m.entries = some p := hfield
  have hmsg : e.handleMsg S draws m.toPmt = _ :=
    ClearTextBlock.handleMsg_counted (.encryptKem e draws) m.entries (covers_none _)
  have hrun := encryptData_counted sizeCounter 16 (fun m n => S.cryptoSecretboxEasy m n ss)
    [.sodiumMemzero .ss] (kemFront ct.toList) draws.nonce p (by omega) (covers_none _)
    (S.secretbox_easy_size p draws.nonce ss) (covers_none _)
  rw [if_neg (not_not_intro (hS p draws.nonce ss).1)] at hrun
  rw [hmsg, hlookup, Option.getD_some,
    ClearTextBlock.encryptKem_onPayload e draws p hne 0 ct ss henc, if_neg (not_not_intro rfl),
    hrun, Run.emit_bind]
  rfl

/-- decrypt_kem opens a PDU whose ciphertext decapsulates to the secret it was made under. -/
theorem kemPdu_opens (S : Sodium) (hS : S.SecretboxInverts) (d : DecryptKem S)
    (ct : Vector UInt8 S.cryptoKemCIPHERTEXTBYTES) (ss : SharedSecret) (n : SecretboxNonce)
    (p : Bytes) (hdec : S.cryptoKemDec ct d.dSk = (0,ss)) (hlen : p.length+16 ≤ maxSize) :
    (d.handleMsg S (messagePmt (encryptedPdu (kemFront ct.toList) n.toList
        (S.cryptoSecretboxEasy p n ss).2))).result = .ok () ∧
      published (d.handleMsg S (messagePmt (encryptedPdu (kemFront ct.toList) n.toList
        (S.cryptoSecretboxEasy p n ss).2))).events = [messagePmt (decryptedPdu p)] := by
  have hmax : maxSize = 9223372036854775807 := rfl
  have hsize : (S.cryptoSecretboxEasy p n ss).2.length = 16+p.length :=
    S.secretbox_easy_size p n ss
  have hnonce : n.toList.length = 24 := n.length_toList
  have hkem := S.kem_ciphertext_fits
  have hroom : LeavesRoom 0 (encryptedPdu (kemFront ct.toList) n.toList
      (S.cryptoSecretboxEasy p n ss).2) := by
    apply leavesRoom_encryptedPdu
    · rw [kemFront, leavesRoom_field_cons, Vector.length_toList]
      exact ⟨by omega, leavesRoom_nil 0⟩
    · omega
    · omega
  have hcipher : (Decryptor.kem d).cipher (encryptedPdu (kemFront ct.toList) n.toList
      (S.cryptoSecretboxEasy p n ss).2) = some (S.secretboxUnder ss) := by
    have hfield := lookup_encryptedPdu_front "kem_ciphertext" (by decide) (by decide)
      (kemFront ct.toList) n.toList (S.cryptoSecretboxEasy p n ss).2
    rw [Decryptor.cipher_kem d _ ct.toList (hfield.trans (lookup_kemFront ct.toList)),
      sharedSecret_toList S d ct ss hdec, Option.map_some]
  exact pdu_opens (Decryptor.kem d) _ n _ p _ hroom hcipher (covers_none _) (covers_none _)
    (covers_none _) (by omega) (hS p n ss).2

/-- One message through the KEM chain. -/
theorem kem_relays (S : Sodium) (hkem : S.KemAgrees) (hS : S.SecretboxInverts) (seed : Bytes)
    (hseed : (S.cryptoKemKeypair seed).1 = 0) (e : EncryptKem S) (d : DecryptKem S)
    (hpk : e.dPk = (S.cryptoKemKeypair seed).2.1) (hsk : d.dSk = (S.cryptoKemKeypair seed).2.2)
    (x : KemDraws × Message 16) :
    Relays (fun x => e.handleMsg S x.1 x.2.toPmt) (d.handleMsg S) x := by
  obtain ⟨hstatus,hdec⟩ := hkem seed x.1.coins hseed
  rw [← hpk, ← hsk] at hdec
  rw [← hpk] at hstatus
  cases hp : x.2.payload with
  | none =>
    have hsend : e.handleMsg S x.1 x.2.toPmt = pure () := by
      rw [EncryptKem.handleMsg, Message.toPmt, scanClear_eq, if_pos (covers_none _), pure_bind,
        if_pos (payload_none x.2 hp)]
    exact relays_nothing _ _ x hp hsend
  | some p =>
    have henc : S.cryptoKemEnc e.dPk x.1.coins =
        (0,(S.cryptoKemEnc e.dPk x.1.coins).2.1,(S.cryptoKemEnc e.dPk x.1.coins).2.2) :=
      Prod.ext hstatus rfl
    have hsend := encryptKem_publishes S hS e x.1 x.2 p hp _ _ henc
    have hlen := lookup_leavesRoom 16 x.2.entries x.2.inMemory "msg_clear" p
      (payload_field x.2 p hp).1
    have hrecv := kemPdu_opens S hS d _ _ x.1.nonce p hdec hlen
    apply relays_pdu _ _ x p _ hp _ _ hrecv.1 hrecv.2
    · rw [hsend, Run.result_emitAll]
    · rw [hsend]
      rfl

/-- From a key pair that generate_kem_keypair has written to two files, encrypt_kem
delivers every sequence of messages to decrypt_kem, on all draws. -/
theorem kem_chain_delivers (S : Sodium) (hkem : S.KemAgrees) (hS : S.SecretboxInverts)
    (seed : Bytes) (files : Files) (outSk outPk : OutFile) (filenameSk filenamePk : String)
    (hdistinct : filenameSk ≠ filenamePk)
    (hok : (generateKemKeypair S seed outSk outPk filenameSk filenamePk).result = .ok ())
    (hroomSk : S.cryptoKemSECRETKEYBYTES ≤ outSk.room)
    (hroomPk : S.cryptoKemPUBLICKEYBYTES ≤ outPk.room) : ∃ e d,
      (encryptKem S (files.replay (generateKemKeypair S seed outSk outPk filenameSk
        filenamePk).events) filenamePk).result = .ok e ∧
      (decryptKem S (files.replay (generateKemKeypair S seed outSk outPk filenameSk
        filenamePk).events) filenameSk).result = .ok d ∧
      ∀ inputs : List (KemDraws × Message 16),
        Delivers (fun x => e.handleMsg S x.1 x.2.toPmt) (d.handleMsg S) inputs := by
  have hseed := ((generateKemKeypair_ok_iff S seed outSk outPk _ _).mp hok).2.1
  obtain ⟨_,hfiles⟩ := generateKemKeypair_leaves S files seed outSk outPk filenameSk filenamePk hok
    hroomSk hroomPk
  refine ⟨⟨filenamePk,(S.cryptoKemKeypair seed).2.1⟩,⟨filenameSk,(S.cryptoKemKeypair seed).2.2⟩,
    ?_,?_,?_⟩
  · rw [encryptKem_written S _ filenamePk (S.cryptoKemKeypair seed).2.1, Run.result_pure]
    rw [hfiles, Function.update_self]
  · -- the public key was written after it, but to another file
    rw [decryptKem_written S _ filenameSk (S.cryptoKemKeypair seed).2.2, Run.result_pure]
    rw [hfiles, Function.update_of_ne hdistinct, Function.update_self]
  · intro inputs
    apply delivers_of_relays
    intro x hx
    exact kem_relays S hkem hS seed hseed _ _ rfl rfl x

theorem reference_kem_generates :
    (generateKemKeypair referenceSodium [] ⟨true,32⟩ ⟨true,1216⟩ "kem.sk" "kem.pk").result =
      .ok () := by
  rw [generateKemKeypair, if_neg (by decide)]
  dsimp only
  rw [Run.emitAll_bind, if_neg (by decide)]
  rfl

theorem kem_chain_delivers_reference : ∃ e d,
    (encryptKem referenceSodium (Files.replay (fun _ => none) (generateKemKeypair referenceSodium []
      ⟨true,32⟩ ⟨true,1216⟩ "kem.sk" "kem.pk").events) "kem.pk").result = .ok e ∧
    (decryptKem referenceSodium (Files.replay (fun _ => none) (generateKemKeypair referenceSodium []
      ⟨true,32⟩ ⟨true,1216⟩ "kem.sk" "kem.pk").events) "kem.sk").result = .ok d ∧
    ∀ inputs : List (KemDraws × Message 16),
      Delivers (fun x => e.handleMsg referenceSodium x.1 x.2.toPmt) (d.handleMsg referenceSodium)
        inputs :=
  kem_chain_delivers referenceSodium reference_kem_agrees reference_secretbox_inverts []
    (fun _ => none) ⟨true,32⟩ ⟨true,1216⟩ "kem.sk" "kem.pk" (by decide) reference_kem_generates
    (Nat.le_refl 32) (Nat.le_refl 1216)

end GrNacl
