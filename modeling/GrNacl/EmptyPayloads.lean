import GrNacl.MessageBlocks
import GrNacl.KemChain

/-! Which payloads the clear-text blocks handle. They test the length of what the scan
left and have no found flag, so a vector of length zero is dropped by all four; the
decryptors, which have one, would accept its encryption. -/
namespace GrNacl
set_option autoImplicit false

open EffectTrace CountedLoop

namespace ClearTextBlock

variable {S : Sodium}

/-- The libsodium calls of the block return 0 on the payload. -/
def Succeeds : ClearTextBlock S → Bytes → Prop
  | .encryptSecret b nonce, p => (S.cryptoSecretboxEasy p nonce b.dKey).1 = 0
  | .encryptPublic b nonce, p => (S.cryptoBoxEasy p nonce b.dPk b.dSk).1 = 0
  | .encryptKem b draws, p =>
    (S.cryptoKemEnc b.dPk draws.coins).1 = 0 ∧
      (S.cryptoSecretboxEasy p draws.nonce (S.cryptoKemEnc b.dPk draws.coins).2.2).1 = 0
  | .hashSha3 b, p => (b.cryptoHash S p).1 = 0

/-- The digest or encryption of a payload, as the block packs it. -/
def pdu : ClearTextBlock S → Bytes → List Entry
  | .encryptSecret b nonce, p =>
    encryptedPdu [] nonce.toList (S.cryptoSecretboxEasy p nonce b.dKey).2
  | .encryptPublic b nonce, p =>
    encryptedPdu [] nonce.toList (S.cryptoBoxEasy p nonce b.dPk b.dSk).2
  | .encryptKem b draws, p =>
    encryptedPdu (kemFront (S.cryptoKemEnc b.dPk draws.coins).2.1.toList) draws.nonce.toList
      (S.cryptoSecretboxEasy p draws.nonce (S.cryptoKemEnc b.dPk draws.coins).2.2).2
  | .hashSha3 b, p => b.hashPdu S p

/-- A payload that is not empty is published once, as its digest or encryption. -/
theorem onPayload_answers (b : ClearTextBlock S) (p : Bytes) (hne : p.length ≠ 0)
    (hfits : b.kind.Fits p.length) (hcalls : b.Succeeds p) :
    Answers (b.onPayload p) [messagePmt (b.pdu p)] := by
  have hcovers (n : ℕ) (h : n ≤ 2147483647) : intCounter.Covers n := (covers_some _ _).mpr h
  have hmax : maxSize = 9223372036854775807 := rfl
  cases b with
  | encryptSecret b nonce =>
    have hlen : 16+p.length ≤ 2147483647 := hfits
    rw [encryptSecret_onPayload, if_pos hne]
    exact encryptData_answers intCounter (fun m n => S.cryptoSecretboxEasy m n b.dKey) [] rfl []
      nonce p (by omega) (hcovers 24 (by decide)) (S.secretbox_easy_size p nonce b.dKey)
      (hcovers _ hlen) hcalls
  | encryptPublic b nonce =>
    have hlen : 16+p.length ≤ 2147483647 := hfits
    rw [encryptPublic_onPayload, if_pos hne]
    exact encryptData_answers intCounter (fun m n => S.cryptoBoxEasy m n b.dPk b.dSk) [] rfl []
      nonce p (by omega) (hcovers 24 (by decide)) (S.box_easy_size p nonce b.dPk b.dSk)
      (hcovers _ hlen) hcalls
  | encryptKem b draws =>
    have hrun := encryptData_answers sizeCounter
      (fun m n => S.cryptoSecretboxEasy m n (S.cryptoKemEnc b.dPk draws.coins).2.2)
      [.sodiumMemzero .ss] rfl (kemFront (S.cryptoKemEnc b.dPk draws.coins).2.1.toList) draws.nonce
      p hfits (covers_none _) (S.secretbox_easy_size p draws.nonce _) (covers_none _) hcalls.2
    rw [encryptKem_onPayload b draws p hne _ _ _ rfl, if_neg (not_not_intro hcalls.1),
      Run.emit_bind]
    exact ⟨hrun.returned,hrun.messages⟩
  | hashSha3 b =>
    have hstatus : (b.cryptoHash S p).1 = 0 := hcalls
    rw [hashSha3_onPayload b p hne, if_neg (not_not_intro hstatus)]
    exact answers_pub [] rfl _

section Messages

variable (b : ClearTextBlock S) (entries : List Entry)
  (hscan : b.counter.Covers entries.length)
include hscan

theorem handleMsg_answers (p : Bytes) (hp : lookup "msg_clear" entries = some p) (hne : p ≠ [])
    (hfits : b.kind.Fits p.length) (hcalls : b.Succeeds p) :
    Answers (b.handleMsg (messagePmt entries)) [messagePmt (b.pdu p)] := by
  rw [b.handleMsg_counted entries hscan, hp, Option.getD_some]
  exact b.onPayload_answers p (fun h => hne (List.length_eq_zero_iff.mp h)) hfits hcalls

/-- Without the field, or with an empty vector in it, nothing is published. -/
theorem handleMsg_silent (h : ∀ p, lookup "msg_clear" entries = some p → p = []) :
    Answers (b.handleMsg (messagePmt entries)) [] := by
  have hnil : (lookup "msg_clear" entries).getD [] = [] := by
    cases hp : lookup "msg_clear" entries with
    | none => rfl
    | some p => exact h p hp
  rw [b.handleMsg_counted entries hscan, hnil, b.onPayload_nil]
  exact ⟨rfl,rfl⟩

end Messages

/-- The block publishes one message exactly for a payload with at least one byte. -/
structure PublishesPayload (b : ClearTextBlock S) (entries : List Entry) : Prop where
  returned : (b.handleMsg (messagePmt entries)).result = .ok ()
  one_iff : (∃ msg, published (b.handleMsg (messagePmt entries)).events = [msg]) ↔
    ∃ p, lookup "msg_clear" entries = some p ∧ p ≠ []
  last : ∀ p, lookup "msg_clear" entries = some p → p ≠ [] →
    published (b.handleMsg (messagePmt entries)).events = [messagePmt (b.pdu p)]
  quiet : (∀ p, lookup "msg_clear" entries = some p → p = []) →
    published (b.handleMsg (messagePmt entries)).events = []

theorem publishesPayload (b : ClearTextBlock S) (entries : List Entry)
    (hscan : b.counter.Covers entries.length)
    (hfits : ∀ p, lookup "msg_clear" entries = some p → b.kind.Fits p.length)
    (hcalls : ∀ p, b.Succeeds p) : b.PublishesPayload entries := by
  have hlast (p : Bytes) (hp : lookup "msg_clear" entries = some p) (hne : p ≠ []) :=
    b.handleMsg_answers entries hscan p hp hne (hfits p hp) (hcalls p)
  have hquiet := b.handleMsg_silent entries hscan
  -- a message has such a payload or none, and what is published tells which
  by_cases hsome : ∃ p, lookup "msg_clear" entries = some p ∧ p ≠ []
  · obtain ⟨p,hp,hne⟩ := hsome
    exact ⟨(hlast p hp hne).returned,iff_of_true ⟨_,(hlast p hp hne).messages⟩ ⟨p,hp,hne⟩,
      fun q hq hne => (hlast q hq hne).messages,fun h => (hquiet h).messages⟩
  · have hempty (p : Bytes) (hp : lookup "msg_clear" entries = some p) : p = [] :=
      by_contra fun hne => hsome ⟨p,hp,hne⟩
    refine ⟨(hquiet hempty).returned,?_,fun q hq hne => (hlast q hq hne).messages,
      fun h => (hquiet h).messages⟩
    rw [(hquiet hempty).messages]
    exact iff_of_false (fun ⟨_,h⟩ => nomatch h) hsome

end ClearTextBlock

/-- The blocks handle the payloads of at least one byte, and only those; the decryptors
take the encryption of the empty payload too. -/
theorem payloads_published (S : Sodium) (hsecret : S.SecretboxInverts) (hbox : S.BoxInverts)
    (hkem : S.KemAgrees) :
    (∀ (b : ClearTextBlock S) (entries : List Entry), b.counter.Covers entries.length →
      (∀ p, lookup "msg_clear" entries = some p → b.kind.Fits p.length) → (∀ p, b.Succeeds p) →
      b.PublishesPayload entries) ∧
    (∀ (b : EncryptSecret) (d : DecryptSecret) (n : SecretboxNonce), b.dKey = d.dKey →
      Answers (d.handleMsg S (messagePmt ((ClearTextBlock.encryptSecret (S := S) b n).pdu [])))
        [messagePmt (decryptedPdu [])]) ∧
    (∀ (b : EncryptPublic) (d : DecryptPublic) (n : BoxNonce) (seedA seedB : Bytes),
      b.dPk = (S.cryptoBoxKeypair seedB).1 → b.dSk = (S.cryptoBoxKeypair seedA).2 →
      d.dPk = (S.cryptoBoxKeypair seedA).1 → d.dSk = (S.cryptoBoxKeypair seedB).2 →
      Answers (d.handleMsg S (messagePmt ((ClearTextBlock.encryptPublic (S := S) b n).pdu [])))
        [messagePmt (decryptedPdu [])]) ∧
    ∀ (b : EncryptKem S) (d : DecryptKem S) (draws : KemDraws) (seed : Bytes),
      (S.cryptoKemKeypair seed).1 = 0 → b.dPk = (S.cryptoKemKeypair seed).2.1 →
      d.dSk = (S.cryptoKemKeypair seed).2.2 →
      Answers (d.handleMsg S (messagePmt ((ClearTextBlock.encryptKem b draws).pdu [])))
        [messagePmt (decryptedPdu [])] := by
  refine ⟨?_,?_,?_,?_⟩
  · intro b entries hscan hfits hcalls
    exact b.publishesPayload entries hscan hfits hcalls
  · intro b d n hkey
    have hopen : S.cryptoSecretboxOpenEasy (S.cryptoSecretboxEasy [] n b.dKey).2 n d.dKey =
        (0,[]) := by
      rw [hkey]
      exact (hsecret [] n d.dKey).2
    have h := intPdu_opens (S := S) (Decryptor.secret d) rfl n _ [] _ rfl
      (S.secretbox_easy_size [] n b.dKey) (by decide) hopen
    exact ⟨h.1,h.2⟩
  · intro b d n seedA seedB hbPk hbSk hdPk hdSk
    have hopen : S.cryptoBoxOpenEasy (S.cryptoBoxEasy [] n b.dPk b.dSk).2 n d.dPk d.dSk =
        (0,[]) := by
      rw [hbPk, hbSk, hdPk, hdSk]
      exact (hbox seedA seedB [] n).2
    have h := intPdu_opens (S := S) (Decryptor.box d) rfl n _ [] _ rfl
      (S.box_easy_size [] n b.dPk b.dSk) (by decide) hopen
    exact ⟨h.1,h.2⟩
  · intro b d draws seed hseed hbPk hdSk
    have hdec := (hkem seed draws.coins hseed).2
    rw [← hbPk, ← hdSk] at hdec
    have h := kemPdu_opens S hsecret d _ _ draws.nonce [] hdec (by decide)
    exact ⟨h.1,h.2⟩

theorem payloads_published_reference :
    (ClearTextBlock.hashSha3 (S := referenceSodium) ⟨true⟩).PublishesPayload
        [.field "msg_clear" [5]] ∧
      Answers (DecryptSecret.handleMsg referenceSodium ⟨"key",Vector.replicate 32 1⟩
          (messagePmt ((ClearTextBlock.encryptSecret (S := referenceSodium)
            ⟨"key",Vector.replicate 32 1⟩ (Vector.replicate 24 0)).pdu [])))
        [messagePmt (decryptedPdu [])] := by
  have h := payloads_published referenceSodium reference_secretbox_inverts reference_box_inverts
    reference_kem_agrees
  exact ⟨h.1 _ _ (covers_none _) (fun _ _ => trivial) (fun _ => rfl),
    h.2.1 ⟨"key",Vector.replicate 32 1⟩ ⟨"key",Vector.replicate 32 1⟩ _ rfl⟩

/-- A zero-length vector under msg_clear: no block publishes anything. -/
theorem empty_payload_dropped :
    lookup "msg_clear" [.field "msg_clear" []] = some [] ∧
      ∀ b ∈ [ClearTextBlock.hashSha3 (S := referenceSodium) ⟨false⟩,.hashSha3 ⟨true⟩,
        .encryptSecret ⟨"key",Vector.replicate 32 1⟩ (Vector.replicate 24 0),
        .encryptPublic ⟨"pk","sk",Vector.replicate 32 1,Vector.replicate 32 2⟩
          (Vector.replicate 24 0),
        .encryptKem ⟨"kem.pk",Vector.replicate 1216 1⟩ ⟨[],Vector.replicate 24 0⟩],
        published (b.handleMsg (messagePmt [.field "msg_clear" []])).events = [] := by
  refine ⟨rfl,?_⟩
  intro b _
  have hquiet : b.handleMsg (messagePmt [.field "msg_clear" []]) = pure () := b.onPayload_nil
  rw [hquiet]
  rfl

end GrNacl
