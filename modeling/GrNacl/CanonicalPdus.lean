import GrNacl.DecryptorRuns

/-! Which PDUs a decryptor accepts. The length of the nonce field is never checked:
a longer field is cut to the nonce size and a shorter one is read past its end. -/
namespace GrNacl
set_option autoImplicit false

open EffectTrace CountedLoop

namespace Decryptor

variable {S : Sodium} (d : Decryptor S)

def Accepts (m : Message 0) : Prop := ∃ p, d.Publishes m p

/-- A nonce field that reaches the opening call has the size of a nonce. -/
def NonceExact (m : Message 0) : Prop := ∀ a, d.Reaches m a → a.nonce.length = 24

/-- The opening call gets a nonce buffer of the exact size, and what is published
encrypts to the msg_encrypted field under the nonce field. -/
structure Canonical (m : Message 0) : Prop where
  exactBuffer : ∀ buf ∈ openNonces (d.handleMsg m.toPmt).events, buf.length = 24
  reencrypts : ∀ p, d.Publishes m p → ∃ a, d.attempt m.entries = some a ∧
    ∃ n : Vector UInt8 24, a.nonce = n.toList ∧ a.cipher.easy p n = (0,a.data)

theorem cipher_opens_only (hS : S.OpensOnlySealed) (entries : List Entry) (k : Cipher)
    (hk : d.cipher entries = some k) (c : Bytes) (n : Vector UInt8 24) (p : Bytes) :
    k.openEasy c n = (0,p) ↔ k.easy p n = (0,c) := by
  cases d with
  | secret b =>
    cases Option.some.inj hk
    exact hS.1 c n b.dKey p
  | box b =>
    cases Option.some.inj hk
    exact hS.2 c n b.dPk b.dSk p
  | kem b =>
    obtain ⟨ss,hss,rfl⟩ := Option.map_eq_some_iff.mp hk
    exact hS.1 c n ss p

/-- Canonical acceptance is exactly acceptance of nonce fields of the right size. -/
theorem canonical_iff (hS : S.OpensOnlySealed) (m : Message 0) :
    d.Canonical m ↔ d.NonceExact m := by
  constructor
  · intro h a ha
    exact h.exactBuffer a.nonce ((d.mem_openNonces_iff m a.nonce).mpr ⟨a,ha,rfl⟩)
  · intro h
    refine ⟨?_, ?_⟩
    · intro buf hbuf
      obtain ⟨a,ha,rfl⟩ := (d.mem_openNonces_iff m buf).mp hbuf
      exact h a ha
    · intro p hp
      obtain ⟨a,n,ha,hn,hopen⟩ := (d.publishes_iff m p).mp hp
      have hnonce := toList_of_arrayOf 24 a.nonce n hn (h a ha)
      have hcipher := (d.attempt_fields m.entries a ha.attempted).1
      have heasy := (d.cipher_opens_only hS m.entries a.cipher hcipher a.data n p).mp hopen
      exact ⟨a,ha.attempted,n,hnonce,heasy⟩

end Decryptor

/-- The messages differ in the nonce field alone, which the second one continues. -/
structure ExtendsNonce (m m' : Message 0) (nonce extra : Bytes) : Prop where
  proper : extra ≠ []
  shorter : m.field "nonce" = some nonce
  longer : m'.field "nonce" = some (nonce ++ extra)
  sameData : m'.field "msg_encrypted" = m.field "msg_encrypted"
  sameKem : m'.field "kem_ciphertext" = m.field "kem_ciphertext"

namespace Decryptor

variable {S : Sodium} (d : Decryptor S)

theorem attempt_extended (m m' : Message 0) (nonce extra : Bytes)
    (hext : ExtendsNonce m m' nonce extra) (a : Attempt) (ha : d.attempt m.entries = some a) :
    d.attempt m'.entries = some { a with nonce := nonce ++ extra } := by
  obtain ⟨hcipher,hdata,hnonce⟩ := d.attempt_fields m.entries a ha
  have hcipher' : d.cipher m'.entries = some a.cipher := by
    cases d with
    | secret b => exact hcipher
    | box b => exact hcipher
    | kem b =>
      -- the key of decrypt_kem depends on the message, but not on its nonce
      have hkem : lookup "kem_ciphertext" m'.entries = lookup "kem_ciphertext" m.entries :=
        hext.sameKem
      rw [cipher, hkem]
      exact hcipher
  exact d.attempt_eq m'.entries a.cipher a.data (nonce ++ extra) hcipher'
    (hext.sameData.trans hdata) hext.longer

/-- An accepted PDU stays accepted, with the same clear text, whatever is appended to
its nonce field. -/
theorem publishes_extended (m m' : Message 0) (nonce extra : Bytes)
    (hext : ExtendsNonce m m' nonce extra) (hscan : d.counter.Covers m'.entries.length)
    (hcopy : d.counter.Covers (nonce ++ extra).length) (p : Bytes) (hp : d.Publishes m p) :
    d.Publishes m' p := by
  obtain ⟨a,n,ha,hn,hopen⟩ := (d.publishes_iff m p).mp hp
  have hnonce : a.nonce = nonce := by
    have hfield := (d.attempt_fields m.entries a ha.attempted).2.2
    have hshorter : lookup "nonce" m.entries = some nonce := hext.shorter
    rw [hshorter] at hfield
    exact (Option.some.inj hfield).symm
  have hattempt := d.attempt_extended m m' nonce extra hext a ha.attempted
  obtain ⟨hlen,htake⟩ := (arrayOf_eq_some_iff 24 a.nonce n).mp hn
  -- the call reads the same 24 bytes of either buffer
  have hread : arrayOf 24 (nonce ++ extra) = some n := by
    rw [hnonce] at hlen htake
    rw [arrayOf_eq_some_iff, List.take_append_of_le_length hlen, List.length_append]
    exact ⟨by omega, htake⟩
  exact (d.publishes_iff m' p).mpr
    ⟨_,n,⟨hscan,hattempt,⟨ha.copied.1,hcopy⟩,ha.holdsMac⟩,hread,hopen⟩

/-- Acceptance is canonical on a message exactly when its nonce field, if it reaches
the opening call, has the size of a nonce; and of two such messages that differ by an
extension of the nonce at most one is accepted. -/
theorem canonical_exactly (hS : S.OpensOnlySealed) :
    (∀ m, d.Canonical m ↔ d.NonceExact m) ∧
      ∀ m m' nonce extra, d.NonceExact m → d.NonceExact m' → ExtendsNonce m m' nonce extra →
        ¬(d.Accepts m ∧ d.Accepts m') := by
  refine ⟨d.canonical_iff hS, ?_⟩
  intro m m' nonce extra hm hm' hext hboth
  obtain ⟨⟨p,hp⟩,⟨p',hp'⟩⟩ := hboth
  obtain ⟨a,n,ha,hn,hopen⟩ := (d.publishes_iff m p).mp hp
  obtain ⟨a',n',ha',hn',hopen'⟩ := (d.publishes_iff m' p').mp hp'
  have hattempt := d.attempt_extended m m' nonce extra hext a ha.attempted
  have hnonce' : a'.nonce = nonce ++ extra := by
    rw [ha'.attempted] at hattempt
    rw [Option.some.inj hattempt]
  have hnonce : a.nonce = nonce := by
    have hfield := (d.attempt_fields m.entries a ha.attempted).2.2
    have hshorter : lookup "nonce" m.entries = some nonce := hext.shorter
    rw [hshorter] at hfield
    exact (Option.some.inj hfield).symm
  -- both nonce fields have 24 bytes, but the second is the longer one
  have hlen := hm a ha
  have hlen' := hm' a' ha'
  have hpos := List.length_pos_iff.mpr hext.proper
  rw [hnonce] at hlen
  rw [hnonce', List.length_append] at hlen'
  omega

end Decryptor

def referenceDecryptor : Decryptor referenceSodium := .secret ⟨"key",Vector.replicate 32 0⟩

theorem canonical_exactly_reference :
    (∀ m, referenceDecryptor.Canonical m ↔ referenceDecryptor.NonceExact m) ∧
      ∀ m m' nonce extra, referenceDecryptor.NonceExact m → referenceDecryptor.NonceExact m' →
        ExtendsNonce m m' nonce extra →
          ¬(referenceDecryptor.Accepts m ∧ referenceDecryptor.Accepts m') :=
  referenceDecryptor.canonical_exactly reference_opens_only_sealed

/-- The sealed PDU with one byte after its nonce. -/
def extendedPdu : Message 0 :=
  pduMessage (List.replicate 24 0 ++ [7]) (referenceSodium.cryptoSecretboxEasy [1]
    (Vector.replicate 24 0) (Vector.replicate 32 0)).2 (by decide)
    reference_easy_room

theorem sealedPdu_extended : ExtendsNonce sealedPdu extendedPdu (List.replicate 24 0) [7] where
  proper := by decide
  shorter := lookup_encryptedPdu_nonce _ _ _
  longer := lookup_encryptedPdu_nonce _ _ _
  sameData := (lookup_encryptedPdu_data _ _ _).trans (lookup_encryptedPdu_data _ _ _).symm
  sameKem := (lookup_encryptedPdu_front _ (by decide) (by decide) _ _ _).trans
    (lookup_encryptedPdu_front _ (by decide) (by decide) _ _ _).symm

theorem sealedPdu_published : referenceDecryptor.Publishes sealedPdu [1] := by
  have hattempt := referenceDecryptor.attempt_eq sealedPdu.entries _ _ _ rfl
    (lookup_encryptedPdu_data _ _ _) (lookup_encryptedPdu_nonce _ _ _)
  have hread : arrayOf 24 (List.replicate 24 0) = some (Vector.replicate 24 (0 : UInt8)) := by
    rw [← Vector.toList_replicate, arrayOf_toList]
  have hcovers (n : ℕ) (h : n ≤ 2147483647) : referenceDecryptor.counter.Covers n :=
    (covers_some _ _).mpr h
  refine (referenceDecryptor.publishes_iff sealedPdu [1]).mpr ⟨_,_,⟨hcovers _ (by decide),hattempt,
    ⟨hcovers _ ?_,hcovers _ (by decide)⟩,?_⟩,hread,?_⟩
  · rw [reference_easy_size]
    decide
  · rw [reference_easy_size]
    decide
  · exact (reference_secretbox_inverts [1] (Vector.replicate 24 0) (Vector.replicate 32 0)).2

/-- One PDU is accepted under two nonce fields, and the second call gets 25 bytes. -/
theorem extended_nonce_accepted :
    ExtendsNonce sealedPdu extendedPdu (List.replicate 24 0) [7] ∧
      referenceDecryptor.Publishes sealedPdu [1] ∧ referenceDecryptor.Publishes extendedPdu [1] ∧
      ¬referenceDecryptor.Canonical extendedPdu := by
  have hcovers (n : ℕ) (h : n ≤ 2147483647) : referenceDecryptor.counter.Covers n :=
    (covers_some _ _).mpr h
  have hextended := referenceDecryptor.publishes_extended sealedPdu extendedPdu _ _
    sealedPdu_extended (hcovers _ (by decide)) (hcovers _ (by decide)) [1] sealedPdu_published
  refine ⟨sealedPdu_extended,sealedPdu_published,hextended,?_⟩
  intro h
  obtain ⟨a,n,ha,hn,hopen⟩ := (referenceDecryptor.publishes_iff extendedPdu [1]).mp hextended
  have hlen := h.exactBuffer a.nonce
    ((referenceDecryptor.mem_openNonces_iff extendedPdu a.nonce).mpr ⟨a,ha,rfl⟩)
  have hfield := (referenceDecryptor.attempt_fields extendedPdu.entries a ha.attempted).2.2
  have hnonce : lookup "nonce" extendedPdu.entries = some (List.replicate 24 0 ++ [7]) :=
    lookup_encryptedPdu_nonce _ _ _
  rw [hnonce] at hfield
  rw [← Option.some.inj hfield] at hlen
  exact absurd hlen (by decide)

end GrNacl
