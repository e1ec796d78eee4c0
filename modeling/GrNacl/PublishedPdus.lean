import GrNacl.AnyMessages

/-! What the blocks publish, on any value and with any draws: at most one message, and a
PDU of the shape that belongs to the block. No length is assumed, since the vectors turn
down what does not fit. -/
namespace GrNacl
set_option autoImplicit false

open EffectTrace CountedLoop

/-- A handler publishes one PDU of the given kind and returns, or it publishes nothing. -/
def SendsOnly (x : Handler Unit) (isPdu : List Entry → Prop) : Prop :=
  published x.events = [] ∨
    (x.result = .ok () ∧ ∃ pdu, isPdu pdu ∧ published x.events = [messagePmt pdu])

theorem sendsOnly_fail (e : Fault) (isPdu : List Entry → Prop) :
    SendsOnly (Run.fail e) isPdu := Or.inl rfl

theorem sendsOnly_after {x : Handler Unit} {isPdu : List Entry → Prop} (h : SendsOnly x isPdu)
    (pre : List Event) (hpre : published pre = []) :
    SendsOnly (Run.emitAll pre >>= fun _ => x) isPdu := by
  have hpub : published (pre ++ x.events) = published x.events := by
    rw [published_append, hpre, List.nil_append]
  rw [Run.emitAll_bind]
  unfold SendsOnly
  rw [hpub]
  exact h

theorem SendsOnly.mono {x : Handler Unit} {p q : List Entry → Prop} (h : SendsOnly x p)
    (hpq : ∀ pdu, p pdu → q pdu) : SendsOnly x q := by
  rcases h with h | ⟨hok,pdu,hpdu,hpub⟩
  · exact Or.inl h
  · exact Or.inr ⟨hok,pdu,hpq pdu hpdu,hpub⟩

/-- The common part of the encryptors sends the PDU of its ciphertext or nothing, whatever
the length of the data. -/
theorem encryptData_sends (c : Counter) (macbytes : ℕ) (easy : CipherCall) (wiped : List Event)
    (front : List Entry) (nonce : Vector UInt8 24) (data : Bytes) (hw : published wiped = [])
    (hmac : macbytes ≤ maxSize) (hc : c.Covers 24)
    (heasy : (easy data nonce).2.length = macbytes+data.length) :
    SendsOnly (encryptData c macbytes easy wiped (pure (front.map Entry.toPmt)) nonce data)
      (fun pdu => (easy data nonce).1 = 0 ∧
        pdu = encryptedPdu front nonce.toList (easy data nonce).2) := by
  by_cases hroom : macbytes+data.length ≤ maxSize
  · rw [encryptData_eq c macbytes easy wiped front nonce data hroom hc heasy]
    by_cases hd : c.Covers data.length
    · rw [if_pos hd]
      by_cases hs : (easy data nonce).1 ≠ 0
      · rw [if_pos hs]
        apply Or.inl
        rw [Run.events_emitAll, published_append, hw]
        rfl
      · rw [if_neg hs]
        by_cases ho : c.Covers (macbytes+data.length)
        · rw [if_pos ho]
          obtain ⟨hok,hpub⟩ := answers_pub wiped hw
            (messagePmt (encryptedPdu front nonce.toList (easy data nonce).2))
          exact Or.inr ⟨hok,_,⟨not_not.mp hs,rfl⟩,hpub⟩
        · rw [if_neg ho]
          exact Or.inl hw
    · rw [if_neg hd]
      exact sendsOnly_fail _ _
  · -- one of the vectors throws, or the counter of the first copy overflows before that
    by_cases hd : data.length ≤ maxSize
    · by_cases hcd : c.Covers data.length
      · rw [encryptData_tooLong c macbytes easy wiped _ nonce data hmac hcd (by omega)]
        exact sendsOnly_fail _ _
      · rw [encryptData_uncounted c macbytes easy wiped _ nonce data hd hcd]
        exact sendsOnly_fail _ _
    · rw [encryptData, repack, vector_of_lt _ (by omega), Run.fail_bind, Run.fail_bind]
      exact sendsOnly_fail _ _

/-- The common part of the decryptors sends the one clear text its call has opened or nothing. -/
theorem decryptData_sends (c : Counter) (cipher : Cipher) (wiped : List Event)
    (found : List String) (data nonce : Bytes) (hwiped : Quiet wiped)
    (hopen : ∀ n, (cipher.openEasy data n).2.length = data.length-16) :
    SendsOnly (decryptData c 16 cipher.openEasy wiped found data nonce)
      (fun pdu => ∃ n p, arrayOf 24 nonce = some n ∧ cipher.openEasy data n = (0,p) ∧
        p.length+16 = data.length ∧ pdu = decryptedPdu p) := by
  by_cases hd : data.length ≤ maxSize
  · by_cases hn : nonce.length ≤ maxSize
    · have hrun := decryptData_outcome c ⟨cipher,data,nonce⟩ wiped found hwiped hd hn hopen
      cases hrun with
      | copyOverflows hcopy hresult hquiet => exact Or.inl hquiet.1
      | lengthWraps hcopy hshort hresult hquiet => exact Or.inl hquiet.1
      | overreads hcopy hdata hshort hresult hpublished hopened => exact Or.inl hpublished
      | opens n hcopy hdata hread hresult hpublished hopened =>
        dsimp only at hdata hpublished
        by_cases hs : (cipher.openEasy data n).1 = 0
        · rw [if_pos hs] at hpublished
          have hlen : (cipher.openEasy data n).2.length+16 = data.length := by
            rw [hopen n]
            omega
          exact Or.inr ⟨hresult,_,⟨n,_,hread,Prod.ext hs rfl,hlen,rfl⟩,hpublished⟩
        · rw [if_neg hs] at hpublished
          exact Or.inl hpublished
    · rw [decryptData, vector_of_le _ hd, pure_bind, vector_of_lt _ (by omega), Run.fail_bind]
      exact sendsOnly_fail _ _
  · rw [decryptData, vector_of_lt _ (by omega), Run.fail_bind]
    exact sendsOnly_fail _ _

/-- The clear text a decryptor opens the fields of a message to. -/
def Decryptor.OpensTo {S : Sodium} (d : Decryptor S) (entries : List Entry) (p : Bytes) : Prop :=
  ∃ a n, d.attempt entries = some a ∧ arrayOf 24 a.nonce = some n ∧
    a.cipher.openEasy a.data n = (0,p) ∧ p.length+16 = a.data.length

/-- What a block makes of the entries of a message, if it makes a PDU of them. -/
def MessageBlock.PduFor {S : Sodium} : MessageBlock S → List Entry → List Entry → Prop
  | .clearText (.encryptSecret b nonce), entries, pdu =>
    ∃ data, lookup "msg_clear" entries = some data ∧ data ≠ [] ∧
      (S.cryptoSecretboxEasy data nonce b.dKey).1 = 0 ∧
      pdu = encryptedPdu [] nonce.toList (S.cryptoSecretboxEasy data nonce b.dKey).2
  | .clearText (.encryptPublic b nonce), entries, pdu =>
    ∃ data, lookup "msg_clear" entries = some data ∧ data ≠ [] ∧
      (S.cryptoBoxEasy data nonce b.dPk b.dSk).1 = 0 ∧
      pdu = encryptedPdu [] nonce.toList (S.cryptoBoxEasy data nonce b.dPk b.dSk).2
  | .clearText (.encryptKem b draws), entries, pdu =>
    ∃ data ct ss, lookup "msg_clear" entries = some data ∧ data ≠ [] ∧
      S.cryptoKemEnc b.dPk draws.coins = (0,ct,ss) ∧
      (S.cryptoSecretboxEasy data draws.nonce ss).1 = 0 ∧
      pdu = encryptedPdu (kemFront ct.toList) draws.nonce.toList
        (S.cryptoSecretboxEasy data draws.nonce ss).2
  | .clearText (.hashSha3 b), entries, pdu =>
    ∃ data, lookup "msg_clear" entries = some data ∧ data ≠ [] ∧
      (b.cryptoHash S data).1 = 0 ∧ pdu = b.hashPdu S data
  | .decryptor d, entries, pdu => ∃ p, d.OpensTo entries p ∧ pdu = decryptedPdu p

namespace ClearTextBlock

variable {S : Sodium}

theorem onPayload_sends (b : ClearTextBlock S) (entries : List Entry) (data : Bytes)
    (hdata : lookup "msg_clear" entries = some data) :
    SendsOnly (b.onPayload data) (MessageBlock.PduFor (.clearText b) entries) := by
  by_cases hempty : data = []
  · rw [hempty, b.onPayload_nil]
    exact Or.inl rfl
  · have hne : data.length ≠ 0 := fun h => hempty (List.length_eq_zero_iff.mp h)
    have hint : intCounter.Covers 24 := (covers_some _ _).mpr (by omega)
    cases b with
    | encryptSecret b nonce =>
      have hsends := encryptData_sends intCounter 16 (fun m n => S.cryptoSecretboxEasy m n b.dKey)
        [] [] nonce data rfl (by decide) hint (S.secretbox_easy_size data nonce b.dKey)
      rw [encryptSecret_onPayload, if_pos hne]
      exact hsends.mono fun pdu hpdu => ⟨data,hdata,hempty,hpdu⟩
    | encryptPublic b nonce =>
      have hsends := encryptData_sends intCounter 16
        (fun m n => S.cryptoBoxEasy m n b.dPk b.dSk) [] [] nonce data rfl (by decide) hint
        (S.box_easy_size data nonce b.dPk b.dSk)
      rw [encryptPublic_onPayload, if_pos hne]
      exact hsends.mono fun pdu hpdu => ⟨data,hdata,hempty,hpdu⟩
    | encryptKem b draws =>
      rcases henc : S.cryptoKemEnc b.dPk draws.coins with ⟨st,ct,ss⟩
      rw [encryptKem_onPayload b draws data hne st ct ss henc]
      by_cases hst : st ≠ 0
      · rw [if_pos hst]
        exact Or.inl rfl
      · rw [if_neg hst]
        rw [not_not.mp hst] at henc
        have hsends := encryptData_sends sizeCounter 16
          (fun m n => S.cryptoSecretboxEasy m n ss) [.sodiumMemzero .ss] (kemFront ct.toList)
          draws.nonce data rfl (by decide) (covers_none _)
          (S.secretbox_easy_size data draws.nonce ss)
        have hpdu := hsends.mono fun pdu hpdu => (⟨data,ct,ss,hdata,hempty,henc,hpdu⟩ :
          MessageBlock.PduFor (.clearText (.encryptKem b draws)) entries pdu)
        exact sendsOnly_after hpdu [.fill .ss] rfl
    | hashSha3 b =>
      rw [hashSha3_onPayload b data hne]
      by_cases hst : (b.cryptoHash S data).1 ≠ 0
      · rw [if_pos hst]
        exact Or.inl rfl
      · rw [if_neg hst]
        exact Or.inr ⟨rfl,_,⟨data,hdata,hempty,not_not.mp hst,rfl⟩,rfl⟩

end ClearTextBlock

namespace Decryptor

variable {S : Sodium}

/-- The courses of a decryptor on a counted message: it returns with nothing to see, or the
common part runs on an attempt. -/
theorem courses (d : Decryptor S) (entries : List Entry) (hcov : d.counter.Covers entries.length) :
    ((d.handleMsg (messagePmt entries)).result = .ok () ∧
      published (d.handleMsg (messagePmt entries)).events = []) ∨
    ∃ a pre wiped found, d.attempt entries = some a ∧ Quiet pre ∧ Quiet wiped ∧
      (∀ n, (a.cipher.openEasy a.data n).2.length = a.data.length-16) ∧
      d.handleMsg (messagePmt entries) = Run.emitAll pre >>= fun _ =>
        decryptData d.counter 16 a.cipher.openEasy wiped found a.data a.nonce := by
  -- decrypt_secret and decrypt_public, each with its own calls
  have hfields (cipher : Cipher) (hc : d.cipher entries = some cipher)
      (hopen : ∀ c n, (cipher.openEasy c n).2.length = c.length-16) (x : Handler Unit)
      (hx : x = (do
        let s ← scanEncrypted d.counter (messagePmt entries)
        if s.msgEncryptedFound && s.nonceFound then
          decryptData d.counter 16 cipher.openEasy [] (foundLines s) s.data s.nonce
        else pure ())) :
      (x.result = .ok () ∧ published x.events = []) ∨
      ∃ a pre wiped found, d.attempt entries = some a ∧ Quiet pre ∧ Quiet wiped ∧
        (∀ n, (a.cipher.openEasy a.data n).2.length = a.data.length-16) ∧
        x = Run.emitAll pre >>= fun _ =>
          decryptData d.counter 16 a.cipher.openEasy wiped found a.data a.nonce := by
    rw [scanEncrypted_eq, if_pos hcov, pure_bind] at hx
    cases hd : lookup "msg_encrypted" entries with
    | none =>
      left
      rw [hx, EncryptedFields.of, hd]
      exact ⟨rfl,rfl⟩
    | some data =>
      cases hn : lookup "nonce" entries with
      | none =>
        left
        rw [hx, EncryptedFields.of, hd, hn]
        exact ⟨rfl,rfl⟩
      | some nonce =>
        right
        refine ⟨⟨cipher,data,nonce⟩,[],[],foundLines (.of entries),
          d.attempt_eq entries cipher data nonce hc hd hn,quiet_nil,quiet_nil,hopen data,?_⟩
        rw [hx, EncryptedFields.of, hd, hn]
        rfl
  cases d with
  | secret b =>
    exact hfields (S.secretboxUnder b.dKey) rfl (fun c n => S.secretbox_open_size c n b.dKey) _ rfl
  | box b =>
    exact hfields (S.boxUnder b.dPk b.dSk) rfl (fun c n => S.box_open_size c n b.dPk b.dSk) _ rfl
  | kem b =>
    rcases decryptKem_cases b entries with ⟨_,hidle⟩ | ⟨ss,data,nonce,ha,hx⟩
    · left
      change (b.handleMsg S (messagePmt entries)).result = .ok () ∧
        published (b.handleMsg S (messagePmt entries)).events = []
      rcases hidle with hx | hx | hx
      · rw [hx]
        exact ⟨rfl,rfl⟩
      · rw [hx]
        exact ⟨rfl,rfl⟩
      · rw [hx]
        exact ⟨rfl,rfl⟩
    · right
      exact ⟨_,[.fill .ss],[.sodiumMemzero .ss],_,ha,⟨rfl,rfl⟩,⟨rfl,rfl⟩,
        fun n => S.secretbox_open_size data n ss,hx⟩

theorem handleMsg_sends (d : Decryptor S) (entries : List Entry) :
    SendsOnly (d.handleMsg (messagePmt entries))
      (MessageBlock.PduFor (.decryptor d) entries) := by
  by_cases hcov : d.counter.Covers entries.length
  · rcases d.courses entries hcov with ⟨_,hquiet⟩ | ⟨a,pre,wiped,found,ha,hpre,hwiped,hopen,hx⟩
    · exact Or.inl hquiet
    · have hsends := decryptData_sends d.counter a.cipher wiped found a.data a.nonce hwiped hopen
      rw [hx]
      apply sendsOnly_after _ pre hpre.1
      exact hsends.mono fun pdu ⟨n,p,hn,hp,hlen,hpdu⟩ => ⟨p,⟨a,n,ha,hn,hp,hlen⟩,hpdu⟩
  · rw [d.handleMsg_shape, shapeFault_messagePmt, if_neg hcov]
    exact sendsOnly_fail _ _

/-- Fields long enough for the call, and short enough for the counter, make it return. -/
theorem handleMsg_returns (d : Decryptor S) (entries : List Entry)
    (hcov : d.counter.Covers entries.length)
    (hdata : ∀ v, lookup "msg_encrypted" entries = some v → 16 ≤ v.length ∧ v.length ≤ 2147483647)
    (hnonce : ∀ v, lookup "nonce" entries = some v → 24 ≤ v.length ∧ v.length ≤ 2147483647) :
    (d.handleMsg (messagePmt entries)).result = .ok () := by
  have hmax : maxSize = 9223372036854775807 := rfl
  have hcovers (n : ℕ) (hn : n ≤ 2147483647) : d.counter.Covers n :=
    (MessageBlock.decryptor d).counter_covers n hn
  rcases d.courses entries hcov with ⟨hok,_⟩ | ⟨a,pre,wiped,found,ha,hpre,hwiped,hopen,hx⟩
  · exact hok
  · obtain ⟨_,hd,hn⟩ := d.attempt_fields entries a ha
    obtain ⟨hmac,hcd⟩ := hdata a.data hd
    obtain ⟨hlong,hcn⟩ := hnonce a.nonce hn
    rw [hx, Run.emitAll_bind]
    -- of the four outcomes only the last is left
    cases decryptData_outcome d.counter a wiped found hwiped (by omega) (by omega) hopen with
    | copyOverflows hcopy hresult hquiet => exact absurd ⟨hcovers _ hcd,hcovers _ hcn⟩ hcopy
    | lengthWraps hcopy hshort hresult hquiet => omega
    | overreads hcopy hdata hshort hresult hpublished hopened => omega
    | opens n hcopy hdata hread hresult hpublished hopened => exact hresult

end Decryptor

/-- A block sends on a value nothing but a PDU for the entries it holds. -/
theorem MessageBlock.handleMsg_sends {S : Sodium} (b : MessageBlock S) (m : Pmt) :
    SendsOnly (b.handleMsg m) (b.PduFor (entriesIn m)) := by
  rw [b.handleMsg_shape m]
  cases hshape : shapeFault b.counter m with
  | some e => exact sendsOnly_fail e _
  | none =>
    cases b with
    | decryptor d => exact d.handleMsg_sends (entriesIn m)
    | clearText b =>
      change SendsOnly (b.handleMsg (messagePmt (entriesIn m))) _
      rw [b.handleMsg_scan]
      by_cases hc : b.counter.Covers (entriesIn m).length
      · rw [if_pos hc]
        cases hdata : lookup "msg_clear" (entriesIn m) with
        | some data => exact b.onPayload_sends (entriesIn m) data hdata
        | none =>
          rw [Option.getD_none, b.onPayload_nil]
          exact Or.inl rfl
      · rw [if_neg hc]
        exact sendsOnly_fail _ _

end GrNacl
