import GrNacl.DecryptHandlers

/-! The three decryptors under one interface. A message that gets past the found
flags, and past the decapsulation where there is one, is an attempt; what a handler
does on a message is one of six outcomes. -/
namespace GrNacl
set_option autoImplicit false

open EffectTrace CountedLoop

inductive Decryptor (S : Sodium)
  | secret (b : DecryptSecret)
  | box (b : DecryptPublic)
  | kem (b : DecryptKem S)

/-- A pair of calls under one key. -/
structure Cipher where
  easy : CipherCall
  openEasy : CipherCall

/-- The data and nonce fields a handler starts to work on, and the calls for its key. -/
structure Attempt where
  cipher : Cipher
  data : Bytes
  nonce : Bytes

def Sodium.secretboxUnder (S : Sodium) (k : SecretboxKey) : Cipher :=
  ⟨fun m n => S.cryptoSecretboxEasy m n k, fun c n => S.cryptoSecretboxOpenEasy c n k⟩

def Sodium.boxUnder (S : Sodium) (pk : BoxPublicKey) (sk : BoxSecretKey) : Cipher :=
  ⟨fun m n => S.cryptoBoxEasy m n pk sk, fun c n => S.cryptoBoxOpenEasy c n pk sk⟩

/-- The shared secret of a KEM ciphertext of the right length that decapsulates. -/
def DecryptKem.sharedSecret (S : Sodium) (b : DecryptKem S) (kemCt : Bytes) :
    Option SharedSecret :=
  if h : kemCt.length = S.cryptoKemCIPHERTEXTBYTES then
    let (status, ss) := S.cryptoKemDec ⟨kemCt.toArray,h⟩ b.dSk
    if status = 0 then some ss else none
  else none

theorem DecryptKem.sharedSecret_eq {S : Sodium} (b : DecryptKem S) (kemCt : Bytes)
    (h : kemCt.length = S.cryptoKemCIPHERTEXTBYTES) :
    b.sharedSecret S kemCt =
      if (S.cryptoKemDec ⟨kemCt.toArray,h⟩ b.dSk).1 = 0 then
        some (S.cryptoKemDec ⟨kemCt.toArray,h⟩ b.dSk).2
      else none := dif_pos h

theorem DecryptKem.sharedSecret_of_ne {S : Sodium} (b : DecryptKem S) (kemCt : Bytes)
    (h : kemCt.length ≠ S.cryptoKemCIPHERTEXTBYTES) : b.sharedSecret S kemCt = none := dif_neg h

namespace Decryptor

variable {S : Sodium}

def handleMsg : Decryptor S → Pmt → Handler Unit
  | .secret b => b.handleMsg S
  | .box b => b.handleMsg S
  | .kem b => b.handleMsg S

/-- The counter of the loops in handle_msg. -/
def counter : Decryptor S → Counter
  | .secret _ => intCounter
  | .box _ => intCounter
  | .kem _ => sizeCounter

/-- The calls a message is opened with. -/
def cipher : Decryptor S → List Entry → Option Cipher
  | .secret b, _ => some (S.secretboxUnder b.dKey)
  | .box b, _ => some (S.boxUnder b.dPk b.dSk)
  | .kem b, entries =>
    ((lookup "kem_ciphertext" entries).bind (b.sharedSecret S)).map S.secretboxUnder

theorem cipher_kem (b : DecryptKem S) (entries : List Entry) (kemCt : Bytes)
    (h : lookup "kem_ciphertext" entries = some kemCt) :
    (Decryptor.kem b).cipher entries = (b.sharedSecret S kemCt).map S.secretboxUnder := by
  rw [cipher, h, Option.bind_some]

def attempt (d : Decryptor S) (entries : List Entry) : Option Attempt :=
  match d.cipher entries, lookup "msg_encrypted" entries, lookup "nonce" entries with
  | some cipher, some data, some nonce => some ⟨cipher,data,nonce⟩
  | _, _, _ => none

theorem attempt_eq (d : Decryptor S) (entries : List Entry) (cipher : Cipher) (data nonce : Bytes)
    (hc : d.cipher entries = some cipher) (hd : lookup "msg_encrypted" entries = some data)
    (hn : lookup "nonce" entries = some nonce) : d.attempt entries = some ⟨cipher,data,nonce⟩ := by
  rw [attempt, hc, hd, hn]

theorem attempt_fields (d : Decryptor S) (entries : List Entry) (a : Attempt)
    (h : d.attempt entries = some a) : d.cipher entries = some a.cipher ∧
      lookup "msg_encrypted" entries = some a.data ∧ lookup "nonce" entries = some a.nonce := by
  unfold attempt at h
  split at h
  · next cipher data nonce hc hd hn =>
    cases Option.some.inj h
    exact ⟨hc,hd,hn⟩
  · cases h

theorem attempt_eq_none (d : Decryptor S) (entries : List Entry)
    (h : d.cipher entries = none ∨ lookup "msg_encrypted" entries = none ∨
      lookup "nonce" entries = none) : d.attempt entries = none := by
  unfold attempt
  rcases h with h | h | h
  · rw [h]
  · rw [h]
    cases d.cipher entries <;> rfl
  · rw [h]
    cases d.cipher entries <;> cases lookup "msg_encrypted" entries <;> rfl

end Decryptor

/-- Events that are neither a published message nor an opening call. -/
def Quiet (events : List Event) : Prop := published events = [] ∧ openNonces events = []

theorem quiet_nil : Quiet [] := ⟨rfl,rfl⟩

theorem quiet_cout (lines : List String) : Quiet (lines.map Event.cout) := by
  induction lines with
  | nil => exact quiet_nil
  | cons line lines ih => exact ih

/-- The four ways an attempt ends. -/
inductive AttemptOutcome (c : Counter) (a : Attempt) (x : Handler Unit) : Prop
  | copyOverflows (hcopy : ¬(c.Covers a.data.length ∧ c.Covers a.nonce.length))
      (hresult : x.result = .error .undefinedBehaviour) (hquiet : Quiet x.events)
  | lengthWraps (hcopy : c.Covers a.data.length ∧ c.Covers a.nonce.length)
      (hshort : a.data.length < 16)
      (hresult : x.result = .error .lengthError) (hquiet : Quiet x.events)
  | overreads (hcopy : c.Covers a.data.length ∧ c.Covers a.nonce.length)
      (hdata : 16 ≤ a.data.length) (hshort : a.nonce.length < 24)
      (hresult : x.result = .error .undefinedBehaviour)
      (hpublished : published x.events = []) (hopened : openNonces x.events = [a.nonce])
  | opens (n : Vector UInt8 24) (hcopy : c.Covers a.data.length ∧ c.Covers a.nonce.length)
      (hdata : 16 ≤ a.data.length) (hread : arrayOf 24 a.nonce = some n)
      (hresult : x.result = .ok ())
      (hpublished : published x.events =
        if (a.cipher.openEasy a.data n).1 = 0 then
          [messagePmt (decryptedPdu (a.cipher.openEasy a.data n).2)] else [])
      (hopened : openNonces x.events = [a.nonce])

/-- What a handler does on a message. -/
inductive Decryptor.Outcome {S : Sodium} (d : Decryptor S) (entries : List Entry)
    (x : Handler Unit) : Prop
  | scanOverflows (hscan : ¬d.counter.Covers entries.length)
      (hx : x = Run.fail .undefinedBehaviour)
  | idle (hscan : d.counter.Covers entries.length) (hnone : d.attempt entries = none)
      (hresult : x.result = .ok ()) (hquiet : Quiet x.events)
  | attempted (a : Attempt) (hscan : d.counter.Covers entries.length)
      (ha : d.attempt entries = some a) (hx : AttemptOutcome d.counter a x)

/-- A counted message with an attempt ends as that attempt does. -/
theorem Decryptor.Outcome.of_attempt {S : Sodium} {d : Decryptor S} {entries : List Entry}
    {x : Handler Unit} (h : d.Outcome entries x) (hscan : d.counter.Covers entries.length)
    {a : Attempt} (ha : d.attempt entries = some a) : AttemptOutcome d.counter a x := by
  cases h with
  | scanOverflows hover hx => exact absurd hscan hover
  | idle hscan hnone hresult hquiet =>
    rw [hnone] at ha
    cases ha
  | attempted b hscan hb hx =>
    have hsame : b = a := Option.some.inj (hb.symm.trans ha)
    rw [← hsame]
    exact hx

/-- Quiet events in front of an attempt do not change its outcome. -/
theorem AttemptOutcome.after_quiet {c : Counter} {a : Attempt} {x : Handler Unit}
    (h : AttemptOutcome c a x) (pre : List Event) (hpre : Quiet pre) :
    AttemptOutcome c a (Run.emitAll pre >>= fun _ => x) := by
  have hpub : published (pre ++ x.events) = published x.events := by
    rw [published_append, hpre.1, List.nil_append]
  have hopen : openNonces (pre ++ x.events) = openNonces x.events := by
    rw [openNonces_append, hpre.2, List.nil_append]
  rw [Run.emitAll_bind]
  cases h with
  | copyOverflows hcopy hresult hquiet =>
    exact .copyOverflows hcopy hresult ⟨hpub.trans hquiet.1,hopen.trans hquiet.2⟩
  | lengthWraps hcopy hshort hresult hquiet =>
    exact .lengthWraps hcopy hshort hresult ⟨hpub.trans hquiet.1,hopen.trans hquiet.2⟩
  | overreads hcopy hdata hshort hresult hpublished hopened =>
    exact .overreads hcopy hdata hshort hresult (hpub.trans hpublished) (hopen.trans hopened)
  | opens n hcopy hdata hread hresult hpublished hopened =>
    exact .opens n hcopy hdata hread hresult (hpub.trans hpublished) (hopen.trans hopened)

theorem observed_afterOpen (found : List String) (r : ℤ × Bytes) :
    published (afterOpen found r) = (if r.1 = 0 then [messagePmt (decryptedPdu r.2)] else []) ∧
      openNonces (afterOpen found r) = [] := by
  unfold afterOpen
  by_cases hr : r.1 = 0
  · rw [if_pos hr, if_pos hr]
    exact ⟨rfl,rfl⟩
  · rw [if_neg hr, if_neg hr]
    exact quiet_cout _

/-- The common part of the handlers has one of the four outcomes. -/
theorem decryptData_outcome (c : Counter) (a : Attempt) (wiped : List Event) (found : List String)
    (hwiped : Quiet wiped) (hd : a.data.length ≤ maxSize) (hn : a.nonce.length ≤ maxSize)
    (hopen : ∀ n, (a.cipher.openEasy a.data n).2.length = a.data.length-16) :
    AttemptOutcome c a (decryptData c 16 a.cipher.openEasy wiped found a.data a.nonce) := by
  by_cases hcopy : c.Covers a.data.length ∧ c.Covers a.nonce.length
  · by_cases hdata : 16 ≤ a.data.length
    · by_cases hnonce : 24 ≤ a.nonce.length
      · obtain ⟨n,hread⟩ := exists_arrayOf 24 a.nonce hnonce
        have hafter := observed_afterOpen found (a.cipher.openEasy a.data n)
        rw [decryptData_opens c 16 a.cipher.openEasy wiped found a.data a.nonce hd hn hcopy.1
          hcopy.2 hdata hopen n hread]
        apply AttemptOutcome.opens n hcopy hdata hread (Run.result_emitAll _)
        · change published (wiped ++ _) = _
          rw [published_append, hwiped.1, hafter.1, List.nil_append]
        · change a.nonce :: openNonces (wiped ++ _) = _
          rw [openNonces_append, hwiped.2, hafter.2, List.nil_append]
      · have hshort : a.nonce.length < 24 := by omega
        rw [decryptData_overread c 16 a.cipher.openEasy wiped found a.data a.nonce hd hn hcopy.1
          hcopy.2 hdata hshort]
        exact .overreads hcopy hdata hshort rfl rfl rfl
    · have hshort : a.data.length < 16 := by omega
      rw [decryptData_short c 16 a.cipher.openEasy wiped found a.data a.nonce hd hn hcopy.1 hcopy.2
        (by decide) hshort]
      exact .lengthWraps hcopy hshort rfl quiet_nil
  · rw [decryptData_overflow c 16 a.cipher.openEasy wiped found a.data a.nonce hd hn hcopy]
    exact .copyOverflows hcopy rfl quiet_nil

/-- The courses of decrypt_kem on a message: without an attempt it stops at one of three
exits, with one it goes on under the shared secret. -/
theorem decryptKem_cases {S : Sodium} (b : DecryptKem S) (entries : List Entry) :
    ((Decryptor.kem b).attempt entries = none ∧
      (b.handleMsg S (messagePmt entries) = pure () ∨
        b.handleMsg S (messagePmt entries) = Run.emit (.cout "Invalid KEM ciphertext length.") ∨
        b.handleMsg S (messagePmt entries) = Run.emitAll [.fill .ss,
          .cout "Failed to perform KEM decapsulation.",.sodiumMemzero .ss])) ∨
    ∃ ss data nonce, (Decryptor.kem b).attempt entries = some ⟨S.secretboxUnder ss,data,nonce⟩ ∧
      b.handleMsg S (messagePmt entries) = Run.emit (.fill .ss) >>= fun _ =>
        decryptData sizeCounter 16 (S.secretboxUnder ss).openEasy [.sodiumMemzero .ss]
          (("KEM ciphertext found: " ++ coutBool true) :: foundLines ⟨data,nonce,true,true⟩)
          data nonce := by
  rw [DecryptKem.handleMsg, scanKem_eq, if_pos (covers_none _), pure_bind]
  by_cases hmissing : (!(KemFields.of entries).kemCiphertextFound ||
      !(KemFields.of entries).rest.msgEncryptedFound || !(KemFields.of entries).rest.nonceFound) = true
  · have hnone : (Decryptor.kem b).attempt entries = none := by
      apply Decryptor.attempt_eq_none
      simp only [KemFields.of, EncryptedFields.of, Bool.or_eq_true, Bool.not_eq_true',
        Option.isSome_eq_false_iff, Option.isNone_iff_eq_none] at hmissing
      -- any missing field leaves no attempt, the ciphertext because no key is derived
      rcases hmissing with (h | h) | h
      · left
        rw [Decryptor.cipher, h, Option.bind_none, Option.map_none]
      · exact Or.inr (Or.inl h)
      · exact Or.inr (Or.inr h)
    rw [if_pos hmissing]
    exact Or.inl ⟨hnone,Or.inl rfl⟩
  · have hfound := hmissing
    simp only [KemFields.of, EncryptedFields.of, Bool.or_eq_true, Bool.not_eq_true', not_or,
      Bool.not_eq_false] at hfound
    obtain ⟨⟨hsk,hsd⟩,hsn⟩ := hfound
    obtain ⟨kemCt,hkem⟩ := Option.isSome_iff_exists.mp hsk
    obtain ⟨data,hdata⟩ := Option.isSome_iff_exists.mp hsd
    obtain ⟨nonce,hnonce⟩ := Option.isSome_iff_exists.mp hsn
    have hfields : KemFields.of entries = ⟨kemCt,true,⟨data,nonce,true,true⟩⟩ := by
      simp only [KemFields.of, EncryptedFields.of, hkem, hdata, hnonce, Option.getD_some,
        Option.isSome_some]
    have hcipher := Decryptor.cipher_kem b entries kemCt hkem
    rw [if_neg hmissing, hfields]
    dsimp only
    -- the length check, then the decapsulation, then what the three handlers share
    by_cases hlen : kemCt.length = S.cryptoKemCIPHERTEXTBYTES
    · rw [dif_pos hlen]
      rw [b.sharedSecret_eq kemCt hlen] at hcipher
      by_cases hstatus : (S.cryptoKemDec ⟨kemCt.toArray,hlen⟩ b.dSk).1 = 0
      · rw [if_pos hstatus, Option.map_some] at hcipher
        have ha := (Decryptor.kem b).attempt_eq entries _ data nonce hcipher hdata hnonce
        rw [if_neg (not_not_intro hstatus)]
        exact Or.inr ⟨_,data,nonce,ha,rfl⟩
      · rw [if_neg hstatus, Option.map_none] at hcipher
        have hnone := (Decryptor.kem b).attempt_eq_none entries (Or.inl hcipher)
        rw [if_pos hstatus]
        exact Or.inl ⟨hnone,Or.inr (Or.inr rfl)⟩
    · rw [b.sharedSecret_of_ne kemCt hlen, Option.map_none] at hcipher
      have hnone := (Decryptor.kem b).attempt_eq_none entries (Or.inl hcipher)
      rw [dif_neg hlen]
      exact Or.inl ⟨hnone,Or.inr (Or.inl rfl)⟩

section Handlers

variable {S : Sodium} (entries : List Entry) (hroom : LeavesRoom 0 entries)
include hroom

/-- decrypt_secret and decrypt_public are this handler with their own calls. -/
theorem encryptedFields_outcome (d : Decryptor S) (hc : d.counter = intCounter) (cipher : Cipher)
    (hcipher : d.cipher entries = some cipher)
    (hopen : ∀ c n, (cipher.openEasy c n).2.length = c.length-16) :
    d.Outcome entries (do
      let s ← scanEncrypted intCounter (messagePmt entries)
      if s.msgEncryptedFound && s.nonceFound then
        decryptData intCounter 16 cipher.openEasy [] (foundLines s) s.data s.nonce
      else pure ()) := by
  by_cases hscan : d.counter.Covers entries.length
  · have hcovers : intCounter.Covers entries.length := hc ▸ hscan
    rw [scanEncrypted_eq, if_pos hcovers, pure_bind]
    -- the found flags say whether the lookups of the attempt succeed
    by_cases hfound : ((EncryptedFields.of entries).msgEncryptedFound &&
        (EncryptedFields.of entries).nonceFound) = true
    · obtain ⟨hsd,hsn⟩ := (Bool.and_eq_true _ _ ▸ hfound : _ ∧ _)
      obtain ⟨data,hdata⟩ := Option.isSome_iff_exists.mp hsd
      obtain ⟨nonce,hnonce⟩ := Option.isSome_iff_exists.mp hsn
      have ha := d.attempt_eq entries cipher data nonce hcipher hdata hnonce
      have hfields : EncryptedFields.of entries = ⟨data,nonce,true,true⟩ := by
        simp only [EncryptedFields.of, hdata, hnonce, Option.getD_some, Option.isSome_some]
      have hd := lookup_leavesRoom 0 entries hroom "msg_encrypted" data hdata
      have hn := lookup_leavesRoom 0 entries hroom "nonce" nonce hnonce
      have hrun := decryptData_outcome d.counter ⟨cipher,data,nonce⟩ []
        (foundLines ⟨data,nonce,true,true⟩) quiet_nil hd hn (hopen data)
      rw [hc] at hrun
      rw [hfields]
      exact .attempted _ hscan ha (hc ▸ hrun)
    · have hnone : d.attempt entries = none := by
        apply d.attempt_eq_none entries
        rw [Bool.and_eq_true, not_and_or] at hfound
        exact Or.inr (hfound.imp Option.not_isSome_iff_eq_none.mp Option.not_isSome_iff_eq_none.mp)
      rw [if_neg hfound]
      exact .idle hscan hnone rfl quiet_nil
  · have hcovers : ¬intCounter.Covers entries.length := hc ▸ hscan
    rw [scanEncrypted_eq, if_neg hcovers, Run.fail_bind]
    exact .scanOverflows hscan rfl

theorem decryptSecret_outcome (b : DecryptSecret) :
    (Decryptor.secret b : Decryptor S).Outcome entries (b.handleMsg S (messagePmt entries)) :=
  encryptedFields_outcome entries hroom (.secret b) rfl (S.secretboxUnder b.dKey) rfl
    (fun c n => S.secretbox_open_size c n b.dKey)

theorem decryptPublic_outcome (b : DecryptPublic) :
    (Decryptor.box b : Decryptor S).Outcome entries (b.handleMsg S (messagePmt entries)) :=
  encryptedFields_outcome entries hroom (.box b) rfl (S.boxUnder b.dPk b.dSk) rfl
    (fun c n => S.box_open_size c n b.dPk b.dSk)

theorem decryptKem_outcome (b : DecryptKem S) :
    (Decryptor.kem b).Outcome entries (b.handleMsg S (messagePmt entries)) := by
  have hscan : (Decryptor.kem b).counter.Covers entries.length := covers_none _
  rcases decryptKem_cases b entries with ⟨hnone,hidle⟩ | ⟨ss,data,nonce,ha,hx⟩
  · rcases hidle with hx | hx | hx
    · rw [hx]
      exact .idle hscan hnone rfl quiet_nil
    · rw [hx]
      exact .idle hscan hnone rfl ⟨rfl,rfl⟩
    · rw [hx]
      exact .idle hscan hnone rfl ⟨rfl,rfl⟩
  · obtain ⟨_,hdata,hnonce⟩ := Decryptor.attempt_fields _ entries _ ha
    have hd := lookup_leavesRoom 0 entries hroom "msg_encrypted" data hdata
    have hn := lookup_leavesRoom 0 entries hroom "nonce" nonce hnonce
    have hrun := decryptData_outcome sizeCounter ⟨S.secretboxUnder ss,data,nonce⟩
      [.sodiumMemzero .ss] (("KEM ciphertext found: " ++ coutBool true) ::
        foundLines ⟨data,nonce,true,true⟩) ⟨rfl,rfl⟩ hd hn
      (fun n => S.secretbox_open_size data n _)
    have hafter := hrun.after_quiet [.fill .ss] ⟨rfl,rfl⟩
    rw [hx]
    exact .attempted _ hscan ha hafter

/-- Every handler has one of the outcomes on every message. -/
theorem Decryptor.handleMsg_outcome (d : Decryptor S) :
    d.Outcome entries (d.handleMsg (messagePmt entries)) := by
  cases d with
  | secret b => exact decryptSecret_outcome entries hroom b
  | box b => exact decryptPublic_outcome entries hroom b
  | kem b => exact decryptKem_outcome entries hroom b

end Handlers

/-! What can be seen of a handler on a message in memory. -/

theorem decryptedPdu_injective (p q : Bytes)
    (h : messagePmt (decryptedPdu p) = messagePmt (decryptedPdu q)) : p = q := by
  have hfield := congrArg (lookup "msg_decrypted") (messagePmt_injective h)
  exact Option.some.inj hfield

namespace Decryptor

variable {S : Sodium} (d : Decryptor S)

/-- The handler gets as far as its opening call. -/
structure Reaches (m : Message 0) (a : Attempt) : Prop where
  scanned : d.counter.Covers m.entries.length
  attempted : d.attempt m.entries = some a
  copied : d.counter.Covers a.data.length ∧ d.counter.Covers a.nonce.length
  holdsMac : 16 ≤ a.data.length

/-- The handler publishes p for the message. -/
def Publishes (m : Message 0) (p : Bytes) : Prop :=
  published (d.handleMsg m.toPmt).events = [messagePmt (decryptedPdu p)]

theorem message_outcome (m : Message 0) : d.Outcome m.entries (d.handleMsg m.toPmt) :=
  d.handleMsg_outcome m.entries m.inMemory

theorem attempt_unique (m : Message 0) (a b : Attempt) (ha : d.attempt m.entries = some a)
    (hb : d.attempt m.entries = some b) : a = b := by
  rw [ha] at hb
  exact Option.some.inj hb

/-- Either the opening call is never made, or it is made on the nonce field as it came. -/
theorem reached_or_quiet (m : Message 0) :
    (Quiet (d.handleMsg m.toPmt).events ∧ ∀ a, ¬d.Reaches m a) ∨
    ∃ a, d.Reaches m a ∧ openNonces (d.handleMsg m.toPmt).events = [a.nonce] ∧
      ((a.nonce.length < 24 ∧ published (d.handleMsg m.toPmt).events = []) ∨
        ∃ n, arrayOf 24 a.nonce = some n ∧ published (d.handleMsg m.toPmt).events =
          if (a.cipher.openEasy a.data n).1 = 0 then
            [messagePmt (decryptedPdu (a.cipher.openEasy a.data n).2)] else []) := by
  cases d.message_outcome m with
  | scanOverflows hscan hx =>
    left
    rw [hx]
    exact ⟨quiet_nil, fun a ha => hscan ha.scanned⟩
  | idle hscan hnone hresult hquiet =>
    left
    refine ⟨hquiet, ?_⟩
    intro a ha
    have hattempt := ha.attempted
    rw [hnone] at hattempt
    cases hattempt
  | attempted a hscan ha hx =>
    have honly (b : Attempt) (hb : d.Reaches m b) : b = a := d.attempt_unique m b a hb.attempted ha
    cases hx with
    | copyOverflows hcopy hresult hquiet =>
      left
      exact ⟨hquiet, fun b hb => hcopy (honly b hb ▸ hb.copied)⟩
    | lengthWraps hcopy hshort hresult hquiet =>
      left
      refine ⟨hquiet, ?_⟩
      intro b hb
      have hmac := hb.holdsMac
      rw [honly b hb] at hmac
      omega
    | overreads hcopy hdata hshort hresult hpublished hopened =>
      right
      exact ⟨a,⟨hscan,ha,hcopy,hdata⟩,hopened,Or.inl ⟨hshort,hpublished⟩⟩
    | opens n hcopy hdata hread hresult hpublished hopened =>
      right
      exact ⟨a,⟨hscan,ha,hcopy,hdata⟩,hopened,Or.inr ⟨n,hread,hpublished⟩⟩

/-- The buffers passed to the opening call are the nonce fields that reach it. -/
theorem mem_openNonces_iff (m : Message 0) (buf : Bytes) :
    buf ∈ openNonces (d.handleMsg m.toPmt).events ↔ ∃ a, d.Reaches m a ∧ buf = a.nonce := by
  rcases d.reached_or_quiet m with ⟨hquiet,hnot⟩ | ⟨a,ha,hopened,hrest⟩
  · rw [hquiet.2]
    exact iff_of_false List.not_mem_nil (fun ⟨a,ha,_⟩ => hnot a ha)
  · rw [hopened, List.mem_singleton]
    constructor
    · intro hbuf
      exact ⟨a,ha,hbuf⟩
    · intro hbuf
      obtain ⟨b,hb,hbuf⟩ := hbuf
      rw [hbuf, d.attempt_unique m b a hb.attempted ha.attempted]

/-- A published clear text was opened from fields that reached the call. -/
theorem publishes_iff (m : Message 0) (p : Bytes) :
    d.Publishes m p ↔ ∃ a n, d.Reaches m a ∧ arrayOf 24 a.nonce = some n ∧
      a.cipher.openEasy a.data n = (0,p) := by
  unfold Publishes
  rcases d.reached_or_quiet m with ⟨hquiet,hnot⟩ | ⟨a,ha,hopened,hrest⟩
  · rw [hquiet.1]
    exact iff_of_false (List.cons_ne_nil _ _).symm (fun ⟨a,n,ha,_⟩ => hnot a ha)
  · rcases hrest with ⟨hshort,hpublished⟩ | ⟨n,hread,hpublished⟩
    · rw [hpublished]
      apply iff_of_false (List.cons_ne_nil _ _).symm
      rintro ⟨b,n,hb,hn,_⟩
      have hlen := ((arrayOf_eq_some_iff 24 b.nonce n).mp hn).1
      rw [d.attempt_unique m b a hb.attempted ha.attempted] at hlen
      omega
    · rw [hpublished]
      constructor
      · intro hp
        by_cases hstatus : (a.cipher.openEasy a.data n).1 = 0
        · rw [if_pos hstatus] at hp
          have hpay := decryptedPdu_injective _ _ (List.singleton_inj.mp hp)
          exact ⟨a,n,ha,hread,Prod.ext hstatus hpay⟩
        · rw [if_neg hstatus] at hp
          cases hp
      · intro hp
        obtain ⟨b,n',hb,hn',hopen⟩ := hp
        have hba := d.attempt_unique m b a hb.attempted ha.attempted
        subst hba
        rw [hread] at hn'
        cases hn'
        rw [hopen, if_pos rfl]

theorem publishes_at_most_one (m : Message 0) :
    (published (d.handleMsg m.toPmt).events).length ≤ 1 := by
  rcases d.reached_or_quiet m with ⟨hquiet,hnot⟩ | ⟨a,ha,hopened,hrest⟩
  · rw [hquiet.1, List.length_nil]
    omega
  · rcases hrest with ⟨hshort,hpublished⟩ | ⟨n,hread,hpublished⟩
    · rw [hpublished, List.length_nil]
      omega
    · rw [hpublished]
      split <;> simp

end Decryptor

end GrNacl
