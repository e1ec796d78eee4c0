import GrNacl.Decryptors
import GrNacl.SodiumInstance

/-! Runs of a decryptor over messages of unknown origin. A run survives, with every
authentic PDU published, exactly when no message in it is too short or too long in
the fields the handler works on. -/
namespace GrNacl
set_option autoImplicit false

open EffectTrace CountedLoop

namespace Decryptor

variable {S : Sodium} (d : Decryptor S)

/-- One handler over the messages that arrive. -/
def run (ms : List (Message 0)) : Handler Unit := runAll (fun m => d.handleMsg m.toPmt) ms

/-- The PDU opens to p under a nonce field of the right size. -/
def Authentic (m : Message 0) (p : Bytes) : Prop :=
  ∃ a, d.attempt m.entries = some a ∧
    ∃ n : Vector UInt8 24, a.nonce = n.toList ∧ a.cipher.openEasy a.data n = (0,p)

/-- A message whose fields fit what the handler does with them. -/
structure Harmless (m : Message 0) : Prop where
  scanned : d.counter.Covers m.entries.length
  copied : ∀ a, d.attempt m.entries = some a →
    d.counter.Covers a.data.length ∧ d.counter.Covers a.nonce.length
  holdsMac : ∀ a, d.attempt m.entries = some a → 16 ≤ a.data.length
  holdsNonce : ∀ a, d.attempt m.entries = some a → 24 ≤ a.nonce.length

/-- What a decryptor owes to a sequence of messages. -/
structure Survives (ms : List (Message 0)) : Prop where
  finishes : (d.run ms).result = .ok ()
  returns : ∀ m ∈ ms, (d.handleMsg m.toPmt).result = .ok ()
  publishesOnce : ∀ m ∈ ms, (published (d.handleMsg m.toPmt).events).length ≤ 1
  noWrap : ∀ m ∈ ms, ∀ a, d.attempt m.entries = some a → sizeSub a.data.length 16 ≤ a.data.length
  authentic : ∀ pre m post p, ms = pre ++ m :: post → d.Authentic m p →
    published (d.run ms).events = published (d.run pre).events ++
      messagePmt (decryptedPdu p) :: published (d.run post).events

/-- The handler returns exactly on the harmless messages. -/
theorem result_ok_iff_harmless (m : Message 0) :
    (d.handleMsg m.toPmt).result = .ok () ↔ d.Harmless m := by
  have houtcome := d.message_outcome m
  constructor
  · intro hok
    cases houtcome with
    | scanOverflows hscan hx =>
      rw [hx, Run.result_fail] at hok
      cases hok
    | idle hscan hnone hresult hquiet =>
      -- nothing is asked of a message that is no attempt
      have hnot (a : Attempt) (ha : d.attempt m.entries = some a) : False := by
        rw [hnone] at ha
        cases ha
      exact ⟨hscan, fun a ha => (hnot a ha).elim, fun a ha => (hnot a ha).elim,
        fun a ha => (hnot a ha).elim⟩
    | attempted a hscan ha hx =>
      cases hx with
      | copyOverflows hcopy hresult hquiet =>
        rw [hresult] at hok
        cases hok
      | lengthWraps hcopy hshort hresult hquiet =>
        rw [hresult] at hok
        cases hok
      | overreads hcopy hdata hshort hresult hpublished hopened =>
        rw [hresult] at hok
        cases hok
      | opens n hcopy hdata hread hresult hpublished hopened =>
        have hnonce := ((arrayOf_eq_some_iff 24 a.nonce n).mp hread).1
        have honly (b : Attempt) (hb : d.attempt m.entries = some b) : b = a := by
          rw [ha] at hb
          exact (Option.some.inj hb).symm
        exact ⟨hscan, fun b hb => honly b hb ▸ hcopy, fun b hb => honly b hb ▸ hdata,
          fun b hb => honly b hb ▸ hnonce⟩
  · intro h
    cases houtcome with
    | scanOverflows hscan hx => exact absurd h.scanned hscan
    | idle hscan hnone hresult hquiet => exact hresult
    | attempted a hscan ha hx =>
      have hcopied := h.copied a ha
      have hmac := h.holdsMac a ha
      have hnonce := h.holdsNonce a ha
      cases hx with
      | copyOverflows hcopy hresult hquiet => exact absurd hcopied hcopy
      | lengthWraps hcopy hshort hresult hquiet => omega
      | overreads hcopy hdata hshort hresult hpublished hopened => omega
      | opens n hcopy hdata hread hresult hpublished hopened => exact hresult

/-- An authentic PDU the handler returns from is published. -/
theorem authentic_published (m : Message 0) (p : Bytes) (h : d.Harmless m) (hp : d.Authentic m p) :
    d.Publishes m p := by
  obtain ⟨a,ha,n,hn,hopen⟩ := hp
  have hread : arrayOf 24 a.nonce = some n := by
    rw [hn, arrayOf_toList]
  exact (d.publishes_iff m p).mpr
    ⟨a,n,⟨h.scanned,ha,h.copied a ha,h.holdsMac a ha⟩,hread,hopen⟩

theorem run_published (ms : List (Message 0)) (h : ∀ m ∈ ms, d.Harmless m) :
    published (d.run ms).events = ms.flatMap (fun m => published (d.handleMsg m.toPmt).events) := by
  have hok (m : Message 0) (hm : m ∈ ms) : (d.handleMsg m.toPmt).result = .ok () :=
    (d.result_ok_iff_harmless m).mpr (h m hm)
  rw [run, runAll_events _ ms hok, published_flatMap]

/-- A decryptor survives a sequence of messages, publishing every authentic PDU in
its place, exactly when every message is harmless. -/
theorem survives_iff (ms : List (Message 0)) : d.Survives ms ↔ ∀ m ∈ ms, d.Harmless m := by
  constructor
  · intro h m hm
    exact (d.result_ok_iff_harmless m).mp (h.returns m hm)
  · intro h
    have hreturns (m : Message 0) (hm : m ∈ ms) : (d.handleMsg m.toPmt).result = .ok () :=
      (d.result_ok_iff_harmless m).mpr (h m hm)
    refine ⟨(runAll_result_ok_iff _ ms).mpr hreturns, hreturns,
      fun m _ => d.publishes_at_most_one m, ?_, ?_⟩
    · intro m hm a ha
      exact sizeSub_le a.data.length 16 ((h m hm).holdsMac a ha)
    · intro pre m post p hms hp
      -- the runs before and after m are harmless too, so all three logs split
      have hpre : ∀ x ∈ pre, d.Harmless x := fun x hx => h x (by simp [hms, hx])
      have hpost : ∀ x ∈ post, d.Harmless x := fun x hx => h x (by simp [hms, hx])
      have hm : d.Harmless m := h m (by simp [hms])
      have hpub : published (d.handleMsg m.toPmt).events = _ := d.authentic_published m p hm hp
      rw [d.run_published ms h, d.run_published pre hpre, d.run_published post hpost, hms,
        List.flatMap_append, List.flatMap_cons, hpub, List.singleton_append]

/-- Data below the MAC size ends the run, and what follows is lost. -/
theorem run_stops_at_short_data (m : Message 0) (rest : List (Message 0)) (a : Attempt)
    (hscan : d.counter.Covers m.entries.length) (ha : d.attempt m.entries = some a)
    (hcopy : d.counter.Covers a.data.length ∧ d.counter.Covers a.nonce.length)
    (hshort : a.data.length < 16) :
    (d.run (m :: rest)).result = .error .lengthError ∧
      published (d.run (m :: rest)).events = [] := by
  have hstop : (d.handleMsg m.toPmt).result = .error .lengthError ∧
      published (d.handleMsg m.toPmt).events = [] := by
    cases (d.message_outcome m).of_attempt hscan ha with
    | copyOverflows hover hresult hquiet => exact absurd hcopy hover
    | lengthWraps hcopy hshort hresult hquiet => exact ⟨hresult,hquiet.1⟩
    | overreads hcopy hdata hshort hresult hpublished hopened => omega
    | opens n hcopy hdata hread hresult hpublished hopened => omega
  have hrun := runAll_fault (fun m => d.handleMsg m.toPmt) [] rest m .lengthError
    (fun _ hy => absurd hy List.not_mem_nil) hstop.1
  rw [List.nil_append, List.flatMap_nil, List.nil_append] at hrun
  rw [run, hrun]
  exact ⟨rfl,hstop.2⟩

end Decryptor

theorem reference_easy_size : (referenceSodium.cryptoSecretboxEasy [1] (Vector.replicate 24 0)
    (Vector.replicate 32 0)).2.length = 17 :=
  referenceSodium.secretbox_easy_size [1] (Vector.replicate 24 0) (Vector.replicate 32 0)

theorem reference_easy_room : (referenceSodium.cryptoSecretboxEasy [1] (Vector.replicate 24 0)
    (Vector.replicate 32 0)).2.length ≤ maxSize := by
  rw [reference_easy_size]
  decide

def emptyPdu : Message 0 := pduMessage (List.replicate 24 0) [] (by decide) (by decide)

/-- The PDU of the byte 1 under the zero key and the zero nonce. -/
def sealedPdu : Message 0 :=
  pduMessage (List.replicate 24 0) (referenceSodium.cryptoSecretboxEasy [1] (Vector.replicate 24 0)
    (Vector.replicate 32 0)).2 (by decide) reference_easy_room

/-- An empty msg_encrypted field stops decrypt_secret, and the authentic PDU behind it
is never published. -/
theorem empty_data_stops_decryptor :
    let d : Decryptor referenceSodium := .secret ⟨"key",Vector.replicate 32 0⟩
    d.Authentic sealedPdu [1] ∧
      (d.run [emptyPdu,sealedPdu]).result = .error .lengthError ∧
      published (d.run [emptyPdu,sealedPdu]).events = [] ∧
      ¬d.Survives [emptyPdu,sealedPdu] := by
  intro d
  have hempty : d.attempt emptyPdu.entries = some
      ⟨referenceSodium.secretboxUnder (Vector.replicate 32 0),[],List.replicate 24 0⟩ :=
    d.attempt_eq _ _ _ _ rfl (lookup_encryptedPdu_data _ _ _) (lookup_encryptedPdu_nonce _ _ _)
  have hsealed := d.attempt_eq sealedPdu.entries _ _ _ rfl (lookup_encryptedPdu_data _ _ _)
    (lookup_encryptedPdu_nonce _ _ _)
  have hstop := d.run_stops_at_short_data emptyPdu [sealedPdu] _
    ((covers_some _ _).mpr (by decide)) hempty
    ⟨(covers_some _ _).mpr (by decide), (covers_some _ _).mpr (by decide)⟩ (by decide)
  refine ⟨⟨_,hsealed,Vector.replicate 24 0,?_,?_⟩, hstop.1, hstop.2, ?_⟩
  · rw [Vector.toList_replicate]
  · exact (reference_secretbox_inverts [1] (Vector.replicate 24 0) (Vector.replicate 32 0)).2
  · intro h
    have hfinish := h.finishes
    rw [hstop.1] at hfinish
    cases hfinish

end GrNacl
