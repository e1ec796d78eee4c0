import GrNacl.Flowgraphs
import GrNacl.KemChain
import GrNacl.NodesInARow

/-! An encryptor and the decryptors that hold the matching key, anywhere in a flowgraph.
Under every interleaving each of them publishes the payloads in the order they were sent. -/
namespace GrNacl
set_option autoImplicit false

open EffectTrace CountedLoop MessageNetwork

/-- What is assumed of the calls behind the message blocks. -/
structure Sodium.Inverts (S : Sodium) : Prop where
  secretbox : S.SecretboxInverts
  box : S.BoxInverts
  kem : S.KemAgrees

/-- An encryptor and a decryptor with matching keys. -/
inductive Matched (S : Sodium) : Block S → Decryptor S → Prop
  | secret (e : EncryptSecret) (d : DecryptSecret) (hkey : e.dKey = d.dKey) :
    Matched S (.encryptSecret e) (.secret d)
  | box (e : EncryptPublic) (d : DecryptPublic) (seedA seedB : Bytes)
    (hpk : e.dPk = (S.cryptoBoxKeypair seedB).1) (hsk : e.dSk = (S.cryptoBoxKeypair seedA).2)
    (hpk' : d.dPk = (S.cryptoBoxKeypair seedA).1) (hsk' : d.dSk = (S.cryptoBoxKeypair seedB).2) :
    Matched S (.encryptPublic e) (.box d)
  | kem (e : EncryptKem S) (d : DecryptKem S) (seed : Bytes)
    (hseed : (S.cryptoKemKeypair seed).1 = 0) (hpk : e.dPk = (S.cryptoKemKeypair seed).2.1)
    (hsk : d.dSk = (S.cryptoKemKeypair seed).2.2) : Matched S (.encryptKem e) (.kem d)

/-- A PDU in which p is sealed for the decryptor: what stands in front fixes the key, for a
decryptor that reads it, and under the key the ciphertext opens to p. -/
structure Sealed {S : Sodium} (d : Decryptor S) (front : List Entry) (n : Vector UInt8 24)
    (ct p : Bytes) : Prop where
  short : front.length ≤ 1
  room : LeavesRoom 0 front
  size : ct.length = 16+p.length
  opens : ∃ k : Cipher, k.openEasy ct n = (0,p) ∧ ∀ entries,
    ("kem_ciphertext" ∈ d.tags →
      lookup "kem_ciphertext" entries = lookup "kem_ciphertext" front) →
    d.cipher entries = some k

section Pair

variable {S : Sodium} (hS : S.Inverts) {b : Block S} {d : Decryptor S} (hmatch : Matched S b d)
include hS hmatch

/-- Every PDU of the encryptor is sealed for the decryptor. -/
theorem matched_sealed (draws : KemDraws) (entries pdu : List Entry)
    (h : (b.onDraws draws).PduFor entries pdu) : ∃ p front n ct,
      lookup "msg_clear" entries = some p ∧ p ≠ [] ∧ pdu = encryptedPdu front n.toList ct ∧
        Sealed d front n ct p := by
  cases hmatch with
  | secret e d hkey =>
    obtain ⟨p,hp,hne,_,rfl⟩ := h
    refine ⟨p,[],draws.nonce,_,hp,hne,rfl,by simp,leavesRoom_nil 0,
      S.secretbox_easy_size p draws.nonce e.dKey,S.secretboxUnder d.dKey,?_,fun _ _ => rfl⟩
    rw [hkey]
    exact (hS.secretbox p draws.nonce d.dKey).2
  | box e d seedA seedB hpk hsk hpk' hsk' =>
    obtain ⟨p,hp,hne,_,rfl⟩ := h
    refine ⟨p,[],draws.nonce,_,hp,hne,rfl,by simp,leavesRoom_nil 0,
      S.box_easy_size p draws.nonce e.dPk e.dSk,S.boxUnder d.dPk d.dSk,?_,fun _ _ => rfl⟩
    rw [hpk, hsk, hpk', hsk']
    exact (hS.box seedA seedB p draws.nonce).2
  | kem e d seed hseed hpk hsk =>
    obtain ⟨p,ct,ss,hp,hne,henc,_,rfl⟩ := h
    have hagree := (hS.kem seed draws.coins hseed).2
    rw [← hpk, ← hsk, henc] at hagree
    have hkem := S.kem_ciphertext_fits
    refine ⟨p,kemFront ct.toList,draws.nonce,_,hp,hne,rfl,by simp [kemFront],?_,
      S.secretbox_easy_size p draws.nonce ss,S.secretboxUnder ss,
      (hS.secretbox p draws.nonce ss).2,?_⟩
    · rw [kemFront, leavesRoom_field_cons, Vector.length_toList]
      exact ⟨hkem,leavesRoom_nil 0⟩
    · intro entries hread
      have hct := hread List.mem_cons_self
      rw [lookup_kemFront] at hct
      rw [Decryptor.cipher_kem d entries ct.toList hct, sharedSecret_toList S d ct ss hagree,
        Option.map_some]

/-- On a payload of countable length the encryptor publishes. -/
theorem matched_publishes (draws : KemDraws) (entries : List Entry) (hsized : WellSized entries)
    (p : Bytes) (hp : lookup "msg_clear" entries = some p) (hne : p ≠ []) :
    published ((b.onDraws draws).handleMsg (messagePmt entries)).events ≠ [] := by
  have hmax : maxSize = 9223372036854775807 := rfl
  have hlen := hsized.clear p hp
  have hnil : p.length ≠ 0 := fun h => hne (List.length_eq_zero_iff.mp h)
  have hint (n : ℕ) (hn : n ≤ 2147483647) : intCounter.Covers n := (covers_some _ _).mpr hn
  -- the handler on the message is the handler on its payload
  have hscan (cb : ClearTextBlock S) (hcb : b.onDraws draws = .clearText cb) :
      (b.onDraws draws).handleMsg (messagePmt entries) = cb.onPayload p := by
    have hcov := (MessageBlock.clearText cb).counter_covers entries.length hsized.counted
    rw [hcb, ← Option.getD_some (a := p) (b := []), ← hp]
    exact cb.handleMsg_counted entries hcov
  have hanswers (x : Handler Unit) (pdu : Pmt) (hx : Answers x [pdu]) :
      published x.events ≠ [] := by
    rw [hx.messages]
    exact List.cons_ne_nil _ _
  cases hmatch with
  | secret e d hkey =>
    rw [hscan (.encryptSecret e draws.nonce) rfl, ClearTextBlock.encryptSecret_onPayload,
      if_pos hnil]
    exact hanswers _ _ (encryptData_answers intCounter (fun m n => S.cryptoSecretboxEasy m n e.dKey)
      [] rfl [] draws.nonce p (by omega) (hint 24 (by omega))
      (S.secretbox_easy_size p draws.nonce e.dKey) (hint _ hlen)
      (hS.secretbox p draws.nonce e.dKey).1)
  | box e d seedA seedB hpk hsk hpk' hsk' =>
    have hstatus := (hS.box seedA seedB p draws.nonce).1
    rw [← hpk, ← hsk] at hstatus
    rw [hscan (.encryptPublic e draws.nonce) rfl, ClearTextBlock.encryptPublic_onPayload,
      if_pos hnil]
    exact hanswers _ _ (encryptData_answers intCounter (fun m n => S.cryptoBoxEasy m n e.dPk e.dSk)
      [] rfl [] draws.nonce p (by omega) (hint 24 (by omega))
      (S.box_easy_size p draws.nonce e.dPk e.dSk) (hint _ hlen) hstatus)
  | kem e d seed hseed hpk hsk =>
    have hstatus := (hS.kem seed draws.coins hseed).1
    rw [← hpk] at hstatus
    have henc : S.cryptoKemEnc e.dPk draws.coins =
        (0,(S.cryptoKemEnc e.dPk draws.coins).2.1,(S.cryptoKemEnc e.dPk draws.coins).2.2) :=
      Prod.ext hstatus rfl
    have hdata := encryptData_answers sizeCounter
      (fun m n => S.cryptoSecretboxEasy m n (S.cryptoKemEnc e.dPk draws.coins).2.2)
      [.sodiumMemzero .ss] rfl (kemFront (S.cryptoKemEnc e.dPk draws.coins).2.1.toList)
      draws.nonce p (by omega) (covers_none _) (S.secretbox_easy_size p draws.nonce _)
      (covers_none _) (hS.secretbox p draws.nonce _).1
    rw [hscan (.encryptKem e draws) rfl,
      ClearTextBlock.encryptKem_onPayload e draws p hnil 0 _ _ henc, if_neg (not_not_intro rfl),
      Run.emit_bind]
    change published (_ :: _) ≠ []
    exact hanswers _ _ hdata

end Pair

/-- The decryptor opens a sealed PDU of countable length. -/
theorem sealed_answers {S : Sodium} (d : Decryptor S) (front : List Entry) (n : Vector UInt8 24)
    (ct p : Bytes) (h : Sealed d front n ct p) (hlen : 16+p.length ≤ 2147483647) :
    Answers (d.handleMsg (messagePmt (encryptedPdu front n.toList ct)))
      [messagePmt (decryptedPdu p)] := by
  have hmax : maxSize = 9223372036854775807 := rfl
  have hsize := h.size
  have hnonce : n.toList.length = 24 := n.length_toList
  have hcovers (k : ℕ) (hk : k ≤ 2147483647) : d.counter.Covers k :=
    (MessageBlock.decryptor d).counter_covers k hk
  have hentries : (encryptedPdu front n.toList ct).length = front.length+2 := by
    rw [encryptedPdu, List.length_append]
    rfl
  have hshort := h.short
  obtain ⟨k,hopen,hkey⟩ := h.opens
  have hroom := leavesRoom_encryptedPdu 0 front n.toList ct h.room (by omega) (by omega)
  have hcipher := hkey (encryptedPdu front n.toList ct) (fun _ =>
    lookup_encryptedPdu_front "kem_ciphertext" (by decide) (by decide) front n.toList ct)
  obtain ⟨hok,hpub⟩ := pdu_opens d front n ct p k hroom hcipher
    (hcovers _ (by omega)) (hcovers _ (by omega)) (hcovers _ (by omega)) (by omega) hopen
  exact ⟨hok,hpub⟩

/-- What the decryptors publish for a message that the encryptor has handled. -/
def relayedPayload (m : Pmt) : List Pmt :=
  match lookup "msg_clear" (entriesIn m) with
  | some p => if p = [] then [] else [messagePmt (decryptedPdu p)]
  | none => []

theorem relayedPayload_some (m : Pmt) (p : Bytes) (hp : lookup "msg_clear" (entriesIn m) = some p)
    (hne : p ≠ []) : relayedPayload m = [messagePmt (decryptedPdu p)] := by
  rw [relayedPayload, hp]
  exact if_neg hne

/-- One message through the pair: nothing is sent and nothing was to be sent, or one PDU is,
and the decryptor publishes what was. -/
theorem matched_course {S : Sodium} (hS : S.Inverts) {b : Block S} {d : Decryptor S}
    (hmatch : Matched S b d) (draws : KemDraws) (entries : List Entry)
    (hsized : WellSized entries) :
    (published ((b.onDraws draws).handleMsg (messagePmt entries)).events = [] ∧
      relayedPayload (messagePmt entries) = []) ∨
    ∃ pdu, published ((b.onDraws draws).handleMsg (messagePmt entries)).events = [pdu] ∧
      Answers (d.handleMsg pdu) (relayedPayload (messagePmt entries)) := by
  have hsends := (b.onDraws draws).handleMsg_sends (messagePmt entries)
  have hentries := entriesIn_messagePmt entries
  rw [hentries] at hsends
  rcases hsends with hnone | ⟨_,pdu,hpdu,hpub⟩
  · left
    refine ⟨hnone,?_⟩
    rw [relayedPayload, hentries]
    cases hp : lookup "msg_clear" entries with
    | none => rfl
    | some p =>
      have hempty : p = [] := by
        by_contra hne
        exact matched_publishes hS hmatch draws entries hsized p hp hne hnone
      exact if_pos hempty
  · right
    obtain ⟨p,front,n,ct,hp,hne,rfl,hsealed⟩ := matched_sealed hS hmatch draws entries pdu hpdu
    have hanswers := sealed_answers d front n ct p hsealed (hsized.clear p hp)
    rw [← hentries] at hp
    rw [relayedPayload_some _ p hp hne]
    exact ⟨_,hpub,hanswers⟩

section Delivery

variable {S : Sodium} {ι : Type} [DecidableEq ι] (g : Flowgraph S ι)
  (injects : State ι Pmt → ι → Pmt → Prop)

/-- One message through the pair, on all draws. -/
theorem flowgraph_relays (hS : S.Inverts) (a r : ι) (d : Decryptor S)
    (hr : g.block r = .decryptor d) (hmatch : Matched S (g.block a) d) (entries : List Entry)
    (hsized : WellSized entries) :
    MessageNetwork.Relays (g.network injects) a r (messagePmt entries)
      (relayedPayload (messagePmt entries)) := by
  refine ⟨?_,?_⟩
  · rintro o ⟨draws,rfl⟩
    exact (outcomeOf_faulted _).mpr (MessageBlock.returns_of_wellSized _ entries hsized)
  · rintro o ⟨draws,rfl⟩ os hos
    rcases matched_course hS hmatch draws entries hsized with ⟨hnone,hnothing⟩ | ⟨pdu,hpub,hanswers⟩
    · rw [outcomeOf, hnone] at hos
      cases hos
      exact ⟨fun o' ho' => absurd ho' List.not_mem_nil,hnothing.symm⟩
    · rw [outcomeOf, hpub] at hos
      obtain ⟨o',_,⟨draws',rfl⟩,hrest,rfl⟩ := List.forall₂_cons_left_iff.mp hos
      cases hrest
      rw [hr, Block.onDraws]
      refine ⟨?_,?_⟩
      · intro o' ho'
        rw [List.mem_singleton.mp ho']
        exact (outcomeOf_faulted _).mpr hanswers.returned
      · rw [List.flatMap_singleton]
        exact hanswers.messages

section Fed

variable (hS : S.Inverts) (a r : ι) (d : Decryptor S) (hr : g.block r = .decryptor d)
  (hmatch : Matched S (g.block a) d) (hwired : g.wired a r = true)
  (honly : ∀ j, j ≠ a → g.wired j r = false) (hclosed : ∀ s m, ¬injects s r m)
  (hinject : ∀ s i m, injects s i m → ∃ entries, m = messagePmt entries ∧ WellSized entries)
include hS hr hmatch hwired honly hclosed hinject

/-- The decryptor is through with a first part of what the encryptor has handled, and with
all of it once both queues are empty. -/
theorem fed_delivers (acts : List (Act ι Pmt)) (s : State ι Pmt)
    (h : MessageNetwork.Run (g.network injects) acts s) :
    s.published r <+: (s.handled a).flatMap relayedPayload ∧
      (s.queue a = [] → s.queue r = [] →
        s.published r = (s.arrived a).flatMap relayedPayload) := by
  have hrelays : ∀ m ∈ s.arrived a,
      MessageNetwork.Relays (g.network injects) a r m (relayedPayload m) := by
    intro m hm
    obtain ⟨entries,rfl,hsized⟩ := (wellSized_everywhere g injects hinject acts s h a).1 m hm
    exact flowgraph_relays g injects hS a r d hr hmatch entries hsized
  obtain ⟨_,_,hfirst,hall⟩ := h.relayed relayedPayload hwired honly hclosed
    (handles_total g injects r) hrelays
  refine ⟨hfirst,?_⟩
  intro ha hq
  have hconserved := h.conserved a
  rw [ha, List.append_nil] at hconserved
  rw [hall hq, hconserved]

/-- In every flowgraph into which only well-sized messages come, every decryptor that is fed
by a matching encryptor alone has published, after any interleaving, the first part of the
payloads the encryptor has handled, in order. From every state the flowgraph can be run to
empty queues by handling alone, and whenever the two queues are empty, all that arrived at
the encryptor has been published by the decryptor. -/
theorem flowgraph_delivers [Fintype ι] (acts : List (Act ι Pmt)) (s : State ι Pmt)
    (h : MessageNetwork.Run (g.network injects) acts s) :
    s.published r <+: (s.handled a).flatMap relayedPayload ∧
    (s.queue a = [] → s.queue r = [] →
      s.published r = (s.arrived a).flatMap relayedPayload) ∧
    ∃ later t, (∀ x ∈ later, x.isHandle = true) ∧
      MessageNetwork.Run (g.network injects) (acts ++ later) t ∧ (∀ i, t.queue i = []) ∧
      (∀ i, s.arrived i <+: t.arrived i) ∧
      t.published r = (t.arrived a).flatMap relayedPayload := by
  have hdelivers := fed_delivers g injects hS a r d hr hmatch hwired honly hclosed hinject
  obtain ⟨hfirst,hall⟩ := hdelivers acts s h
  refine ⟨hfirst,hall,?_⟩
  have hlive (acts : List (Act ι Pmt)) (s : State ι Pmt)
      (h : MessageNetwork.Run (g.network injects) acts s) (i : ι) : s.stopped i = false :=
    (wellSized_everywhere g injects hinject acts s h i).2
  obtain ⟨later,t,hhandles,hrun,hempty,hgrow⟩ := h.drains
    (fun m => hopWeight (maxFanout g) (hops m)) (hops_handled g injects)
    (handles_total g injects) hlive
  exact ⟨later,t,hhandles,hrun,hempty,hgrow,(hdelivers _ t hrun).2 (hempty a) (hempty r)⟩

end Fed

end Delivery

theorem reference_inverts : referenceSodium.Inverts :=
  ⟨reference_secretbox_inverts,reference_box_inverts,reference_kem_agrees⟩

/-- Messages come in at the encryptor alone. -/
def injectsAt (i : Bool) : State Bool Pmt → Bool → Pmt → Prop :=
  fun _ j m => j = i ∧ ∃ entries, m = messagePmt entries ∧ WellSized entries

theorem secretEncryption_matched :
    Matched referenceSodium (secretEncryption.block false) (.secret ⟨"key",Vector.replicate 32 0⟩) :=
  .secret _ _ rfl

theorem secretEncryption_wired (j : Bool) (hj : j ≠ false) :
    secretEncryption.wired j true = false := by
  cases j with
  | false => exact absurd rfl hj
  | true => rfl

theorem flowgraph_delivers_strobe : ∃ s,
    MessageNetwork.Run (secretEncryption.network (injectsAt false)) strobeActs s ∧
      s.published true <+: (s.handled false).flatMap relayedPayload ∧
      (s.queue false = [] → s.queue true = [] →
        s.published true = (s.arrived false).flatMap relayedPayload) ∧
      ∃ later t, (∀ x ∈ later, x.isHandle = true) ∧
        MessageNetwork.Run (secretEncryption.network (injectsAt false)) (strobeActs ++ later) t ∧
        (∀ i, t.queue i = []) ∧ (∀ i, s.arrived i <+: t.arrived i) ∧
        t.published true = (t.arrived false).flatMap relayedPayload := by
  obtain ⟨s,hs⟩ := strobe_runs (injectsAt false) ⟨rfl,strobeMsg,rfl,wellSized_strobeMsg⟩
  refine ⟨s,hs,flowgraph_delivers secretEncryption (injectsAt false) reference_inverts false true _ rfl
    secretEncryption_matched rfl secretEncryption_wired ?_ ?_ strobeActs s hs⟩
  · rintro s m ⟨h,_⟩
    cases h
  · rintro s i m ⟨_,h⟩
    exact h

end GrNacl
