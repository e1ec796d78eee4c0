import GrNacl.Decryptors

/-! A handler that feeds another one. The chain delivers when both runs return and
what comes out is the payloads of what went in. -/
namespace GrNacl
set_option autoImplicit false

open EffectTrace CountedLoop

variable {extra : ℕ}

/-- The effective payload: the last u8vector-valued msg_clear entry, if not empty. -/
def Message.payload (m : Message extra) : Option Bytes :=
  match m.field "msg_clear" with
  | some v => if v.length ≠ 0 then some v else none
  | none => none

theorem payload_field (m : Message extra) (v : Bytes) (h : m.payload = some v) :
    m.field "msg_clear" = some v ∧ v.length ≠ 0 := by
  unfold Message.payload at h
  split at h
  · next w hw =>
    split at h
    · next hne =>
      cases Option.some.inj h
      exact ⟨hw,hne⟩
    · cases h
  · cases h

theorem payload_of_field (m : Message extra) (v : Bytes) (h : m.field "msg_clear" = some v)
    (hne : v.length ≠ 0) : m.payload = some v := by
  rw [Message.payload, h]
  exact if_pos hne

theorem payload_none (m : Message extra) (h : m.payload = none) :
    ((lookup "msg_clear" m.entries).getD []).length = 0 := by
  unfold Message.payload Message.field at h
  cases hv : lookup "msg_clear" m.entries with
  | none => rfl
  | some v =>
    rw [hv] at h
    by_contra hne
    rw [Option.getD_some] at hne
    dsimp only at h
    rw [if_pos hne] at h
    cases h

/-- A clear-text handler works on the effective payload, or does nothing. -/
theorem scanClear_payload (c : Counter) (m : Message extra) (f : Bytes → Handler Unit) :
    (do let data ← scanClear c m.toPmt; if data.length ≠ 0 then f data else pure ()) =
      if c.Covers m.entries.length then
        match m.payload with
        | some v => f v
        | none => pure ()
      else Run.fail .undefinedBehaviour := by
  rw [Message.toPmt, scanClear_eq]
  by_cases hscan : c.Covers m.entries.length
  · rw [if_pos hscan, if_pos hscan, pure_bind, Message.payload, Message.field]
    cases lookup "msg_clear" m.entries with
    | none => rfl
    | some v =>
      rw [Option.getD_some]
      dsimp only
      by_cases hne : v.length ≠ 0
      · rw [if_pos hne, if_pos hne]
      · rw [if_neg hne, if_neg hne]
  · rw [if_neg hscan, if_neg hscan, Run.fail_bind]

/-- A decryptor publishes the clear text of a PDU that opens. -/
theorem pdu_opens {S : Sodium} (d : Decryptor S) (front : List Entry) (n : Vector UInt8 24)
    (ct p : Bytes) (k : Cipher) (hroom : LeavesRoom 0 (encryptedPdu front n.toList ct))
    (hk : d.cipher (encryptedPdu front n.toList ct) = some k)
    (hscan : d.counter.Covers (encryptedPdu front n.toList ct).length)
    (hn : d.counter.Covers 24) (hct : d.counter.Covers ct.length) (hmac : 16 ≤ ct.length)
    (hopen : k.openEasy ct n = (0,p)) :
    (d.handleMsg (messagePmt (encryptedPdu front n.toList ct))).result = .ok () ∧
      published (d.handleMsg (messagePmt (encryptedPdu front n.toList ct))).events =
        [messagePmt (decryptedPdu p)] := by
  have hattempt := d.attempt_eq _ k ct n.toList hk (lookup_encryptedPdu_data front n.toList ct)
    (lookup_encryptedPdu_nonce front n.toList ct)
  have hlen : n.toList.length = 24 := n.length_toList
  -- every outcome but the last contradicts a length of the PDU
  cases (d.handleMsg_outcome (encryptedPdu front n.toList ct) hroom).of_attempt hscan hattempt with
  | copyOverflows hcopy hresult hquiet =>
    have hcovers : d.counter.Covers n.toList.length := by
      rw [hlen]
      exact hn
    exact absurd ⟨hct,hcovers⟩ hcopy
  | lengthWraps hcopy hshort hresult hquiet =>
    dsimp only at hshort
    omega
  | overreads hcopy hdata hshort hresult hpublished hopened =>
    dsimp only at hshort
    omega
  | opens n' hcopy hdata hread hresult hpublished hopened =>
    have hsame : n' = n := by
      rw [arrayOf_toList] at hread
      exact (Option.some.inj hread).symm
    refine ⟨hresult,?_⟩
    rw [hpublished, hsame]
    dsimp only
    rw [hopen, if_pos rfl]

/-! Chains. -/

/-- What the receiver publishes for a payload, if there is one. -/
def deliveries (payload : Option Bytes) : List Pmt :=
  payload.toList.map (fun p => messagePmt (decryptedPdu p))

theorem flatMap_deliveries {δ : Type} (inputs : List (δ × Message extra)) :
    inputs.flatMap (fun x => deliveries x.2.payload) =
      (inputs.filterMap (fun x => x.2.payload)).map (fun p => messagePmt (decryptedPdu p)) := by
  induction inputs with
  | nil => rfl
  | cons x inputs ih =>
    rw [List.flatMap_cons, ih, List.filterMap_cons]
    cases x.2.payload <;> rfl

section Chains

variable {δ : Type} (send : δ × Message extra → Handler Unit) (recv : Pmt → Handler Unit)

/-- Every message is sent on its draw, and everything published is received in order. -/
structure Delivers (inputs : List (δ × Message extra)) : Prop where
  sent : (runAll send inputs).result = .ok ()
  received : (runAll recv (published (runAll send inputs).events)).result = .ok ()
  payloads : published (runAll recv (published (runAll send inputs).events)).events =
    (inputs.filterMap (fun x => x.2.payload)).map (fun p => messagePmt (decryptedPdu p))

/-- One message through the chain. -/
structure Relays (x : δ × Message extra) : Prop where
  sent : (send x).result = .ok ()
  received : ∀ pdu ∈ published (send x).events, (recv pdu).result = .ok ()
  payloads : (published (send x).events).flatMap (fun pdu => published (recv pdu).events) =
    deliveries x.2.payload

/-- A chain that relays every message delivers the sequence. -/
theorem delivers_of_relays (inputs : List (δ × Message extra))
    (h : ∀ x ∈ inputs, Relays send recv x) :
    Delivers send recv inputs := by
  have hsent (x : δ × Message extra) (hx : x ∈ inputs) : (send x).result = .ok () := (h x hx).sent
  have hevents : published (runAll send inputs).events =
      inputs.flatMap (fun x => published (send x).events) := by
    rw [runAll_events send inputs hsent, published_flatMap]
  -- what reaches the receiver was published for some message of the sequence
  have hreceived (pdu : Pmt) (hpdu : pdu ∈ inputs.flatMap (fun x => published (send x).events)) :
      (recv pdu).result = .ok () := by
    obtain ⟨x,hx,hmem⟩ := List.mem_flatMap.mp hpdu
    exact (h x hx).received pdu hmem
  have hpayloads : inputs.flatMap (fun x =>
      (published (send x).events).flatMap (fun pdu => published (recv pdu).events)) =
      inputs.flatMap (fun x => deliveries x.2.payload) :=
    List.flatMap_congr (fun x hx => (h x hx).payloads)
  refine ⟨(runAll_result_ok_iff send inputs).mpr hsent,?_,?_⟩
  · rw [hevents]
    exact (runAll_result_ok_iff recv _).mpr hreceived
  · rw [hevents, runAll_events recv _ hreceived, published_flatMap, List.flatMap_assoc, hpayloads,
      flatMap_deliveries]

/-- A message without a payload is not sent on. -/
theorem relays_nothing (x : δ × Message extra) (hp : x.2.payload = none) (hsend : send x = pure ()) :
    Relays send recv x := by
  have hnone : published (send x).events = [] := by
    rw [hsend]
    rfl
  refine ⟨?_,?_,?_⟩
  · rw [hsend, Run.result_pure]
  · intro pdu hpdu
    rw [hnone] at hpdu
    exact absurd hpdu List.not_mem_nil
  · rw [hnone, hp]
    rfl

/-- A payload goes through in one PDU. -/
theorem relays_pdu (x : δ × Message extra) (p : Bytes) (pdu : Pmt) (hp : x.2.payload = some p)
    (hsend : (send x).result = .ok ()) (hpdu : published (send x).events = [pdu])
    (hrecv : (recv pdu).result = .ok ())
    (hout : published (recv pdu).events = [messagePmt (decryptedPdu p)]) :
    Relays send recv x := by
  refine ⟨hsend,?_,?_⟩
  · intro q hq
    rw [hpdu, List.mem_singleton] at hq
    rw [hq]
    exact hrecv
  · rw [hpdu, List.flatMap_singleton, hout, hp]
    rfl

end Chains

/-! The blocks that count with an int. -/

/-- Every u8vector of the message is shorter than the bound. -/
def Message.VectorsBelow (bound : ℕ) (m : Message extra) : Prop :=
  ∀ e ∈ m.entries, ∀ v, e.bytes = some v → v.length < bound

theorem payload_below (bound : ℕ) (m : Message extra) (hm : m.VectorsBelow bound) (v : Bytes)
    (hv : m.payload = some v) : v.length < bound := by
  obtain ⟨e,he,hb⟩ := lookup_bytes "msg_clear" m.entries v (payload_field m v hv).1
  exact hm e he v hb

/-- A PDU of countable length is opened by the decryptors that count with an int. -/
theorem intPdu_opens {S : Sodium} (d : Decryptor S) (hc : d.counter = intCounter)
    (n : Vector UInt8 24) (ct p : Bytes) (k : Cipher)
    (hk : d.cipher (encryptedPdu [] n.toList ct) = some k) (hct : ct.length = 16+p.length)
    (hlen : 16+p.length ≤ 2147483647) (hopen : k.openEasy ct n = (0,p)) :
    (d.handleMsg (messagePmt (encryptedPdu [] n.toList ct))).result = .ok () ∧
      published (d.handleMsg (messagePmt (encryptedPdu [] n.toList ct))).events =
        [messagePmt (decryptedPdu p)] := by
  have hcovers (n : ℕ) (h : n ≤ 2147483647) : d.counter.Covers n := by
    rw [hc, covers_some]
    exact h
  have hmax : maxSize = 9223372036854775807 := rfl
  have hnonce : n.toList.length = 24 := n.length_toList
  have htwo : (encryptedPdu [] n.toList ct).length = 2 := rfl
  have hroom : LeavesRoom 0 (encryptedPdu [] n.toList ct) :=
    leavesRoom_encryptedPdu 0 [] _ _ (leavesRoom_nil 0) (by omega) (by omega)
  exact pdu_opens d [] n ct p k hroom hk (hcovers _ (by omega)) (hcovers _ (by decide))
    (hcovers _ (by omega)) (by omega) hopen

section IntChains

variable {S : Sodium} (d : Decryptor S) (easy : CipherCall) (k : Cipher)

/-- The handler encrypt_secret and encrypt_public share, with the call of one of them. -/
def intSender (x : Vector UInt8 24 × Message extra) : Handler Unit := do
  let data ← scanClear intCounter x.2.toPmt
  if data.length ≠ 0 then encryptData intCounter 16 easy [] (pure []) x.1 data else pure ()

theorem intSender_eq (x : Vector UInt8 24 × Message extra) :
    intSender easy x = if intCounter.Covers x.2.entries.length then
        match x.2.payload with
        | some v => encryptData intCounter 16 easy [] (pure []) x.1 v
        | none => pure ()
      else Run.fail .undefinedBehaviour :=
  scanClear_payload intCounter x.2 _

variable (hc : d.counter = intCounter) (hk : ∀ entries, d.cipher entries = some k)
  (hsize : ∀ p n, (easy p n).2.length = 16+p.length)
  (hinv : ∀ p n, (easy p n).1 = 0 ∧ k.openEasy (easy p n).2 n = (0,p))
include hc hk hsize hinv

/-- One message of countable length goes through. -/
theorem intSender_relays (x : Vector UInt8 24 × Message extra)
    (hscan : x.2.entries.length ≤ 2147483647) (hshort : x.2.VectorsBelow (2147483647-16)) :
    Relays (intSender easy) d.handleMsg x := by
  have hcovers (n : ℕ) (h : n ≤ 2147483647) : intCounter.Covers n := (covers_some _ _).mpr h
  have hsend := intSender_eq easy x
  rw [if_pos (hcovers _ hscan)] at hsend
  cases hp : x.2.payload with
  | none =>
    rw [hp] at hsend
    exact relays_nothing _ _ x hp hsend
  | some p =>
    have hlen := payload_below _ x.2 hshort p hp
    have hmax : maxSize = 9223372036854775807 := rfl
    have hct := hsize p x.1
    have hrun := encryptData_counted intCounter 16 easy [] [] x.1 p (by omega)
      (hcovers 24 (by decide)) hct (hcovers _ (by omega))
    rw [if_neg (not_not_intro (hinv p x.1).1), List.nil_append] at hrun
    have hpdu : intSender easy x = Run.emitAll [.messagePortPub
        (messagePmt (encryptedPdu [] x.1.toList (easy p x.1).2))] := by
      rw [hp] at hsend
      exact hsend.trans hrun
    have hrecv := intPdu_opens d hc x.1 (easy p x.1).2 p k (hk _) hct (by omega) (hinv p x.1).2
    apply relays_pdu _ _ x p _ hp _ _ hrecv.1 hrecv.2
    · rw [hpdu, Run.result_emitAll]
    · rw [hpdu]
      rfl

/-- The chain delivers exactly the sequences in which an int counts every message. -/
theorem intChain_delivers_iff (inputs : List (Vector UInt8 24 × Message extra))
    (hshort : ∀ x ∈ inputs, x.2.VectorsBelow (2147483647-16)) :
    Delivers (intSender easy) d.handleMsg inputs ↔
      ∀ x ∈ inputs, x.2.entries.length ≤ 2147483647 := by
  constructor
  · intro h x hx
    -- the scan of a longer message overflows before anything is sent
    by_contra hlong
    have hcovers : ¬intCounter.Covers x.2.entries.length := by
      rw [covers_some]
      exact hlong
    have hsent := (runAll_result_ok_iff _ inputs).mp h.sent x hx
    rw [intSender_eq, if_neg hcovers] at hsent
    cases hsent
  · intro h
    apply delivers_of_relays
    intro x hx
    exact intSender_relays d easy k hc hk hsize hinv x (h x hx) (hshort x hx)

end IntChains

/-- A payload behind as many other entries as an int has values from 0 on, so that it is
not reached by a counter that wraps either. -/
def longEntries : List Entry :=
  List.replicate 2147483648 ⟨"other",.pair .null .null⟩ ++ [.field "msg_clear" [1]]

theorem longEntries_bytes (e : Entry) (he : e ∈ longEntries) (v : Bytes)
    (hv : e.bytes = some v) : v = [1] := by
  rcases List.mem_append.mp he with hother | hclear
  · -- the entries in front hold no u8vector
    rw [List.eq_of_mem_replicate hother] at hv
    cases hv
  · rw [List.mem_singleton.mp hclear] at hv
    exact (Option.some.inj hv).symm

def longMessage : Message 0 where
  entries := longEntries
  inMemory := by
    intro e he v hv
    rw [longEntries_bytes e he v hv]
    decide

theorem longMessage_length : longMessage.entries.length = 2147483649 := by
  change longEntries.length = _
  rw [longEntries, List.length_append, List.length_replicate, List.length_singleton]

theorem longMessage_payload : longMessage.payload = some [1] := by
  have hlast : lookup "msg_clear" longEntries = some [1] := by
    rw [longEntries, lookup_append, value_field_self, Option.some_or]
  exact payload_of_field longMessage [1] hlast (by decide)

theorem longMessage_below : longMessage.VectorsBelow (2147483647-16) := by
  intro e he v hv
  rw [longEntries_bytes e he v hv]
  decide

end GrNacl
