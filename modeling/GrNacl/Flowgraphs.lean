import GrNacl.PublishedPdus
import GrNacl.TrafficLoad
import Mathlib.Order.Lattice.Nat

/-! Flowgraphs: any blocks, any connections between their ports, cycles included. The
scheduler runs the handlers in any order, one message of one block at a time, and every
call makes its own random draws. An exception ends the thread of a block. -/
namespace GrNacl
set_option autoImplicit false

open EffectTrace CountedLoop MessageNetwork

/-- A block as it stands in a flowgraph: its keys, without the draws of its calls. -/
inductive Block (S : Sodium)
  | encryptSecret (b : EncryptSecret)
  | encryptPublic (b : EncryptPublic)
  | encryptKem (b : EncryptKem S)
  | hashSha3 (b : HashSha3)
  | decryptor (d : Decryptor S)

namespace Block

variable {S : Sodium}

/-- The block in one call, in which it uses of the draws what it draws. -/
def onDraws : Block S → KemDraws → MessageBlock S
  | .encryptSecret b, draws => .clearText (.encryptSecret b draws.nonce)
  | .encryptPublic b, draws => .clearText (.encryptPublic b draws.nonce)
  | .encryptKem b, draws => .clearText (.encryptKem b draws)
  | .hashSha3 b, _ => .clearText (.hashSha3 b)
  | .decryptor d, _ => .decryptor d

def dPortIdIn : Block S → String
  | .encryptSecret _ => "Msg clear"
  | .encryptPublic _ => "Msg clear"
  | .encryptKem _ => "Msg clear"
  | .hashSha3 _ => "Msg in"
  | .decryptor _ => "Msg encrypted"

def dPortIdOut : Block S → String
  | .encryptSecret _ => "Msg encrypted"
  | .encryptPublic _ => "Msg encrypted"
  | .encryptKem _ => "Msg encrypted"
  | .hashSha3 _ => "Msg hash"
  | .decryptor _ => "Msg decrypted"

end Block

/-- Blocks and the pairs of ports that msg_connect has connected. -/
structure Flowgraph (S : Sodium) (ι : Type) where
  block : ι → Block S
  connections : List ((ι × String) × ι × String)

/-- What a call of a handler means to the blocks around it. -/
def outcomeOf (x : Handler Unit) : Outcome Pmt :=
  ⟨published x.events,match x.result with
    | .ok _ => false
    | .error _ => true⟩

theorem outcomeOf_faulted (x : Handler Unit) : (outcomeOf x).faulted = false ↔ x.result = .ok () := by
  rw [outcomeOf]
  cases x.result with
  | ok u => exact iff_of_true rfl rfl
  | error e => exact iff_of_false (fun h => nomatch h) (fun h => nomatch h)

namespace Flowgraph

variable {S : Sodium} {ι : Type} [DecidableEq ι] (g : Flowgraph S ι)

def wired (i j : ι) : Bool :=
  decide (((i,(g.block i).dPortIdOut),(j,(g.block j).dPortIdIn)) ∈ g.connections)

/-- The flowgraph in an environment that may inject messages. -/
def network (injects : State ι Pmt → ι → Pmt → Prop) : Network ι Pmt where
  handles i m o := ∃ draws, o = outcomeOf (((g.block i).onDraws draws).handleMsg m)
  wired := g.wired
  injects := injects

end Flowgraph

/-- The example flowgraph for the secret-key blocks, without the strobe in front, which is
the environment, and the debug sinks behind. -/
def secretEncryption : Flowgraph referenceSodium Bool where
  block i := if i then .decryptor (.secret ⟨"key",Vector.replicate 32 0⟩)
    else .encryptSecret ⟨"key",Vector.replicate 32 0⟩
  connections := [((false,"Msg encrypted"),(true,"Msg encrypted"))]

/-- What the strobe sends: the text "test". -/
def strobeMsg : List Entry := [.field "msg_clear" [116,101,115,116]]

def strobeActs : List (Act Bool Pmt) := [.inject false (messagePmt strobeMsg),.handle false]

theorem strobe_runs (injects : State Bool Pmt → Bool → Pmt → Prop)
    (h : injects .start false (messagePmt strobeMsg)) :
    ∃ s, MessageNetwork.Run (secretEncryption.network injects) strobeActs s :=
  ⟨_,.step (.step .start (.inject false _ h))
    (.handle false (messagePmt strobeMsg) [] _ rfl rfl ⟨⟨[],Vector.replicate 24 0⟩,rfl⟩)⟩

/-! A message says by its tags how many blocks it can still pass. -/

theorem entriesIn_messagePmt (entries : List Entry) : entriesIn (messagePmt entries) = entries := by
  have hall : ∀ x ∈ entries.map Entry.toPmt, x.entry.isSome = true := by
    intro x hx
    obtain ⟨e,he,rfl⟩ := List.mem_map.mp hx
    rw [Pmt.entry_toPmt, Option.isSome_some]
  rw [entriesIn, messagePmt, Pmt.elements_ofList, Option.getD_some]
  exact messagePmt_injective (messagePmt_entriesOf _ hall).1

/-- The number of handlers a message can lead through: an encryptor and a decryptor, only a
decryptor, or none that publishes. -/
def hops (m : Pmt) : ℕ :=
  if "msg_clear" ∈ (entriesIn m).map Entry.tag then 2
  else if "msg_encrypted" ∈ (entriesIn m).map Entry.tag then 1
  else 0

theorem tag_of_lookup (name : String) (entries : List Entry) (v : Bytes)
    (h : lookup name entries = some v) : name ∈ entries.map Entry.tag := by
  have hmem : v ∈ entries.filterMap (Entry.value name) := List.mem_of_getLast? h
  obtain ⟨e,he,hv⟩ := List.mem_filterMap.mp hmem
  unfold Entry.value at hv
  split at hv
  · next htag => exact List.mem_map.mpr ⟨e,he,htag⟩
  · cases hv

theorem hops_of_clear (m : Pmt) (v : Bytes) (h : lookup "msg_clear" (entriesIn m) = some v) :
    hops m = 2 := if_pos (tag_of_lookup _ _ v h)

theorem hops_of_encrypted (m : Pmt) (v : Bytes)
    (h : lookup "msg_encrypted" (entriesIn m) = some v) : 1 ≤ hops m := by
  unfold hops
  split
  · omega
  · rw [if_pos (tag_of_lookup _ _ v h)]

theorem hops_encryptedPdu (front : List Entry) (hfront : "msg_clear" ∉ front.map Entry.tag)
    (nonce ct : Bytes) : hops (messagePmt (encryptedPdu front nonce ct)) = 1 := by
  have htags : (encryptedPdu front nonce ct).map Entry.tag =
      front.map Entry.tag ++ ["nonce","msg_encrypted"] := by
    rw [encryptedPdu, List.map_append]
    rfl
  rw [hops, entriesIn_messagePmt, htags, if_neg, if_pos]
  · apply List.mem_append_right
    simp
  · rw [List.mem_append, not_or]
    exact ⟨hfront,by simp⟩

theorem hops_single (tag : String) (htag : tag ≠ "msg_clear" ∧ tag ≠ "msg_encrypted")
    (v : Bytes) : hops (messagePmt [.field tag v]) = 0 := by
  have htags : [Entry.field tag v].map Entry.tag = [tag] := rfl
  rw [hops, entriesIn_messagePmt, htags, if_neg, if_neg]
  · rw [List.mem_singleton]
    exact Ne.symm htag.2
  · rw [List.mem_singleton]
    exact Ne.symm htag.1

theorem digestTag_ne (b : HashSha3) :
    b.digestTag ≠ "msg_clear" ∧ b.digestTag ≠ "msg_encrypted" := by
  unfold HashSha3.digestTag
  split <;> decide

/-- A PDU is nearer to its end than the message it was made for. -/
theorem hops_pduFor {S : Sodium} (b : MessageBlock S) (m : Pmt) (pdu : List Entry)
    (h : b.PduFor (entriesIn m) pdu) : hops (messagePmt pdu) < hops m := by
  cases b with
  | clearText b =>
    cases b with
    | encryptSecret b nonce =>
      obtain ⟨data,hdata,_,_,rfl⟩ := h
      rw [hops_of_clear m data hdata, hops_encryptedPdu [] List.not_mem_nil]
      omega
    | encryptPublic b nonce =>
      obtain ⟨data,hdata,_,_,rfl⟩ := h
      rw [hops_of_clear m data hdata, hops_encryptedPdu [] List.not_mem_nil]
      omega
    | encryptKem b draws =>
      obtain ⟨data,ct,ss,hdata,_,_,_,rfl⟩ := h
      have hfront : "msg_clear" ∉ (kemFront ct.toList).map Entry.tag := by
        simp [kemFront, Entry.field]
      rw [hops_of_clear m data hdata, hops_encryptedPdu _ hfront]
      omega
    | hashSha3 b =>
      obtain ⟨data,hdata,_,_,rfl⟩ := h
      rw [hops_of_clear m data hdata, HashSha3.hashPdu, hops_single _ (digestTag_ne b)]
      omega
  | decryptor d =>
    obtain ⟨p,⟨a,n,ha,_⟩,rfl⟩ := h
    obtain ⟨_,hdata,_⟩ := d.attempt_fields (entriesIn m) a ha
    have hone := hops_of_encrypted m a.data hdata
    rw [decryptedPdu, hops_single _ (by decide)]
    omega

/-! One call of a block in a flowgraph. -/

section Calls

variable {S : Sodium} {ι : Type} [DecidableEq ι] (g : Flowgraph S ι)
  (injects : State ι Pmt → ι → Pmt → Prop)

theorem handles_total (i : ι) (m : Pmt) : ∃ o, (g.network injects).handles i m o :=
  ⟨_,⟨[],Vector.replicate 24 0⟩,rfl⟩

/-- A call publishes at most one message, a PDU for what it was called on. -/
theorem handles_pdu (i : ι) (m : Pmt) (o : Outcome Pmt) (ho : (g.network injects).handles i m o) :
    o.published.length ≤ 1 ∧ ∀ x ∈ o.published, ∃ draws pdu, x = messagePmt pdu ∧
      ((g.block i).onDraws draws).PduFor (entriesIn m) pdu := by
  obtain ⟨draws,rfl⟩ := ho
  rcases ((g.block i).onDraws draws).handleMsg_sends m with hnone | ⟨_,pdu,hpdu,hpub⟩
  · simp only [outcomeOf, hnone, List.length_nil, Nat.zero_le, List.not_mem_nil, false_imp_iff,
      implies_true, and_self]
  · simp only [outcomeOf, hpub, List.length_singleton, le_refl, true_and]
    intro x hx
    exact ⟨draws,pdu,List.mem_singleton.mp hx,hpdu⟩

/-- The largest number of blocks that one block sends to. -/
def maxFanout [Fintype ι] (g : Flowgraph S ι) : ℕ :=
  Finset.univ.sup (fun i => (Finset.univ.filter (fun j => g.wired i j = true)).card)

/-- A message weighs what its hops can lead to, and its PDU has fewer hops left. -/
theorem hops_handled [Fintype ι] (i : ι) (m : Pmt) (o : Outcome Pmt)
    (ho : (g.network injects).handles i m o) :
    1+fanout (g.network injects) i*(o.published.map
      (fun m => hopWeight (maxFanout g) (hops m))).sum ≤ hopWeight (maxFanout g) (hops m) := by
  apply hopWeight_handled hops (maxFanout g) _ _ _ i m o ho
  · intro i
    exact Finset.le_sup (f := fun i =>
      (Finset.univ.filter (fun j => g.wired i j = true)).card) (Finset.mem_univ i)
  · intro i m o ho
    exact (handles_pdu g injects i m o ho).1
  · intro i m o ho x hx
    obtain ⟨draws,pdu,rfl,hpdu⟩ := (handles_pdu g injects i m o ho).2 x hx
    exact hops_pduFor _ m pdu hpdu

/-- Whatever the connections, and whatever arrives in whatever order, the blocks come to
rest: the number of messages handled is bounded by what was injected. -/
theorem flowgraph_settles [Fintype ι] (acts : List (Act ι Pmt)) (s : State ι Pmt)
    (h : MessageNetwork.Run (g.network injects) acts s) :
    (acts.filter Act.isHandle).length ≤
      ((acts.filterMap Act.injected).map (fun m => hopWeight (maxFanout g) (hops m))).sum := by
  have hbound := h.handled_bounded (fun m => hopWeight (maxFanout g) (hops m))
    (hops_handled g injects)
  omega

theorem flowgraph_settles_strobe : ∃ s,
    MessageNetwork.Run (secretEncryption.network (fun _ _ _ => True)) strobeActs s ∧
      (strobeActs.filter Act.isHandle).length ≤ ((strobeActs.filterMap Act.injected).map
        (fun m => hopWeight (maxFanout secretEncryption) (hops m))).sum := by
  obtain ⟨s,hs⟩ := strobe_runs (fun _ _ _ => True) trivial
  exact ⟨s,hs,flowgraph_settles secretEncryption _ strobeActs s hs⟩

/-- A published message is a PDU for one that was handled. -/
theorem published_pdu (acts : List (Act ι Pmt)) (s : State ι Pmt)
    (h : MessageNetwork.Run (g.network injects) acts s) (i : ι) (x : Pmt)
    (hx : x ∈ s.published i) : ∃ m ∈ s.handled i, ∃ draws pdu, x = messagePmt pdu ∧
      ((g.block i).onDraws draws).PduFor (entriesIn m) pdu := by
  obtain ⟨m,hm,o,ho,hmem⟩ := h.published_origin i x hx
  obtain ⟨draws,pdu,hpdu,hfor⟩ := (handles_pdu g injects i m o ho).2 x hmem
  exact ⟨m,hm,draws,pdu,hpdu,hfor⟩

end Calls

/-! Messages that no block fails on. -/

/-- A list of entries, not more than an int counts, whose fields have lengths the blocks
can work with: a payload that leaves room for a MAC below 2^31, data that holds a MAC and a nonce
that is long enough, both below 2^31 as well. -/
structure WellSized (entries : List Entry) : Prop where
  counted : entries.length ≤ 2147483647
  clear : ∀ v, lookup "msg_clear" entries = some v → 16+v.length ≤ 2147483647
  data : ∀ v, lookup "msg_encrypted" entries = some v → 16 ≤ v.length ∧ v.length ≤ 2147483647
  nonce : ∀ v, lookup "nonce" entries = some v → 24 ≤ v.length ∧ v.length ≤ 2147483647

theorem lookup_single_ne (tag name : String) (h : tag ≠ name) (v : Bytes) :
    lookup name [.field tag v] = none := by
  have hnone := lookup_append name [] (.field tag v)
  rw [value_field_of_ne _ _ _ h, Option.none_or] at hnone
  exact hnone

theorem wellSized_single (tag : String) (v : Bytes)
    (htag : tag ≠ "msg_clear" ∧ tag ≠ "msg_encrypted" ∧ tag ≠ "nonce") :
    WellSized [.field tag v] := by
  have hnone (name : String) (hname : tag ≠ name) (w : Bytes) :
      lookup name [.field tag v] ≠ some w := by
    rw [lookup_single_ne tag name hname]
    exact fun h => nomatch h
  refine ⟨?_,?_,?_,?_⟩
  · rw [List.length_singleton]
    omega
  · intro w hw
    exact absurd hw (hnone _ htag.1 w)
  · intro w hw
    exact absurd hw (hnone _ htag.2.1 w)
  · intro w hw
    exact absurd hw (hnone _ htag.2.2 w)

theorem wellSized_clear (p : Bytes) (hlen : 16+p.length ≤ 2147483647) :
    WellSized [.field "msg_clear" p] := by
  have hnone (name : String) (hname : "msg_clear" ≠ name) (v : Bytes) :
      lookup name [.field "msg_clear" p] ≠ some v := by
    rw [lookup_single_ne "msg_clear" name hname]
    exact fun h => nomatch h
  refine ⟨?_,?_,?_,?_⟩
  · rw [List.length_singleton]
    omega
  · intro v hv
    have hsame : v = p := (Option.some.inj hv).symm
    rw [hsame]
    exact hlen
  · intro v hv
    exact absurd hv (hnone "msg_encrypted" (by simp) v)
  · intro v hv
    exact absurd hv (hnone "nonce" (by simp) v)

theorem wellSized_encryptedPdu (front : List Entry) (hone : front.length ≤ 1)
    (hfront : lookup "msg_clear" front = none) (nonce : Vector UInt8 24) (ct : Bytes)
    (hmac : 16 ≤ ct.length) (hct : ct.length ≤ 2147483647) :
    WellSized (encryptedPdu front nonce.toList ct) := by
  refine ⟨?_,?_,?_,?_⟩
  · rw [encryptedPdu, List.length_append, List.length_cons, List.length_singleton]
    omega
  · intro v hv
    rw [lookup_encryptedPdu_front "msg_clear" (by decide) (by decide), hfront] at hv
    cases hv
  · intro v hv
    rw [lookup_encryptedPdu_data] at hv
    cases Option.some.inj hv
    exact ⟨hmac,hct⟩
  · intro v hv
    rw [lookup_encryptedPdu_nonce] at hv
    cases Option.some.inj hv
    rw [Vector.length_toList]
    omega

section Sized

variable {S : Sodium}

/-- A PDU for well-sized entries is well sized. -/
theorem wellSized_pduFor (b : MessageBlock S) (entries pdu : List Entry) (h : WellSized entries)
    (hpdu : b.PduFor entries pdu) : WellSized pdu := by
  cases b with
  | clearText b =>
    cases b with
    | encryptSecret b nonce =>
      obtain ⟨data,hdata,_,_,rfl⟩ := hpdu
      have hfits := h.clear data hdata
      have hsize : (S.cryptoSecretboxEasy data nonce b.dKey).2.length = 16+data.length :=
        S.secretbox_easy_size data nonce b.dKey
      exact wellSized_encryptedPdu [] (by simp) rfl nonce _ (by omega) (by omega)
    | encryptPublic b nonce =>
      obtain ⟨data,hdata,_,_,rfl⟩ := hpdu
      have hfits := h.clear data hdata
      have hsize : (S.cryptoBoxEasy data nonce b.dPk b.dSk).2.length = 16+data.length :=
        S.box_easy_size data nonce b.dPk b.dSk
      exact wellSized_encryptedPdu [] (by simp) rfl nonce _ (by omega) (by omega)
    | encryptKem b draws =>
      obtain ⟨data,ct,ss,hdata,_,_,_,rfl⟩ := hpdu
      have hfits := h.clear data hdata
      have hsize : (S.cryptoSecretboxEasy data draws.nonce ss).2.length = 16+data.length :=
        S.secretbox_easy_size data draws.nonce ss
      exact wellSized_encryptedPdu _ (by simp)
        (lookup_single_ne "kem_ciphertext" "msg_clear" (by decide) _) draws.nonce _ (by omega)
        (by omega)
    | hashSha3 b =>
      obtain ⟨data,hdata,_,_,rfl⟩ := hpdu
      apply wellSized_single
      unfold HashSha3.digestTag
      split <;> decide
  | decryptor d =>
    obtain ⟨p,_,rfl⟩ := hpdu
    exact wellSized_single _ p (by decide)

/-- The handlers return from well-sized messages. -/
theorem MessageBlock.returns_of_wellSized (b : MessageBlock S) (entries : List Entry)
    (h : WellSized entries) : (b.handleMsg (messagePmt entries)).result = .ok () := by
  have hmax : maxSize = 9223372036854775807 := rfl
  have hcov := b.counter_covers entries.length h.counted
  cases b with
  | decryptor d => exact d.handleMsg_returns entries hcov h.data h.nonce
  | clearText b =>
    change (b.handleMsg (messagePmt entries)).result = .ok ()
    rw [b.handleMsg_counted entries hcov]
    apply b.returns_of_fits
    cases hdata : lookup "msg_clear" entries with
    | none => exact b.kind.fits_zero
    | some data =>
      have hfits := h.clear data hdata
      rw [Option.getD_some]
      cases b with
      | encryptSecret b nonce => exact hfits
      | encryptPublic b nonce => exact hfits
      | encryptKem b draws =>
        change 16+data.length ≤ maxSize
        omega
      | hashSha3 b => trivial

end Sized

section Sized

variable {S : Sodium} {ι : Type} [DecidableEq ι] (g : Flowgraph S ι)
  (injects : State ι Pmt → ι → Pmt → Prop)

/-- Where only well-sized messages are injected, only such arrive, and no block stops. -/
theorem wellSized_everywhere
    (hinject : ∀ s i m, injects s i m → ∃ entries, m = messagePmt entries ∧ WellSized entries)
    (acts : List (Act ι Pmt)) (s : State ι Pmt)
    (h : MessageNetwork.Run (g.network injects) acts s) (i : ι) :
    (∀ m ∈ s.arrived i, ∃ entries, m = messagePmt entries ∧ WellSized entries) ∧
      s.stopped i = false := by
  -- well-sized entries are handled without a fault, and make well-sized PDUs
  apply h.never_stops (fun m => ∃ entries, m = messagePmt entries ∧ WellSized entries) hinject
  rintro i m o ⟨entries,rfl,hsized⟩ ho
  have hpdus := (handles_pdu g injects i _ o ho).2
  obtain ⟨draws,rfl⟩ := ho
  refine ⟨(outcomeOf_faulted _).mpr (MessageBlock.returns_of_wellSized _ entries hsized),?_⟩
  intro x hx
  obtain ⟨draws',pdu,rfl,hpdu⟩ := hpdus x hx
  rw [entriesIn_messagePmt] at hpdu
  exact ⟨pdu,rfl,wellSized_pduFor _ entries pdu hsized hpdu⟩

/-- If only well-sized messages are injected, no block of the flowgraph ever stops, and when
nothing can go on every block has handled all that arrived. -/
theorem flowgraph_never_stops
    (hinject : ∀ s i m, injects s i m → ∃ entries, m = messagePmt entries ∧ WellSized entries)
    (acts : List (Act ι Pmt)) (s : State ι Pmt)
    (h : MessageNetwork.Run (g.network injects) acts s) :
    (∀ i, s.stopped i = false) ∧
    ((∀ i t, ¬Step (g.network injects) s (.handle i) t) → ∀ i, s.handled i = s.arrived i) := by
  have hlive (i : ι) : s.stopped i = false :=
    (wellSized_everywhere g injects hinject acts s h i).2
  refine ⟨hlive,?_⟩
  intro hquiet i
  have hempty := queues_empty (handles_total g injects) s hlive hquiet i
  have hconserved := h.conserved i
  rw [hempty, List.append_nil] at hconserved
  exact hconserved

/-- Only well-sized messages come in. -/
def injectsSized (ι : Type) : State ι Pmt → ι → Pmt → Prop :=
  fun _ _ m => ∃ entries, m = messagePmt entries ∧ WellSized entries

theorem wellSized_strobeMsg : WellSized strobeMsg := wellSized_clear _ (by simp)

theorem flowgraph_never_stops_strobe : ∃ s,
    MessageNetwork.Run (secretEncryption.network (injectsSized Bool)) strobeActs s ∧
      (∀ i, s.stopped i = false) ∧
      ((∀ i t, ¬Step (secretEncryption.network (injectsSized Bool)) s (.handle i) t) →
        ∀ i, s.handled i = s.arrived i) := by
  obtain ⟨s,hs⟩ := strobe_runs (injectsSized Bool) ⟨strobeMsg,rfl,wellSized_strobeMsg⟩
  exact ⟨s,hs,flowgraph_never_stops secretEncryption (injectsSized Bool) (fun _ _ _ h => h) strobeActs s hs⟩

end Sized

end GrNacl
