import GrNacl.Flowgraphs

/-! The connections that carry anything. Any port can be connected to any other, but a block
makes something only of what has the fields it looks for. -/
namespace GrNacl
set_option autoImplicit false

open EffectTrace CountedLoop MessageNetwork

/-- The pairs of blocks of which the second can make something of what the first sends. -/
def Block.Feeds {S : Sodium} : Block S → Block S → Prop
  | .encryptKem _, .decryptor _ => True
  | .encryptSecret _, .decryptor (.secret _) => True
  | .encryptSecret _, .decryptor (.box _) => True
  | .encryptPublic _, .decryptor (.secret _) => True
  | .encryptPublic _, .decryptor (.box _) => True
  | _, _ => False

section Feeds

variable {S : Sodium}

theorem kem_of_pduFor (b : DecryptKem S) (draws : KemDraws) (entries pdu : List Entry)
    (h : ((Block.decryptor (.kem b)).onDraws draws).PduFor entries pdu) :
    ∃ ct, lookup "kem_ciphertext" entries = some ct := by
  obtain ⟨p,⟨a,n,ha,_⟩,_⟩ := h
  have hc := ((Decryptor.kem b).attempt_fields entries a ha).1
  cases hct : lookup "kem_ciphertext" entries with
  | some ct => exact ⟨ct,rfl⟩
  | none =>
    rw [Decryptor.cipher, hct] at hc
    cases hc

theorem encrypted_of_pduFor (d : Decryptor S) (draws : KemDraws) (entries pdu : List Entry)
    (h : ((Block.decryptor d).onDraws draws).PduFor entries pdu) :
    ∃ data, lookup "msg_encrypted" entries = some data := by
  obtain ⟨p,⟨a,n,ha,_⟩,_⟩ := h
  exact ⟨a.data,(d.attempt_fields entries a ha).2.1⟩

/-- The fields that the PDU of a block does not have. -/
theorem pduFor_lookup_none (b : Block S) (draws : KemDraws) (entries pdu : List Entry)
    (h : (b.onDraws draws).PduFor entries pdu) :
    lookup "msg_clear" pdu = none ∧
      match b with
      | .encryptSecret _ => lookup "kem_ciphertext" pdu = none
      | .encryptPublic _ => lookup "kem_ciphertext" pdu = none
      | .encryptKem _ => True
      | .hashSha3 _ => lookup "msg_encrypted" pdu = none
      | .decryptor _ => lookup "msg_encrypted" pdu = none := by
  have hfront (name : String) (hn : name ≠ "nonce") (he : name ≠ "msg_encrypted")
      (front : List Entry) (nonce ct : Bytes) (hf : lookup name front = none) :
      lookup name (encryptedPdu front nonce ct) = none := by
    rw [lookup_encryptedPdu_front name hn he, hf]
  cases b with
  | encryptSecret b =>
    obtain ⟨data,_,_,_,rfl⟩ := h
    exact ⟨hfront _ (by decide) (by decide) _ _ _ rfl,hfront _ (by decide) (by decide) _ _ _ rfl⟩
  | encryptPublic b =>
    obtain ⟨data,_,_,_,rfl⟩ := h
    exact ⟨hfront _ (by decide) (by decide) _ _ _ rfl,hfront _ (by decide) (by decide) _ _ _ rfl⟩
  | encryptKem b =>
    obtain ⟨data,ct,ss,_,_,_,_,rfl⟩ := h
    refine ⟨hfront _ (by decide) (by decide) _ _ _ ?_,trivial⟩
    exact lookup_single_ne "kem_ciphertext" "msg_clear" (by decide) _
  | hashSha3 b =>
    obtain ⟨data,_,_,_,rfl⟩ := h
    have htag := digestTag_ne b
    exact ⟨lookup_single_ne _ _ htag.1 _,lookup_single_ne _ _ htag.2 _⟩
  | decryptor d =>
    obtain ⟨p,_,rfl⟩ := h
    exact ⟨lookup_single_ne _ _ (by decide) _,lookup_single_ne _ _ (by decide) _⟩

/-- Where a PDU of one block leads to a PDU of another, the first feeds the second. -/
theorem feeds_of_pdus (b b' : Block S) (draws draws' : KemDraws) (entries pdu pdu' : List Entry)
    (h : (b.onDraws draws).PduFor entries pdu) (h' : (b'.onDraws draws').PduFor pdu pdu') :
    b.Feeds b' := by
  obtain ⟨hclear,hrest⟩ := pduFor_lookup_none b draws entries pdu h
  -- all but the decryptors look for msg_clear, which no PDU has
  cases b' with
  | encryptSecret b' =>
    obtain ⟨data,hdata,_⟩ := h'
    rw [hclear] at hdata
    cases hdata
  | encryptPublic b' =>
    obtain ⟨data,hdata,_⟩ := h'
    rw [hclear] at hdata
    cases hdata
  | encryptKem b' =>
    obtain ⟨data,_,_,hdata,_⟩ := h'
    rw [hclear] at hdata
    cases hdata
  | hashSha3 b' =>
    obtain ⟨data,hdata,_⟩ := h'
    rw [hclear] at hdata
    cases hdata
  | decryptor d =>
    obtain ⟨data,hdata⟩ := encrypted_of_pduFor d draws' pdu pdu' h'
    -- decrypt_kem also looks for a KEM ciphertext
    have hkem (hnone : lookup "kem_ciphertext" pdu = none) (b' : DecryptKem S) : d ≠ .kem b' := by
      rintro rfl
      obtain ⟨ct,hct⟩ := kem_of_pduFor b' draws' pdu pdu' h'
      rw [hnone] at hct
      cases hct
    cases b with
    | encryptSecret b =>
      cases d with
      | secret d => trivial
      | box d => trivial
      | kem d => exact absurd rfl (hkem hrest d)
    | encryptPublic b =>
      cases d with
      | secret d => trivial
      | box d => trivial
      | kem d => exact absurd rfl (hkem hrest d)
    | encryptKem b => trivial
    | hashSha3 b =>
      rw [show lookup "msg_encrypted" pdu = none from hrest] at hdata
      cases hdata
    | decryptor d' =>
      rw [show lookup "msg_encrypted" pdu = none from hrest] at hdata
      cases hdata

variable {ι : Type} [DecidableEq ι] (g : Flowgraph S ι) (injects : State ι Pmt → ι → Pmt → Prop)

/-- A block into which nothing is injected, and which no block is connected to that feeds it,
publishes nothing in any run. So encryptors cannot be put in a row, nothing can be made of a
clear text or of a digest, and decrypt_kem is deaf to all but encrypt_kem. -/
theorem flowgraph_dead_ends (i : ι) (hfeeds : ∀ j, g.wired j i = true → ¬(g.block j).Feeds (g.block i))
    (acts : List (Act ι Pmt)) (s : State ι Pmt)
    (h : MessageNetwork.Run (g.network injects) acts s) (hclosed : ∀ m, Act.inject i m ∉ acts) :
    s.published i = [] := by
  apply List.eq_nil_iff_forall_not_mem.mpr
  intro x hx
  -- a published message goes back to one that arrived, and that one to a connected block
  obtain ⟨m,hm,draws,pdu,_,hpdu⟩ := published_pdu g injects acts s h i x hx
  have harrived : m ∈ s.arrived i := by
    rw [← h.conserved i]
    exact List.mem_append_left _ hm
  rcases h.arrived_origin i m harrived with hinject | ⟨j,hwired,hpub⟩
  · exact hclosed m hinject
  · obtain ⟨m',_,draws',pdu',rfl,hpdu'⟩ := published_pdu g injects acts s h j m hpub
    rw [entriesIn_messagePmt] at hpdu
    exact hfeeds j hwired (feeds_of_pdus _ _ draws' draws _ pdu' pdu hpdu' hpdu)

/-- Two encryptors in a row. -/
def doubleEncryption : Flowgraph referenceSodium Bool where
  block _ := .encryptSecret ⟨"key",Vector.replicate 32 0⟩
  connections := [((false,"Msg encrypted"),(true,"Msg clear"))]

theorem flowgraph_dead_ends_double : ∃ s,
    MessageNetwork.Run (doubleEncryption.network (fun _ _ _ => True))
      (strobeActs ++ [.handle true]) s ∧
      (s.handled true).length = 1 ∧ s.published true = [] := by
  have hpost : MessageNetwork.Run (doubleEncryption.network (fun _ _ _ => True))
      [.inject false (messagePmt strobeMsg)] _ := .step .start (.inject false _ trivial)
  have hsent := hpost.step
    (.handle false (messagePmt strobeMsg) [] _ rfl rfl ⟨⟨[],Vector.replicate 24 0⟩,rfl⟩)
  have hrun := hsent.step (.handle true _ [] _ rfl rfl ⟨⟨[],Vector.replicate 24 0⟩,rfl⟩)
  refine ⟨_,hrun,rfl,flowgraph_dead_ends doubleEncryption (fun _ _ _ => True) true ?_ _ _ hrun ?_⟩
  · intro j _ hfeeds
    exact hfeeds
  · intro m hm
    simp at hm

end Feeds

end GrNacl
