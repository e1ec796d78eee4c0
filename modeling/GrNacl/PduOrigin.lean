import GrNacl.PublicKeyChain
import GrNacl.FlowgraphDelivery

/-! What a PDU says of where it comes from. One call makes it, of its own message and its
own draws; but between two parties it does not say which of them has sent it. -/
namespace GrNacl
set_option autoImplicit false

open EffectTrace CountedLoop

variable {S : Sodium}

/-- The blocks that draw a nonce. -/
def Block.DrawsNonce : Block S → Prop
  | .encryptSecret _ => True
  | .encryptPublic _ => True
  | .encryptKem _ => True
  | .hashSha3 _ => False
  | .decryptor _ => False

/-- A PDU of such a block carries the nonce of its own call. -/
theorem nonce_of_pduFor (b : Block S) (hb : b.DrawsNonce) (draws : KemDraws)
    (entries pdu : List Entry) (h : (b.onDraws draws).PduFor entries pdu) :
    lookup "nonce" pdu = some draws.nonce.toList := by
  cases b with
  | encryptSecret b =>
    obtain ⟨data,_,_,_,rfl⟩ := h
    exact lookup_encryptedPdu_nonce _ _ _
  | encryptPublic b =>
    obtain ⟨data,_,_,_,rfl⟩ := h
    exact lookup_encryptedPdu_nonce _ _ _
  | encryptKem b =>
    obtain ⟨data,ct,ss,_,_,_,_,rfl⟩ := h
    exact lookup_encryptedPdu_nonce _ _ _
  | hashSha3 b => exact absurd hb id
  | decryptor d => exact absurd hb id

/-- A message that the block made of one input. -/
def Block.MadeOf (b : Block S) (x : KemDraws × Pmt) (m : Pmt) : Prop :=
  ∃ pdu, m = messagePmt pdu ∧ (b.onDraws x.1).PduFor (entriesIn x.2) pdu

/-- Over handled inputs, the published messages stand in order beside those that made them. -/
theorem published_madeOf (b : Block S) (inputs : List (KemDraws × Pmt)) :
    ∃ used, used.Sublist inputs ∧ List.Forall₂ b.MadeOf used
      (published (inputs.flatMap (fun x => ((b.onDraws x.1).handleMsg x.2).events))) := by
  induction inputs with
  | nil => exact ⟨[],List.Sublist.slnil,List.Forall₂.nil⟩
  | cons x inputs ih =>
    obtain ⟨used,hsub,hmade⟩ := ih
    rw [List.flatMap_cons, published_append]
    rcases (b.onDraws x.1).handleMsg_sends x.2 with hnone | ⟨_,pdu,hpdu,hpub⟩
    · -- the draws of a call that publishes nothing are given up
      rw [hnone, List.nil_append]
      exact ⟨used,hsub.cons x,hmade⟩
    · rw [hpub, List.singleton_append]
      exact ⟨x::used,hsub.cons_cons x,List.Forall₂.cons ⟨pdu,rfl,hpdu⟩ hmade⟩

theorem nonces_madeOf (b : Block S) (hb : b.DrawsNonce) (used : List (KemDraws × Pmt))
    (sent : List Pmt) (h : List.Forall₂ b.MadeOf used sent) :
    sent.map (fun m => lookup "nonce" (entriesIn m)) = used.map (fun x => some x.1.nonce.toList) := by
  induction h with
  | nil => rfl
  | cons hx hrest ih =>
    obtain ⟨pdu,rfl,hpdu⟩ := hx
    rw [List.map_cons, List.map_cons, ih, entriesIn_messagePmt, nonce_of_pduFor b hb _ _ pdu hpdu]

/-- An encryptor over any sequence of values, with any draws, however the sequence ends: what
it publishes was made, one PDU of one call, of a part of the inputs in order, each with the
nonce its own call has drawn; so with distinct draws no nonce is used in two PDUs. -/
theorem encryptor_nonces_fresh (b : Block S) (hb : b.DrawsNonce)
    (inputs : List (KemDraws × Pmt)) :
    (∃ used, used.Sublist inputs ∧ List.Forall₂ b.MadeOf used
      (published (runAll (fun x => (b.onDraws x.1).handleMsg x.2) inputs).events)) ∧
    ((inputs.map (fun x => x.1.nonce)).Nodup →
      ((published (runAll (fun x => (b.onDraws x.1).handleMsg x.2) inputs).events).map
        (fun m => lookup "nonce" (entriesIn m))).Nodup) := by
  obtain ⟨handled,hfirst,hevents⟩ :=
    runAll_handled (fun x : KemDraws × Pmt => (b.onDraws x.1).handleMsg x.2) inputs
  -- a fault cuts the inputs short, and a call without a message drops out of what is left
  obtain ⟨used,hused,hmade⟩ := published_madeOf b handled
  rw [hevents]
  have hsub : used.Sublist inputs := hused.trans hfirst.sublist
  refine ⟨⟨used,hsub,hmade⟩,?_⟩
  intro hnodup
  have hdistinct : (used.map (fun x => x.1.nonce)).Nodup := hnodup.sublist (hsub.map _)
  have hinj : Function.Injective (fun n : SecretboxNonce => some n.toList) := by
    intro n n' hn
    exact Vector.toList_inj.mp (Option.some.inj hn)
  rw [nonces_madeOf b hb used _ hmade]
  have hmap := hdistinct.map hinj
  rw [List.map_map] at hmap
  exact hmap

theorem encryptor_nonces_fresh_strobe :
    ((published (runAll (fun x => ((secretEncryption.block false).onDraws x.1).handleMsg x.2)
      [(⟨[],Vector.replicate 24 0⟩,messagePmt strobeMsg),
        (⟨[],Vector.replicate 24 1⟩,messagePmt strobeMsg)]).events).map
      (fun m => lookup "nonce" (entriesIn m))).Nodup :=
  (encryptor_nonces_fresh (secretEncryption.block false) trivial
    [(⟨[],Vector.replicate 24 0⟩,messagePmt strobeMsg),
      (⟨[],Vector.replicate 24 1⟩,messagePmt strobeMsg)]).2 (by decide)

/-! The two directions between two parties. -/

/-- The box of A to B is the box of B to A: both are made under the key the two share. -/
def Sodium.BoxShared (S : Sodium) : Prop := ∀ seedA seedB m n,
  S.cryptoBoxEasy m n (S.cryptoBoxKeypair seedB).1 (S.cryptoBoxKeypair seedA).2 =
    S.cryptoBoxEasy m n (S.cryptoBoxKeypair seedA).1 (S.cryptoBoxKeypair seedB).2

theorem reference_box_shared : referenceSodium.BoxShared := by
  intro seedA seedB m n
  have hkey : Reference.sharedKey (Reference.draw 32 seedB) (Reference.draw 32 seedA) =
      Reference.sharedKey (Reference.draw 32 seedA) (Reference.draw 32 seedB) :=
    Vector.zipWith_comm_of_comm (fun x y => UInt8.xor_comm x y)
  exact congrArg (fun k => ((0:ℤ),Reference.sealBytes m n k)) hkey

/-- A party's own box opens with the halves it was made with. -/
theorem box_opens_own (hS : S.BoxInverts) (hshared : S.BoxShared) (seedA seedB p : Bytes)
    (n : BoxNonce) :
    (S.boxUnder (S.cryptoBoxKeypair seedB).1 (S.cryptoBoxKeypair seedA).2).openEasy
      (S.cryptoBoxEasy p n (S.cryptoBoxKeypair seedB).1 (S.cryptoBoxKeypair seedA).2).2 n =
        (0,p) := by
  rw [hshared seedA seedB p n]
  exact (hS seedB seedA p n).2

/-- Reflection: from the two files that party A encrypts to B with, decrypt_public takes back
whatever encrypt_public has sent, as B would. So the receiver of a PDU, which opens with
the same two files its own messages are sealed with, cannot tell the other party's
messages from its own thrown back. -/
theorem public_reflects_iff (hS : S.BoxInverts) (hshared : S.BoxShared) (p : PairFiles)
    (hp : p.Writable) (files : Files) (aFirst : Bool) (seedA seedB : Bytes) (c c' : UInt8)
    (rawPk rawPk' : BoxPublicKey) (rawSk rawSk' : BoxSecretKey) : ∃ e d,
      (encryptPublic (files.replay (p.generate S aFirst seedA seedB).events) p.pkB p.skA c rawPk
        rawSk).result = .ok e ∧
      (decryptPublic (files.replay (p.generate S aFirst seedA seedB).events) p.pkB p.skA c' rawPk'
        rawSk').result = .ok d ∧
      ∀ inputs : List (BoxNonce × Message 0),
        (∀ x ∈ inputs, x.2.VectorsBelow (2147483647-16)) →
        (Delivers (fun x => e.handleMsg S x.1 x.2.toPmt) (d.handleMsg S) inputs ↔
          ∀ x ∈ inputs, x.2.entries.length ≤ 2147483647) := by
  obtain ⟨_,hskA,_,_,hpkB⟩ := generate_files S p hp files aFirst seedA seedB
  refine ⟨⟨p.pkB,p.skA,(S.cryptoBoxKeypair seedB).1,(S.cryptoBoxKeypair seedA).2⟩,
    ⟨p.pkB,p.skA,(S.cryptoBoxKeypair seedB).1,(S.cryptoBoxKeypair seedA).2⟩,?_,?_,?_⟩
  · rw [encryptPublic_written _ _ _ c rawPk _ rawSk _ hpkB hskA, Run.result_pure]
  · rw [decryptPublic_written _ _ _ c' rawPk' _ rawSk' _ hpkB hskA, Run.result_pure]
  · -- both blocks hold the public half of B and the secret half of A
    intro inputs hshort
    have hinv (m : Bytes) (n : BoxNonce) :=
      And.intro (hS seedA seedB m n).1 (box_opens_own hS hshared seedA seedB m n)
    exact intChain_delivers_iff (Decryptor.box ⟨p.pkB,p.skA,_,_⟩)
      (fun m n => S.cryptoBoxEasy m n (S.cryptoBoxKeypair seedB).1 (S.cryptoBoxKeypair seedA).2)
      _ rfl (fun _ => rfl) (fun m n => S.box_easy_size m n _ _) hinv inputs hshort

theorem public_reflects_iff_reference : ∃ e d,
    (encryptPublic (Files.replay (fun _ => none)
      (referencePairFiles.generate referenceSodium true [1] [2]).events) "b.pk" "a.sk" 0
      (Vector.replicate 32 0) (Vector.replicate 32 0)).result = .ok e ∧
    (decryptPublic (Files.replay (fun _ => none)
      (referencePairFiles.generate referenceSodium true [1] [2]).events) "b.pk" "a.sk" 0
      (Vector.replicate 32 0) (Vector.replicate 32 0)).result = .ok d ∧
    ∀ inputs : List (BoxNonce × Message 0),
      (∀ x ∈ inputs, x.2.VectorsBelow (2147483647-16)) →
      (Delivers (fun x => e.handleMsg referenceSodium x.1 x.2.toPmt)
        (d.handleMsg referenceSodium) inputs ↔ ∀ x ∈ inputs, x.2.entries.length ≤ 2147483647) :=
  public_reflects_iff reference_box_inverts reference_box_shared referencePairFiles
    referencePairFiles_writable (fun _ => none) true [1] [2] 0 0 (Vector.replicate 32 0)
    (Vector.replicate 32 0) (Vector.replicate 32 0) (Vector.replicate 32 0)

end GrNacl
