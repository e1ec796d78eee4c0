import GrNacl.SecretKeyChain

/-! The public-key chain between two parties: two key pairs in four files, the sender
on one half of each and the receiver on the others. -/
namespace GrNacl
set_option autoImplicit false

open EffectTrace CountedLoop

theorem loadKeyPair_written (files : Files) (filenamePk filenameSk : String) (c : UInt8)
    (rawPk pk : BoxPublicKey) (rawSk sk : BoxSecretKey) (hpk : files filenamePk = some pk.toList)
    (hsk : files filenameSk = some sk.toList) :
    loadKeyPair files filenamePk filenameSk c rawPk rawSk = pure (pk,sk) := by
  obtain ⟨c',hloadSk⟩ := loadKey_written (by decide) files filenameSk "Secret-key file not found." c
    rawSk sk hsk
  obtain ⟨c'',hloadPk⟩ := loadKey_written (by decide) files filenamePk
    "Public-key file not found." c' rawPk pk hpk
  rw [loadKeyPair, hloadSk, pure_bind]
  dsimp only
  rw [hloadPk]
  rfl

theorem encryptPublic_written (files : Files) (filenamePk filenameSk : String) (c : UInt8)
    (rawPk pk : BoxPublicKey) (rawSk sk : BoxSecretKey) (hpk : files filenamePk = some pk.toList)
    (hsk : files filenameSk = some sk.toList) :
    encryptPublic files filenamePk filenameSk c rawPk rawSk =
      pure ⟨filenamePk,filenameSk,pk,sk⟩ := by
  rw [encryptPublic, loadKeyPair_written files _ _ c rawPk pk rawSk sk hpk hsk]
  rfl

theorem decryptPublic_written (files : Files) (filenamePk filenameSk : String) (c : UInt8)
    (rawPk pk : BoxPublicKey) (rawSk sk : BoxSecretKey) (hpk : files filenamePk = some pk.toList)
    (hsk : files filenameSk = some sk.toList) :
    decryptPublic files filenamePk filenameSk c rawPk rawSk =
      pure ⟨filenamePk,filenameSk,pk,sk⟩ := by
  rw [decryptPublic, loadKeyPair_written files _ _ c rawPk pk rawSk sk hpk hsk]
  rfl

/-- What a sender with (public B, secret A) and a receiver with (public A, secret B)
do with a sequence of messages. -/
theorem public_delivers_iff (S : Sodium) (hS : S.BoxInverts) (seedA seedB : Bytes)
    (e : EncryptPublic) (d : DecryptPublic) (hePk : e.dPk = (S.cryptoBoxKeypair seedB).1)
    (heSk : e.dSk = (S.cryptoBoxKeypair seedA).2) (hdPk : d.dPk = (S.cryptoBoxKeypair seedA).1)
    (hdSk : d.dSk = (S.cryptoBoxKeypair seedB).2) (inputs : List (BoxNonce × Message 0))
    (hshort : ∀ x ∈ inputs, x.2.VectorsBelow (2147483647-16)) :
    Delivers (fun x => e.handleMsg S x.1 x.2.toPmt) (d.handleMsg S) inputs ↔
      ∀ x ∈ inputs, x.2.entries.length ≤ 2147483647 := by
  -- the sender's halves and the receiver's belong to the same two pairs
  have hinv (p : Bytes) (n : BoxNonce) : (S.cryptoBoxEasy p n e.dPk e.dSk).1 = 0 ∧
      (S.boxUnder d.dPk d.dSk).openEasy (S.cryptoBoxEasy p n e.dPk e.dSk).2 n = (0,p) := by
    rw [hePk, heSk, hdPk, hdSk]
    exact hS seedA seedB p n
  exact intChain_delivers_iff (Decryptor.box d) (fun m n => S.cryptoBoxEasy m n e.dPk e.dSk)
    (S.boxUnder d.dPk d.dSk) rfl (fun _ => rfl) (fun p n => S.box_easy_size p n e.dPk e.dSk)
    hinv inputs hshort

/-- Four file names and what the file system does with each. -/
structure PairFiles where
  skA : String
  pkA : String
  skB : String
  pkB : String
  distinct : [skA,pkA,skB,pkB].Nodup
  outSkA : OutFile
  outPkA : OutFile
  outSkB : OutFile
  outPkB : OutFile

/-- Every one of the four files opens and has room for its key. -/
structure PairFiles.Writable (p : PairFiles) : Prop where
  opens : p.outSkA.opens = true ∧ p.outPkA.opens = true ∧ p.outSkB.opens = true ∧
    p.outPkB.opens = true
  room : 32 ≤ p.outSkA.room ∧ 32 ≤ p.outPkA.room ∧ 32 ≤ p.outSkB.room ∧ 32 ≤ p.outPkB.room

/-- The two generators, in either order. -/
def PairFiles.generate (S : Sodium) (p : PairFiles) (aFirst : Bool) (seedA seedB : Bytes) :
    Handler Unit :=
  if aFirst then do
    generateKeypair S seedA p.outSkA p.outPkA p.skA p.pkA
    generateKeypair S seedB p.outSkB p.outPkB p.skB p.pkB
  else do
    generateKeypair S seedB p.outSkB p.outPkB p.skB p.pkB
    generateKeypair S seedA p.outSkA p.outPkA p.skA p.pkA

/-- After the generators each file holds its own key. -/
theorem generate_files (S : Sodium) (p : PairFiles) (hp : p.Writable) (files : Files)
    (aFirst : Bool) (seedA seedB : Bytes) :
    (p.generate S aFirst seedA seedB).result = .ok () ∧
      files.replay (p.generate S aFirst seedA seedB).events p.skA =
        some (S.cryptoBoxKeypair seedA).2.toList ∧
      files.replay (p.generate S aFirst seedA seedB).events p.pkA =
        some (S.cryptoBoxKeypair seedA).1.toList ∧
      files.replay (p.generate S aFirst seedA seedB).events p.skB =
        some (S.cryptoBoxKeypair seedB).2.toList ∧
      files.replay (p.generate S aFirst seedA seedB).events p.pkB =
        some (S.cryptoBoxKeypair seedB).1.toList := by
  have hA (fs : Files) := generateKeypair_leaves S fs seedA p.outSkA p.outPkA p.skA p.pkA
    hp.opens.1 hp.opens.2.1 hp.room.1 hp.room.2.1
  have hB (fs : Files) := generateKeypair_leaves S fs seedB p.outSkB p.outPkB p.skB p.pkB
    hp.opens.2.2.1 hp.opens.2.2.2 hp.room.2.2.1 hp.room.2.2.2
  have hd := p.distinct
  simp only [List.nodup_cons, List.mem_cons, List.not_mem_nil, or_false, not_or,
    not_false_eq_true, List.nodup_nil, and_true] at hd
  -- six inequalities keep what was written later away from the earlier files
  obtain ⟨⟨h1,h2,h3⟩,⟨h4,h5⟩,h6⟩ := hd
  cases aFirst with
  | true =>
    obtain ⟨hok,hfiles⟩ := (hA files).bind (hB _)
    refine ⟨hok,?_,?_,?_,?_⟩ <;> rw [PairFiles.generate, if_pos rfl, hfiles]
    · rw [Function.update_of_ne h3, Function.update_of_ne h2, Function.update_of_ne h1,
        Function.update_self]
    · rw [Function.update_of_ne h5, Function.update_of_ne h4, Function.update_self]
    · rw [Function.update_of_ne h6, Function.update_self]
    · rw [Function.update_self]
  | false =>
    obtain ⟨hok,hfiles⟩ := (hB files).bind (hA _)
    refine ⟨hok,?_,?_,?_,?_⟩ <;> rw [PairFiles.generate, if_neg Bool.false_ne_true, hfiles]
    · rw [Function.update_of_ne h1, Function.update_self]
    · rw [Function.update_self]
    · rw [Function.update_of_ne (Ne.symm h4), Function.update_of_ne (Ne.symm h2),
        Function.update_of_ne h6, Function.update_self]
    · rw [Function.update_of_ne (Ne.symm h5), Function.update_of_ne (Ne.symm h3),
        Function.update_self]

/-- From two generated pairs in four files, the two parties hold matching halves, and
encrypt_public delivers to decrypt_public exactly the sequences without a message of
more entries than an int counts. -/
theorem public_chain_delivers_iff (S : Sodium) (hS : S.BoxInverts) (p : PairFiles)
    (hp : p.Writable) (files : Files) (aFirst : Bool) (seedA seedB : Bytes) (c c' : UInt8)
    (rawPk rawPk' : BoxPublicKey) (rawSk rawSk' : BoxSecretKey) :
    (p.generate S aFirst seedA seedB).result = .ok () ∧ ∃ e d,
      (encryptPublic (files.replay (p.generate S aFirst seedA seedB).events) p.pkB p.skA c rawPk
        rawSk).result = .ok e ∧
      (decryptPublic (files.replay (p.generate S aFirst seedA seedB).events) p.pkA p.skB c' rawPk'
        rawSk').result = .ok d ∧
      ∀ inputs : List (BoxNonce × Message 0),
        (∀ x ∈ inputs, x.2.VectorsBelow (2147483647-16)) →
        (Delivers (fun x => e.handleMsg S x.1 x.2.toPmt) (d.handleMsg S) inputs ↔
          ∀ x ∈ inputs, x.2.entries.length ≤ 2147483647) := by
  obtain ⟨hok,hskA,hpkA,hskB,hpkB⟩ := generate_files S p hp files aFirst seedA seedB
  refine ⟨hok,⟨p.pkB,p.skA,(S.cryptoBoxKeypair seedB).1,(S.cryptoBoxKeypair seedA).2⟩,
    ⟨p.pkA,p.skB,(S.cryptoBoxKeypair seedA).1,(S.cryptoBoxKeypair seedB).2⟩,?_,?_,?_⟩
  · rw [encryptPublic_written _ _ _ c rawPk _ rawSk _ hpkB hskA, Run.result_pure]
  · rw [decryptPublic_written _ _ _ c' rawPk' _ rawSk' _ hpkA hskB, Run.result_pure]
  · intro inputs hshort
    exact public_delivers_iff S hS seedA seedB _ _ rfl rfl rfl rfl inputs hshort

def referencePairFiles : PairFiles :=
  ⟨"a.sk","a.pk","b.sk","b.pk",by decide,⟨true,32⟩,⟨true,32⟩,⟨true,32⟩,⟨true,32⟩⟩

theorem referencePairFiles_writable : referencePairFiles.Writable :=
  ⟨⟨rfl,rfl,rfl,rfl⟩,⟨Nat.le_refl 32,Nat.le_refl 32,Nat.le_refl 32,Nat.le_refl 32⟩⟩

theorem public_chain_delivers_iff_reference :
    (referencePairFiles.generate referenceSodium true [1] [2]).result = .ok () ∧ ∃ e d,
      (encryptPublic (Files.replay (fun _ => none)
        (referencePairFiles.generate referenceSodium true [1] [2]).events) "b.pk" "a.sk" 0
        (Vector.replicate 32 0) (Vector.replicate 32 0)).result = .ok e ∧
      (decryptPublic (Files.replay (fun _ => none)
        (referencePairFiles.generate referenceSodium true [1] [2]).events) "a.pk" "b.sk" 0
        (Vector.replicate 32 0) (Vector.replicate 32 0)).result = .ok d ∧
      ∀ inputs : List (BoxNonce × Message 0),
        (∀ x ∈ inputs, x.2.VectorsBelow (2147483647-16)) →
        (Delivers (fun x => e.handleMsg referenceSodium x.1 x.2.toPmt)
          (d.handleMsg referenceSodium) inputs ↔ ∀ x ∈ inputs, x.2.entries.length ≤ 2147483647) :=
  public_chain_delivers_iff referenceSodium reference_box_inverts referencePairFiles
    referencePairFiles_writable (fun _ => none) true [1] [2] 0 0 (Vector.replicate 32 0)
    (Vector.replicate 32 0) (Vector.replicate 32 0) (Vector.replicate 32 0)

/-- A payload behind 2^31 other entries overflows the counter of the scan. -/
theorem public_chain_overflows :
    let files := Files.replay (fun _ => none)
      (referencePairFiles.generate referenceSodium true [1] [2]).events
    let e : EncryptPublic := ⟨"b.pk","a.sk",(referenceSodium.cryptoBoxKeypair [2]).1,
      (referenceSodium.cryptoBoxKeypair [1]).2⟩
    let d : DecryptPublic := ⟨"a.pk","b.sk",(referenceSodium.cryptoBoxKeypair [1]).1,
      (referenceSodium.cryptoBoxKeypair [2]).2⟩
    (encryptPublic files "b.pk" "a.sk" 0 (Vector.replicate 32 0) (Vector.replicate 32 0)).result =
        .ok e ∧
      (decryptPublic files "a.pk" "b.sk" 0 (Vector.replicate 32 0) (Vector.replicate 32 0)).result =
        .ok d ∧
      longMessage.VectorsBelow (2147483647-16) ∧ longMessage.payload = some [1] ∧
      ¬Delivers (fun x => e.handleMsg referenceSodium x.1 x.2.toPmt) (d.handleMsg referenceSodium)
        [(Vector.replicate 24 0,longMessage)] := by
  intro files e d
  obtain ⟨_,hskA,hpkA,hskB,hpkB⟩ := generate_files referenceSodium referencePairFiles
    referencePairFiles_writable (fun _ => none) true [1] [2]
  refine ⟨?_,?_,longMessage_below,longMessage_payload,?_⟩
  · rw [encryptPublic_written files "b.pk" "a.sk" 0 _ _ _ _ hpkB hskA, Run.result_pure]
  · rw [decryptPublic_written files "a.pk" "b.sk" 0 _ _ _ _ hpkA hskB, Run.result_pure]
  · intro h
    have hcounts := (public_delivers_iff referenceSodium reference_box_inverts [1] [2] e d rfl rfl
      rfl rfl _ (fun x hx => by
        rw [List.mem_singleton.mp hx]
        exact longMessage_below)).mp h
    have hlen := hcounts _ (List.mem_singleton_self _)
    rw [longMessage_length] at hlen
    omega

end GrNacl
