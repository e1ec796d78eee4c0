import GrNacl.MessageChains
import GrNacl.KeyGeneration
import GrNacl.SodiumInstance

/-! The secret-key chain from the key file on: generate_key, both constructors, and
encrypt_secret feeding decrypt_secret. -/
namespace GrNacl
set_option autoImplicit false

open EffectTrace CountedLoop

/-- A key written to a file is the key a constructor loads from it. -/
theorem loadKey_written {n : ℕ} (hn : n ≤ 2147483647) (files : Files) (filename missing : String)
    (c : UInt8) (raw key : Vector UInt8 n) (hfile : files filename = some key.toList) :
    ∃ c', loadKey n files filename missing c raw = pure (c',key) := by
  have hlen : key.toList.length = n := key.length_toList
  -- the file is as long as the key, so the loop never reads past its end
  have hloaded : loadedKey n key.toList c = key := by
    apply Vector.toList_inj.mp
    rw [loadedKey_toList n key.toList c (by omega), List.take_of_length_le (by omega)]
  refine ⟨lastRead key.toList c n,?_⟩
  rw [loadKey_eq n hn, hfile]
  dsimp only
  rw [hloaded]

theorem encryptSecret_written (files : Files) (filenameKey : String) (c : UInt8)
    (raw key : SecretboxKey) (hfile : files filenameKey = some key.toList) :
    encryptSecret files filenameKey c raw = pure ⟨filenameKey,key⟩ := by
  obtain ⟨c',hload⟩ := loadKey_written (by decide) files filenameKey "Key file not found." c raw key
    hfile
  rw [encryptSecret, hload]
  rfl

theorem decryptSecret_written (files : Files) (filenameKey : String) (c : UInt8)
    (raw key : SecretboxKey) (hfile : files filenameKey = some key.toList) :
    decryptSecret files filenameKey c raw = pure ⟨filenameKey,key⟩ := by
  obtain ⟨c',hload⟩ := loadKey_written (by decide) files filenameKey "Key file not found." c raw key
    hfile
  rw [decryptSecret, hload]
  rfl

/-- What the two blocks on one key do with a sequence of messages. -/
theorem secret_delivers_iff (S : Sodium) (hS : S.SecretboxInverts) (e : EncryptSecret)
    (d : DecryptSecret) (hkey : e.dKey = d.dKey) (inputs : List (SecretboxNonce × Message 0))
    (hshort : ∀ x ∈ inputs, x.2.VectorsBelow (2147483647-16)) :
    Delivers (fun x => e.handleMsg S x.1 x.2.toPmt) (d.handleMsg S) inputs ↔
      ∀ x ∈ inputs, x.2.entries.length ≤ 2147483647 := by
  have hinv (p : Bytes) (n : SecretboxNonce) : (S.cryptoSecretboxEasy p n e.dKey).1 = 0 ∧
      (S.secretboxUnder d.dKey).openEasy (S.cryptoSecretboxEasy p n e.dKey).2 n = (0,p) := by
    have h := hS p n e.dKey
    rw [hkey] at h ⊢
    exact h
  exact intChain_delivers_iff (Decryptor.secret d) (fun m n => S.cryptoSecretboxEasy m n e.dKey)
    (S.secretboxUnder d.dKey) rfl (fun _ => rfl) (fun p n => S.secretbox_easy_size p n e.dKey)
    hinv inputs hshort

/-- From a key written to a file that opens, both blocks hold exactly that key, and
encrypt_secret delivers to decrypt_secret exactly the sequences without a message of
more entries than an int counts. -/
theorem secret_chain_delivers_iff (S : Sodium) (hS : S.SecretboxInverts) (key : SecretboxKey)
    (files : Files) (out : OutFile) (filenameKey : String) (ho : out.opens = true)
    (hroom : cryptoSecretboxKEYBYTES ≤ out.room) (c c' : UInt8) (raw raw' : SecretboxKey) :
    (generateKey key out filenameKey).result = .ok () ∧ ∃ e d,
      (encryptSecret (files.replay (generateKey key out filenameKey).events) filenameKey c
        raw).result = .ok e ∧
      (decryptSecret (files.replay (generateKey key out filenameKey).events) filenameKey c'
        raw').result = .ok d ∧
      e.dKey = key ∧ d.dKey = key ∧
      ∀ inputs : List (SecretboxNonce × Message 0),
        (∀ x ∈ inputs, x.2.VectorsBelow (2147483647-16)) →
        (Delivers (fun x => e.handleMsg S x.1 x.2.toPmt) (d.handleMsg S) inputs ↔
          ∀ x ∈ inputs, x.2.entries.length ≤ 2147483647) := by
  obtain ⟨hok,hfiles⟩ := generateKey_leaves files key out filenameKey ho hroom
  have hfile : files.replay (generateKey key out filenameKey).events filenameKey =
      some key.toList := by
    rw [hfiles, Function.update_self]
  refine ⟨hok,⟨filenameKey,key⟩,⟨filenameKey,key⟩,?_,?_,rfl,rfl,?_⟩
  · rw [encryptSecret_written _ _ c raw key hfile, Run.result_pure]
  · rw [decryptSecret_written _ _ c' raw' key hfile, Run.result_pure]
  · intro inputs hshort
    exact secret_delivers_iff S hS ⟨filenameKey,key⟩ ⟨filenameKey,key⟩ rfl inputs hshort

theorem secret_chain_delivers_iff_reference :
    (generateKey (Vector.replicate 32 10) ⟨true,32⟩ "key").result = .ok () ∧ ∃ e d,
      (encryptSecret (Files.replay (fun _ => none)
        (generateKey (Vector.replicate 32 10) ⟨true,32⟩ "key").events) "key" 0
        (Vector.replicate 32 0)).result = .ok e ∧
      (decryptSecret (Files.replay (fun _ => none)
        (generateKey (Vector.replicate 32 10) ⟨true,32⟩ "key").events) "key" 0
        (Vector.replicate 32 0)).result = .ok d ∧
      e.dKey = Vector.replicate 32 10 ∧ d.dKey = Vector.replicate 32 10 ∧
      ∀ inputs : List (SecretboxNonce × Message 0),
        (∀ x ∈ inputs, x.2.VectorsBelow (2147483647-16)) →
        (Delivers (fun x => e.handleMsg referenceSodium x.1 x.2.toPmt)
          (d.handleMsg referenceSodium) inputs ↔ ∀ x ∈ inputs, x.2.entries.length ≤ 2147483647) :=
  secret_chain_delivers_iff referenceSodium reference_secretbox_inverts (Vector.replicate 32 10)
    (fun _ => none) ⟨true,32⟩ "key" rfl (by decide) 0 0 (Vector.replicate 32 0)
    (Vector.replicate 32 0)

/-- A payload behind 2^31 other entries overflows the counter of the scan. -/
theorem secret_chain_overflows :
    let files := Files.replay (fun _ => none)
      (generateKey (Vector.replicate 32 0) ⟨true,32⟩ "key").events
    (encryptSecret files "key" 0 (Vector.replicate 32 0)).result =
        .ok ⟨"key",Vector.replicate 32 0⟩ ∧
      (decryptSecret files "key" 0 (Vector.replicate 32 0)).result =
        .ok ⟨"key",Vector.replicate 32 0⟩ ∧
      longMessage.VectorsBelow (2147483647-16) ∧ longMessage.payload = some [1] ∧
      ¬Delivers (fun x => EncryptSecret.handleMsg referenceSodium ⟨"key",Vector.replicate 32 0⟩ x.1
          x.2.toPmt)
        (DecryptSecret.handleMsg referenceSodium ⟨"key",Vector.replicate 32 0⟩)
        [(Vector.replicate 24 0,longMessage)] := by
  intro files
  have hfile : files "key" = some (Vector.replicate 32 (0 : UInt8)).toList := by
    have h := (generateKey_leaves (fun _ => none) (Vector.replicate 32 0) ⟨true,32⟩ "key" rfl
      (by decide)).2
    change Files.replay _ _ _ = _
    rw [h, Function.update_self]
  refine ⟨?_,?_,longMessage_below,longMessage_payload,?_⟩
  · rw [encryptSecret_written files "key" 0 _ _ hfile, Run.result_pure]
  · rw [decryptSecret_written files "key" 0 _ _ hfile, Run.result_pure]
  · intro h
    have hcounts := (secret_delivers_iff referenceSodium reference_secretbox_inverts _ _ rfl _
      (fun x hx => by
        rw [List.mem_singleton.mp hx]
        exact longMessage_below)).mp h
    have hlen := hcounts _ (List.mem_singleton_self _)
    rw [longMessage_length] at hlen
    omega

end GrNacl
