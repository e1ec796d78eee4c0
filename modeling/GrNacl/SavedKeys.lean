import GrNacl.PublicKeyChain
import GrNacl.KemChain
import Mathlib.Data.List.TakeDrop

/-! What a generator that returns has saved. generate_key and generate_keypair never look
at their streams; generate_kem_keypair asks whether a file opened, and no more. -/
namespace GrNacl
set_option autoImplicit false

open EffectTrace CountedLoop

/-- The key file holds exactly the key, and the blocks on it load that key. -/
structure KeySaved (files : Files) (filenameKey : String) (key : SecretboxKey) : Prop where
  stored : files filenameKey = some key.toList
  encryptor : ∀ c raw, encryptSecret files filenameKey c raw = pure ⟨filenameKey,key⟩
  decryptor : ∀ c raw, decryptSecret files filenameKey c raw = pure ⟨filenameKey,key⟩

/-- The two files hold the halves of the pair, and the blocks on them load these. -/
structure PairSaved (files : Files) (filenameSk filenamePk : String) (pk : BoxPublicKey)
    (sk : BoxSecretKey) : Prop where
  storedSk : files filenameSk = some sk.toList
  storedPk : files filenamePk = some pk.toList
  encryptor : ∀ c rawPk rawSk, encryptPublic files filenamePk filenameSk c rawPk rawSk =
    pure ⟨filenamePk,filenameSk,pk,sk⟩
  decryptor : ∀ c rawPk rawSk, decryptPublic files filenamePk filenameSk c rawPk rawSk =
    pure ⟨filenamePk,filenameSk,pk,sk⟩

structure KemPairSaved (S : Sodium) (files : Files) (filenameSk filenamePk : String)
    (pk : Vector UInt8 S.cryptoKemPUBLICKEYBYTES) (sk : Vector UInt8 S.cryptoKemSECRETKEYBYTES) :
    Prop where
  storedSk : files filenameSk = some sk.toList
  storedPk : files filenamePk = some pk.toList
  encryptor : encryptKem S files filenamePk = pure ⟨filenamePk,pk⟩
  decryptor : decryptKem S files filenameSk = pure ⟨filenameSk,sk⟩

theorem keySaved_iff (files : Files) (filenameKey : String) (key : SecretboxKey) :
    KeySaved files filenameKey key ↔ files filenameKey = some key.toList :=
  ⟨fun h => h.stored, fun h => ⟨h,fun c raw => encryptSecret_written files filenameKey c raw key h,
    fun c raw => decryptSecret_written files filenameKey c raw key h⟩⟩

theorem pairSaved_iff (files : Files) (filenameSk filenamePk : String) (pk : BoxPublicKey)
    (sk : BoxSecretKey) : PairSaved files filenameSk filenamePk pk sk ↔
      files filenameSk = some sk.toList ∧ files filenamePk = some pk.toList := by
  constructor
  · intro h
    exact ⟨h.storedSk,h.storedPk⟩
  · intro h
    exact ⟨h.1,h.2,
      fun c rawPk rawSk => encryptPublic_written files _ _ c rawPk pk rawSk sk h.2 h.1,
      fun c rawPk rawSk => decryptPublic_written files _ _ c rawPk pk rawSk sk h.2 h.1⟩

theorem kemPairSaved_iff (S : Sodium) (files : Files) (filenameSk filenamePk : String)
    (pk : Vector UInt8 S.cryptoKemPUBLICKEYBYTES) (sk : Vector UInt8 S.cryptoKemSECRETKEYBYTES) :
    KemPairSaved S files filenameSk filenamePk pk sk ↔
      files filenameSk = some sk.toList ∧ files filenamePk = some pk.toList := by
  constructor
  · intro h
    exact ⟨h.storedSk,h.storedPk⟩
  · intro h
    exact ⟨h.1,h.2,encryptKem_written S files _ pk h.2,decryptKem_written S files _ sk h.1⟩

/-- The file ends up with the key: it opens and takes all of it, or holds it already. -/
def OutFile.Saves (out : OutFile) (files : Files) (filename : String) (key : Bytes) : Prop :=
  if out.opens then key.length ≤ out.room else files filename = some key

theorem leaves_self_iff (out : OutFile) (files : Files) (filename : String) (key : Bytes) :
    out.leaves files filename key filename = some key ↔ out.Saves files filename key := by
  unfold OutFile.leaves OutFile.Saves
  split
  · rw [Function.update_self, Option.some_inj, List.take_eq_self_iff]
  · exact Iff.rfl

/-- The same key written twice to one file. -/
theorem saves_again_iff (out out' : OutFile) (files : Files) (filename : String) (key : Bytes) :
    out'.Saves (out.leaves files filename key) filename key ↔
      if out'.opens then key.length ≤ out'.room else out.Saves files filename key := by
  unfold OutFile.Saves
  split
  · exact Iff.rfl
  · exact leaves_self_iff out files filename key

/-- Both halves end up in their files. Under one name the second write is the one that
stays, so the halves would have to be equal. -/
def PairSaves (files : Files) (outSk outPk : OutFile) (filenameSk filenamePk : String)
    (sk pk : Bytes) : Prop :=
  if filenameSk = filenamePk then
    sk = pk ∧ if outPk.opens then pk.length ≤ outPk.room else outSk.Saves files filenameSk sk
  else outSk.Saves files filenameSk sk ∧ outPk.Saves files filenamePk pk

theorem leaves_pair_iff (files : Files) (outSk outPk : OutFile) (filenameSk filenamePk : String)
    (sk pk : Bytes) :
    (outPk.leaves (outSk.leaves files filenameSk sk) filenamePk pk filenameSk = some sk ∧
      outPk.leaves (outSk.leaves files filenameSk sk) filenamePk pk filenamePk = some pk) ↔
    PairSaves files outSk outPk filenameSk filenamePk sk pk := by
  unfold PairSaves
  by_cases hname : filenameSk = filenamePk
  · -- one file is asked to hold both halves
    have hone (content : Option Bytes) : content = some sk ∧ content = some pk ↔
        sk = pk ∧ content = some pk := by
      constructor
      · intro h
        exact ⟨Option.some.inj (h.1.symm.trans h.2),h.2⟩
      · intro h
        exact ⟨h.1 ▸ h.2,h.2⟩
    rw [hname, if_pos rfl, hone]
    apply and_congr_right
    intro hsame
    rw [hsame, leaves_self_iff, saves_again_iff]
  · -- the public half is written to another file
    have hother : outPk.Saves (outSk.leaves files filenameSk sk) filenamePk pk ↔
        outPk.Saves files filenamePk pk := by
      unfold OutFile.Saves
      rw [leaves_of_ne _ _ _ _ _ (Ne.symm hname)]
    rw [if_neg hname, leaves_of_ne _ _ _ _ _ hname, leaves_self_iff, leaves_self_iff, hother]

section Generators

variable (S : Sodium) (files : Files) (seed : Bytes) (outSk outPk : OutFile)
  (filenameSk filenamePk : String)

theorem generateKey_saves_iff (key : SecretboxKey) (out : OutFile) (filenameKey : String) :
    ((generateKey key out filenameKey).result = .ok () →
      KeySaved (files.replay (generateKey key out filenameKey).events) filenameKey key) ↔
    out.Saves files filenameKey key.toList := by
  have hends := generateKey_ends files key out filenameKey
  have hfiles : files.replay (generateKey key out filenameKey).events =
      out.leaves files filenameKey key.toList := hends.observed
  rw [hends.result, keySaved_iff, hfiles, leaves_self_iff]
  exact ⟨fun h => h rfl,fun h _ => h⟩

theorem generateKeypair_saves_iff :
    ((generateKeypair S seed outSk outPk filenameSk filenamePk).result = .ok () →
      PairSaved (files.replay (generateKeypair S seed outSk outPk filenameSk filenamePk).events)
        filenameSk filenamePk (S.cryptoBoxKeypair seed).1 (S.cryptoBoxKeypair seed).2) ↔
    PairSaves files outSk outPk filenameSk filenamePk (S.cryptoBoxKeypair seed).2.toList
      (S.cryptoBoxKeypair seed).1.toList := by
  have hends := generateKeypair_ends S files seed outSk outPk filenameSk filenamePk
  have hfiles : files.replay (generateKeypair S seed outSk outPk filenameSk filenamePk).events = _ :=
    hends.observed
  rw [hends.result, pairSaved_iff, hfiles, leaves_pair_iff]
  exact ⟨fun h => h rfl,fun h _ => h⟩

theorem generateKemKeypair_saves_iff :
    ((generateKemKeypair S seed outSk outPk filenameSk filenamePk).result = .ok () →
      KemPairSaved S
        (files.replay (generateKemKeypair S seed outSk outPk filenameSk filenamePk).events)
        filenameSk filenamePk (S.cryptoKemKeypair seed).2.1 (S.cryptoKemKeypair seed).2.2) ↔
    S.sodiumInit < 0 ∨ (S.cryptoKemKeypair seed).1 ≠ 0 ∨ outSk.opens = false ∨
      outPk.opens = false ∨
      PairSaves files outSk outPk filenameSk filenamePk (S.cryptoKemKeypair seed).2.2.toList
        (S.cryptoKemKeypair seed).2.1.toList := by
  have hok := generateKemKeypair_ok_iff S seed outSk outPk filenameSk filenamePk
  by_cases hreturns : (generateKemKeypair S seed outSk outPk filenameSk filenamePk).result = .ok ()
  · obtain ⟨hinit,hstatus,hoSk,hoPk⟩ := hok.mp hreturns
    have hends := generateKemKeypair_ends S files seed outSk outPk filenameSk filenamePk hinit
      hstatus
    rw [if_pos hoSk, if_pos hoSk] at hends
    have hfiles : files.replay
        (generateKemKeypair S seed outSk outPk filenameSk filenamePk).events = _ := hends.observed
    rw [kemPairSaved_iff, hfiles, leaves_pair_iff]
    simp only [hreturns, hinit, hstatus, hoSk, hoPk, true_implies, ne_eq, not_true_eq_false,
      false_or, Bool.true_eq_false]
  · -- an exception reports nothing
    apply iff_of_true (fun h => absurd h hreturns)
    rw [hok, not_and_or, not_and_or, not_and_or, not_not, Bool.not_eq_true, Bool.not_eq_true]
      at hreturns
    rcases hreturns with h | h | h | h
    · exact Or.inl h
    · exact Or.inr (Or.inl h)
    · exact Or.inr (Or.inr (Or.inl h))
    · exact Or.inr (Or.inr (Or.inr (Or.inl h)))

end Generators

/-- When a return of a generator means that its keys are saved. -/
theorem saved_keys_iff (S : Sodium) (files : Files) :
    (∀ (key : SecretboxKey) (out : OutFile) (filenameKey : String),
      ((generateKey key out filenameKey).result = .ok () →
        KeySaved (files.replay (generateKey key out filenameKey).events) filenameKey key) ↔
      out.Saves files filenameKey key.toList) ∧
    ∀ (seed : Bytes) (outSk outPk : OutFile) (filenameSk filenamePk : String),
      (((generateKeypair S seed outSk outPk filenameSk filenamePk).result = .ok () →
        PairSaved (files.replay (generateKeypair S seed outSk outPk filenameSk filenamePk).events)
          filenameSk filenamePk (S.cryptoBoxKeypair seed).1 (S.cryptoBoxKeypair seed).2) ↔
      PairSaves files outSk outPk filenameSk filenamePk (S.cryptoBoxKeypair seed).2.toList
        (S.cryptoBoxKeypair seed).1.toList) ∧
      (((generateKemKeypair S seed outSk outPk filenameSk filenamePk).result = .ok () →
        KemPairSaved S
          (files.replay (generateKemKeypair S seed outSk outPk filenameSk filenamePk).events)
          filenameSk filenamePk (S.cryptoKemKeypair seed).2.1 (S.cryptoKemKeypair seed).2.2) ↔
      S.sodiumInit < 0 ∨ (S.cryptoKemKeypair seed).1 ≠ 0 ∨ outSk.opens = false ∨
        outPk.opens = false ∨
        PairSaves files outSk outPk filenameSk filenamePk (S.cryptoKemKeypair seed).2.2.toList
          (S.cryptoKemKeypair seed).2.1.toList) := by
  constructor
  · intro key out filenameKey
    exact generateKey_saves_iff files key out filenameKey
  · intro seed outSk outPk filenameSk filenamePk
    exact ⟨generateKeypair_saves_iff S files seed outSk outPk filenameSk filenamePk,
      generateKemKeypair_saves_iff S files seed outSk outPk filenameSk filenamePk⟩

/-- generate_key returns without a file, and generate_kem_keypair after a full disk has
cut its secret key short. -/
theorem unsaved_keys_reported :
    ((generateKey (Vector.replicate 32 1) ⟨false,32⟩ "key").result = .ok () ∧
      ¬KeySaved (Files.replay (fun _ => none)
        (generateKey (Vector.replicate 32 1) ⟨false,32⟩ "key").events) "key"
        (Vector.replicate 32 1)) ∧
    (generateKemKeypair referenceSodium [] ⟨true,8⟩ ⟨true,1216⟩ "kem.sk" "kem.pk").result = .ok () ∧
      ¬KemPairSaved referenceSodium (Files.replay (fun _ => none)
        (generateKemKeypair referenceSodium [] ⟨true,8⟩ ⟨true,1216⟩ "kem.sk" "kem.pk").events)
        "kem.sk" "kem.pk" (referenceSodium.cryptoKemKeypair []).2.1
        (referenceSodium.cryptoKemKeypair []).2.2 := by
  refine ⟨⟨?_,?_⟩,?_,?_⟩
  · exact (generateKey_ends (fun _ => none) _ _ _).result
  · intro h
    -- a file that does not open would have to hold the key already
    have hsaves := (generateKey_saves_iff _ _ ⟨false,32⟩ "key").mp (fun _ => h)
    cases hsaves
  · exact (generateKemKeypair_ok_iff _ _ _ _ _ _).mpr ⟨by decide,rfl,rfl,rfl⟩
  · intro h
    have hsaves := (generateKemKeypair_saves_iff referenceSodium (fun _ => none) [] ⟨true,8⟩
      ⟨true,1216⟩ "kem.sk" "kem.pk").mp (fun _ => h)
    rcases hsaves with hinit | hstatus | hoSk | hoPk | hpair
    · exact absurd hinit (by decide)
    · exact hstatus rfl
    · cases hoSk
    · cases hoPk
    · rw [PairSaves, if_neg (by decide)] at hpair
      -- the secret key has 32 bytes and the disk took 8
      have hroom : (referenceSodium.cryptoKemKeypair []).2.2.toList.length ≤ 8 := hpair.1
      rw [Vector.length_toList] at hroom
      exact absurd hroom (by decide)

end GrNacl
