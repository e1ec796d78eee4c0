import GrNacl.KemChain
import GrNacl.PublicKeyChain
import GrNacl.FlowgraphDelivery
import GrNacl.LastWrite

/-! The key files as a store. Whatever generators have run over them, on whatever disk, with
whatever end, a file holds what was last saved to it. -/
namespace GrNacl
set_option autoImplicit false

open EffectTrace CountedLoop LastWrite

/-- One construction of a generator, with its draw and what the file system does with it. -/
inductive GeneratorCall
  | key (key : SecretboxKey) (out : OutFile) (filenameKey : String)
  | keypair (seed : Bytes) (outSk outPk : OutFile) (filenameSk filenamePk : String)
  | kemKeypair (seed : Bytes) (outSk outPk : OutFile) (filenameSk filenamePk : String)

/-- What a file that opens is left with. -/
def OutFile.saved (out : OutFile) (filename : String) (key : Bytes) : List (String × Bytes) :=
  if out.opens then [(filename,key.take out.room)] else []

theorem leaves_eq_putAll (out : OutFile) (files : Files) (filename : String) (key : Bytes) :
    out.leaves files filename key = putAll files (out.saved filename key) := by
  unfold OutFile.leaves OutFile.saved
  split <;> rfl

namespace GeneratorCall

def run (S : Sodium) : GeneratorCall → Handler Unit
  | .key k out filenameKey => generateKey k out filenameKey
  | .keypair seed outSk outPk filenameSk filenamePk =>
    generateKeypair S seed outSk outPk filenameSk filenamePk
  | .kemKeypair seed outSk outPk filenameSk filenamePk =>
    generateKemKeypair S seed outSk outPk filenameSk filenamePk

/-- What the call saves, file after file. The KEM generator saves nothing without a pair,
and no public key where the secret one could not be saved. -/
def saves (S : Sodium) : GeneratorCall → List (String × Bytes)
  | .key k out filenameKey => out.saved filenameKey k.toList
  | .keypair seed outSk outPk filenameSk filenamePk =>
    outSk.saved filenameSk (S.cryptoBoxKeypair seed).2.toList ++
      outPk.saved filenamePk (S.cryptoBoxKeypair seed).1.toList
  | .kemKeypair seed outSk outPk filenameSk filenamePk =>
    if S.sodiumInit < 0 ∨ (S.cryptoKemKeypair seed).1 ≠ 0 then []
    else if outSk.opens then
      outSk.saved filenameSk (S.cryptoKemKeypair seed).2.2.toList ++
        outPk.saved filenamePk (S.cryptoKemKeypair seed).2.1.toList
    else []

/-- One call on the files is its saves on the store. -/
theorem replay_run (S : Sodium) (files : Files) (c : GeneratorCall) :
    files.replay (c.run S).events = putAll files (c.saves S) := by
  cases c with
  | key k out filenameKey =>
    have hfiles : files.replay (generateKey k out filenameKey).events = _ :=
      (generateKey_ends files k out filenameKey).observed
    rw [run, hfiles, leaves_eq_putAll, saves]
  | keypair seed outSk outPk filenameSk filenamePk =>
    have hfiles : files.replay
        (generateKeypair S seed outSk outPk filenameSk filenamePk).events = _ :=
      (generateKeypair_ends S files seed outSk outPk filenameSk filenamePk).observed
    rw [run, hfiles, leaves_eq_putAll, leaves_eq_putAll, saves, putAll_append]
  | kemKeypair seed outSk outPk filenameSk filenamePk =>
    rw [run, saves]
    -- without a pair no file is opened
    by_cases hpair : S.sodiumInit < 0 ∨ (S.cryptoKemKeypair seed).1 ≠ 0
    · rw [if_pos hpair]
      exact (generateKemKeypair_fails S files seed outSk outPk filenameSk filenamePk
        hpair).observed
    · rw [if_neg hpair]
      rw [not_or, not_not] at hpair
      have hfiles : files.replay
          (generateKemKeypair S seed outSk outPk filenameSk filenamePk).events = _ :=
        (generateKemKeypair_ends S files seed outSk outPk filenameSk filenamePk hpair.1
          hpair.2).observed
      rw [hfiles]
      split
      · rw [leaves_eq_putAll, leaves_eq_putAll, putAll_append]
      · rfl

end GeneratorCall

/-- The files after the calls, each of which returned or threw. -/
def afterCalls (S : Sodium) (files : Files) (calls : List GeneratorCall) : Files :=
  files.replay (calls.flatMap (fun c => (c.run S).events))

/-- All that the calls saved, in order. -/
def savedBy (S : Sodium) (calls : List GeneratorCall) : List (String × Bytes) :=
  calls.flatMap (GeneratorCall.saves S)

theorem afterCalls_eq (S : Sodium) (files : Files) (calls : List GeneratorCall) :
    afterCalls S files calls = putAll files (savedBy S calls) := by
  -- the rest of the calls starts from the files the first one leaves
  induction calls generalizing files with
  | nil => rfl
  | cons c calls ih =>
    have hfirst := c.replay_run S files
    have hrest := ih (putAll files (c.saves S))
    rw [afterCalls, Files.replay, List.flatMap_cons, List.foldl_append]
    change afterCalls S (files.replay (c.run S).events) calls = _
    rw [hfirst, hrest, savedBy, savedBy, List.flatMap_cons, putAll_append]

/-- The byte-wise event log of any history of generators amounts to a store of whole files:
each file holds what was last saved to it, and a file nothing was saved to is as before.
What comes later leaves a file alone unless it saves to it. -/
theorem key_files_last_saved (S : Sodium) (files : Files) (calls : List GeneratorCall)
    (filename : String) :
    afterCalls S files calls filename =
      (lastTo filename (savedBy S calls)).or (files filename) ∧
    ∀ later, (∀ w ∈ savedBy S later, w.1 ≠ filename) →
      afterCalls S files (calls ++ later) filename = afterCalls S files calls filename := by
  have hstore (calls : List GeneratorCall) : afterCalls S files calls filename =
      (lastTo filename (savedBy S calls)).or (files filename) := by
    rw [afterCalls_eq, putAll_apply]
  refine ⟨hstore calls,?_⟩
  intro later hlater
  have hsaves : savedBy S (calls ++ later) = savedBy S calls ++ savedBy S later := by
    rw [savedBy, List.flatMap_append]
    rfl
  rw [hstore, hstore, hsaves, lastTo_append_of_untouched filename _ _ hlater]

section Constructors

variable (S : Sodium) (files : Files) (calls : List GeneratorCall)

theorem afterCalls_of_lastTo (filename : String) (key : Bytes)
    (h : lastTo filename (savedBy S calls) = some key) :
    afterCalls S files calls filename = some key := by
  rw [afterCalls_eq, putAll_apply, h, Option.some_or]

/-- After any history of generators in which the last things saved to the files are a key, or
halves of two pairs or of a KEM pair, the constructors return blocks that match. -/
theorem key_histories_match :
    (∀ (key : SecretboxKey) (filenameKey : String) (c c' : UInt8) (raw raw' : SecretboxKey),
      lastTo filenameKey (savedBy S calls) = some key.toList → ∃ e d,
        (encryptSecret (afterCalls S files calls) filenameKey c raw).result = .ok e ∧
        (decryptSecret (afterCalls S files calls) filenameKey c' raw').result = .ok d ∧
        Matched S (.encryptSecret e) (.secret d)) ∧
    (∀ (seedA seedB : Bytes) (skA pkA skB pkB : String) (c c' : UInt8)
      (rawPk rawPk' : BoxPublicKey) (rawSk rawSk' : BoxSecretKey),
      lastTo skA (savedBy S calls) = some (S.cryptoBoxKeypair seedA).2.toList →
      lastTo pkA (savedBy S calls) = some (S.cryptoBoxKeypair seedA).1.toList →
      lastTo skB (savedBy S calls) = some (S.cryptoBoxKeypair seedB).2.toList →
      lastTo pkB (savedBy S calls) = some (S.cryptoBoxKeypair seedB).1.toList → ∃ e d,
        (encryptPublic (afterCalls S files calls) pkB skA c rawPk rawSk).result = .ok e ∧
        (decryptPublic (afterCalls S files calls) pkA skB c' rawPk' rawSk').result = .ok d ∧
        Matched S (.encryptPublic e) (.box d)) ∧
    (∀ (seed : Bytes) (filenameSk filenamePk : String), (S.cryptoKemKeypair seed).1 = 0 →
      lastTo filenameSk (savedBy S calls) = some (S.cryptoKemKeypair seed).2.2.toList →
      lastTo filenamePk (savedBy S calls) = some (S.cryptoKemKeypair seed).2.1.toList → ∃ e d,
        (encryptKem S (afterCalls S files calls) filenamePk).result = .ok e ∧
        (decryptKem S (afterCalls S files calls) filenameSk).result = .ok d ∧
        Matched S (.encryptKem e) (.kem d)) := by
  refine ⟨?_,?_,?_⟩
  · intro key filenameKey c c' raw raw' hkey
    have hfile := afterCalls_of_lastTo S files calls filenameKey _ hkey
    refine ⟨⟨filenameKey,key⟩,⟨filenameKey,key⟩,?_,?_,.secret _ _ rfl⟩
    · rw [encryptSecret_written _ _ c raw key hfile, Run.result_pure]
    · rw [decryptSecret_written _ _ c' raw' key hfile, Run.result_pure]
  · intro seedA seedB skA pkA skB pkB c c' rawPk rawPk' rawSk rawSk' hskA hpkA hskB hpkB
    have hfileSkA := afterCalls_of_lastTo S files calls skA _ hskA
    have hfilePkA := afterCalls_of_lastTo S files calls pkA _ hpkA
    have hfileSkB := afterCalls_of_lastTo S files calls skB _ hskB
    have hfilePkB := afterCalls_of_lastTo S files calls pkB _ hpkB
    refine ⟨⟨pkB,skA,_,_⟩,⟨pkA,skB,_,_⟩,?_,?_,.box _ _ seedA seedB rfl rfl rfl rfl⟩
    · rw [encryptPublic_written _ pkB skA c rawPk _ rawSk _ hfilePkB hfileSkA, Run.result_pure]
    · rw [decryptPublic_written _ pkA skB c' rawPk' _ rawSk' _ hfilePkA hfileSkB, Run.result_pure]
  · intro seed filenameSk filenamePk hstatus hsk hpk
    have hfileSk := afterCalls_of_lastTo S files calls filenameSk _ hsk
    have hfilePk := afterCalls_of_lastTo S files calls filenamePk _ hpk
    refine ⟨⟨filenamePk,_⟩,⟨filenameSk,_⟩,?_,?_,.kem _ _ seed hstatus rfl rfl⟩
    · rw [encryptKem_written S _ filenamePk _ hfilePk, Run.result_pure]
    · rw [decryptKem_written S _ filenameSk _ hfileSk, Run.result_pure]

end Constructors

/-! Calls whose files open and have room. -/

theorem saved_whole {n : ℕ} (out : OutFile) (filename : String) (key : Vector UInt8 n)
    (ho : out.opens = true) (hroom : n ≤ out.room) :
    out.saved filename key.toList = [(filename,key.toList)] := by
  rw [OutFile.saved, if_pos ho, List.take_of_length_le]
  rw [Vector.length_toList]
  exact hroom

theorem saves_keypair (S : Sodium) (seed : Bytes) (outSk outPk : OutFile)
    (filenameSk filenamePk : String) (hsk : outSk.opens = true) (hpk : outPk.opens = true)
    (hroomSk : cryptoBoxSECRETKEYBYTES ≤ outSk.room)
    (hroomPk : cryptoBoxPUBLICKEYBYTES ≤ outPk.room) :
    GeneratorCall.saves S (.keypair seed outSk outPk filenameSk filenamePk) =
      [(filenameSk,(S.cryptoBoxKeypair seed).2.toList),
        (filenamePk,(S.cryptoBoxKeypair seed).1.toList)] := by
  rw [GeneratorCall.saves, saved_whole _ _ _ hsk hroomSk, saved_whole _ _ _ hpk hroomPk,
    List.singleton_append]

theorem saves_kemKeypair (S : Sodium) (seed : Bytes) (outSk outPk : OutFile)
    (filenameSk filenamePk : String) (hinit : 0 ≤ S.sodiumInit)
    (hstatus : (S.cryptoKemKeypair seed).1 = 0) (hsk : outSk.opens = true)
    (hpk : outPk.opens = true) (hroomSk : S.cryptoKemSECRETKEYBYTES ≤ outSk.room)
    (hroomPk : S.cryptoKemPUBLICKEYBYTES ≤ outPk.room) :
    GeneratorCall.saves S (.kemKeypair seed outSk outPk filenameSk filenamePk) =
      [(filenameSk,(S.cryptoKemKeypair seed).2.2.toList),
        (filenamePk,(S.cryptoKemKeypair seed).2.1.toList)] := by
  have hpair : ¬(S.sodiumInit < 0 ∨ (S.cryptoKemKeypair seed).1 ≠ 0) := by
    rw [not_or, not_not]
    exact ⟨not_lt.mpr hinit,hstatus⟩
  rw [GeneratorCall.saves, if_neg hpair, if_pos hsk, saved_whole _ _ _ hsk hroomSk,
    saved_whole _ _ _ hpk hroomPk, List.singleton_append]

/-- A key, a pair and a KEM pair are generated, another pair to use them with, and then all
but that once more over the first ones. -/
def regenerated : List GeneratorCall :=
  [.key (Vector.replicate 32 1) ⟨true,32⟩ "key",
    .keypair [1] ⟨true,32⟩ ⟨true,32⟩ "a.sk" "a.pk",
    .kemKeypair [1] ⟨true,32⟩ ⟨true,1216⟩ "kem.sk" "kem.pk",
    .keypair [2] ⟨true,32⟩ ⟨true,32⟩ "b.sk" "b.pk",
    .kemKeypair [4] ⟨true,32⟩ ⟨true,1216⟩ "kem.sk" "kem.pk",
    .keypair [3] ⟨true,32⟩ ⟨true,32⟩ "a.sk" "a.pk",
    .key (Vector.replicate 32 2) ⟨true,32⟩ "key"]

theorem regenerated_saves : savedBy referenceSodium regenerated =
    [("key",(Vector.replicate 32 1).toList),
      ("a.sk",(referenceSodium.cryptoBoxKeypair [1]).2.toList),
      ("a.pk",(referenceSodium.cryptoBoxKeypair [1]).1.toList),
      ("kem.sk",(referenceSodium.cryptoKemKeypair [1]).2.2.toList),
      ("kem.pk",(referenceSodium.cryptoKemKeypair [1]).2.1.toList),
      ("b.sk",(referenceSodium.cryptoBoxKeypair [2]).2.toList),
      ("b.pk",(referenceSodium.cryptoBoxKeypair [2]).1.toList),
      ("kem.sk",(referenceSodium.cryptoKemKeypair [4]).2.2.toList),
      ("kem.pk",(referenceSodium.cryptoKemKeypair [4]).2.1.toList),
      ("a.sk",(referenceSodium.cryptoBoxKeypair [3]).2.toList),
      ("a.pk",(referenceSodium.cryptoBoxKeypair [3]).1.toList),
      ("key",(Vector.replicate 32 2).toList)] := by
  have hpair (seed : Bytes) (filenameSk filenamePk : String) := saves_keypair referenceSodium seed
    ⟨true,32⟩ ⟨true,32⟩ filenameSk filenamePk rfl rfl (le_refl 32) (le_refl 32)
  have hkem (seed : Bytes) := saves_kemKeypair referenceSodium seed ⟨true,32⟩ ⟨true,1216⟩
    "kem.sk" "kem.pk" (le_refl 0) rfl rfl rfl (le_refl 32) (le_refl 1216)
  have hkey (key : SecretboxKey) : GeneratorCall.saves referenceSodium (.key key ⟨true,32⟩ "key") =
      [("key",key.toList)] := saved_whole _ _ _ rfl (le_refl 32)
  simp only [savedBy, regenerated, List.flatMap_cons, List.flatMap_nil, hpair, hkem, hkey,
    List.cons_append, List.nil_append]

theorem key_histories_match_regenerated :
    (∃ e d,
      (encryptSecret (afterCalls referenceSodium (fun _ => none) regenerated) "key" 0
        (Vector.replicate 32 0)).result = .ok e ∧
      (decryptSecret (afterCalls referenceSodium (fun _ => none) regenerated) "key" 0
        (Vector.replicate 32 0)).result = .ok d ∧
      Matched referenceSodium (.encryptSecret e) (.secret d)) ∧
    (∃ e d,
      (encryptPublic (afterCalls referenceSodium (fun _ => none) regenerated) "b.pk" "a.sk" 0
        (Vector.replicate 32 0) (Vector.replicate 32 0)).result = .ok e ∧
      (decryptPublic (afterCalls referenceSodium (fun _ => none) regenerated) "a.pk" "b.sk" 0
        (Vector.replicate 32 0) (Vector.replicate 32 0)).result = .ok d ∧
      Matched referenceSodium (.encryptPublic e) (.box d)) ∧
    ∃ e d,
      (encryptKem referenceSodium (afterCalls referenceSodium (fun _ => none) regenerated)
        "kem.pk").result = .ok e ∧
      (decryptKem referenceSodium (afterCalls referenceSodium (fun _ => none) regenerated)
        "kem.sk").result = .ok d ∧
      Matched referenceSodium (.encryptKem e) (.kem d) := by
  obtain ⟨hsecret,hbox,hkem⟩ := key_histories_match referenceSodium (fun _ => none) regenerated
  rw [regenerated_saves] at hsecret hbox hkem
  refine ⟨?_,?_,?_⟩
  · exact hsecret (Vector.replicate 32 2) "key" 0 0 (Vector.replicate 32 0) (Vector.replicate 32 0)
      rfl
  · exact hbox [3] [2] "a.sk" "a.pk" "b.sk" "b.pk" 0 0 (Vector.replicate 32 0)
      (Vector.replicate 32 0) (Vector.replicate 32 0) (Vector.replicate 32 0) rfl rfl rfl rfl
  · exact hkem [4] "kem.sk" "kem.pk" rfl (by simp [lastTo]) (by simp [lastTo])

end GrNacl
