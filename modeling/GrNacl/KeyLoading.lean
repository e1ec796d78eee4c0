import GrNacl.KeyFiles
import GrNacl.SodiumInstance

/-! Which key files the constructors take. A bulk read refuses a short file; the byte
loop fills the rest of the key with the last byte it got. -/
namespace GrNacl
set_option autoImplicit false

open EffectTrace CountedLoop

/-- Every byte of the key was read from the file at its position. -/
def HoldsPrefix {n : ℕ} (files : Files) (filename : String) (key : Vector UInt8 n) : Prop :=
  ∃ content, files filename = some content ∧ n ≤ content.length ∧ key.toList = content.take n

/-- A constructor throws, or the block it returns has the property. -/
def RefusesOr {α : Type} (x : Handler α) (P : α → Prop) : Prop := ∀ a, x.result = .ok a → P a

/-- The file is long enough for a key, if it opens at all. -/
def LongEnough (files : Files) (filename : String) (n : ℕ) : Prop :=
  ∀ content, files filename = some content → n ≤ content.length

theorem refusesOr_fail {α : Type} (e : Fault) (P : α → Prop) : RefusesOr (Run.fail e) P :=
  fun _ h => nomatch h

theorem refusesOr_pure {α : Type} (a : α) (P : α → Prop) : RefusesOr (pure a) P ↔ P a := by
  constructor
  · intro h
    exact h a rfl
  · intro h b hb
    cases hb
    exact h

theorem loadedKey_holds_iff (n : ℕ) (files : Files) (filename : String) (content : Bytes)
    (hfile : files filename = some content) (c : UInt8) :
    HoldsPrefix files filename (loadedKey n content c) ↔ n ≤ content.length := by
  constructor
  · intro h
    obtain ⟨content',hfile',hlen,hkey⟩ := h
    rw [hfile] at hfile'
    rw [Option.some.inj hfile']
    exact hlen
  · intro hlen
    exact ⟨content,hfile,hlen,loadedKey_toList n content c hlen⟩

theorem longEnough_some (files : Files) (filename : String) (n : ℕ) (content : Bytes)
    (hfile : files filename = some content) :
    LongEnough files filename n ↔ n ≤ content.length := by
  rw [LongEnough, hfile]
  exact ⟨fun h => h content rfl, fun h content' he => Option.some.inj he ▸ h⟩

theorem longEnough_none (files : Files) (filename : String) (n : ℕ)
    (hfile : files filename = none) : LongEnough files filename n := by
  intro content h
  rw [hfile] at h
  cases h

/-- One file behind the byte loop, in a block that keeps the key. -/
theorem loadKey_refusesOr {β : Type} (n : ℕ) (hn : n ≤ 2147483647) (files : Files)
    (filename missing : String) (c : UInt8) (raw : Vector UInt8 n) (f : Vector UInt8 n → β)
    (key : β → Vector UInt8 n) (hkey : ∀ k, key (f k) = k) :
    RefusesOr (do let (_, k) ← loadKey n files filename missing c raw; pure (f k))
      (fun b => HoldsPrefix files filename (key b)) ↔ LongEnough files filename n := by
  rw [loadKey_eq n hn]
  cases hfile : files filename with
  | none =>
    dsimp only
    rw [Run.fail_bind]
    exact iff_of_true (refusesOr_fail _ _) (longEnough_none files filename n hfile)
  | some content =>
    dsimp only
    rw [pure_bind, refusesOr_pure, hkey, longEnough_some files filename n content hfile]
    exact loadedKey_holds_iff n files filename content hfile c

/-- Two files behind the byte loop. The secret one is opened first, and a file that
does not open refuses the pair whatever the other holds. -/
theorem loadKeyPair_refusesOr {β : Type} (files : Files) (filenamePk filenameSk : String)
    (c : UInt8) (rawPk : BoxPublicKey) (rawSk : BoxSecretKey)
    (f : BoxPublicKey × BoxSecretKey → β) (keys : β → BoxPublicKey × BoxSecretKey)
    (hkeys : ∀ k, keys (f k) = k) :
    RefusesOr (do let k ← loadKeyPair files filenamePk filenameSk c rawPk rawSk; pure (f k))
      (fun b => HoldsPrefix files filenamePk (keys b).1 ∧ HoldsPrefix files filenameSk (keys b).2) ↔
    files filenamePk = none ∨ files filenameSk = none ∨
      (LongEnough files filenamePk cryptoBoxPUBLICKEYBYTES ∧
        LongEnough files filenameSk cryptoBoxSECRETKEYBYTES) := by
  rw [loadKeyPair, loadKey_eq _ (by decide)]
  -- the constructor stops at the first file that does not open
  cases hsk : files filenameSk with
  | none =>
    dsimp only
    rw [Run.fail_bind, Run.fail_bind]
    exact iff_of_true (refusesOr_fail _ _) (Or.inr (Or.inl rfl))
  | some contentSk =>
    dsimp only
    rw [pure_bind, loadKey_eq _ (by decide)]
    cases hpk : files filenamePk with
    | none =>
      dsimp only
      rw [Run.fail_bind, Run.fail_bind]
      exact iff_of_true (refusesOr_fail _ _) (Or.inl rfl)
    | some contentPk =>
      dsimp only
      rw [pure_bind, pure_bind, refusesOr_pure, hkeys, longEnough_some _ _ _ contentPk hpk,
        longEnough_some _ _ _ contentSk hsk, loadedKey_holds_iff _ _ _ contentPk hpk,
        loadedKey_holds_iff _ _ _ contentSk hsk]
      simp only [reduceCtorEq, false_or]

/-- The bulk read never leaves a key with a byte that was not in the file. -/
theorem readKey_refusesOr {β : Type} (n : ℕ) (files : Files)
    (filename missing tooShort : String) (f : Vector UInt8 n → β) (key : β → Vector UInt8 n)
    (hkey : ∀ k, key (f k) = k) :
    RefusesOr (do let k ← readKey n files filename missing tooShort; pure (f k))
      (fun b => HoldsPrefix files filename (key b)) := by
  rw [readKey]
  cases hfile : files filename with
  | none =>
    dsimp only
    rw [Run.fail_bind]
    exact refusesOr_fail _ _
  | some content =>
    dsimp only
    cases hread : arrayOf n content with
    | none =>
      dsimp only
      rw [Run.fail_bind]
      exact refusesOr_fail _ _
    | some k =>
      obtain ⟨hlen,htake⟩ := (arrayOf_eq_some_iff n content k).mp hread
      dsimp only
      rw [pure_bind, refusesOr_pure, hkey]
      exact ⟨content,hfile,hlen,htake.symm⟩

/-- The six constructors: the KEM ones always load exactly or refuse, the others do
so unless a file is too short while every file opens. -/
theorem key_files_exact_iff (S : Sodium) (files : Files) (filename filename' : String)
    (c : UInt8) (rawKey : SecretboxKey) (rawPk : BoxPublicKey) (rawSk : BoxSecretKey) :
    (RefusesOr (encryptSecret files filename c rawKey)
        (fun b => HoldsPrefix files filename b.dKey) ↔
      LongEnough files filename cryptoSecretboxKEYBYTES) ∧
    (RefusesOr (decryptSecret files filename c rawKey)
        (fun b => HoldsPrefix files filename b.dKey) ↔
      LongEnough files filename cryptoSecretboxKEYBYTES) ∧
    (RefusesOr (encryptPublic files filename filename' c rawPk rawSk)
        (fun b => HoldsPrefix files filename b.dPk ∧ HoldsPrefix files filename' b.dSk) ↔
      files filename = none ∨ files filename' = none ∨
        (LongEnough files filename cryptoBoxPUBLICKEYBYTES ∧
          LongEnough files filename' cryptoBoxSECRETKEYBYTES)) ∧
    (RefusesOr (decryptPublic files filename filename' c rawPk rawSk)
        (fun b => HoldsPrefix files filename b.dPk ∧ HoldsPrefix files filename' b.dSk) ↔
      files filename = none ∨ files filename' = none ∨
        (LongEnough files filename cryptoBoxPUBLICKEYBYTES ∧
          LongEnough files filename' cryptoBoxSECRETKEYBYTES)) ∧
    RefusesOr (encryptKem S files filename) (fun b => HoldsPrefix files filename b.dPk) ∧
    RefusesOr (decryptKem S files filename) (fun b => HoldsPrefix files filename b.dSk) := by
  refine ⟨?_,?_,?_,?_,?_,?_⟩
  · exact loadKey_refusesOr _ (by decide) files filename _ c rawKey
      (fun k => (⟨filename,k⟩ : EncryptSecret)) EncryptSecret.dKey (fun _ => rfl)
  · exact loadKey_refusesOr _ (by decide) files filename _ c rawKey
      (fun k => (⟨filename,k⟩ : DecryptSecret)) DecryptSecret.dKey (fun _ => rfl)
  · exact loadKeyPair_refusesOr files filename filename' c rawPk rawSk
      (fun k => (⟨filename,filename',k.1,k.2⟩ : EncryptPublic)) (fun b => (b.dPk,b.dSk))
      (fun _ => rfl)
  · exact loadKeyPair_refusesOr files filename filename' c rawPk rawSk
      (fun k => (⟨filename,filename',k.1,k.2⟩ : DecryptPublic)) (fun b => (b.dPk,b.dSk))
      (fun _ => rfl)
  · exact readKey_refusesOr _ files filename _ _ (fun k => (⟨filename,k⟩ : EncryptKem S))
      EncryptKem.dPk (fun _ => rfl)
  · exact readKey_refusesOr _ files filename _ _ (fun k => (⟨filename,k⟩ : DecryptKem S))
      DecryptKem.dSk (fun _ => rfl)

/-- A key file of one byte makes a block whose key is that byte 32 times. -/
theorem short_key_file_loaded :
    let files : Files := fun _ => some [7]
    (encryptSecret files "key" 0 (Vector.replicate 32 0)).result =
        .ok ⟨"key",Vector.replicate 32 7⟩ ∧
      ¬RefusesOr (encryptSecret files "key" 0 (Vector.replicate 32 0))
        (fun b => HoldsPrefix files "key" b.dKey) := by
  intro files
  have hkey : loadedKey cryptoSecretboxKEYBYTES [7] 0 = Vector.replicate 32 7 := by decide
  have hblock : encryptSecret files "key" 0 (Vector.replicate 32 0) =
      pure ⟨"key",Vector.replicate 32 7⟩ := by
    rw [encryptSecret, loadKey_eq _ (by decide), ← hkey]
    rfl
  refine ⟨?_,?_⟩
  · rw [hblock, Run.result_pure]
  · rw [hblock, refusesOr_pure]
    intro h
    obtain ⟨content,hfile,hlen,hbytes⟩ := h
    have hcontent : content = [7] := (Option.some.inj hfile).symm
    rw [hcontent] at hlen
    exact absurd hlen (by decide)

end GrNacl
