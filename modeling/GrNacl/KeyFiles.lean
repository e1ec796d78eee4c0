import GrNacl.DecryptHandlers

/-! The key files and the constructors that read them. The secret-key and public-key
blocks read byte by byte and never look at the stream; the KEM blocks read in bulk
and check it. -/
namespace GrNacl
set_option autoImplicit false

open EffectTrace CountedLoop

/-- What can be opened for reading under a name, and its content. A name stands for its
file: distinct names are taken to be distinct files, so no link, no second spelling of one
path, and no NUL at which c_str() would cut a name off. -/
abbrev Files := String → Option Bytes

/-- `istream::get(char&)`: at the end of the file the argument stays as it is. -/
def streamGet (rest : Bytes) (c : UInt8) : Bytes × UInt8 :=
  match rest with
  | [] => ([],c)
  | b :: rest => (rest,b)

structure KeyStream (n : ℕ) where
  rest : Bytes
  c : UInt8
  key : Vector UInt8 n

def storeArray {n : ℕ} (v : Vector UInt8 n) (k : ℕ) (b : UInt8) : Handler (Vector UInt8 n) :=
  if h : k < n then pure (v.set k b h) else Run.fail .undefinedBehaviour

/-- One round `file.get(c); d_key[k] = c;`. -/
def readRound {n : ℕ} (k : ℕ) (s : KeyStream n) : Handler (KeyStream n) := do
  let (rest, c) := streamGet s.rest s.c
  let key ← storeArray s.key k c
  pure ⟨rest,c,key⟩

/-- Opening one file and reading it byte by byte. The local c and the new key buffer
come with arbitrary contents; c is left as the loop leaves it. -/
def loadKey (n : ℕ) (files : Files) (filename missing : String) (c : UInt8)
    (raw : Vector UInt8 n) : Handler (UInt8 × Vector UInt8 n) :=
  match files filename with
  | none => Run.fail (.runtimeError missing)
  -- the state of the stream is never asked for
  | some content => do
    let s ← countUpTo intCounter .undefinedBehaviour n ⟨content,c,raw⟩ readRound
    pure (s.c,s.key)

/-- Opening one file and the bulk read of the KEM blocks. -/
def readKey (n : ℕ) (files : Files) (filename missing tooShort : String) :
    Handler (Vector UInt8 n) :=
  match files filename with
  | none => Run.fail (.runtimeError missing)
  | some content =>
    match arrayOf n content with
    | some key => pure key
    | none => Run.fail (.runtimeError tooShort)

def encryptSecret (files : Files) (filenameKey : String) (c : UInt8) (raw : SecretboxKey) :
    Handler EncryptSecret := do
  let (_, dKey) ← loadKey cryptoSecretboxKEYBYTES files filenameKey "Key file not found." c raw
  pure ⟨filenameKey,dKey⟩

def decryptSecret (files : Files) (filenameKey : String) (c : UInt8) (raw : SecretboxKey) :
    Handler DecryptSecret := do
  let (_, dKey) ← loadKey cryptoSecretboxKEYBYTES files filenameKey "Key file not found." c raw
  pure ⟨filenameKey,dKey⟩

/-- Both key files of a public-key block, the secret one first. -/
def loadKeyPair (files : Files) (filenamePk filenameSk : String) (c : UInt8)
    (rawPk : BoxPublicKey) (rawSk : BoxSecretKey) : Handler (BoxPublicKey × BoxSecretKey) := do
  let (c, dSk) ← loadKey cryptoBoxSECRETKEYBYTES files filenameSk "Secret-key file not found." c
    rawSk
  let (_, dPk) ← loadKey cryptoBoxPUBLICKEYBYTES files filenamePk "Public-key file not found." c
    rawPk
  pure (dPk,dSk)

def encryptPublic (files : Files) (filenamePk filenameSk : String) (c : UInt8)
    (rawPk : BoxPublicKey) (rawSk : BoxSecretKey) : Handler EncryptPublic := do
  let (dPk, dSk) ← loadKeyPair files filenamePk filenameSk c rawPk rawSk
  pure ⟨filenamePk,filenameSk,dPk,dSk⟩

def decryptPublic (files : Files) (filenamePk filenameSk : String) (c : UInt8)
    (rawPk : BoxPublicKey) (rawSk : BoxSecretKey) : Handler DecryptPublic := do
  let (dPk, dSk) ← loadKeyPair files filenamePk filenameSk c rawPk rawSk
  pure ⟨filenamePk,filenameSk,dPk,dSk⟩

def encryptKem (S : Sodium) (files : Files) (filenamePk : String) : Handler (EncryptKem S) := do
  let dPk ← readKey S.cryptoKemPUBLICKEYBYTES files filenamePk "Public-key file not found."
    "Public-key file is too short for KEM key."
  pure ⟨filenamePk,dPk⟩

def decryptKem (S : Sodium) (files : Files) (filenameSk : String) : Handler (DecryptKem S) := do
  let dSk ← readKey S.cryptoKemSECRETKEYBYTES files filenameSk "Secret-key file not found."
    "Secret-key file is too short for KEM key."
  pure ⟨filenameSk,dSk⟩

/-! What the byte loop leaves in the key. -/

/-- The value of c once j bytes were asked for. -/
def lastRead (content : Bytes) (c : UInt8) (j : ℕ) : UInt8 := (content.take j).getLast?.getD c

def loadedKey (n : ℕ) (content : Bytes) (c : UInt8) : Vector UInt8 n :=
  Vector.ofFn (fun i => lastRead content c (i.1+1))

theorem streamGet_drop (content : Bytes) (c : UInt8) (j : ℕ) :
    streamGet (content.drop j) (lastRead content c j) =
      (content.drop (j+1),lastRead content c (j+1)) := by
  by_cases hj : j < content.length
  · have hnext : lastRead content c (j+1) = content[j] := by
      rw [lastRead, ← List.take_append_getElem hj, List.getLast?_append]
      rfl
    rw [List.drop_eq_getElem_cons hj, streamGet, hnext]
  · -- past the end nothing moves
    have hrest : content.drop j = [] := List.drop_eq_nil_of_le (by omega)
    have hrest' : content.drop (j+1) = [] := List.drop_eq_nil_of_le (by omega)
    have hlast : lastRead content c (j+1) = lastRead content c j := by
      rw [lastRead, lastRead, List.take_of_length_le (by omega), List.take_of_length_le (by omega)]
    rw [hrest, hrest', hlast, streamGet]

/-- The loop state before round j: the first j bytes of the key are written. -/
def streamAt (n : ℕ) (content : Bytes) (c : UInt8) (raw : Vector UInt8 n) (j : ℕ) : KeyStream n :=
  ⟨content.drop j,lastRead content c j,
    Vector.ofFn (fun i => if i.1 < j then lastRead content c (i.1+1) else raw.get i)⟩

theorem readRound_streamAt (n : ℕ) (content : Bytes) (c : UInt8) (raw : Vector UInt8 n) (j : ℕ)
    (hj : j < n) :
    readRound j (streamAt n content c raw j) = pure (streamAt n content c raw (j+1)) := by
  simp only [readRound, streamAt, streamGet_drop, storeArray, hj, ↓reduceDIte, pure_bind]
  congr 2
  apply Vector.ext
  intro i hi
  rw [Vector.getElem_set]
  -- round j writes position j and no other
  by_cases hij : j = i
  · subst hij
    simp only [↓reduceIte, Vector.getElem_ofFn, Nat.lt_succ_self]
  · have hiff : i < j+1 ↔ i < j := by omega
    simp only [hij, ↓reduceIte, Vector.getElem_ofFn, hiff]

theorem streamAt_zero (n : ℕ) (content : Bytes) (c : UInt8) (raw : Vector UInt8 n) :
    streamAt n content c raw 0 = ⟨content,c,raw⟩ := by
  rw [streamAt, List.drop_zero]
  congr 1
  apply Vector.ext
  intro i hi
  simp only [Nat.not_lt_zero, ↓reduceIte, Vector.getElem_ofFn]
  rfl

theorem streamAt_end (n : ℕ) (content : Bytes) (c : UInt8) (raw : Vector UInt8 n) :
    (streamAt n content c raw n).key = loadedKey n content c := by
  apply Vector.ext
  intro i hi
  simp only [streamAt, loadedKey, hi, ↓reduceIte, Vector.getElem_ofFn]

/-- The byte loop on a file that opens never fails, whatever the file holds. -/
theorem loadKey_eq (n : ℕ) (hn : n ≤ 2147483647) (files : Files) (filename missing : String)
    (c : UInt8) (raw : Vector UInt8 n) :
    loadKey n files filename missing c raw =
      match files filename with
      | none => Run.fail (.runtimeError missing)
      | some content => pure (lastRead content c n,loadedKey n content c) := by
  unfold loadKey
  cases files filename with
  | none => rfl
  | some content =>
    have hloop := countUpTo_trajectory intCounter Fault.undefinedBehaviour readRound
      (streamAt n content c raw) n (readRound_streamAt n content c raw)
    rw [streamAt_zero, if_pos ((covers_some _ _).mpr hn)] at hloop
    dsimp only
    rw [hloop, pure_bind, streamAt_end]
    rfl

/-- A file that is long enough is loaded exactly. -/
theorem loadedKey_toList (n : ℕ) (content : Bytes) (c : UInt8) (h : n ≤ content.length) :
    (loadedKey n content c).toList = content.take n := by
  apply List.ext_getElem
  · rw [Vector.length_toList, List.length_take]
    omega
  · intro i hi hi'
    have hin : i < content.length := by
      rw [List.length_take] at hi'
      omega
    have hlast : lastRead content c (i+1) = content[i] := by
      rw [lastRead, ← List.take_append_getElem hin, List.getLast?_append]
      rfl
    simp only [loadedKey, Vector.getElem_toList, Vector.getElem_ofFn, List.getElem_take, hlast]

-- past the end of a short file the key repeats its last byte
example : loadedKey 4 [1,2] 0 = #v[1,2,2,2] := by decide

end GrNacl
