import Mathlib.Data.Int.Notation
import Mathlib.Data.List.Basic

/-! The part of libsodium the blocks call, as functions on byte strings. Fixed
arrays of the source are vectors of their declared size. The X-Wing sizes of the
KEM stay parameters. -/
namespace GrNacl
set_option autoImplicit false

abbrev Bytes := List UInt8

abbrev cryptoSecretboxKEYBYTES : ℕ := 32
abbrev cryptoSecretboxNONCEBYTES : ℕ := 24
abbrev cryptoSecretboxMACBYTES : ℕ := 16
abbrev cryptoBoxPUBLICKEYBYTES : ℕ := 32
abbrev cryptoBoxSECRETKEYBYTES : ℕ := 32
abbrev cryptoBoxNONCEBYTES : ℕ := 24
abbrev cryptoBoxMACBYTES : ℕ := 16
abbrev cryptoStreamKEYBYTES : ℕ := 32
abbrev cryptoStreamNONCEBYTES : ℕ := 24
abbrev cryptoKemSHAREDSECRETBYTES : ℕ := 32
abbrev cryptoHashSha3256BYTES : ℕ := 32
abbrev cryptoHashSha3512BYTES : ℕ := 64

abbrev SecretboxKey := Vector UInt8 cryptoSecretboxKEYBYTES
abbrev SecretboxNonce := Vector UInt8 cryptoSecretboxNONCEBYTES
abbrev BoxPublicKey := Vector UInt8 cryptoBoxPUBLICKEYBYTES
abbrev BoxSecretKey := Vector UInt8 cryptoBoxSECRETKEYBYTES
abbrev BoxNonce := Vector UInt8 cryptoBoxNONCEBYTES
abbrev StreamKey := Vector UInt8 cryptoStreamKEYBYTES
abbrev StreamNonce := Vector UInt8 cryptoStreamNONCEBYTES
abbrev SharedSecret := Vector UInt8 cryptoKemSHAREDSECRETBYTES

/-- A call returns its status and the contents of its output buffers. Random
draws made inside the library are an explicit argument. -/
structure Sodium where
  cryptoKemPUBLICKEYBYTES : ℕ
  cryptoKemSECRETKEYBYTES : ℕ
  cryptoKemCIPHERTEXTBYTES : ℕ
  sodiumInit : ℤ
  cryptoSecretboxEasy : Bytes → SecretboxNonce → SecretboxKey → ℤ × Bytes
  cryptoSecretboxOpenEasy : Bytes → SecretboxNonce → SecretboxKey → ℤ × Bytes
  cryptoBoxKeypair : Bytes → BoxPublicKey × BoxSecretKey
  cryptoBoxEasy : Bytes → BoxNonce → BoxPublicKey → BoxSecretKey → ℤ × Bytes
  cryptoBoxOpenEasy : Bytes → BoxNonce → BoxPublicKey → BoxSecretKey → ℤ × Bytes
  cryptoKemKeypair : Bytes →
    ℤ × Vector UInt8 cryptoKemPUBLICKEYBYTES × Vector UInt8 cryptoKemSECRETKEYBYTES
  cryptoKemEnc : Vector UInt8 cryptoKemPUBLICKEYBYTES → Bytes →
    ℤ × Vector UInt8 cryptoKemCIPHERTEXTBYTES × SharedSecret
  cryptoKemDec : Vector UInt8 cryptoKemCIPHERTEXTBYTES → Vector UInt8 cryptoKemSECRETKEYBYTES →
    ℤ × SharedSecret
  cryptoStreamXor : Bytes → StreamNonce → StreamKey → ℤ × Bytes
  cryptoHashSha3256 : Bytes → ℤ × Vector UInt8 cryptoHashSha3256BYTES
  cryptoHashSha3512 : Bytes → ℤ × Vector UInt8 cryptoHashSha3512BYTES
  secretbox_easy_size : ∀ m n k,
    (cryptoSecretboxEasy m n k).2.length = cryptoSecretboxMACBYTES+m.length
  secretbox_open_size : ∀ c n k,
    (cryptoSecretboxOpenEasy c n k).2.length = c.length-cryptoSecretboxMACBYTES
  box_easy_size : ∀ m n pk sk,
    (cryptoBoxEasy m n pk sk).2.length = cryptoBoxMACBYTES+m.length
  box_open_size : ∀ c n pk sk,
    (cryptoBoxOpenEasy c n pk sk).2.length = c.length-cryptoBoxMACBYTES
  stream_xor_size : ∀ m n k, (cryptoStreamXor m n k).2.length = m.length
  -- an array of this size is declared
  kem_ciphertext_fits : cryptoKemCIPHERTEXTBYTES ≤ 9223372036854775807

namespace Sodium

/-- crypto_secretbox_easy succeeds and crypto_secretbox_open_easy inverts it. -/
def SecretboxInverts (S : Sodium) : Prop := ∀ m n k,
  (S.cryptoSecretboxEasy m n k).1 = 0 ∧
    S.cryptoSecretboxOpenEasy (S.cryptoSecretboxEasy m n k).2 n k = (0,m)

/-- The box of one key pair to another is opened with the matching halves. -/
def BoxInverts (S : Sodium) : Prop := ∀ seedA seedB m n,
  let a := S.cryptoBoxKeypair seedA
  let b := S.cryptoBoxKeypair seedB
  (S.cryptoBoxEasy m n b.1 a.2).1 = 0 ∧
    S.cryptoBoxOpenEasy (S.cryptoBoxEasy m n b.1 a.2).2 n a.1 b.2 = (0,m)

/-- Encapsulation to a generated public key succeeds, and the secret half
decapsulates to the same shared secret. -/
def KemAgrees (S : Sodium) : Prop := ∀ seed coins,
  (S.cryptoKemKeypair seed).1 = 0 →
  (S.cryptoKemEnc (S.cryptoKemKeypair seed).2.1 coins).1 = 0 ∧
    S.cryptoKemDec (S.cryptoKemEnc (S.cryptoKemKeypair seed).2.1 coins).2.1
      (S.cryptoKemKeypair seed).2.2 = (0,(S.cryptoKemEnc (S.cryptoKemKeypair seed).2.1 coins).2.2)

/-- Opening succeeds with m on c exactly when c is the encryption of m. -/
def OpensOnlySealed (S : Sodium) : Prop :=
  (∀ c n k m, S.cryptoSecretboxOpenEasy c n k = (0,m) ↔ S.cryptoSecretboxEasy m n k = (0,c)) ∧
  ∀ c n pk sk m, S.cryptoBoxOpenEasy c n pk sk = (0,m) ↔ S.cryptoBoxEasy m n pk sk = (0,c)

def StreamXorSucceeds (S : Sodium) : Prop := ∀ m n k, (S.cryptoStreamXor m n k).1 = 0

/-- crypto_stream_xor returns 0 and adds a keystream fixed by nonce, key and position. -/
def StreamXorKeystream (S : Sodium) : Prop :=
  ∃ keystream : StreamNonce → StreamKey → ℕ → UInt8, ∀ m n k,
    S.cryptoStreamXor m n k = (0,m.mapIdx (fun i b => b ^^^ keystream n k i))

/-- Adding the same keystream twice restores the bytes. -/
theorem stream_xor_cancel (S : Sodium) (h : S.StreamXorKeystream) (m : Bytes) (n : StreamNonce)
    (k : StreamKey) : S.cryptoStreamXor (S.cryptoStreamXor m n k).2 n k = (0,m) := by
  obtain ⟨keystream, hks⟩ := h
  rw [hks, hks]
  congr 1
  apply List.ext_getElem
  · simp only [List.length_mapIdx]
  · intro i hi hi'
    simp only [List.getElem_mapIdx, UInt8.xor_assoc, UInt8.xor_self, UInt8.xor_zero]

end Sodium

end GrNacl
