import GrNacl.SodiumInterface
import Mathlib.Data.List.Basic

/-! A small executable instance of the libsodium interface: a byte keystream, a
checksum as MAC and an exclusive-or key agreement. It has the documented sizes
and inverses, so the hypotheses on the interface can be met together. -/
namespace GrNacl
set_option autoImplicit false

namespace Reference

def keystream (n : StreamNonce) (k : StreamKey) (i : ℕ) : UInt8 :=
  k.get ⟨i%32, Nat.mod_lt _ (by decide)⟩+n.get ⟨i%24, Nat.mod_lt _ (by decide)⟩+UInt8.ofNat i

def streamXor (m : Bytes) (n : StreamNonce) (k : StreamKey) : Bytes :=
  m.mapIdx (fun i b => b ^^^ keystream n k i)

def mac (m : Bytes) (n : StreamNonce) (k : StreamKey) : Bytes :=
  (List.range cryptoSecretboxMACBYTES).map
    (fun i => m.foldl (fun acc b => 31*acc+b) (keystream n k (i+1)))

def sealBytes (m : Bytes) (n : StreamNonce) (k : StreamKey) : Bytes := mac m n k ++ streamXor m n k

def openSealed (c : Bytes) (n : StreamNonce) (k : StreamKey) : ℤ × Bytes :=
  if c = sealBytes (streamXor (c.drop cryptoSecretboxMACBYTES) n k) n k then
    (0,streamXor (c.drop cryptoSecretboxMACBYTES) n k)
  else (-1,List.replicate (c.length-cryptoSecretboxMACBYTES) 0)

/-- The first bytes of a random draw, padded with zeros. -/
def draw (size : ℕ) (seed : Bytes) : Vector UInt8 size := Vector.ofFn (fun i => seed.getD i 0)

def sharedKey (pk : BoxPublicKey) (sk : BoxSecretKey) : SecretboxKey :=
  Vector.zipWith (fun a b => a ^^^ b) pk sk

def encapsulated {size : ℕ} (half : Vector UInt8 size) (ct : Vector UInt8 1120) : SharedSecret :=
  Vector.ofFn (fun i => half.toList.getD i 0 ^^^ ct.toList.getD i 0)

def digest (size : ℕ) (m : Bytes) : Vector UInt8 size :=
  Vector.ofFn (fun i => m.foldl (fun acc b => 31*acc+b) (UInt8.ofNat i))

@[simp] theorem streamXor_length (m : Bytes) (n : StreamNonce) (k : StreamKey) :
    (streamXor m n k).length = m.length := List.length_mapIdx

@[simp] theorem mac_length (m : Bytes) (n : StreamNonce) (k : StreamKey) :
    (mac m n k).length = cryptoSecretboxMACBYTES := by
  rw [mac, List.length_map, List.length_range]

theorem sealBytes_length (m : Bytes) (n : StreamNonce) (k : StreamKey) :
    (sealBytes m n k).length = cryptoSecretboxMACBYTES+m.length := by
  rw [sealBytes, List.length_append, mac_length, streamXor_length]

theorem openSealed_length (c : Bytes) (n : StreamNonce) (k : StreamKey) :
    (openSealed c n k).2.length = c.length-cryptoSecretboxMACBYTES := by
  unfold openSealed
  split <;> simp

theorem streamXor_cancel (m : Bytes) (n : StreamNonce) (k : StreamKey) :
    streamXor (streamXor m n k) n k = m := by
  apply List.ext_getElem
  · simp
  · intro i hi hi'
    simp only [streamXor, List.getElem_mapIdx, UInt8.xor_assoc, UInt8.xor_self, UInt8.xor_zero]

theorem openSealed_sealBytes (m : Bytes) (n : StreamNonce) (k : StreamKey) :
    openSealed (sealBytes m n k) n k = (0,m) := by
  -- behind the MAC stands the masked message
  have hdrop : (sealBytes m n k).drop cryptoSecretboxMACBYTES = streamXor m n k := by
    rw [sealBytes, ← mac_length m n k, List.drop_left]
  simp only [openSealed, hdrop, streamXor_cancel, ↓reduceIte]

theorem openSealed_agreed (m : Bytes) (n : StreamNonce) (a b : Vector UInt8 32) :
    openSealed (sealBytes m n (sharedKey b a)) n (sharedKey a b) = (0,m) := by
  rw [sharedKey, sharedKey, Vector.zipWith_comm_of_comm (fun x y => UInt8.xor_comm x y)]
  exact openSealed_sealBytes m n _

theorem openSealed_eq_iff (c : Bytes) (n : StreamNonce) (k : StreamKey) (m : Bytes) :
    openSealed c n k = (0,m) ↔ sealBytes m n k = c := by
  constructor
  · intro h
    unfold openSealed at h
    split at h
    · next hc => rw [hc, ← (Prod.mk.injEq _ _ _ _).mp h |>.2]
    · exact absurd (congrArg Prod.fst h) (show (-1:ℤ) ≠ 0 by decide)
  · rintro rfl
    exact openSealed_sealBytes m n k

theorem encapsulated_draw (seed : Bytes) (ct : Vector UInt8 1120) :
    encapsulated (draw 1216 seed) ct = encapsulated (draw 32 seed) ct := by
  apply Vector.ext
  intro i hi
  have hi' : i < 32 := hi
  simp [encapsulated, draw, List.getD_eq_getElem?_getD, show i < 1216 from by omega]

end Reference

open Reference in
def referenceSodium : Sodium where
  cryptoKemPUBLICKEYBYTES := 1216
  cryptoKemSECRETKEYBYTES := 32
  cryptoKemCIPHERTEXTBYTES := 1120
  sodiumInit := 0
  cryptoSecretboxEasy m n k := (0,sealBytes m n k)
  cryptoSecretboxOpenEasy c n k := openSealed c n k
  cryptoBoxKeypair seed := (draw 32 seed,draw 32 seed)
  cryptoBoxEasy m n pk sk := (0,sealBytes m n (sharedKey pk sk))
  cryptoBoxOpenEasy c n pk sk := openSealed c n (sharedKey pk sk)
  cryptoKemKeypair seed := (0,draw 1216 seed,draw 32 seed)
  cryptoKemEnc pk coins := (0,draw 1120 coins,encapsulated pk (draw 1120 coins))
  cryptoKemDec ct sk := (0,encapsulated sk ct)
  cryptoStreamXor m n k := (0,streamXor m n k)
  cryptoHashSha3256 m := (0,digest 32 m)
  cryptoHashSha3512 m := (0,digest 64 m)
  secretbox_easy_size := sealBytes_length
  secretbox_open_size := openSealed_length
  box_easy_size m n _ _ := sealBytes_length m n _
  box_open_size c n _ _ := openSealed_length c n _
  stream_xor_size := streamXor_length
  kem_ciphertext_fits := by decide

theorem reference_secretbox_inverts : referenceSodium.SecretboxInverts :=
  fun m n k => ⟨rfl, Reference.openSealed_sealBytes m n k⟩

theorem reference_box_inverts : referenceSodium.BoxInverts :=
  fun seedA seedB m n =>
    ⟨rfl, Reference.openSealed_agreed m n (Reference.draw 32 seedA) (Reference.draw 32 seedB)⟩

theorem reference_kem_agrees : referenceSodium.KemAgrees :=
  fun seed coins _ => ⟨rfl, congrArg (fun ss => ((0:ℤ),ss))
    (Reference.encapsulated_draw seed (Reference.draw 1120 coins)).symm⟩

theorem reference_opens_only_sealed : referenceSodium.OpensOnlySealed := by
  have hpair (a b : Bytes) : ((0:ℤ),a) = (0,b) ↔ a = b := by simp
  constructor
  · intro c n k m
    exact (Reference.openSealed_eq_iff c n k m).trans (hpair _ _).symm
  · intro c n pk sk m
    exact (Reference.openSealed_eq_iff c n (Reference.sharedKey pk sk) m).trans (hpair _ _).symm

theorem reference_stream_xor_succeeds : referenceSodium.StreamXorSucceeds := fun _ _ _ => rfl

theorem reference_stream_xor_keystream : referenceSodium.StreamXorKeystream :=
  ⟨Reference.keystream, fun _ _ _ => rfl⟩

end GrNacl
