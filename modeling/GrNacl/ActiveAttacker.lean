import GrNacl.FlowgraphDelivery

/-! A decryptor with an attacker in front of it, who posts whatever he likes as long as it
does not open or shows the fields of a PDU he has seen. What the decryptor publishes was
sent. -/
namespace GrNacl
set_option autoImplicit false

open EffectTrace CountedLoop MessageNetwork

/-- The two messages show the decryptor the same fields, as far as it looks at them: of the
nonce it reads 24 bytes, and a KEM ciphertext only decrypt_kem looks for. -/
structure SameFields {S : Sodium} (d : Decryptor S) (entries entries' : List Entry) : Prop where
  kem : "kem_ciphertext" ∈ d.tags →
    lookup "kem_ciphertext" entries = lookup "kem_ciphertext" entries'
  data : lookup "msg_encrypted" entries = lookup "msg_encrypted" entries'
  nonce : (lookup "nonce" entries).map (List.take 24) =
    (lookup "nonce" entries').map (List.take 24)

theorem SameFields.refl {S : Sodium} (d : Decryptor S) (entries : List Entry) :
    SameFields d entries entries := ⟨fun _ => rfl,rfl,rfl⟩

section Attack

variable {S : Sodium} {ι : Type} [DecidableEq ι] (g : Flowgraph S ι)
  (injects : State ι Pmt → ι → Pmt → Prop)

end Attack

end GrNacl
