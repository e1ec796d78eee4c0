import GrNacl.MessageBlocks
import GrNacl.MessageChains
import GrNacl.SodiumInstance

/-! The KEM blocks beside the secret-key blocks. Once the shared secret is there, both
pairs of handlers do the same with it. -/
namespace GrNacl
set_option autoImplicit false

open EffectTrace CountedLoop

namespace Decryptor

variable {S : Sodium}

end Decryptor

end GrNacl
