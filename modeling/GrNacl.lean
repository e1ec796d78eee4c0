import GrNacl.EffectTrace
import GrNacl.MessageNetwork
import GrNacl.TrafficLoad
import GrNacl.NodesInARow
import GrNacl.IdealChannels
import GrNacl.KeystreamMask
import GrNacl.LastWrite
import GrNacl.CountedLoop
import GrNacl.ShiftRegister
import GrNacl.SodiumInterface
import GrNacl.PmtValues
import GrNacl.SodiumInstance
import GrNacl.TaggedStream
import GrNacl.NonceRotation
import GrNacl.StreamFreshness
import GrNacl.StreamTraffic
import GrNacl.WorkGuard
import GrNacl.StreamRoundTrip
import GrNacl.MessageFields
import GrNacl.EncryptHandlers
import GrNacl.DecryptHandlers
import GrNacl.Decryptors
import GrNacl.DecryptorRuns
import GrNacl.CanonicalPdus
import GrNacl.KeyFiles
import GrNacl.KeyLoading
import GrNacl.KeyGeneration
import GrNacl.MessageChains
import GrNacl.SecretKeyChain
import GrNacl.PublicKeyChain
import GrNacl.KemChain
import GrNacl.MessageBlocks
import GrNacl.FieldLookup
import GrNacl.KemLayering
import GrNacl.ForeignEntries
import GrNacl.AnyMessages
import GrNacl.PublishedPdus
import GrNacl.Flowgraphs
import GrNacl.Connections
import GrNacl.FlowgraphDelivery
import GrNacl.ActiveAttacker
import GrNacl.ChannelRefinement
import GrNacl.PduOrigin
import GrNacl.KeyHistories
import GrNacl.SecretWiping
import GrNacl.EmptyPayloads
import GrNacl.CopyLoops
import GrNacl.SavedKeys
import GrNacl.PairAtomicity
