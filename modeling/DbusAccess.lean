import DbusAccess.Artifacts.PolicyStates
import DbusAccess.Proofs.CallerIds
import DbusAccess.Proofs.CredRoundTrip
import DbusAccess.Proofs.NameOwner
import DbusAccess.Proofs.Negation
import DbusAccess.Proofs.NumericIds
import DbusAccess.Proofs.PeerLifetime
import DbusAccess.Proofs.PolicyDecision
import DbusAccess.Proofs.PolicyEquality
import DbusAccess.Proofs.PolicyLanguage
import DbusAccess.Proofs.ProcMemory
import DbusAccess.Proofs.SelfShared
import DbusAccess.Proofs.PolicyTexts
import DbusAccess.Proofs.Rendering
import DbusAccess.Proofs.QuotedWords
import DbusAccess.Proofs.NullExpressions
import DbusAccess.Proofs.QuotedStrings
import DbusAccess.Proofs.VersionNumbers
import DbusAccess.Proofs.IdentityTerms
import DbusAccess.Proofs.TermPlaces
import DbusAccess.Proofs.NamedIds
import DbusAccess.Proofs.CredNumbers
import DbusAccess.Proofs.CredBounds
import DbusAccess.Proofs.CredMemory
import DbusAccess.Lib.Separation
import DbusAccess.Lib.EffectfulParser
import DbusAccess.Lib.LinkedLists
import DbusAccess.Spec.Blocks
import DbusAccess.Spec.ParserMemory
import DbusAccess.Spec.PolicyMemory
import DbusAccess.Proofs.PolicyMemory
import DbusAccess.Proofs.ParserEffects
import DbusAccess.Proofs.PolicyClients
import DbusAccess.Lib.Timers
import DbusAccess.Proofs.DbusCreds
import DbusAccess.Proofs.Timing
import DbusAccess.Proofs.Callers
import DbusAccess.Proofs.PolicyThreads
import DbusAccess.Proofs.CacheHistory
