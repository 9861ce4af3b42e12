import CanixToolbelt.Effect
import CanixToolbelt.Json
import CanixToolbelt.JsonText
import CanixToolbelt.Operator
import CanixToolbelt.OperatorSafety
import CanixToolbelt.OperatorRecovery
import CanixToolbelt.Review
import CanixToolbelt.ReviewSafety
import CanixToolbelt.ReviewWatch
import CanixToolbelt.Forge
import CanixToolbelt.ForgeMerge
import CanixToolbelt.ForgeChecks
import CanixToolbelt.FileTree
import CanixToolbelt.Evidence
import CanixToolbelt.EvidenceReceiver
import CanixToolbelt.EvidenceExchange
import CanixToolbelt.EvidenceCollection
import CanixToolbelt.EvidenceAgreement
import CanixToolbelt.LinkTree
import CanixToolbelt.Archive
import CanixToolbelt.ArchiveSafety
import CanixToolbelt.ArchiveLinks
import CanixToolbelt.Fallible
import CanixToolbelt.Canonical
import CanixToolbelt.CanonicalText
import CanixToolbelt.Manifest
import CanixToolbelt.Orchestration
import CanixToolbelt.OrchestrationVersions
import CanixToolbelt.ManifestAccounting
import CanixToolbelt.ShortestPaths
import CanixToolbelt.DependencyGraph
import CanixToolbelt.OrchestrationRefresh
import CanixToolbelt.OrchestrationJournal
import CanixToolbelt.OrchestrationRun
import CanixToolbelt.ManifestHistory
import CanixToolbelt.OrchestrationDelivery
import CanixToolbelt.OrchestrationRetirement
import CanixToolbelt.OrchestrationCompletion
import CanixToolbelt.OrchestrationLegacy
import CanixToolbelt.OrchestrationAtomic
import CanixToolbelt.OrchestrationBound
import CanixToolbelt.Protocol
import CanixToolbelt.ProtocolCodec
import CanixToolbelt.Ledger
import CanixToolbelt.Receipt
import CanixToolbelt.Dispatch
import CanixToolbelt.DispatchSafety
import CanixToolbelt.LocalReview
import CanixToolbelt.LocalReviewSafety
import CanixToolbelt.CaddyPlugins
import CanixToolbelt.CaddyVersions
import CanixToolbelt.Capacity
import CanixToolbelt.OrchestrationSelect
import CanixToolbelt.OrchestrationSteady
import CanixToolbelt.OrchestrationRecords
import CanixToolbelt.OrchestrationIdempotence
import CanixToolbelt.JsonSource
import CanixToolbelt.Marker
import CanixToolbelt.Transcript
import CanixToolbelt.ReviewInspect
import CanixToolbelt.ReviewGreptile
import CanixToolbelt.ReviewReceipts
import CanixToolbelt.Snapshots
import CanixToolbelt.Closure
import CanixToolbelt.DirectNetwork
import CanixToolbelt.Numerals
import CanixToolbelt.IpAddr
import CanixToolbelt.DirectRoutes
import CanixToolbelt.Text
import CanixToolbelt.DirectDns
import CanixToolbelt.DirectDispatch
import CanixToolbelt.Utf8
import CanixToolbelt.Substrings
import CanixToolbelt.NixComments
import CanixToolbelt.UnixHttp
import CanixToolbelt.UnixFraming
import CanixToolbelt.Mounts
import CanixToolbelt.Codes
import CanixToolbelt.Preparation
import CanixToolbelt.Glob
import CanixToolbelt.AgentSafety
import CanixToolbelt.Words
import CanixToolbelt.CodexRules
import CanixToolbelt.CodexSafety
import CanixToolbelt.JsonPretty
import CanixToolbelt.Disk
import CanixToolbelt.Qualification
import CanixToolbelt.QualificationSeal
import CanixToolbelt.ScriptRules
import CanixToolbelt.OrchestrationDriver
import CanixToolbelt.OrchestrationDriverSafety
import CanixToolbelt.OrchestrationHistory
import CanixToolbelt.OrchestrationObservation
