import PlmCore.Cad.Completeness
import PlmCore.Cad.Import
import PlmCore.Cad.ImportPhases
import PlmCore.Cad.PsmCalls
import PlmCore.CadParser.BomNodes
import PlmCore.CadParser.ConvertPool
import PlmCore.CadParser.GlbWriter
import PlmCore.CadParser.NauoMatrix
import PlmCore.CadParser.OnDemandGeometry
import PlmCore.CadParser.RecordTexts
import PlmCore.CadParser.ScanReading
import PlmCore.CadParser.Segmentation
import PlmCore.CadParser.SplitParts
import PlmCore.CadParser.SplitWorkers
import PlmCore.CadParser.StepArguments
import PlmCore.CadParser.StepFile
import PlmCore.CadParser.StepScan
import PlmCore.Dst.Authz
import PlmCore.Dst.DataService
import PlmCore.Dst.DataServiceRuns
import PlmCore.Dst.Multipart
import PlmCore.Dst.MultipartForm
import PlmCore.Dst.MultipartHeader
import PlmCore.Lib.BijectiveNumeral
import PlmCore.Lib.Commented
import PlmCore.Lib.Cuts
import PlmCore.Lib.Delimited
import PlmCore.Lib.DependencySort
import PlmCore.Lib.Descent
import PlmCore.Lib.Distance
import PlmCore.Lib.Forest
import PlmCore.Lib.Framing
import PlmCore.Lib.JavaText
import PlmCore.Lib.JsObject
import PlmCore.Lib.JsText
import PlmCore.Lib.NamedWalk
import PlmCore.Lib.Nesting
import PlmCore.Lib.Occurrence
import PlmCore.Lib.Overlay
import PlmCore.Lib.PathPattern
import PlmCore.Lib.PercentCoding
import PlmCore.Lib.RecursiveQuery
import PlmCore.Lib.Rows
import PlmCore.Lib.Run
import PlmCore.Lib.Search
import PlmCore.Lib.Separated
import PlmCore.Lib.Subject
import PlmCore.Lib.Txn
import PlmCore.Lib.Unfolding
import PlmCore.Lib.UrlPath
import PlmCore.Lib.Utf8
import PlmCore.Lib.Walk
import PlmCore.Lib.Waves
import PlmCore.Platform.Action
import PlmCore.Platform.Agreement
import PlmCore.Platform.AuthFilter
import PlmCore.Platform.Authz
import PlmCore.Platform.CatalogDb
import PlmCore.Platform.CatalogDbSteps
import PlmCore.Platform.CatalogIdempotence
import PlmCore.Platform.CatalogRegistration
import PlmCore.Platform.CatalogRegistrationRuns
import PlmCore.Platform.ConfigCache
import PlmCore.Platform.Convergence
import PlmCore.Platform.DerivedCaches
import PlmCore.Platform.Encoding
import PlmCore.Platform.Enforcement
import PlmCore.Platform.GuardEvaluation
import PlmCore.Platform.Jwt
import PlmCore.Platform.JwtAgreement
import PlmCore.Platform.JwtClaims
import PlmCore.Platform.Listeners
import PlmCore.Platform.NatsDelivery
import PlmCore.Platform.NatsReader
import PlmCore.Platform.OperationTokens
import PlmCore.Platform.PolicyCheck
import PlmCore.Platform.Propagation
import PlmCore.Platform.Registry
import PlmCore.Platform.RegistryConvergence
import PlmCore.Platform.SnapshotBuilder
import PlmCore.Platform.Vault
import PlmCore.Platform.WrapperChain
import PlmCore.Pno.Admins
import PlmCore.Pno.Basket
import PlmCore.Pno.Catalog
import PlmCore.Pno.CatalogBatch
import PlmCore.Pno.CatalogOutline
import PlmCore.Pno.DefinitionHash
import PlmCore.Pno.GrantShape
import PlmCore.Pno.GrantText
import PlmCore.Pno.Grants
import PlmCore.Pno.Net
import PlmCore.Pno.Preferences
import PlmCore.Pno.ProjectSpaces
import PlmCore.Pno.Reregistration
import PlmCore.Pno.ScopeForest
import PlmCore.Pno.Scopes
import PlmCore.Pno.Soundness
import PlmCore.Pno.SpaceHierarchy
import PlmCore.Pno.TagIsolation
import PlmCore.Pno.UserContext
import PlmCore.Psa.AttributeMerge
import PlmCore.Psa.LifecycleCopy
import PlmCore.Psa.NodeTypes
import PlmCore.Psa.Schema
import PlmCore.Psa.ValidatorKeys
import PlmCore.Psm.Annotation
import PlmCore.Psm.AttributeValidators
import PlmCore.Psm.Authoring
import PlmCore.Psm.Baseline
import PlmCore.Psm.BaselineComplete
import PlmCore.Psm.BaselineWalk
import PlmCore.Psm.CascadeCalls
import PlmCore.Psm.CascadeGraph
import PlmCore.Psm.CascadeLoop
import PlmCore.Psm.CascadeOrder
import PlmCore.Psm.CascadeReach
import PlmCore.Psm.CascadeTermination
import PlmCore.Psm.CascadeView
import PlmCore.Psm.Collapse
import PlmCore.Psm.CollapseEffect
import PlmCore.Psm.CollapseObserved
import PlmCore.Psm.Config
import PlmCore.Psm.Discard
import PlmCore.Psm.Domain
import PlmCore.Psm.EdgeIndex
import PlmCore.Psm.EdgeIndexRuns
import PlmCore.Psm.EnumMembership
import PlmCore.Psm.Fingerprint
import PlmCore.Psm.FingerprintText
import PlmCore.Psm.Immutability
import PlmCore.Psm.Isolated
import PlmCore.Psm.KeyMeaning
import PlmCore.Psm.KeyRoundTrip
import PlmCore.Psm.Lifecycle
import PlmCore.Psm.LifecycleEffect
import PlmCore.Psm.Link
import PlmCore.Psm.LinkIdentity
import PlmCore.Psm.Lock
import PlmCore.Psm.LockCascade
import PlmCore.Psm.LockedAttributes
import PlmCore.Psm.MetaModel
import PlmCore.Psm.MethodRule
import PlmCore.Psm.Node
import PlmCore.Psm.NodeCreation
import PlmCore.Psm.NodeEffect
import PlmCore.Psm.NodeIdentity
import PlmCore.Psm.Numbering
import PlmCore.Psm.Outside
import PlmCore.Psm.ParentLinks
import PlmCore.Psm.PartialCommit
import PlmCore.Psm.Purge
import PlmCore.Psm.Release
import PlmCore.Psm.Rollback
import PlmCore.Psm.Schema
import PlmCore.Psm.SelfResolver
import PlmCore.Psm.SignatureGuards
import PlmCore.Psm.StaleCleanup
import PlmCore.Psm.Store
import PlmCore.Psm.Transaction
import PlmCore.Psm.TransactionEffect
import PlmCore.Psm.Validation
import PlmCore.Psm.ValueScope
import PlmCore.Psm.Version
import PlmCore.Psm.VersionChain
import PlmCore.Psm.Wrapper
import PlmCore.Search.Confinement
import PlmCore.Search.NodeStore
import PlmCore.Search.Scope
import PlmCore.Search.SearchController
import PlmCore.Search.Traversal
import PlmCore.Shared.Outbox
import PlmCore.Shared.OutboxOrder
import PlmCore.Shared.OutboxSafety
import PlmCore.Spe.Gate
import PlmCore.Spe.Gateway
import PlmCore.Spe.Isolation
import PlmCore.Spe.Tokens
import PlmCore.WebDav.Hrefs
import PlmCore.WebDav.Tree
import PlmCore.Ws.Relay
