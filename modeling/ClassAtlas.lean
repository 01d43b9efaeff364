import ClassAtlas.Pipeline.Codec
import ClassAtlas.Signature.Codec
import ClassAtlas.Snapshot.Build
import ClassAtlas.Snapshot.Storage
import ClassAtlas.Proofs.Remembering
import ClassAtlas.Proofs.Signature.RoundTrip
import ClassAtlas.Proofs.EntityIntegrity
import ClassAtlas.Proofs.StepCalls
import ClassAtlas.Proofs.PropertyValues
import ClassAtlas.Proofs.SnapshotViews
import ClassAtlas.Proofs.RunSettings
import ClassAtlas.Proofs.ScopeKinds
import ClassAtlas.Proofs.Measurements
import ClassAtlas.Proofs.FailurePaths
import ClassAtlas.Proofs.Resolution
import ClassAtlas.Proofs.QueryOrder
import ClassAtlas.Proofs.IndexIdentity
import ClassAtlas.Proofs.Json.Lexing
import ClassAtlas.Proofs.Json.Reading
import ClassAtlas.Proofs.Json.Decoding
import ClassAtlas.Proofs.PipelineText
import ClassAtlas.Proofs.DocumentForms
import ClassAtlas.Proofs.Erasure
import ClassAtlas.Proofs.RelatedPairs
import ClassAtlas.Proofs.InheritedCalls
import ClassAtlas.Proofs.Registration
import ClassAtlas.Proofs.Specialization
import ClassAtlas.Proofs.StubClasses
import ClassAtlas.Proofs.ClassRequests
import ClassAtlas.Proofs.Signature.Scoping
import ClassAtlas.Proofs.Associations
import ClassAtlas.Proofs.InheritedMembers
import ClassAtlas.Proofs.MadeUpClasses
import ClassAtlas.Proofs.TypeMemory
import ClassAtlas.Proofs.Filtering
import ClassAtlas.Proofs.Supertypes
import ClassAtlas.Proofs.Ancestry
import ClassAtlas.Proofs.AssociationSides
import ClassAtlas.Proofs.Regrouping
import ClassAtlas.Proofs.CallOrder
import ClassAtlas.Proofs.Signature.Verbatim
import ClassAtlas.Proofs.ParsedOnce
import ClassAtlas.Proofs.SlashlessTypes
import ClassAtlas.Proofs.Confinement
import ClassAtlas.Proofs.Causes
import ClassAtlas.Proofs.Traceability
import ClassAtlas.Proofs.Signature.ErrorPositions
import ClassAtlas.Proofs.DiscoveryForest
import ClassAtlas.Proofs.ScopeErrors
import ClassAtlas.Proofs.LabelTemplates
import ClassAtlas.Proofs.RecorderCalls
import ClassAtlas.Proofs.PropertyMerging
import ClassAtlas.Proofs.Signature.ByteSafety
import ClassAtlas.Proofs.Signature.Descriptors
