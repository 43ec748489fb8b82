import Dawgs.Proofs.ReachabilityCache
import Dawgs.Proofs.Properties
import Dawgs.Proofs.UpdateRelationship
import Dawgs.Proofs.RelationshipCreateBatch
import Dawgs.Proofs.TranslationCache
import Dawgs.Proofs.TraversalPattern
import Dawgs.Proofs.Reordering
import Dawgs.Proofs.Sieve
import Dawgs.Proofs.PackedMap
import Dawgs.Proofs.TraverseTerminals
import Dawgs.Proofs.IdentityBatches
import Dawgs.Proofs.SchemaManager
import Dawgs.Proofs.Locality
import Dawgs.Proofs.GraphCache
import Dawgs.Proofs.PropertiesHash
import Dawgs.Proofs.Neo4jBatch
import Dawgs.Proofs.UpdatingClauses
import Dawgs.Proofs.FrontendLosses
import Dawgs.Proofs.ParallelQuery
import Dawgs.Proofs.Fragment
import Dawgs.Proofs.StringPredicate
import Dawgs.Proofs.ArchiveEnvelope
import Dawgs.Proofs.QueryRewrite
import Dawgs.Proofs.Scrubber
import Dawgs.Proofs.ArchiveTar
import Dawgs.Proofs.Containers
import Dawgs.Proofs.Triplestore
import Dawgs.Proofs.BfsTree
import Dawgs.Proofs.NodeKinds
import Dawgs.Proofs.PathTree
import Dawgs.Proofs.SkipLimit
import Dawgs.Proofs.Constraints
import Dawgs.Proofs.Walker
import Dawgs.Proofs.References
import Dawgs.Proofs.PropertyComparison
import Dawgs.Proofs.NodeIDResolver
import Dawgs.Proofs.PrepareMatch
import Dawgs.Proofs.UnpackPromotion
import Dawgs.Proofs.Pseudonyms
import Dawgs.Proofs.Quantifiers
import Dawgs.Proofs.Tracking
import Dawgs.Proofs.BufferedPipe
