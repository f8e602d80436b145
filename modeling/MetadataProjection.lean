import MetadataProjection.Store.Define
import MetadataProjection.Projection
import MetadataProjection.Closure.Implements
import MetadataProjection.Proofs.Session
import MetadataProjection.Proofs.Closure.Preorder
import MetadataProjection.Proofs.Closure.Reachability
import MetadataProjection.Proofs.Coherence
import MetadataProjection.Proofs.Positions
import MetadataProjection.Proofs.Closure.Scope
import MetadataProjection.Proofs.MemberGroups
import MetadataProjection.Proofs.Closure.Merging
import MetadataProjection.Proofs.Agreement
import MetadataProjection.Proofs.ActivationChain
import MetadataProjection.Proofs.Batch
import MetadataProjection.Proofs.Ownership
import MetadataProjection.Proofs.Written
import MetadataProjection.Proofs.Records
import MetadataProjection.Proofs.Closure.Protocols
import MetadataProjection.Proofs.Following
import MetadataProjection.Proofs.Stability
import MetadataProjection.Proofs.Verdict
import MetadataProjection.Proofs.FullNames
import MetadataProjection.Proofs.LookupKeys
import MetadataProjection.Proofs.SignatureViews
import MetadataProjection.Proofs.Clauses
import MetadataProjection.Proofs.Recovery
import MetadataProjection.Proofs.AccessorRoles
import MetadataProjection.Proofs.Reuse
import MetadataProjection.Proofs.FactorySearch
import MetadataProjection.Proofs.ActivationEnd
import MetadataProjection.Proofs.FactoryOrder
import MetadataProjection.Proofs.DefaultConstruction
import MetadataProjection.Proofs.FieldStorage
import MetadataProjection.Proofs.Limits
import MetadataProjection.Proofs.Memories
import MetadataProjection.Proofs.Substitution
import MetadataProjection.Proofs.Classification
import MetadataProjection.Proofs.CallShapes
import MetadataProjection.Proofs.Categories
