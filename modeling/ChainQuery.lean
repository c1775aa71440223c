import ChainQuery.Session
import ChainQuery.Tagged
import ChainQuery.Term.Fingerprint
import ChainQuery.Version
import ChainQuery.Proofs.Acceptance
import ChainQuery.Proofs.Faithful
import ChainQuery.Proofs.Encoding
import ChainQuery.Proofs.Fingerprints
import ChainQuery.Proofs.Course
import ChainQuery.Proofs.Relocation
import ChainQuery.Proofs.Grammar
import ChainQuery.Proofs.Slots
import ChainQuery.Proofs.Shapes
import ChainQuery.Proofs.Sources
import ChainQuery.Proofs.Markers
import ChainQuery.Proofs.Capabilities
import ChainQuery.Proofs.Respelling
import ChainQuery.Proofs.Sessions
import ChainQuery.Proofs.Questions
import ChainQuery.Proofs.Loosening
import ChainQuery.Proofs.Embedding
import ChainQuery.Proofs.Hygiene
import ChainQuery.Proofs.Conversion
import ChainQuery.Proofs.Congruence
import ChainQuery.Proofs.Events
import ChainQuery.Proofs.Rereading
import ChainQuery.Proofs.Literals
import ChainQuery.Proofs.Lossless
import ChainQuery.Proofs.Members
import ChainQuery.Proofs.Attaching
import ChainQuery.Proofs.Plans
import ChainQuery.Proofs.ScopeStack
import ChainQuery.Proofs.SortOrders
import ChainQuery.Proofs.Ranges
