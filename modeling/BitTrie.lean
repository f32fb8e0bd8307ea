import BitTrie.Session
import BitTrie.Proofs.KeyOrder
import BitTrie.Proofs.Shape
import BitTrie.Proofs.Hanging
import BitTrie.Proofs.Grafting
import BitTrie.Proofs.Levels
import BitTrie.Proofs.Sorted
import BitTrie.Proofs.Descent
import BitTrie.Proofs.Insertion
import BitTrie.Proofs.Groups
import BitTrie.Proofs.Growth
import BitTrie.Proofs.History
import BitTrie.Proofs.Finding
import BitTrie.Proofs.Auditing
import BitTrie.Proofs.Chains
import BitTrie.Proofs.Rows
import BitTrie.Proofs.Terminated
import BitTrie.Proofs.StringMap
import BitTrie.Proofs.Inspections
import BitTrie.Proofs.SharedPath
import BitTrie.Proofs.Certified
import BitTrie.Proofs.Mirrored
import BitTrie.Proofs.Damage
import BitTrie.Proofs.PureInsertion
import BitTrie.Proofs.Separation
import BitTrie.Proofs.Outline
import BitTrie.Proofs.AllOrNothing
import BitTrie.Proofs.Walks
import BitTrie.Proofs.Prefixes
import BitTrie.Proofs.Comparison
import BitTrie.Proofs.Tandem
import BitTrie.Proofs.Visits
import BitTrie.Proofs.Ownership
import BitTrie.Proofs.Sharing
import BitTrie.Proofs.Roles
import BitTrie.Proofs.Stacking
import BitTrie.Proofs.Rescanning
import BitTrie.Proofs.Retention
import BitTrie.Proofs.ExactStrings
import BitTrie.Proofs.Arranging
import BitTrie.Proofs.LinkWords
import BitTrie.Proofs.MachineWords
import BitTrie.Proofs.WordInsertion
import BitTrie.Proofs.WordReading
import BitTrie.Proofs.BitRanges
