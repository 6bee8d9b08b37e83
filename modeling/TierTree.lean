import TierTree.Service.Basic
import TierTree.Proofs.Tree.Frozen
import TierTree.Proofs.Tree.Inheritance
import TierTree.Proofs.Tree.Invariant
import TierTree.Proofs.Tree.Effect
import TierTree.Proofs.Tree.Residue
import TierTree.Proofs.Tree.PolicyScope
import TierTree.Proofs.Tree.Listing
import TierTree.Proofs.Tree.Admission
import TierTree.Proofs.Service.Restart
import TierTree.Proofs.Log.Retraction
import TierTree.Proofs.Log.Cut
import TierTree.Proofs.Service.Directory
import TierTree.Proofs.Service.Adoption
import TierTree.Proofs.Service.Coverage
import TierTree.Proofs.Service.Turns
import TierTree.Proofs.Log.Damage
import TierTree.Proofs.Tree.Chronology
import TierTree.Proofs.Tree.Circles
import TierTree.Proofs.Tree.Address
import TierTree.Proofs.Tree.SnapshotRead
import TierTree.Proofs.Tree.Deletion
import TierTree.Proofs.Tree.History
import TierTree.Proofs.Tree.Subtree
import TierTree.Proofs.Log.Reliable
import TierTree.Proofs.Policy.Placement
import TierTree.Proofs.Policy.Remaining
import TierTree.Proofs.Path.Grammar
import TierTree.Proofs.Service.Config
import TierTree.Proofs.Service.Deletion
import TierTree.Proofs.Checkpoint
