import MountSpace.Space
import MountSpace.Proofs.Path.Ancestry
import MountSpace.Proofs.Path.Grammar
import MountSpace.Proofs.Path.Joining
import MountSpace.Proofs.Path.RoundTrip
import MountSpace.Proofs.Session.ConfinementHistory
import MountSpace.Proofs.Session.ExactHistory
import MountSpace.Proofs.Session.Furnishing
import MountSpace.Proofs.Session.InterchangeHistory
import MountSpace.Proofs.Session.LastingTargets
import MountSpace.Proofs.Session.LinkBound
import MountSpace.Proofs.Session.Listing
import MountSpace.Proofs.Session.Moves
import MountSpace.Proofs.Session.Occupied
import MountSpace.Proofs.Session.ReadBack
import MountSpace.Proofs.Session.ReportedTargets
import MountSpace.Proofs.Session.Rollback
import MountSpace.Proofs.Session.RootHistory
import MountSpace.Proofs.Session.Streams
import MountSpace.Proofs.Session.Times
import MountSpace.Proofs.Session.WorkingDirectory
import MountSpace.Proofs.Space.Addresses
import MountSpace.Proofs.Space.Default
import MountSpace.Proofs.Store.Listing
import MountSpace.Proofs.Store.Subtree
