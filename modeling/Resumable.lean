import Resumable.Code.Draft
import Resumable.Diagnostic.Listing
import Resumable.Proofs.Adoption
import Resumable.Proofs.Continuations
import Resumable.Proofs.DepthFirst
import Resumable.Proofs.Inheritance
import Resumable.Proofs.Nesting
import Resumable.Proofs.Producers
import Resumable.Proofs.RegionOrder
import Resumable.Proofs.SavedLocals
import Resumable.Proofs.SegmentOwners
import Resumable.Proofs.SharedPrograms
import Resumable.Proofs.Totality
import Resumable.Session
