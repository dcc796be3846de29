import PortGraph.Workspace.Basic
import PortGraph.Proofs.Chronicle
import PortGraph.Proofs.Cloning
import PortGraph.Proofs.Commands
import PortGraph.Proofs.Culling
import PortGraph.Proofs.Cycles
import PortGraph.Proofs.Detaching
import PortGraph.Proofs.EitherEnd
import PortGraph.Proofs.Hooks
import PortGraph.Proofs.Issuing
import PortGraph.Proofs.Ledger
import PortGraph.Proofs.Mirroring
import PortGraph.Proofs.Notifying
import PortGraph.Proofs.Owners
import PortGraph.Proofs.Postorder
import PortGraph.Proofs.Reading
import PortGraph.Proofs.Refusing
import PortGraph.Proofs.Releasing
import PortGraph.Proofs.Relocating
import PortGraph.Proofs.Replaying
import PortGraph.Proofs.Retouching
import PortGraph.Proofs.Visiting
import PortGraph.Proofs.Warnings
import PortGraph.Proofs.Fates
