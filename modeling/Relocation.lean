import Relocation.Block.Store
import Relocation.Command.Machine
import Relocation.Main
import Relocation.Proofs.Agreement
import Relocation.Proofs.Flattening
import Relocation.Proofs.Gaps
import Relocation.Proofs.Idempotence
import Relocation.Proofs.NormalForm
import Relocation.Proofs.Splicing
import Relocation.Proofs.Spliceable
import Relocation.Proofs.Declarations
import Relocation.Proofs.Memory
import Relocation.Proofs.Containment
import Relocation.Proofs.Delivery
import Relocation.Proofs.Stitching
import Relocation.Proofs.ReadBack
import Relocation.Proofs.TopLevel
import Relocation.Proofs.Edits
import Relocation.Proofs.Verdict
import Relocation.Proofs.Relaid
import Relocation.Proofs.Renaming
import Relocation.Proofs.Positions
import Relocation.Proofs.Injection
import Relocation.Proofs.Denotation
import Relocation.Proofs.Encodable
import Relocation.Proofs.Creator
import Relocation.Proofs.DataUrl
import Relocation.Proofs.Braces
import Relocation.Proofs.Patterns
