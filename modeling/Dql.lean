import Dql.Main
import Dql.Manifest
import Dql.Proofs.Composition
import Dql.Proofs.Covering
import Dql.Proofs.Cursors
import Dql.Proofs.Dispatch
import Dql.Proofs.EarliestError
import Dql.Proofs.Events
import Dql.Proofs.Extending
import Dql.Proofs.Forest
import Dql.Proofs.Growth
import Dql.Proofs.Height
import Dql.Proofs.Layers
import Dql.Proofs.Layout
import Dql.Proofs.Manifests
import Dql.Proofs.Marks
import Dql.Proofs.NestingLimit
import Dql.Proofs.Placeholders
import Dql.Proofs.Postorder
import Dql.Proofs.Recompilation
import Dql.Proofs.Sessions
import Dql.Proofs.Spacing
import Dql.Proofs.Stopping
import Dql.Proofs.Characters
import Dql.Proofs.Batches
