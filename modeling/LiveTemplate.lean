import LiveTemplate.Number.Numeral
import LiveTemplate.Main
import LiveTemplate.Value.Details
import LiveTemplate.Workshop
import LiveTemplate.Proofs.Agreement
import LiveTemplate.Proofs.Bones
import LiveTemplate.Proofs.Recovery
import LiveTemplate.Proofs.Spreading
import LiveTemplate.Proofs.Plots
import LiveTemplate.Proofs.Scenes
import LiveTemplate.Proofs.Ledgers
import LiveTemplate.Proofs.Leftovers
import LiveTemplate.Proofs.Ownership
import LiveTemplate.Proofs.Confinement
import LiveTemplate.Proofs.InPlace
import LiveTemplate.Proofs.Staying
import LiveTemplate.Proofs.Benches
import LiveTemplate.Proofs.Walking
import LiveTemplate.Proofs.Canonical
import LiveTemplate.Proofs.SpreadNames
import LiveTemplate.Proofs.Nesting
import LiveTemplate.Proofs.Fates
import LiveTemplate.Proofs.Rereading
import LiveTemplate.Proofs.Independence
import LiveTemplate.Proofs.Reports
import LiveTemplate.Proofs.FirstRender
import LiveTemplate.Proofs.Pointing
import LiveTemplate.Proofs.ReadNodes
import LiveTemplate.Proofs.MountedTables
import LiveTemplate.Proofs.StartTags
import LiveTemplate.Proofs.Precedence
import LiveTemplate.Proofs.Caching
import LiveTemplate.Proofs.Insertion
import LiveTemplate.Proofs.Comments
import LiveTemplate.Proofs.Embedding
import LiveTemplate.Proofs.NestedMarkup
import LiveTemplate.Proofs.Progress
