import Ennbo.Acquisition.Hypervolume
import Ennbo.Acquisition.Selection
import Ennbo.Backend.Appends
import Ennbo.Backend.Centroids
import Ennbo.Backend.Flush
import Ennbo.Backend.Neighbours
import Ennbo.Dense.Distance
import Ennbo.Dense.LinearAgreement
import Ennbo.Forward.Layer
import Ennbo.Forward.Resident
import Ennbo.Index.Canonical
import Ennbo.Index.Compaction
import Ennbo.Index.Leaves
import Ennbo.Index.Persist
import Ennbo.Index.Termination
import Ennbo.Model.FitterStats
import Ennbo.Model.MetadataFields
import Ennbo.Model.Natural
import Ennbo.Model.Nearest
import Ennbo.Model.Spliced
import Ennbo.Search.BoundedHeap
import Ennbo.Search.FullWidth
import Ennbo.Search.Unpruned
import Ennbo.Sensitivity
import Ennbo.Strategy.Overrides
import Ennbo.Strategy.Perturbation
import Ennbo.Strategy.Phases
import Ennbo.Strategy.Units
import Ennbo.Trials.Indexed
import Ennbo.Trials.Lazy
import Ennbo.Trials.Shortlist
import Ennbo.Trials.Tiles
import Ennbo.Trials.Tree
import Ennbo.TrustRegion.Choice
import Ennbo.TrustRegion.History
import Ennbo.Weights.Selection
