import Calvera.Results.Availability
import Calvera.Results.BatchDiscipline
import Calvera.Results.Batches
import Calvera.Results.Bookkeeping
import Calvera.Results.Cache
import Calvera.Results.Claiming
import Calvera.Results.DataRaces
import Calvera.Results.Delivery
import Calvera.Results.GetAfter
import Calvera.Results.Indices
import Calvera.Results.Iterators
import Calvera.Results.Liveliness
import Calvera.Results.MPMC
import Calvera.Results.Oversized
import Calvera.Results.Polling
import Calvera.Results.Progress
import Calvera.Results.PublishRange
import Calvera.Results.References
import Calvera.Results.Service
import Calvera.Results.Shutdown
import Calvera.Results.SlotExclusion
import Calvera.Results.Stages
import Calvera.Results.Unwinding
