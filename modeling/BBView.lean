import BBView.Foundation.Run
import BBView.Foundation.Tiling
import BBView.FileView
import BBView.GenerateView
import BBView.Foundation.MemoryImage
import BBView.Header
import BBView.Attributes
import BBView.Foundation.PointerList
import BBView.Foundation.Counting
import BBView.Queue
import BBView.Daemon
import BBView.Acknowledgement
import BBView.Foundation.ByteFile
import BBView.LocalName
import BBView.Datatype
import BBView.Handle
import BBView.Session
import BBView.Drain
import BBView.Copying
import BBView.Calls
import BBView.Landing
import BBView.Access
import BBView.Sizes
import BBView.Operations
import BBView.Outcomes
import BBView.Safety
import BBView.Reconfiguration
import BBView.SplitCollective
import BBView.DestinationSize
import BBView.Observers
import BBView.Ranks
import BBView.Message
import BBView.Foundation.Overlay
import BBView.Executions
import BBView.PendingCopies
import BBView.DisjointDrains
import BBView.Transfers
import BBView.Foundation.Ledger
import BBView.Site
import BBView.Bookkeeping
import BBView.ProgramSteps
import BBView.ProgramOrder
import BBView.PermittedReads
import BBView.Node
import BBView.Reopening
import BBView.Foundation.Trimming
import BBView.ShortReads
import BBView.DrainArithmetic
import BBView.Preallocation
import BBView.Foundation.Stops
import BBView.EofOffset
import BBView.Foundation.Below
import BBView.Seek
import BBView.BufferPath
import BBView.ByteOffset
import BBView.DirectIo
import BBView.GenerateBounds
import BBView.GenerateFailure
import BBView.Foundation.Heap
import BBView.SortOfflen
import BBView.SortBounds
import BBView.Foundation.Packing
import BBView.AccessGraph
import BBView.Foundation.Settled
import BBView.Iterations
import BBView.Pool
import BBView.Connections
import BBView.Plant
import BBView.Checkpoint
import BBView.Contributions
import BBView.Shutdown
import BBView.Foundation.Locked
import BBView.Threads
import BBView.Restart
import BBView.AllocationRanks
import BBView.Foundation.Holdings
import BBView.Releases
import BBView.RecordReleases
import BBView.HandleReleases
import BBView.Retries
