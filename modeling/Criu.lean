import Criu.IncrementalDump
import Criu.LazyCompletion
import Criu.LazyRelease
import Criu.ServerSession
import Criu.ShiftVmas
import Criu.Soccr
import Criu.ProcessGroups
import Criu.PredumpExact
import Criu.SeccompRestore
import Criu.KcmpIds
import Criu.SysvAttach
import Criu.MountOrder
import Criu.FdOwners
import Criu.UnixQueues
import Criu.FdWakeups
import Criu.EpollAdds
import Criu.SkQueueRoundTrip
import Criu.PipeOwnership
import Criu.ShmemDump
import Criu.PipeRead
import Criu.TruncatedReads
import Criu.DatalessEntries
import Criu.StackPages
import Criu.ShmemContent
import Criu.LazyRanges
import Criu.PagemapCache
import Criu.ShmemRendezvous
import Criu.CurePath
import Criu.BfdBuffering
import Criu.VmaHint
import Criu.CgroupContains
import Criu.UsernsIds
import Criu.ServiceFd
import Criu.FreezeProcesses
import Criu.Itimers
import Criu.SeccompWalk
import Criu.GhostChunks
import Criu.PrintNum
