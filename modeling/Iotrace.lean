import Iotrace.Library.Runs
import Iotrace.Library.Arena
import Iotrace.Library.Reordering
import Iotrace.Library.RefCount
import Iotrace.Attribution
import Iotrace.CloseOnExec
import Iotrace.Coverage
import Iotrace.SharedTable
import Iotrace.WaitLoop
import Iotrace.HandOver
import Iotrace.Sharing
import Iotrace.Unshare
import Iotrace.Extremes
import Iotrace.Histogram
import Iotrace.Scratch
import Iotrace.WaitingTime
import Iotrace.SyscallNames
import Iotrace.OutputName
import Iotrace.NameLengths
import Iotrace.ParserFaithful
import Iotrace.ActiveThreads
import Iotrace.RecordReuse
import Iotrace.Restarts
import Iotrace.Reclaim
import Iotrace.TraceReport
import Iotrace.JsonReport
import Iotrace.TracerLoop
import Iotrace.TracerThread
import Iotrace.LockedMerges
import Iotrace.FdTableRuns
import Iotrace.FileStatRuns
import Iotrace.SyscallStatRuns
