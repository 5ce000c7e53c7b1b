import SlateOS.Cap.GroupRuns
import SlateOS.Ipc.Channel.Async
import SlateOS.Ipc.Channel.CapTransfer
import SlateOS.Ipc.Channel.Waiters
import SlateOS.Ipc.Channel.Sync
import SlateOS.Ipc.Pipe.Ends
import SlateOS.Ipc.Pipe.Stream
import SlateOS.Netring.Spsc
import SlateOS.Sched.ThrottleRuns
import SlateOS.Sched.KMutexRuns
import SlateOS.Sched.WaitQueueRuns
import SlateOS.Net.Tcp.ReceiveRuns
import SlateOS.Ipc.Futex.PiRuns
import SlateOS.Mm.Frame.Conservation
import SlateOS.Mm.CowViews
import SlateOS.Ipc.Futex.WaitRuns
import SlateOS.Ipc.Futex.Requeue
import SlateOS.Ipc.Semaphore.Runs
import SlateOS.Net.Tcp.CloseRuns
import SlateOS.Ipc.CompletionPort.Runs
import SlateOS.Bignum.DecimalArith
import SlateOS.Fs.Reclock.Refinement
import SlateOS.Fs.Reclock.WaitingRuns
import SlateOS.Mm.Vmalloc.Runs
import SlateOS.Ipc.EventFd.Runs
import SlateOS.Mm.Swap.Runs
import SlateOS.Cap.SuspendRuns
import SlateOS.Sched.DeadlineAdmission
import SlateOS.Sched.EevdfPreempt
import SlateOS.Mm.Vma
import SlateOS.Mm.Frame.BuddyRuns
import SlateOS.Mm.Frame.DmaZone
import SlateOS.Mm.Frame.Boot
import SlateOS.Fs.Ext4.ExtentTruncate
import SlateOS.Fs.Ext4.ExtentSeek
import SlateOS.Fs.Ext4.BitmapSearch
import SlateOS.Fs.Ext4.BitmapRefusal
import SlateOS.Net.FragFiller
import SlateOS.Net.NatIdle
import SlateOS.Sched.DrainAll
import SlateOS.Fs.Ext4.JournalBounds
import SlateOS.Fs.Reclock.Bounds
import SlateOS.Mm.Swap.Reclaim
import SlateOS.Foundation.Wildcards
import SlateOS.Fnmatch.Pattern
import SlateOS.Fnmatch.Search
import SlateOS.Fnmatch.Meaning
import SlateOS.Fnmatch.Components
import SlateOS.Ere.Syntax
import SlateOS.Ere.Parser
import SlateOS.Ere.Compile
import SlateOS.Ere.Expansion
import SlateOS.Foundation.DepthFirst
import SlateOS.Ere.Regex
import SlateOS.Ere.Programs
import SlateOS.Ere.Prefilter
import SlateOS.Ere.Pike
import SlateOS.Ere.Skipping
import SlateOS.Ere.Backtrack
import SlateOS.Ere.Backward
import SlateOS.Net.Tcp.Wire
