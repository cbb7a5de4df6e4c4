import CosKernel.RedBlackLifetime
import CosKernel.HeapLock
import CosKernel.KernelThreads
import CosKernel.ReadyQueues
import CosKernel.SchedulerInvariant
import CosKernel.ThreadExit
import CosKernel.SemaphorePermits
import CosKernel.MutexPointers
import CosKernel.TimerActivity
import CosKernel.TimerHistory
import CosKernel.MessageDeque
import CosKernel.MailboxSenders
import CosKernel.WaitMembership
import CosKernel.PageFirstFit
import CosKernel.RedBlackCalls
import CosKernel.EventDelivery
import CosKernel.SizeClasses
import CosKernel.ObjectRegistry
import CosKernel.ContextTransparency
import CosKernel.ZoneBooks
import CosKernel.HeapContracts
import CosKernel.HeapAccounting
import CosKernel.DeviceInitialisation
import CosKernel.WakeOrder
import CosKernel.TimerCheckRuns
import CosKernel.MailboxPool
import CosKernel.MessagePool
import CosKernel.WaitDeadlines
import CosKernel.ConsoleLog
import CosKernel.ReceiveRings
import CosKernel.TextConsole
import CosKernel.VideoFrames
import CosKernel.MillisecondDelays
import CosKernel.KeyboardModifiers
import CosKernel.RoundRobin
import CosKernel.CriticalSections
import CosKernel.MessageReceivers
import CosKernel.InterruptDispatch
