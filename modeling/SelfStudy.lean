import SelfStudy.Fmt.Checker
import SelfStudy.Fmt.Template
import SelfStudy.Lib.Numeral
import SelfStudy.Iocp.CompletionPort
import SelfStudy.Iocp.Connection
import SelfStudy.Iocp.ContextList
import SelfStudy.Iocp.CriticalSection
import SelfStudy.Iocp.Finally
import SelfStudy.Iocp.Initialised
import SelfStudy.Iocp.Accept
import SelfStudy.Iocp.SocketOwnership
import SelfStudy.Iocp.Iteration
import SelfStudy.Iocp.CtrlEvents
import SelfStudy.Iocp.Cleanup
import SelfStudy.Iocp.UseAfterFree
import SelfStudy.Iocp.Isolation
import SelfStudy.Iocp.ListFree
import SelfStudy.Iocp.ThreadHandles
import SelfStudy.Pool.Shutdown
import SelfStudy.Pool.SortCorrect
import SelfStudy.Pool.SortDeadlock
import SelfStudy.Pool.EveryTask
import SelfStudy.Pool.Futures
import SelfStudy.Pool.IdleCount
import SelfStudy.Pool.WorkConserving
import SelfStudy.TestIocp.AcceptSlots
import SelfStudy.TestIocp.Connections
import SelfStudy.TestIocp.Failures
import SelfStudy.TestIocp.InitServer
import SelfStudy.TestIocp.Logging
import SelfStudy.TestIocp.PostAcceptEx
import SelfStudy.Threading.Cancellation
import SelfStudy.Threading.Delivery
import SelfStudy.Threading.DequeueCalls
import SelfStudy.Threading.IntrusiveFifo
import SelfStudy.Threading.LockedQueueFifo
import SelfStudy.Threading.NonIntrusiveFifo
import SelfStudy.Threading.ProducerConsumerFifo
import SelfStudy.Threading.Reclamation
import SelfStudy.Threading.Recycling
import SelfStudy.Threading.Wakeups
