import Libae.Runs
import Libae.Words
import Libae.ByteMemory
import Libae.Fallible
import Libae.Loops
import Libae.Progress
import Libae.Res
import Libae.ResBounds
import Libae.ResText
import Libae.ResMask
import Libae.Log
import Libae.LogText
import Libae.ResSheet
import Libae.LogLock
import Libae.LogReturns
import Libae.Io
import Libae.IoReads
import Libae.IoExact
import Libae.IoWrites
import Libae.IoPipe
import Libae.Pool
import Libae.PoolLayout
import Libae.PoolLimits
import Libae.PoolReplay
import Libae.PoolSpace
import Libae.PtrArray
import Libae.PtrArrayLists
import Libae.PtrArrayGrowth
import Libae.PtrArrayCapacity
import Libae.PtrArrayFailures
import Libae.PoolCopies
import Libae.PtrArrayResize
import Libae.PtrArraySpace
import Libae.PriorityQueue
import Libae.Threadpool
import Libae.ThreadpoolHistory
import Libae.ThreadpoolStops
import Libae.ThreadpoolStart
import Libae.ThreadpoolReturns
import Libae.ThreadpoolNested
import Libae.ThreadpoolInit
import Libae.Epoll
import Libae.Mux
import Libae.MuxCount
import Libae.MuxWait
import Libae.MuxCover
import Libae.MuxDeadline
import Libae.MuxEmpty
import Libae.Server
import Libae.ServerClients
import Libae.ServerTeardown
import Libae.ServerContexts
import Libae.ServerAccounts
import Libae.ServerHeap
import Libae.ServerSocket
import Libae.ServerBind
import Libae.ServerLoop
import Libae.ServerRoom
import Libae.Timerfd
import Libae.Timer
import Libae.Handles
import Libae.Opt
import Libae.OptTypes
import Libae.OptWalk
import Libae.OptGrammar
import Libae.OptBare
import Libae.OptArity
import Libae.OptErrors
import Libae.OptInit
import Libae.OptOutputs
import Libae.OptIntegers
import Libae.OptRejected
import Libae.OptSwitches
import Libae.OptUses
import Libae.OptSettings
import Libae.OptHelp
