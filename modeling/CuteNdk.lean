import CuteNdk.Lib.Run
import CuteNdk.Lib.Linked
import CuteNdk.Lib.OrderedMap
import CuteNdk.Token
import CuteNdk.TokenExclusion
import CuteNdk.TokenWaiters
import CuteNdk.TokenFailure
import CuteNdk.HandlerRepository
import CuteNdk.EpollReactor
import CuteNdk.EpollDispatch
import CuteNdk.EpollRegistration
import CuteNdk.EpollDelivery
import CuteNdk.SelectReactor
import CuteNdk.SelectReactorNodes
import CuteNdk.SelectDispatch
import CuteNdk.ReactorNotify
import CuteNdk.Lib.CString
import CuteNdk.CronField
import CuteNdk.CronFieldMeaning
import CuteNdk.SerialFileTransfer
import CuteNdk.SerialFileTransferRange
import CuteNdk.DispatchDataTask
import CuteNdk.DispatchDataOutlives
import CuteNdk.CacheDeque
import CuteNdk.CacheDequeDestroy
import CuteNdk.CacheManager
import CuteNdk.CacheSafety
import CuteNdk.CacheAccounting
import CuteNdk.CacheBound
import CuteNdk.CacheRecency
import CuteNdk.CacheFreshness
import CuteNdk.Lib.BinaryHeap
import CuteNdk.Heap
import CuteNdk.HeapSift
import CuteNdk.HeapOps
import CuteNdk.HeapRuns
import CuteNdk.HeapAdjust
import CuteNdk.CacheHeap
import CuteNdk.CacheHeapRuns
import CuteNdk.TimeValue
import CuteNdk.TimeValueTotal
import CuteNdk.TimerQueue
import CuteNdk.TimerHeap
import CuteNdk.TimerInvariant
import CuteNdk.TimerOps
import CuteNdk.TimerCancelHandler
import CuteNdk.TimerHeapRuns
import CuteNdk.TimerCrontab
import CuteNdk.TimerIdRuns
import CuteNdk.TimerLoose
import CuteNdk.TimerDrain
import CuteNdk.TimerMixed
import CuteNdk.TimerMixedRuns
import CuteNdk.TimerUnknownId
import CuteNdk.TimerCronList
import CuteNdk.TimerCancelCrontab
import CuteNdk.TimerCrontabCall
import CuteNdk.CronText
import CuteNdk.CronTextItems
import CuteNdk.CronTextCut
import CuteNdk.CronTextSafety
import CuteNdk.TimerResetCrontab
import CuteNdk.TimerUpcall
import CuteNdk.TimerCallbacks
import CuteNdk.TimerTick
import CuteNdk.ReactorTimers
import CuteNdk.MessageQueue
import CuteNdk.MessageQueueWait
import CuteNdk.MessageQueueDequeue
import CuteNdk.MessageBlock
import CuteNdk.AsynchFileIo
import CuteNdk.AioQueue
import CuteNdk.AioStart
import CuteNdk.AioCancel
import CuteNdk.AioTake
import CuteNdk.AioRunning
import CuteNdk.AioSchedule
import CuteNdk.AioScheduled
import CuteNdk.AioIds
import CuteNdk.AioCancelAnswer
import CuteNdk.AioOrder
import CuteNdk.PullPipe
import CuteNdk.PullPipeFiles
import CuteNdk.PullPipeFaithful
import CuteNdk.FileCompletion
import CuteNdk.PullCompletion
import CuteNdk.HttpParser
import CuteNdk.HttpClient
import CuteNdk.HttpClientRange
import CuteNdk.PullHttpAgent
import CuteNdk.PullHttpHeader
import CuteNdk.PullHttpCuts
import CuteNdk.PipeBufferWrites
import CuteNdk.MemPool
import CuteNdk.MemPoolChunks
import CuteNdk.MemPoolMerge
import CuteNdk.MemPoolSlab
import CuteNdk.MemPoolSlabs
import CuteNdk.MemPoolWell
import CuteNdk.MemPoolState
import CuteNdk.MemPoolGrowth
import CuteNdk.MemPoolCalls
import CuteNdk.MemPoolRuns
import CuteNdk.MemPoolLayout
import CuteNdk.MemPoolOrder
import CuteNdk.MemPoolNull
import CuteNdk.MemPoolEach
import CuteNdk.MemPoolLargest
import CuteNdk.MemPoolCoalesce
import CuteNdk.NdkVectors
import CuteNdk.InetAddr
import CuteNdk.LogConfig
import CuteNdk.LogOutputs
import CuteNdk.LogManager
import CuteNdk.LogRecord
import CuteNdk.LogTypes
import CuteNdk.PullHttpReqest
import CuteNdk.HttpFields
import CuteNdk.LogFileSize
import CuteNdk.LogRollover
import CuteNdk.LogToFile
import CuteNdk.HttpResponse
import CuteNdk.HttpUrl
import CuteNdk.HttpParams
import CuteNdk.MemCacheTransfer
import CuteNdk.Lib.Allowance
import CuteNdk.DispatchBandwidth
import CuteNdk.SerialFileTransferError
import CuteNdk.NdkStrings
import CuteNdk.NdkRetries
import CuteNdk.BufferManager
import CuteNdk.BufferManagerRuns
import CuteNdk.Dictionary
import CuteNdk.DictionaryRuns
import CuteNdk.IniParser
import CuteNdk.IniLoad
import CuteNdk.IniLine
import CuteNdk.IniDump
import CuteNdk.IniLog
import CuteNdk.PullSessions
import CuteNdk.PullSessionsKept
import CuteNdk.PullSessionsRuns
import CuteNdk.Lib.Partial
import CuteNdk.RecursiveMutex
import CuteNdk.TaskThreads
import CuteNdk.FileDescriptors
import CuteNdk.Connector
import CuteNdk.ConnectorRuns
import CuteNdk.ReactorLoop
import CuteNdk.PullSessionsBlocked
import CuteNdk.HttpRequest
import CuteNdk.ReactorsAgree
import CuteNdk.Strace
import CuteNdk.CacheDrops
import CuteNdk.MemCacheMaps
