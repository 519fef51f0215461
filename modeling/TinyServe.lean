import TinyServe.OrderedDict
import TinyServe.PrefixClaims
import TinyServe.ClaimTree
import TinyServe.ClaimHeap
import TinyServe.Vocabulary
import TinyServe.PrefixCacheBase
import TinyServe.PythonPrefixCache
import TinyServe.PythonPrefixCacheTree
import TinyServe.PrefixCacheTable
import TinyServe.PythonPrefixCacheRefinement
import TinyServe.PrefixCacheReuse
import TinyServe.NativePrefixCache
import TinyServe.NativePrefixCacheTree
import TinyServe.NativePrefixCacheRefinement
import TinyServe.PrefixCacheBackends
import TinyServe.PrefixCacheRepublish
import TinyServe.NativePrefixCacheHeap
import TinyServe.Runs
import TinyServe.BatchBuilder
import TinyServe.BatchBuilderShares
import TinyServe.Admission
import TinyServe.Scheduler
import TinyServe.VirtualTime
import TinyServe.VirtualTimeGap
import TinyServe.FairQueueTurns
import TinyServe.FairQueueShares
import TinyServe.FairQueuePriorities
import TinyServe.FairQueuePermutations
import TinyServe.SchedulerOrder
import TinyServe.Streaming
import TinyServe.Tracing
import TinyServe.SequenceMemory
import TinyServe.LlamaRuntime
import TinyServe.BatchLoop
import TinyServe.BatchLoopBooks
import TinyServe.BatchSchedules
import TinyServe.BatchLoopTransitions
import TinyServe.BatchLoopResources
import TinyServe.BatchLoopTree
import TinyServe.BatchLoopHistory
import TinyServe.BatchLoopMemory
import TinyServe.BatchLoopOutput
import TinyServe.BatchLoopBudget
import TinyServe.BatchLoopProgress
import TinyServe.BatchLoopLifecycle
import TinyServe.BatchLoopStreams
import TinyServe.BatchLoopSelection
import TinyServe.BatchLoopAdmission
import TinyServe.BatchLoopOrder
import TinyServe.BatchLoopDonors
import TinyServe.BatchLoopFinish
import TinyServe.BatchLoopCancel
import TinyServe.Utf8Stream
import TinyServe.StreamingDelivery
import TinyServe.SseFraming
import TinyServe.BatchLoopDrain
import TinyServe.BatchLoopText
import TinyServe.BatchLoopPace
import TinyServe.LlamaBatch
import TinyServe.BatchLoopDecode
import TinyServe.Instruments
import TinyServe.Metrics
import TinyServe.BatchLoopMetrics
import TinyServe.BatchLoopLedger
import TinyServe.BatchLoopReadings
import TinyServe.BatchLoopBackends
import TinyServe.BatchLoopAwaits
import TinyServe.BatchLoopArrivals
import TinyServe.BatchLoopRank
import TinyServe.BatchLoopPage
import TinyServe.PrefixCacheLifetime
import TinyServe.BatchLoopRoom
import TinyServe.FairQueueWaits
import TinyServe.BatchLoopService
import TinyServe.BatchLoopFairness
import TinyServe.BatchLoopHandlers
