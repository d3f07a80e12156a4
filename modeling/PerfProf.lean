import PerfProf.AfterWindow
import PerfProf.BinaryHeap
import PerfProf.Blktrace
import PerfProf.BlktraceFollow
import PerfProf.BlktraceIndex
import PerfProf.BlktraceRows
import PerfProf.Blocks
import PerfProf.CString
import PerfProf.CallForest
import PerfProf.Callchain
import PerfProf.CdevSend
import PerfProf.Circ
import PerfProf.ClockOrder
import PerfProf.CommCache
import PerfProf.Convert
import PerfProf.ConvertUniform
import PerfProf.DetailRefine
import PerfProf.DetailWindow
import PerfProf.Elide
import PerfProf.EventConvert
import PerfProf.EventSpread
import PerfProf.ExprBuffer
import PerfProf.ExprCode
import PerfProf.ExprCompile
import PerfProf.ExprConstant
import PerfProf.ExprDepth
import PerfProf.ExprExec
import PerfProf.ExprExtent
import PerfProf.ExprInside
import PerfProf.ExprLevel
import PerfProf.ExprLexer
import PerfProf.ExprLoad
import PerfProf.ExprLvalue
import PerfProf.ExprNames
import PerfProf.ExprOrder
import PerfProf.ExprParse
import PerfProf.ExprReads
import PerfProf.ExprRun
import PerfProf.ExprSafe
import PerfProf.ExprSentence
import PerfProf.ExprShadow
import PerfProf.ExprSound
import PerfProf.ExprSpend
import PerfProf.ExprSymtab
import PerfProf.ExprTree
import PerfProf.ExprValue
import PerfProf.ExprWritten
import PerfProf.FilterCut
import PerfProf.FilterLang
import PerfProf.FilterScan
import PerfProf.FixedPoint
import PerfProf.FlameFold
import PerfProf.FlameGraph
import PerfProf.FlameKey
import PerfProf.FlameLines
import PerfProf.Forest
import PerfProf.Framing
import PerfProf.Heap
import PerfProf.HideThan
import PerfProf.Hrcount
import PerfProf.HrcountInit
import PerfProf.HrcountRounds
import PerfProf.Hrtimer
import PerfProf.Intern
import PerfProf.Kmemleak
import PerfProf.KmemleakArrivals
import PerfProf.KmemleakLeaks
import PerfProf.KvmExit
import PerfProf.Kvmmmu
import PerfProf.KvmmmuDump
import PerfProf.KvmmmuSpte
import PerfProf.KvmmmuStore
import PerfProf.LatencyDist
import PerfProf.Loop
import PerfProf.LossOrder
import PerfProf.LostSafe
import PerfProf.LostWindow
import PerfProf.Matching
import PerfProf.MinHeap
import PerfProf.MultiTrace
import PerfProf.NestedStack
import PerfProf.Obligations
import PerfProf.Oncpu
import PerfProf.OncpuReport
import PerfProf.OrderClock
import PerfProf.OrderLost
import PerfProf.OrderOnce
import PerfProf.OrderProcess
import PerfProf.OrderRing
import PerfProf.OrderTarget
import PerfProf.OrderTime
import PerfProf.Outbox
import PerfProf.Owners
import PerfProf.Pairing
import PerfProf.Patch
import PerfProf.Perfeval
import PerfProf.ProfDev
import PerfProf.ProfDevExec
import PerfProf.ProfDevFree
import PerfProf.ProfDevLife
import PerfProf.ProfDevOpen
import PerfProf.ProfDevRefs
import PerfProf.ProfDevRuns
import PerfProf.Ptrace
import PerfProf.PtraceAgree
import PerfProf.PtraceClone
import PerfProf.PtraceFork
import PerfProf.PtraceRefs
import PerfProf.PtraceRuns
import PerfProf.RbTree
import PerfProf.RbWalk
import PerfProf.Rblist
import PerfProf.RblistCached
import PerfProf.RblistFirst
import PerfProf.RedBlack
import PerfProf.RedBlackErase
import PerfProf.RefTable
import PerfProf.Retain
import PerfProf.Ring
import PerfProf.SampleLimit
import PerfProf.SharedRefs
import PerfProf.SpreadFailure
import PerfProf.SpreadFraming
import PerfProf.SpreadRobust
import PerfProf.SymCache
import PerfProf.SymObject
import PerfProf.TaskState
import PerfProf.TaskStateFilter
import PerfProf.TaskStateMemory
import PerfProf.TaskStatePhase
import PerfProf.TaskStateTime
import PerfProf.TcpSend
import PerfProf.Timeline
import PerfProf.Top
import PerfProf.TpEvents
import PerfProf.TpFilter
import PerfProf.TpGrammar
import PerfProf.TpList
import PerfProf.TpParse
import PerfProf.TpValue
import PerfProf.TraceFrame
import PerfProf.UniqueString
