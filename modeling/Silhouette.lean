import Silhouette.Cache.WitcherCache
import Silhouette.Cache.Lines
import Silhouette.Cache.Residency
import Silhouette.CrashPlan.Comb
import Silhouette.Cache.WriteDep
import Silhouette.Cache.ReorderSimulator
import Silhouette.OpTrace.CacheRun
import Silhouette.OpTrace.FenceLoops
import Silhouette.Trace.Entry
import Silhouette.Trace.OpTraceEntry
import Silhouette.Cache.EntryOpConv
import Silhouette.OpTrace.AtomicOps
import Silhouette.Image.CrashImage
import Silhouette.CrashPlan.Scheme2CP
import Silhouette.OpTrace.Window
import Silhouette.CrashPlan.Causality
import Silhouette.Lib.IntervalTree
import Silhouette.Mech.PMStore
import Silhouette.OpTrace.FlushTracking
import Silhouette.CrashPlan.PersistSelf
import Silhouette.CrashPlan.Tso
import Silhouette.Lib.Machine
import Silhouette.OpTrace.ClusterMaps
import Silhouette.VmComm.MemcachedLock
import Silhouette.Executor.ReportKeys
import Silhouette.Executor.TestCases
import Silhouette.Executor.HostMonitor
import Silhouette.Executor.MonitorSound
import Silhouette.Executor.Dispensing
import Silhouette.Executor.Dedup
import Silhouette.CrashPlan.Rerun
import Silhouette.CrashPlan.AfterAnalysis
import Silhouette.Trace.SplitOpMgr
import Silhouette.CheatSheet.Sheets
import Silhouette.Mech.SheetUpdates
import Silhouette.Executor.MechSheets
import Silhouette.Image.BaseImage
import Silhouette.Cache.ReorderCount
import Silhouette.Lib.Text
import Silhouette.Tracer.TraceLines
import Silhouette.Tracer.LineRoundTrip
import Silhouette.Lib.Bytes
import Silhouette.Trace.ValueReader
import Silhouette.Tracer.StoredValues
import Silhouette.Layout.StructInfo
import Silhouette.Layout.StructRoundTrip
import Silhouette.DiskContent.Dump
import Silhouette.DiskContent.RoundTrip
import Silhouette.DiskContent.DumpCompare
import Silhouette.Trace.CallStack
import Silhouette.Trace.SplitExact
import Silhouette.Trace.SplitSpans
import Silhouette.Mech.FlushCover
import Silhouette.Mech.InvariantCheck
import Silhouette.Mech.CheckTotal
import Silhouette.Mech.DeduceMech
import Silhouette.CrashPlan.SchemeMech2CP
import Silhouette.Lib.Ranges
import Silhouette.Tracer.WriteBuffer
import Silhouette.Tracer.LifeCycle
import Silhouette.Lib.LockProg
import Silhouette.Tracer.TraceLock
import Silhouette.OpTrace.AnalysisReturns
import Silhouette.OpTrace.DupReports
import Silhouette.CrashPlan.SchemeMechComb
import Silhouette.CrashPlan.CombPlans
import Silhouette.Layout.StInfoIndex
import Silhouette.Mech.Memcpy
import Silhouette.CrashPlan.SampledPlans
import Silhouette.Image.PlanImage
import Silhouette.Image.TraceImage
import Silhouette.Hardware.CacheStates
import Silhouette.Hardware.TestedImages
import Silhouette.Executor.ContentCheck
import Silhouette.Executor.OracleCheck
import Silhouette.Executor.FsSemantic
import Silhouette.Cache.FenceOrder
import Silhouette.Cache.LineReorder
import Silhouette.Cache.Tiling
import Silhouette.Mech.FenceWindow
import Silhouette.Lib.Rpn
import Silhouette.CheatSheet.Computation
import Silhouette.Mech.LinkEntry
import Silhouette.Layout.RecordLayout
import Silhouette.Lib.Brackets
import Silhouette.Trace.CallPath
import Silhouette.Mech.ReplData
import Silhouette.Mech.ReplReason
import Silhouette.Layout.StInfoVisits
import Silhouette.Layout.StInfoMatch
import Silhouette.Layout.StInfoReached
import Silhouette.Layout.StInfoOrder
import Silhouette.Mech.LswReason
import Silhouette.Mech.UndoJnlReason
import Silhouette.Mech.UndoJnlWalk
import Silhouette.Mech.UndoJnlWindow
import Silhouette.Lib.LabelSearch
import Silhouette.Mech.NestedStructs
import Silhouette.Mech.LinkReason
import Silhouette.DiskContent.Traverse
import Silhouette.Tracer.RecordBounds
import Silhouette.Executor.RetestLookup
import Silhouette.Cache.ReorderMemo
import Silhouette.Mech.ReplLoads
import Silhouette.VmMgr.FleetRuns
import Silhouette.Ace.Runs
import Silhouette.Ace.Adapter
