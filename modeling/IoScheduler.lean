import IoScheduler.Machine
import IoScheduler.Transition
import IoScheduler.History
import IoScheduler.Clock
import IoScheduler.ClockElapsed
import IoScheduler.Stats
import IoScheduler.StatsSums
import IoScheduler.StatsWindow
import IoScheduler.Memory
import IoScheduler.Cbuf
import IoScheduler.CbufRun
import IoScheduler.CbufCounters
import IoScheduler.CbufBounds
import IoScheduler.Scheduler
import IoScheduler.SchedulerSteps
import IoScheduler.SchedulerInflight
import IoScheduler.SchedulerOwners
import IoScheduler.SchedulerPipeline
import IoScheduler.SchedulerSlots
import IoScheduler.SchedulerDurability
import IoScheduler.SchedulerReads
import IoScheduler.SchedulerExit
import IoScheduler.SchedulerTracing
import IoScheduler.SchedulerReuse
import IoScheduler.SchedulerProgress
import IoScheduler.SchedulerBounds
import IoScheduler.SchedulerFailures
import IoScheduler.SchedulerWriteList
import IoScheduler.SchedulerDumps
import IoScheduler.SchedulerLastDump
import IoScheduler.SchedulerOrder
import IoScheduler.SchedulerQueue
import IoScheduler.SchedulerRamp
import IoScheduler.SchedulerTermination
import IoScheduler.SchedulerPages
import IoScheduler.Fairness
import IoScheduler.SchedulerFairness
import IoScheduler.PageFlow
import IoScheduler.SchedulerRefinement
import IoScheduler.SchedulerFile
import IoScheduler.Bytes
import IoScheduler.Node
import IoScheduler.Btree
import IoScheduler.SearchTree
import IoScheduler.NodeSearch
import IoScheduler.NodeLayout
import IoScheduler.NodeInsert
import IoScheduler.NodePlace
import IoScheduler.NodeSplit
import IoScheduler.NodeViews
import IoScheduler.NodeHalves
import IoScheduler.NodePartition
import IoScheduler.NodeReuse
import IoScheduler.NodeFill
import IoScheduler.NodeDelete
import IoScheduler.NodeTombstones
import IoScheduler.Dictionary
import IoScheduler.NodeDictionary
import IoScheduler.BtreeSteps
import IoScheduler.BtreeParents
import IoScheduler.NodePids
import IoScheduler.BtreeLevels
import IoScheduler.NodePacked
import IoScheduler.BtreeTall
import IoScheduler.BtreeDepth
import IoScheduler.NodeRoom
import IoScheduler.BtreeInsert
import IoScheduler.BtreeCalls
import IoScheduler.BtreeRuns
import IoScheduler.BtreeOutcomes
import IoScheduler.BtreeAscending
import IoScheduler.BtreeOverrun
import IoScheduler.BtreeChecks
