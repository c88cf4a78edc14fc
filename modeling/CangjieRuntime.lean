import CangjieRuntime.Heap.AtomicAlloc
import CangjieRuntime.Sync.Correctness.MutexExclusion
import CangjieRuntime.StackMap.Correctness.SlotVisits
import CangjieRuntime.Heap.Correctness.Compaction
import CangjieRuntime.Sync.Correctness.SemaWakeups
import CangjieRuntime.Sched.Correctness.QueueOrder
import CangjieRuntime.Sched.Correctness.Conservation
import CangjieRuntime.Sync.Correctness.WakeAll
import CangjieRuntime.Native.Correctness.Blocks
import CangjieRuntime.StdSync.Correctness.LockWaiters
import CangjieRuntime.StdSync.Correctness.TimerWakeups
import CangjieRuntime.Collection.Correctness.ArrayQueueOrder
import CangjieRuntime.Collection.Correctness.ListSequences
import CangjieRuntime.Collection.Correctness.TreeAdd
import CangjieRuntime.StdCore.Correctness.DurationDivision
import CangjieRuntime.StdMath.Correctness.DecimalDivision
import CangjieRuntime.StdMath.BigIntModular
import CangjieRuntime.StdTime.Correctness.CalendarFields
import CangjieRuntime.Heap.Correctness.BitmapRuns
import CangjieRuntime.Heap.Correctness.NodeCapacity
import CangjieRuntime.Timer.Correctness.SizedFrees
import CangjieRuntime.Timer.TimerReset
import CangjieRuntime.Heap.LocalDeque
import CangjieRuntime.Heap.RegionManager
import CangjieRuntime.Timer.Correctness.StoppedClear
