import PicoSched.Lib.FixedPriority
import PicoSched.Lib.UtilizationBound
import PicoSched.Model.Main
import PicoSched.Model.Effects
import PicoSched.Model.TaskList
import PicoSched.Model.Hyperperiod
import PicoSched.Model.PeriodicJob
import PicoSched.Model.TickSchedule
import PicoSched.Allocation.Bodies
import PicoSched.Allocation.TailRoom
import PicoSched.Allocation.PreAssign
import PicoSched.Allocation.Setup
import PicoSched.Allocation.Refinement
import PicoSched.Allocation.Runs
import PicoSched.Allocation.Accounting
import PicoSched.Allocation.Capacity
import PicoSched.Allocation.Completeness
import PicoSched.Allocation.ExactFill
import PicoSched.Allocation.Overload
import PicoSched.Allocation.Variants
import PicoSched.Allocation.Registration
import PicoSched.Allocation.CoreLoads
import PicoSched.Allocation.Chains
import PicoSched.Allocation.FailedCreation
import PicoSched.Allocation.SplitChains
import PicoSched.Allocation.Packing
import PicoSched.Allocation.RealLoads
import PicoSched.Allocation.Schedulable
import PicoSched.Allocation.FinalMemory
import PicoSched.Runtime.Wakeups
import PicoSched.Runtime.Deadlines
import PicoSched.Runtime.Verdict
import PicoSched.Runtime.Dispatch
import PicoSched.Runtime.Priorities
import PicoSched.Runtime.Hyperperiod
import PicoSched.Runtime.Precedence
import PicoSched.Runtime.Releases
import PicoSched.Runtime.FalseOverflow
import PicoSched.Runtime.TickSchedule
import PicoSched.Runtime.Guarantee
import PicoSched.Lib.ItemLists
import PicoSched.Lib.LinkedRing
import PicoSched.Model.KernelList
import PicoSched.Lib.CyclicTime
import PicoSched.Model.DelayedTasks
import PicoSched.Runtime.DelayedLists
import PicoSched.Runtime.DelayedTasks
import PicoSched.Runtime.Delays
import PicoSched.Model.Firmware
import PicoSched.Runtime.Firmware
import PicoSched.Runtime.Shutdown
import PicoSched.Lib.BlockList
import PicoSched.Model.Heap
import PicoSched.Model.TaskCreation
import PicoSched.Runtime.Heap
import PicoSched.Runtime.HeapContents
import PicoSched.Runtime.TaskCreation
import PicoSched.Runtime.CreatedTasks
import PicoSched.Runtime.FirmwareJobs
