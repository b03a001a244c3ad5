import Osfmk.Lib.SearchTree
import Osfmk.Lib.LinkedChain
import Osfmk.Lib.Successor
import Osfmk.Lib.Layers
import Osfmk.Lib.Census
import Osfmk.Lib.Trace
import Osfmk.Lib.BackLinked
import Osfmk.Lib.LockTrace
import Osfmk.Ipc.Splay
import Osfmk.Ipc.SplayTraverse
import Osfmk.Ipc.Entry
import Osfmk.Ipc.Table
import Osfmk.Ipc.Space
import Osfmk.Ipc.SpaceRep
import Osfmk.Ipc.SpaceUpdate
import Osfmk.Ipc.SpaceGrow
import Osfmk.Ipc.SpaceRun
import Osfmk.Ipc.SplayRun
import Osfmk.Ipc.HashLocal
import Osfmk.Ipc.SpaceGrowLock
import Osfmk.Ipc.PortRequests
import Osfmk.Ipc.Port
import Osfmk.Ipc.Right
import Osfmk.Ipc.CopyinUndo
import Osfmk.Ipc.Circularity
import Osfmk.Ipc.Mqueue
import Osfmk.Ipc.MqueueFifo
import Osfmk.Ipc.SendQueue
import Osfmk.Ipc.KmsgBounds
import Osfmk.Ipc.KmsgBody
import Osfmk.Vm.MapEntry
import Osfmk.Vm.MapEnter
import Osfmk.Vm.MapDelete
import Osfmk.Vm.MapPages
import Osfmk.Vm.MapLocks
import Osfmk.Vm.RemapExtract
import Osfmk.Vm.ClusterPagein
import Osfmk.Vm.Object
import Osfmk.Vm.Collapse
import Osfmk.Vm.CopyDelayed
import Osfmk.Vm.CopySnapshot
import Osfmk.Vm.Resident
import Osfmk.Vm.ResidentInv
import Osfmk.Vm.ResidentStep
import Osfmk.Vm.ResidentRun
import Osfmk.Kern.Clock
import Osfmk.Kern.ClockInv
import Osfmk.Kern.ClockStep
import Osfmk.Kern.ClockRun
import Osfmk.Kern.Lock
import Osfmk.Kern.Semaphore
import Osfmk.Kern.Runq
import Osfmk.Kern.RunqInv
import Osfmk.Kern.RunqRun
import Osfmk.Pager.Order
import Osfmk.Kern.Wait
import Osfmk.Kern.WaitRun
import Osfmk.Lib.Owners
import Osfmk.Pager.Vsmap
import Osfmk.Pager.Segment
import Osfmk.Pager.Store
import Osfmk.Pager.Clusters
import Osfmk.Pager.Ownership
import Osfmk.Device.NetFilter
import Osfmk.Kern.UlockInv
import Osfmk.Server.InodePager
import Osfmk.Server.UserMemoryAlias
import Osfmk.Server.UserMemoryRun
import Osfmk.Dipc.PortTableRun
import Osfmk.Dipc.Migrate
import Osfmk.Dipc.Transit
import Osfmk.Vm.Coalesce
import Osfmk.Kern.TimeoutRefs
import Osfmk.Pager.DeviceWrite
import Osfmk.Pager.Enumerate
import Osfmk.Pager.ClusterRead
import Osfmk.Lib.Always
import Osfmk.Kern.EventCount
import Osfmk.Kern.TimedWait
import Osfmk.Vm.External
import Osfmk.Kern.LockSet
import Osfmk.Server.DataReturn
