import Petra.Crypto.Random
import Petra.Ext4.DescriptorBytes
import Petra.Ext4.DirSearch
import Petra.Ext4.ExtentList
import Petra.Ext4.Locating
import Petra.Ext4.Replay
import Petra.Ext4.Syncing
import Petra.Vfs.DirTree
import Petra.Vfs.MountRuns
import Petra.Fs.Appending
import Petra.Fs.Pipe
import Petra.Fs.Wakeups
import Petra.Vm.Failing
import Petra.Vm.Isolation
import Petra.Vm.MoveView
import Petra.Vm.Pointwise
import Petra.Sync.FutexQueues
import Petra.Sched.Accounting
import Petra.Sched.Cpus
import Petra.Sched.ParamChanges
import Petra.Ipc.MqTransfer
import Petra.Ipc.MsgQueue
import Petra.Ipc.SemArrays
import Petra.Ipc.ShmAttach
import Petra.Ipc.UndoRuns
import Petra.Net.UdpPeer
import Petra.Net.UnixBindings
import Petra.Proc.Credentials
import Petra.Proc.GroupRuns
import Petra.Proc.Ids
import Petra.Proc.TreeRuns
