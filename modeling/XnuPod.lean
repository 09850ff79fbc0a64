import XnuPod.Boot.Platform
import XnuPod.Kernel.Heap
import XnuPod.Bpf.Storage
import XnuPod.Lockf.Bytes
import XnuPod.Lockf.Deadlock
import XnuPod.Lockf.Flock
import XnuPod.Kdp.Serial
import XnuPod.LogMem.Buddy
import XnuPod.PriorityQueue.Sound
import XnuPod.Vm.Sanitize
import XnuPod.SysvSem.Partition
import XnuPod.SysvSem.Atomic
import XnuPod.Ipc.RaceSafe
import XnuPod.Ipc.HashExact
import XnuPod.Ipc.Reuse
import XnuPod.Serialize.RoundTrip
import XnuPod.IOKit.SharedDataQueue
import XnuPod.Kauth.Acl
import XnuPod.Net.Reads
import XnuPod.SysvMsg.Identity
import XnuPod.SysvMsg.Select
import XnuPod.IOKit.Capacity
import XnuPod.IOKit.Limits
import XnuPod.Kern.Restartable
import XnuPod.Kern.CompactId
import XnuPod.Utf.Agree
import XnuPod.Kcdata.Array
import XnuPod.Tty.Traverse
import XnuPod.MpscRing.Write
import XnuPod.Net.Nat464
