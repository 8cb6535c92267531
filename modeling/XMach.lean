import XMach.Ipc.Proofs.SplayTraverse
import XMach.Ipc.Proofs.KmsgBody
import XMach.Vm.Proofs.Lookup
import XMach.Vm.Proofs.Rollback
import XMach.Vm.Proofs.ProjectedBuffer
import XMach.Vm.Proofs.Copyin
import XMach.Vm.Proofs.Overwrite
import XMach.Bootstrap.Proofs.Storage
import XMach.Vm.Proofs.Paging
import XMach.Vm.Proofs.Protection
import XMach.Device.Proofs.NetFilter
import XMach.Device.Proofs.Bpf
import XMach.Kern.Proofs.Priority
import XMach.Kern.Proofs.RunQueue
import XMach.Kern.Proofs.EventCount
import XMach.Kern.Proofs.Lock
import XMach.Lites.Proofs.PortObject
import XMach.Lites.Proofs.Spl
import XMach.Lites.Proofs.LazyUrefs
import XMach.Lites.Proofs.Select
import XMach.Lites.Proofs.SleepTimeout
import XMach.Lites.Proofs.Timer
import XMach.Lites.Proofs.TimerElement
import XMach.Lites.Proofs.FileCache
import XMach.Kern.Proofs.Clock
import XMach.Kern.Proofs.MappedTime
import XMach.Kern.Proofs.Timeout
import XMach.Libmach.Proofs.AllocGen
import XMach.Bootstrap.Proofs.PagerPages
import XMach.Bootstrap.Proofs.Extension
import XMach.Device.Proofs.Cirbuf
import XMach.Lites.Proofs.UserCopy
import XMach.Lites.Proofs.PageOut
import XMach.Lites.Proofs.MsgThrottle
import XMach.Lites.Proofs.ReplyMsg
import XMach.Bootstrap.Proofs.PagingFile
import XMach.Vm.Proofs.FirstFree
