import Xv6.Log.Admission
import Xv6.Log.Crash
import Xv6.Bio.Buffers
import Xv6.Bio.Representation
import Xv6.File.Chunked
import Xv6.File.Exact
import Xv6.Syscall.DirFull
import Xv6.Syscall.Open
import Xv6.Mkfs.Boot
import Xv6.Vm.Copy
import Xv6.Vm.RefRace
import Xv6.Vm.RefTable
import Xv6.Proc.Pids
import Xv6.Proc.Tree
import Xv6.Pipe.Fifo
import Xv6.Pipe.Wakeup
import Xv6.Console.Refine
import Xv6.Kernel.Intr
import Xv6.Kernel.Memmove
import Xv6.User.Grep
import Xv6.User.Malloc
import Xv6.User.Sbrk
import Xv6.User.ShParse
import Xv6.Virtio.Disk
