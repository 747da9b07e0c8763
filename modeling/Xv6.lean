import Xv6.Bio.Lru
import Xv6.Console.Lines
import Xv6.Fs.CopyFault
import Xv6.Fs.FileBytes
import Xv6.Fs.Iput
import Xv6.Fs.Nlink
import Xv6.Fs.Offset
import Xv6.Grep.Lines
import Xv6.Log.Crash
import Xv6.Log.Reservation
import Xv6.Log.Waiting
import Xv6.Mkfs.Consistent
import Xv6.Mkfs.Roundtrip
import Xv6.Pipes.Fifo
import Xv6.Pipes.Undelivered
import Xv6.Pipes.Wakeup
import Xv6.Printf.Format
import Xv6.Sched.History
import Xv6.Sched.Kill
import Xv6.Sh.Strings
import Xv6.Spinlock.Nesting
import Xv6.Umalloc.Request
import Xv6.Vm.Accounts
import Xv6.Vm.Grow
import Xv6.Vm.NoMemory
import Xv6.Vm.Radix
import Xv6.Vm.Usertrap
