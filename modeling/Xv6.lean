import Xv6.Lib.Machine
import Xv6.Lib.Writes
import Xv6.Lib.Except
import Xv6.Lib.Ring
import Xv6.Lib.Dlist
import Xv6.Lib.Count
import Xv6.Lib.Pattern
import Xv6.Lib.Slist
import Xv6.Param
import Xv6.Memlayout
import Xv6.Syscall
import Xv6.Swap
import Xv6.Proc
import Xv6.Pipe
import Xv6.Log.Core
import Xv6.Log.Admission
import Xv6.Log.Crash
import Xv6.Log.Commit
import Xv6.Vm.Core
import Xv6.Vm.Growproc
import Xv6.Vm.Frame
import Xv6.Vm.Exec
import Xv6.Fs.Inode
import Xv6.Fs.Sysfile
import Xv6.Fs.Namespace
import Xv6.Lib.Alloc
import Xv6.Fs.Block
import Xv6.Fs.Bitmap
import Xv6.Fs.Ownership
import Xv6.Fs.Content
import Xv6.Fs.Mkfs
import Xv6.Sched
import Xv6.ProcTree
import Xv6.Fs.Icache
import Xv6.Bio
import Xv6.Fs.Refcount
import Xv6.Grep
import Xv6.Console
import Xv6.Ide
import Xv6.Fs.Dir
import Xv6.Fs.Path
import Xv6.Sh.Lex
import Xv6.Sh.Parse
import Xv6.SwapCache
import Xv6.Umalloc
import Xv6.Printint
import Xv6.String
import Xv6.Sysproc
import Xv6.Mp
import Xv6.Vm.Dealloc
import Xv6.Spinlock
import Xv6.Vm.Owned
import Xv6.Vm.Fresh
import Xv6.Vm.Copy
import Xv6.Vm.Kinit
import Xv6.Vm.Fork
import Xv6.Vm.Load
import Xv6.Vm.Stack
