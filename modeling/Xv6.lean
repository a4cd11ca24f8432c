import Xv6.Bio.Supply
import Xv6.Boot.Bootmain
import Xv6.Console.Refinement
import Xv6.Fs.SharedWrite
import Xv6.Grep.Lines
import Xv6.Icache.Free
import Xv6.Ide.Refinement
import Xv6.Kernel.Dirs
import Xv6.Kernel.Names
import Xv6.Log.CrashAtomic
import Xv6.Log.Reservation
import Xv6.Log.Waiters
import Xv6.Machine.ExecSafe
import Xv6.Machine.Frames
import Xv6.Memmove
import Xv6.Mkfs.Contents
import Xv6.Paging.Refinement
import Xv6.Pipe.Wakeup
import Xv6.Proc.Kill
import Xv6.Proc.Ptable
import Xv6.Shell.Terminate
import Xv6.Shell.Wiring
import Xv6.Spin.Exclusion
import Xv6.Syscall.Argstr
import Xv6.Vm.Growproc
