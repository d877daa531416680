import Xv6.LogSpace
import Xv6.WriteFault
import Xv6.MkfsLookup
import Xv6.Fork
import Xv6.Find
import Xv6.ExecRun
import Xv6.PipeRead
import Xv6.Wakeup
import Xv6.Kill
import Xv6.ExitWait
import Xv6.Nulterminate
import Xv6.FileWriteMerge
import Xv6.BioRun
import Xv6.VirtioRun
import Xv6.PrimesRun
import Xv6.Memmove
import Xv6.Grep
import Xv6.Xargs
import Xv6.UmallocSbrk
import Xv6.ConsoleRun
import Xv6.LogGroup
import Xv6.PathFold
import Xv6.NameCalls
import Xv6.LinkCount
import Xv6.Undo
import Xv6.SpinlockRun
import Xv6.Uart
import Xv6.ShellRun
