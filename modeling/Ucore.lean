import Ucore.Buddy.Runs
import Ucore.Cache.Runs
import Ucore.Console.StdinRuns
import Ucore.Cow.Mempoke
import Ucore.Paging.Duplicate
import Ucore.Disk.Runs
import Ucore.Fd.Runs
import Ucore.FreeList.Runs
import Ucore.Mksfs.Directories
import Ucore.Mksfs.Files
import Ucore.Proc.FilesRuns
import Ucore.Proc.PidRuns
import Ucore.Proc.SemaphoreRuns
import Ucore.Proc.TimerRuns
import Ucore.Slob.Clients
import Ucore.Stride.Fair
import Ucore.Stride.Runs
import Ucore.Sync.PhilosophersMonitor
import Ucore.Sfs.Ownership
import Ucore.Sfs.Contents
import Ucore.Sfs.Enumerate
import Ucore.Vfs.Getcwd
import Ucore.Sfs.Remount
import Ucore.Sfs.ReadOnly
import Ucore.Sysfile.Write
import Ucore.Vmm.CopyString
import Ucore.Exec.Execve
import Ucore.Sjf.Runs
import Ucore.Slub.Geometry
import Ucore.Sfs.BitmapRuns
import Ucore.Dtb.Tree
import Ucore.Printfmt.Render
import Ucore.Shell.Words
import Ucore.Paging.Exit
import Ucore.Lib.Holdings
import Ucore.Paging.CopyMm
import Ucore.RoundRobin.Shares
import Ucore.Filesys.Missing
import Ucore.Filesys.Fork
