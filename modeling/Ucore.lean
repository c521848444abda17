import Ucore.Mm.DefaultPmmComplete
import Ucore.Mm.BuddyPmmSafety
import Ucore.Mm.ExitRangeRuns
import Ucore.Fs.Sfs.SfsFileData
import Ucore.Fs.Sfs.FileCache
import Ucore.Fs.Sfs.SfsAccounts
import Ucore.Fs.Sfs.InodeCacheRuns
import Ucore.Fs.PathPanics
import Ucore.Fs.Sfs.UnwrittenBytes
import Ucore.Fs.ReadOnly
import Ucore.Fs.SysfileReads
import Ucore.Process.ProcFilesRuns
import Ucore.Fs.FdTableRuns
import Ucore.Mm.CowSharing
import Ucore.Mm.StaleBytes
import Ucore.Mm.NestedForks
import Ucore.Mm.DupMmap
import Ucore.Process.GetPid
import Ucore.Process.TimerRuns
import Ucore.Process.KernelRuns
import Ucore.Process.FamilyRuns
import Ucore.Process.StrideShares
import Ucore.Fs.Devs.StdinRuns
import Ucore.Sync.Philosophers
import Ucore.Tools.MksfsContents
import Ucore.Mm.KmallocRuns
import Ucore.Mm.BuddyPmmRestore
import Ucore.Mm.ExecArgs
import Ucore.Mm.ExecStack
import Ucore.Mm.ExecSegmentRuns
import Ucore.Mm.ExecImage
import Ucore.Mm.ExecImageRuns
import Ucore.Mm.ExecImageFiles
import Ucore.Mm.ExecReads
import Ucore.Fs.LockingOrder
import Ucore.Mm.VmmChecks
import Ucore.Mm.FaultRights
import Ucore.Libs.SkewHeapRuns
import Ucore.Process.Sjf
import Ucore.Process.Lottery
import Ucore.Process.StrideLab8
import Ucore.Fs.Getdirentry
import Ucore.Mm.BestFitFree
import Ucore.Mm.BuddyPmmRounding
import Ucore.Mm.KmallocZero
import Ucore.Mm.KmallocSizesRuns
import Ucore.Fs.BitmapRuns
import Ucore.Mm.BuddyPmmIndex
import Ucore.Libs.Strtol
import Ucore.Libs.PrintfmtRuns
import Ucore.Driver.DtbTree
import Ucore.User.ShWords
import Ucore.Fs.NamefileRuns
import Ucore.Fs.Devs.Disk0
import Ucore.Process.ListSchedule
import Ucore.Driver.Console
import Ucore.Fs.SysfileRuns
