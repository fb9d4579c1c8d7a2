import Xv6.MachineInt
import Xv6.Run
import Xv6.Counts
import Xv6.ProcTable
import Xv6.Scheduler
import Xv6.ProcTree
import Xv6.ProcThreads
import Xv6.ProcPids
import Xv6.ProcFamily
import Xv6.ProcTreeRun
import Xv6.Pushcli
import Xv6.Monitor
import Xv6.SleepWakeup
import Xv6.SleepRefines
import Xv6.SleepCond
import Xv6.Pipe
import Xv6.PipeFifo
import Xv6.PipeWakeup
import Xv6.KillLoop
import Xv6.WorkConservation
import Xv6.Bytes
import Xv6.Param
import Xv6.ProcFiles
import Xv6.DiskWrites
import Xv6.LogCommit
import Xv6.LogCrash
import Xv6.LogOps
import Xv6.LogReserve
import Xv6.LogGroup
import Xv6.BufCache
import Xv6.BufRefs
import Xv6.BufFresh
import Xv6.BufLog
import Xv6.Prog
import Xv6.Ownership
import Xv6.FsLayout
import Xv6.FsBitmap
import Xv6.FsInode
import Xv6.FsVolume
import Xv6.FsBmap
import Xv6.FsContent
import Xv6.FsGood
import Xv6.FsWrite
import Xv6.FsBlocks
import Xv6.FsTrunc
import Xv6.FsCache
import Xv6.FsDir
import Xv6.FsEntries
import Xv6.FsPreserve
import Xv6.SysFile
import Xv6.Mkfs
import Xv6.MkfsAppend
import Xv6.MkfsImage
import Xv6.MkfsMain
import Xv6.MkfsConsistent
import Xv6.MkfsLookup
import Xv6.MkfsAgree
import Xv6.FsRefs
import Xv6.FsLocked
import Xv6.FsNamex
import Xv6.FsEffects
import Xv6.FsRunning
import Xv6.FsCreate
import Xv6.FsCalls
import Xv6.FsUnlink
import Xv6.FsLink
import Xv6.Congruential
import Xv6.Lottery
import Xv6.Routine
import Xv6.PageTable
import Xv6.PageSpecs
import Xv6.PageCalls
import Xv6.PageOwners
import Xv6.PageAccount
import Xv6.PageSteps
import Xv6.PageBoot
import Xv6.SleepLock
import Xv6.ProcTurns
import Xv6.ProcRuns
import Xv6.Pstat
import Xv6.Console
import Xv6.ConsoleRefines
import Xv6.SlotMap
import Xv6.FsDirMap
import Xv6.RefCounts
import Xv6.FileTable
import Xv6.FileRefs
import Xv6.FileEnds
import Xv6.FileRuns
import Xv6.Interleave
import Xv6.FileWrite
import Xv6.FileAppends
import Xv6.Syscall
import Xv6.SyscallRefs
import Xv6.SyscallRuns
import Xv6.SyscallBoot
import Xv6.Memory
import Xv6.MemoryTables
import Xv6.MemoryGrow
import Xv6.MemoryCopy
import Xv6.MemoryRoom
import Xv6.Copyout
import Xv6.Exec
import Xv6.ExecImage
import Xv6.ExecStack
import Xv6.ExecRun
import Xv6.ExecLong
import Xv6.ExecSafe
import Xv6.LinkList
import Xv6.Ide
import Xv6.IdeQueue
import Xv6.Sh
import Xv6.ShTokens
import Xv6.ShGrammar
import Xv6.ShComplete
import Xv6.CopyLoop
import Xv6.Memmove
import Xv6.Regexp
import Xv6.Grep
import Xv6.Mp
import Xv6.SyscallArgs
import Xv6.ProcKill
import Xv6.FsPath
import Xv6.FsLogged
import Xv6.FileSections
import Xv6.RingList
import Xv6.Umalloc
import Xv6.UmallocBlocks
import Xv6.UmallocFree
import Xv6.UmallocMalloc
import Xv6.UmallocRuns
import Xv6.UmallocSafe
