import Lumin.Lib.Transition
import Lumin.Lib.Word
import Lumin.Lib.Memory
import Lumin.Lib.Linked
import Lumin.Lib.Radix
import Lumin.Lib.Ring
import Lumin.Lib.Table
import Lumin.Lib.RoundRobin
import Lumin.Mm.Frames
import Lumin.Mm.HeapSeparation
import Lumin.Proc.Pids
import Lumin.Proc.Switch
import Lumin.Proc.Brk
import Lumin.Proc.Regrow
import Lumin.Proc.PathAgreement
import Lumin.Proc.Normalize
import Lumin.Proc.DescriptorUse
import Lumin.Proc.DescriptorTables
import Lumin.Proc.PipeEnds
import Lumin.Proc.ElfImage
import Lumin.Proc.ElfPages
import Lumin.Proc.ElfRuns
import Lumin.Proc.ElfClearing
import Lumin.Proc.Ownership
import Lumin.Proc.UserStack
import Lumin.Proc.TaskCount
import Lumin.Mm.FreeCount
import Lumin.Proc.ExitStatus
import Lumin.Proc.RoundRobin
import Lumin.Libc.HeapLeak
import Lumin.Libc.StdioRead
import Lumin.User.LineEditing
import Lumin.Fs.Fat32.SequentialRead
import Lumin.Fs.Fat32.FileWrite
import Lumin.Fs.Fat32.Truncate
import Lumin.Fs.Fat32.FailedWrite
import Lumin.Fs.Fat32.Unlink
import Lumin.Fs.Fat32.Create
import Lumin.Fs.Fat32.DirWrite
import Lumin.Fs.Fat32.NameScan
import Lumin.Fs.Fat32.ShortNames
import Lumin.Fs.Fat32.FailedCreate
import Lumin.Fs.Fat32.Capture
import Lumin.Fs.Fat32.Mount
import Lumin.Fs.Fat32.Listing
import Lumin.Fs.Fat32.Handles
import Lumin.Fs.Fat32.Mirror
import Lumin.Fs.Fat32.WalkEnds
import Lumin.Fs.Fat32.OwnData
import Lumin.Fs.Procfs
import Lumin.Fs.Devfs
import Lumin.Block.Partition
import Lumin.Fs.Pipe
import Lumin.Fs.TmpfsFile
import Lumin.Fs.TmpfsHandles
import Lumin.Fs.TmpfsHoles
import Lumin.Fs.TmpfsNames
import Lumin.Proc.PathComponents
import Lumin.Fs.ParentPath
import Lumin.Fs.ChildMounts
import Lumin.Proc.StackStores
import Lumin.Proc.ElfCleanup
import Lumin.Proc.ElfConfinement
import Lumin.Proc.ElfBudget
import Lumin.Lib.Digits
import Lumin.Libc.Strtol
import Lumin.Libc.Strtoul
import Lumin.Libc.Scanf
import Lumin.Libc.StdioErrors
import Lumin.Libc.Qsort
import Lumin.Libc.Strtok
import Lumin.Libc.MemFunctions
import Lumin.Os.Scancodes
import Lumin.Drivers.Fb
import Lumin.Drivers.FbText
import Lumin.Drivers.Rtc
import Lumin.Drivers.Acpi
import Lumin.Drivers.Pci
import Lumin.User.CopyMove
import Lumin.User.Ed
import Lumin.Mm.BootFrames
import Lumin.Proc.DupCalls
import Lumin.Proc.PipeCreate
import Lumin.Fs.PipePage
import Lumin.Fs.DevfsFailures
import Lumin.Fs.Fat32.LfnAssembly
import Lumin.Libc.BlockSizes
import Lumin.Libc.HeapContents
import Lumin.Lib.Sheet
import Lumin.Lib.SpinLock
import Lumin.Drivers.Vga
import Lumin.Drivers.Consoles
import Lumin.User.Tokenize
import Lumin.User.Typing
import Lumin.User.Echo
import Lumin.Mm.PmmLock
import Lumin.Fs.Fat32.FileStore
