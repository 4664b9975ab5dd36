import ChalesOs.Boot.LoadSegment
import ChalesOs.Boot.MemoryMap
import ChalesOs.Console.Colours
import ChalesOs.Console.KeyboardRing
import ChalesOs.Console.ReadLine
import ChalesOs.Elf.Arguments
import ChalesOs.Elf.Extent
import ChalesOs.Elf.Protection
import ChalesOs.Interrupts.Irq
import ChalesOs.Interrupts.IrqRuns
import ChalesOs.Interrupts.Ports
import ChalesOs.Kernel.Runs
import ChalesOs.Kernel.Syscall
import ChalesOs.Memory.KmallocRuns
import ChalesOs.Memory.Memmove
import ChalesOs.Newlib.Files
import ChalesOs.Newlib.ReadBack
import ChalesOs.Process.Break
import ChalesOs.Process.Handover
import ChalesOs.Process.Restore
import ChalesOs.Process.Rollback
import ChalesOs.Process.Switch
import ChalesOs.Ramfs.Content
import ChalesOs.Ramfs.Listing
import ChalesOs.Ramfs.Lookup
import ChalesOs.Ramfs.MadeDirs
import ChalesOs.Ramfs.Overrun
import ChalesOs.Ramfs.ShortWrites
import ChalesOs.Ramfs.Status
import ChalesOs.Ramfs.Streams
import ChalesOs.Ramfs.WriteBounds
import ChalesOs.Shell.Cat
import ChalesOs.Shell.Commands
import ChalesOs.Shell.ReadLine
import ChalesOs.Shell.Words
import ChalesOs.Shell.Write
import ChalesOs.Stdio.Formatters
import ChalesOs.Stdio.NumberText
