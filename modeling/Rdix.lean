import Rdix.Fs.Zones
import Rdix.Fs.BmapApart
import Rdix.Fs.BufferKeys
import Rdix.Fs.Tables
import Rdix.Fs.Pwd
import Rdix.Kernel.Device
import Rdix.Kernel.HeapRun
import Rdix.Kernel.FreePages
import Rdix.Kernel.Fresh
import Rdix.Kernel.KpageRun
import Rdix.Usb.Handler
import Rdix.Kernel.Tree
import Rdix.Kernel.Mutex
import Rdix.Kernel.Disk
import Rdix.Kernel.ListNode
import Rdix.Kernel.HeapTasks
import Rdix.Kernel.Keyboard
import Rdix.Fs.Truncate
import Rdix.Fs.InodeRead
import Rdix.Fs.File
import Rdix.Fs.Files
import Rdix.Fs.Descriptors
import Rdix.Fs.Directory
import Rdix.Fs.FindEntry
import Rdix.Fs.AddEntry
import Rdix.Fs.Resolve
import Rdix.Fs.Imap
import Rdix.Fs.Seek
import Rdix.Fs.BufferCounts
import Rdix.Kernel.Elevator
import Rdix.Kernel.Fault
import Rdix.Fs.Failure
import Rdix.Fs.InodeTable
import Rdix.Fs.FailedOpen
import Rdix.Fs.Rmdir
import Rdix.Kernel.HbaSlot
import Rdix.Kernel.Mmio
import Rdix.Kernel.HeapDrop
import Rdix.Kernel.Clock
import Rdix.Kernel.Acpi
import Rdix.Kernel.Interrupt
import Rdix.Kernel.DevTable
import Rdix.Kernel.Transfer
import Rdix.Kernel.Ready
import Rdix.Kernel.Sleep
import Rdix.Kernel.Wakeup
import Rdix.Fs.WriteBack
import Rdix.Fs.FullPool
import Rdix.Fs.LoneCache
import Rdix.Kernel.Vsprintf
import Rdix.Usb.Interfaces
import Rdix.Usb.DescTree
import Rdix.Kernel.PutString
import Rdix.Kernel.Search
import Rdix.Kernel.Gdt
import Rdix.Kernel.Syscall
import Rdix.Kernel.Entry
import Rdix.Shell.CmdParse
import Rdix.Shell.Readline
import Rdix.Shell.Osh
import Rdix.Shell.Listing
import Rdix.Lib.BitField
import Rdix.Fs.DirEmpty
import Rdix.Kernel.PciInit
