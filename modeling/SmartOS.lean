import SmartOS.Lib.Loop
import SmartOS.Lib.Run
import SmartOS.Lib.Linked
import SmartOS.Lib.Cycle
import SmartOS.Lib.Memory
import SmartOS.Lib.Bits
import SmartOS.Lib.Calls
import SmartOS.Lib.Stack
import SmartOS.Lib.Paint
import SmartOS.Lib.Pool
import SmartOS.Lib.Chain
import SmartOS.Lib.Polling
import SmartOS.Lib.Cells
import SmartOS.Lib.Controller
import SmartOS.Lib.Region
import SmartOS.Lib.Refine
import SmartOS.Bytes
import SmartOS.MMU.Basic
import SmartOS.MMU.Tables
import SmartOS.MMU.Directory
import SmartOS.MMU.Clone
import SmartOS.MMU.Paging
import SmartOS.MMU.Rights
import SmartOS.MMU.Frames
import SmartOS.MMU.PageSearch
import SmartOS.MMU.Merge
import SmartOS.MMU.Init
import SmartOS.MMU.Reload
import SmartOS.MMU.Allocators
import SmartOS.MMU.Layout
import SmartOS.Heap.Basic
import SmartOS.Heap.Blocks
import SmartOS.Heap.Operations
import SmartOS.Heap.Malloc
import SmartOS.Heap.Free
import SmartOS.Heap.Run
import SmartOS.Scheduler.Basic
import SmartOS.Scheduler.Run
import SmartOS.Scheduler.Fair
import SmartOS.Scheduler.Select
import SmartOS.Scheduler.Sleep
import SmartOS.Heap.Heaps
import SmartOS.Scheduler.Spaces
import SmartOS.FAT16.Basic
import SmartOS.FAT16.Layout
import SmartOS.FAT16.Files
import SmartOS.FAT16.Table
import SmartOS.FAT16.Links
import SmartOS.FAT16.Read
import SmartOS.FAT16.Write
import SmartOS.FAT16.Names
import SmartOS.FAT16.ShortNames
import SmartOS.FAT16.Directory
import SmartOS.FAT16.Search
import SmartOS.FAT16.Listing
import SmartOS.FAT16.Open
import SmartOS.FAT16.Accesses
import SmartOS.FAT16.Termination
import SmartOS.FAT16.NameBuffers
import SmartOS.FAT16.Device
import SmartOS.FAT16.Stack
import SmartOS.FAT16.Store
import SmartOS.IDE.Basic
import SmartOS.IDE.Commands
import SmartOS.IDE.Transfer
import SmartOS.IDE.Addressing
import SmartOS.IDE.Identify
import SmartOS.IDE.Discovery
import SmartOS.Boot.Basic
import SmartOS.Boot.Status
import SmartOS.Boot.Load
import SmartOS.Interrupt.Basic
import SmartOS.Interrupt.Frame
import SmartOS.Interrupt.Segments
import SmartOS.Interrupt.PIC
import SmartOS.Scheduler.Switch
import SmartOS.Scheduler.Rings
import SmartOS.Keyboard.Basic
import SmartOS.Keyboard.Typing
import SmartOS.Mouse.Basic
import SmartOS.Mouse.Packets
import SmartOS.Interrupt.Devices
import SmartOS.Graphics.Basic
import SmartOS.Graphics.Compose
import SmartOS.Graphics.Targa
import SmartOS.Graphics.Window
import SmartOS.Graphics.Font
import SmartOS.PCI.Basic
import SmartOS.PS2.Basic
import SmartOS.PS2.Handshake
import SmartOS.Strings.Basic
import SmartOS.Strings.Digits
import SmartOS.Strings.Numbers
import SmartOS.Strings.Printf
import SmartOS.Vector.Basic
