import MyOs.Lib.Transition
import MyOs.Lib.CyclicScan
import MyOs.Lib.Memory
import MyOs.Lib.LinkedList
import MyOs.Lib.FreeChunks
import MyOs.Lib.Bits
import MyOs.Lib.Words
import MyOs.Lib.Radix
import MyOs.Lib.LongDivision
import MyOs.Lib.Ownership
import MyOs.Lib.Extent
import MyOs.Lib.Word
import MyOs.Lib.Fallible
import MyOs.Lib.Ring
import MyOs.Lib.Census
import MyOs.Lib.ExchangeSort
import MyOs.Lib.Shares
import MyOs.Lib.Locking
import MyOs.Libco.Definitions
import MyOs.Libco.Invariant
import MyOs.Libco.Pool
import MyOs.Libco.Lifecycle
import MyOs.Libco.Scheduler
import MyOs.Pmm.Definitions
import MyOs.Pmm.Rounding
import MyOs.Pmm.Pages
import MyOs.Pmm.Slab
import MyOs.Pmm.FreeList
import MyOs.Pmm.Heap
import MyOs.Pmm.Operations
import MyOs.Pmm.Init
import MyOs.Pmm.Machine
import MyOs.Pmm.PageArea
import MyOs.Pmm.Alone
import MyOs.Pmm.Moves
import MyOs.Pmm.Invariant
import MyOs.Pmm.Safety
import MyOs.Pmm.OwnCpu
import MyOs.Pmm.Growth
import MyOs.Pmm.Sequential
import MyOs.Pmm.PageMap
import MyOs.Pmm.Alignment
import MyOs.Pmm.Exhaustion
import MyOs.Pmm.Containment
import MyOs.Pmm.Undo
import MyOs.Pmm.Locks
import MyOs.Disk.Definitions
import MyOs.Disk.Rounds
import MyOs.Disk.Flat
import MyOs.Disk.Tasks
import MyOs.Disk.Concurrent
import MyOs.Events.Definitions
import MyOs.Events.Keyboard
import MyOs.Events.Queue
import MyOs.Console.Definitions
import MyOs.Console.Grid
import MyOs.Console.Marking
import MyOs.Console.Render
import MyOs.Console.Redraw
import MyOs.Console.Switch
import MyOs.Console.Cooked
import MyOs.Console.Lines
import MyOs.Am.Keys
import MyOs.Amgame.Craft
import MyOs.Console.Backspace
import MyOs.Console.Terminal
import MyOs.Crepl.Definitions
import MyOs.Crepl.Session
import MyOs.Klib.Printf
import MyOs.Klib.Numbers
import MyOs.Klib.Formats
import MyOs.Klib.Pointers
import MyOs.Klib.Standard
import MyOs.Klib.Atoi
import MyOs.Klib.Malloc
import MyOs.Klib.Int64
import MyOs.Klib.Division
import MyOs.Klib.Strings
import MyOs.Lib.Split
import MyOs.Sperf.Definitions
import MyOs.Sperf.Table
import MyOs.Sperf.Report
import MyOs.Sperf.Parser
import MyOs.Sperf.Fields
import MyOs.Lib.Preorder
import MyOs.Lib.SelectionSort
import MyOs.Pstree.Definitions
import MyOs.Pstree.Load
import MyOs.Pstree.Passes
import MyOs.Pstree.Stat
import MyOs.Pstree.Tree
import MyOs.Vme.Definitions
import MyOs.Vme.Tables
import MyOs.Vme.Walk
import MyOs.Vme.Operations
import MyOs.Vme.Spaces
import MyOs.Boot.Loader
import MyOs.Cte.Definitions
import MyOs.Cte.Stack
import MyOs.Cte.Trap64
import MyOs.Cte.Trap32
import MyOs.Cte.Iret32
import MyOs.Cte.Switch
import MyOs.Cte.Ports
import MyOs.Cte.Create
import MyOs.Cte.Threads
