import KernelC.Lib.Run
import KernelC.Lib.Play
import KernelC.Lib.Paging
import KernelC.Boot.AddressSpace
import KernelC.Lib.Path
import KernelC.Lib.Ring
import KernelC.Lib.ByteMem
import KernelC.Lib.BlockList
import KernelC.Lib.Gaps
import KernelC.Lib.FirstFit
import KernelC.Lib.Terminal
import KernelC.Lib.CircularBuffer
import KernelC.Lib.WordStack
import KernelC.Lib.Turns
import KernelC.Lib.Shares
import KernelC.Lib.Reading
import KernelC.Lib.Level
import KernelC.Lib.Decimal
import KernelC.Lib.Buffer
import KernelC.Libc.String
import KernelC.Printers
import KernelC.Fat16.Basic
import KernelC.Fat16.Chain
import KernelC.Fat16.AnyTable
import KernelC.Fat16.Calls
import KernelC.Fat16.Ownership
import KernelC.Fat16.ReadBack
import KernelC.Fat16.Tree
import KernelC.Fat16.Lookup
import KernelC.Fat16.Covered
import KernelC.Fat16.Capacity
import KernelC.Fat16.Leaks
import KernelC.Fat16.Directories
import KernelC.Fat16.Names
import KernelC.Fat16.NullExt
import KernelC.Fat16.Listing
import KernelC.Fat16.Store
import KernelC.Fat16.Refinement
import KernelC.Fat16.Balance
import KernelC.Fat16.Boot
import KernelC.Fat16.Openable
import KernelC.Malloc.Basic
import KernelC.Malloc.Layout
import KernelC.Malloc.Blocks
import KernelC.Malloc.Frame
import KernelC.Malloc.Realloc
import KernelC.Malloc.User
import KernelC.Malloc.Kernel
import KernelC.Malloc.Canonical
import KernelC.Malloc.FirstFit
import KernelC.Malloc.Stats
import KernelC.Malloc.Data
import KernelC.Malloc.Fragments
import KernelC.Malloc.Sizes
import KernelC.Malloc.Brk
import KernelC.Malloc.Thread
import KernelC.Malloc.Tail
import KernelC.Malloc.DoubleFree
import KernelC.Multitask.Basic
import KernelC.Multitask.Lists
import KernelC.Multitask.Invariant
import KernelC.Multitask.Ending
import KernelC.Multitask.Creation
import KernelC.Multitask.Ticks
import KernelC.Multitask.Runs
import KernelC.Multitask.Preempt
import KernelC.Multitask.Uninterrupted
import KernelC.Multitask.PreemptInv
import KernelC.Multitask.PreemptReap
import KernelC.Multitask.PreemptStop
import KernelC.Multitask.PreemptSteps
import KernelC.Multitask.PreemptRuns
import KernelC.Multitask.RoundRobin
import KernelC.Multitask.SingleRunning
import KernelC.Multitask.Liveness
import KernelC.Multitask.TaskList
import KernelC.Multitask.Isr
import KernelC.Multitask.Context
import KernelC.Multitask.Dispatch
import KernelC.Multitask.Fairness
import KernelC.Multitask.Resources
import KernelC.Multitask.Ledger
import KernelC.Multitask.Conservation
import KernelC.Multitask.InitialFrame
import KernelC.Interrupt.Handlers
import KernelC.Interrupt.SystemCall
import KernelC.Interrupt.Idt
import KernelC.Vga.Basic
import KernelC.Vga.Scroll
import KernelC.Vga.Position
import KernelC.Vga.Backspace
import KernelC.Vga.Cursor
import KernelC.Vga.Clock
import KernelC.Vga.Echo
import KernelC.Keyboard.Basic
import KernelC.Keyboard.Queue
import KernelC.Keyboard.Modifiers
import KernelC.Keyboard.Typing
import KernelC.Time.Basic
import KernelC.Time.WallClock
import KernelC.Time.Uptime
import KernelC.Power.Basic
import KernelC.Power.S5
import KernelC.Power.Reads
import KernelC.Syscall.Load
import KernelC.Syscall.Programs
import KernelC.Syscall.Kmain
import KernelC.User.Terminal
import KernelC.User.LineEdit
import KernelC.User.Session
import KernelC.User.Htop
import KernelC.User.Display
import KernelC.User.InputBuffer
