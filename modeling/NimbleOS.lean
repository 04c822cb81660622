import NimbleOS.Basic
import NimbleOS.Boot
import NimbleOS.Cpu.Dispatch
import NimbleOS.Cpu.Gdt
import NimbleOS.Cpu.Idt
import NimbleOS.Cpu.Irq
import NimbleOS.Cpu.Keyboard
import NimbleOS.Cpu.Mask
import NimbleOS.Cpu.Remap
import NimbleOS.Cpu.Service
import NimbleOS.Cpu.Stubs
import NimbleOS.Cpu.Syscall
import NimbleOS.Cpu.Timer
import NimbleOS.Kheap
import NimbleOS.Lib.Bitset
import NimbleOS.Lib.ByteMem
import NimbleOS.Lib.CType
import NimbleOS.Lib.Cache
import NimbleOS.Lib.FirstFit
import NimbleOS.Lib.Halting
import NimbleOS.Lib.LastWrite
import NimbleOS.Lib.Layout
import NimbleOS.Lib.Numeral
import NimbleOS.Lib.Ports
import NimbleOS.Lib.Relate
import NimbleOS.Lib.Replay
import NimbleOS.Lib.Ring
import NimbleOS.Lib.Run
import NimbleOS.Lib.Stream
import NimbleOS.Lib.WordStack
import NimbleOS.Libc
import NimbleOS.Libc.Atoi
import NimbleOS.Libc.Aton
import NimbleOS.Libc.Buffer
import NimbleOS.Libc.Field
import NimbleOS.Libc.Format
import NimbleOS.Libc.FormatEnd
import NimbleOS.Libc.Itoa
import NimbleOS.Libc.Memmove
import NimbleOS.Libc.Numeral
import NimbleOS.Libc.Printf
import NimbleOS.Paging
import NimbleOS.Paging.Coherence
import NimbleOS.Paging.Frames
import NimbleOS.Paging.PageMap
import NimbleOS.Paging.Progress
import NimbleOS.Paging.Refine
import NimbleOS.Paging.Rights
import NimbleOS.Paging.Tables
import NimbleOS.Paging.Tlb
import NimbleOS.Paging.VirtToPhys
import NimbleOS.Pmm
import NimbleOS.Pmm.Alloc
import NimbleOS.Pmm.Available
import NimbleOS.Pmm.Counter
import NimbleOS.Pmm.Init
import NimbleOS.Pmm.Ledger
import NimbleOS.Pmm.Marks
import NimbleOS.Pmm.Protect
import NimbleOS.Pmm.Refine
import NimbleOS.Pmm.Search
import NimbleOS.Pmm.Shortage
import NimbleOS.Pmm.Stores
import NimbleOS.Pmm.Walk
import NimbleOS.Proc
import NimbleOS.Proc.Answers
import NimbleOS.Proc.Clone
import NimbleOS.Proc.Contract
import NimbleOS.Proc.Create
import NimbleOS.Proc.Draws
import NimbleOS.Proc.Exit
import NimbleOS.Proc.Failure
import NimbleOS.Proc.FrameZero
import NimbleOS.Proc.Grow
import NimbleOS.Proc.Isolated
import NimbleOS.Proc.Live
import NimbleOS.Proc.Logged
import NimbleOS.Proc.Nested
import NimbleOS.Proc.NullDirectory
import NimbleOS.Proc.Owners
import NimbleOS.Proc.Private
import NimbleOS.Proc.Recount
import NimbleOS.Proc.Replay
import NimbleOS.Proc.Requests
import NimbleOS.Proc.Resume
import NimbleOS.Proc.Reuse
import NimbleOS.Proc.Ring
import NimbleOS.Proc.Shared
import NimbleOS.Proc.Space
import NimbleOS.Proc.Stacks
import NimbleOS.Proc.Startup
import NimbleOS.Proc.Steps
import NimbleOS.Proc.Switch
import NimbleOS.Proc.Turns
import NimbleOS.Tty
import NimbleOS.Tty.Ansi
import NimbleOS.Tty.Arguments
import NimbleOS.Tty.Console
import NimbleOS.Tty.Cursor
import NimbleOS.Tty.Graphics
import NimbleOS.Tty.Independent
import NimbleOS.Tty.Interleave
import NimbleOS.Tty.Lockstep
import NimbleOS.Tty.Overflow
import NimbleOS.Tty.Putchar
import NimbleOS.Tty.Redraw
import NimbleOS.Tty.Render
import NimbleOS.Tty.Screen
import NimbleOS.Tty.Sequence
import NimbleOS.Tty.Window
import NimbleOS.Vm
