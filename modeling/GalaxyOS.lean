import GalaxyOS.Lib.Transition
import GalaxyOS.Lib.Monitor
import GalaxyOS.Sched.State
import GalaxyOS.Interface
import GalaxyOS.Pload
import GalaxyOS.Sched.Pick
import GalaxyOS.Sched.Effects
import GalaxyOS.Sched.Dispatch
import GalaxyOS.Sched.Tables
import GalaxyOS.Lib.Segment
import GalaxyOS.Sched.RunQueue
import GalaxyOS.Sched.ThreadLists
import GalaxyOS.Lib.Count
import GalaxyOS.Sched.Waiters
import GalaxyOS.Sched.Zombies
import GalaxyOS.Delivery
import GalaxyOS.Sched.Frames
import GalaxyOS.Vgatty
import GalaxyOS.InterfaceTable
import GalaxyOS.Wakeup
import GalaxyOS.Receive
import GalaxyOS.Sched.Capacity
import GalaxyOS.Sched.ProgramBreak
import GalaxyOS.Sched.Exhaustion
import GalaxyOS.Sched.Loading
import GalaxyOS.Sched.LoadedImage
import GalaxyOS.Sched.LoaderIsolation
import GalaxyOS.Fs.Pathname
import GalaxyOS.Syscall.Read
import GalaxyOS.Sched.Turns
import GalaxyOS.Sched.ExitCodes
import GalaxyOS.Sched.FailedLoads
import GalaxyOS.Sched.KernelHeap
import GalaxyOS.Syscall.Results
import GalaxyOS.Syscall.Listing
import GalaxyOS.Lib.Numeral
import GalaxyOS.Libc.Memchr
import GalaxyOS.Libc.Arrays
import GalaxyOS.Libc.Itoa
import GalaxyOS.Libc.Printf
import GalaxyOS.Libc.Strings
import GalaxyOS.Gsh
import GalaxyOS.Libc.Read
import GalaxyOS.Libc.Sbrk
import GalaxyOS.Fs.Mount
import GalaxyOS.Power
import GalaxyOS.Exception
import GalaxyOS.StackPages
import GalaxyOS.Syscall.UserSpace
import GalaxyOS.Syscall.Setup
import GalaxyOS.Syscall.ExecArgs
import GalaxyOS.Mem.MemoryMap
import GalaxyOS.Fs.IsoRead
import GalaxyOS.Fs.IsoTree
import GalaxyOS.Fs.IsoWalk
import GalaxyOS.Fs.IsoTable
import GalaxyOS.Fs.IsoHostile
import GalaxyOS.Fs.IsoEntries
import GalaxyOS.Fs.ShortName
import GalaxyOS.Fs.FatNodes
import GalaxyOS.Fs.FatHostile
import GalaxyOS.Lib.Ring
import GalaxyOS.Lib.Fifo
import GalaxyOS.Lib.StopAndWait
import GalaxyOS.Keyboard.Handler
import GalaxyOS.Keyboard.Buffer
import GalaxyOS.Keyboard.Readline
import GalaxyOS.Keyboard.Decoding
import GalaxyOS.Keyboard.Commands
import GalaxyOS.Fs.BlockDevices
import GalaxyOS.Lib.Stretch
import GalaxyOS.Mem.Translation
import GalaxyOS.Mem.RoundTrip
import GalaxyOS.Sched.Fork
import GalaxyOS.Sched.Teardown
import GalaxyOS.Sched.Scan
import GalaxyOS.Sched.AlwaysPicks
import GalaxyOS.Mem.LiballocKmalloc
import GalaxyOS.Sched.ProgramHeap
