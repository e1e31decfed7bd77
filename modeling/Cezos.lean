import Cezos.Lib.Outcome
import Cezos.Lib.Chain
import Cezos.Lib.Radix
import Cezos.Lib.Tlb
import Cezos.Mmu
import Cezos.Kernel.State
import Cezos.Kernel.Alloc
import Cezos.Kernel.Kmap
import Cezos.Kernel.Boot
import Cezos.Kernel.Proc
import Cezos.Kernel.Spec
import Cezos.Kernel.TableSpec
import Cezos.Kernel.FrameInv
import Cezos.Kernel.Effect
import Cezos.Kernel.CallInv
import Cezos.Kernel.PageCalls
import Cezos.Kernel.SelfMap
import Cezos.Kernel.BootAlloc
import Cezos.Kernel.PageList
import Cezos.Kernel.Relink
import Cezos.Kernel.SetupPages
import Cezos.Kernel.MapRegion
import Cezos.Kernel.Layout
import Cezos.Kernel.CheckDir
import Cezos.Kernel.KernLayout
import Cezos.Kernel.Walk
import Cezos.Kernel.SelfTest
import Cezos.Kernel.Booted
import Cezos.Kernel.Initialize
import Cezos.Kernel.Coherence
import Cezos.Kernel.BootCoherence
import Cezos.Kernel.Window
import Cezos.Kernel.Tasks
import Cezos.Lib.Simulation
import Cezos.Stdio.Printfmt
import Cezos.Stdio.Refine
import Cezos.Stdio.Snprintf
import Cezos.Lib.Tally
import Cezos.Kernel.Counted
import Cezos.Kernel.Reserved
import Cezos.Lib.Trace
import Cezos.Kernel.AllocRuns
import Cezos.Kernel.Search
import Cezos.Kernel.MapCalls
import Cezos.Stdio.Silent
import Cezos.Stdio.Printf
import Cezos.Lib.Blit
import Cezos.Lib.Keeps
import Cezos.Lib.Appends
import Cezos.Lib.Frames
import Cezos.Lib.Screen
import Cezos.Lib.Ring
import Cezos.Console.Cga
import Cezos.Console.Scrollback
import Cezos.Console.Input
import Cezos.Console.Fifo
import Cezos.Console.Readline
import Cezos.Lib.Ends
import Cezos.Loader.Disk
import Cezos.Loader.Kload
import Cezos.Kernel.EarlyAlloc
import Cezos.Kernel.LowPages
import Cezos.Kernel.Conversions
import Cezos.Kernel.TaskSpace
import Cezos.Kernel.RegionExact
import Cezos.Stdio.Output
import Cezos.Stdio.Format
import Cezos.Stdio.Fields
import Cezos.Stdio.Scanner
import Cezos.Stdio.Width
import Cezos.Stdio.NumberField
import Cezos.Stdio.StringField
import Cezos.Stdio.Compose
import Cezos.Lib.Clean
import Cezos.Stdio.Arithmetic
import Cezos.Strings.Memory
import Cezos.Strings.Compare
import Cezos.Console.Streams
import Cezos.Console.Cursor
import Cezos.Console.Frames
import Cezos.Console.Editor
import Cezos.Console.Command
import Cezos.Console.Overrun
import Cezos.Console.Modifiers
import Cezos.Console.Controller
import Cezos.Console.Typing
import Cezos.Console.Session
import Cezos.Console.Init
import Cezos.Console.Ports
import Cezos.Console.Devices
import Cezos.Strings.Fill
import Cezos.Strings.Copy
import Cezos.Strings.Search
import Cezos.Strings.Strtol
import Cezos.Strings.RoundTrip
import Cezos.Loader.Readseg
import Cezos.Kernel.Lookup
import Cezos.Kernel.TaskList
import Cezos.Kernel.Rounding
import Cezos.Stdio.Printnum
import Cezos.Lib.LongDivision
import Cezos.Lib.FirstSet
import Cezos.Lib.Lanes
import Cezos.Arch64.Words
import Cezos.Arch64.Count
import Cezos.Arch64.Division
import Cezos.Arch64.Linked
import Cezos.Lib.Spaces
import Cezos.Kernel.Rewalk
import Cezos.Kernel.VmRuns
import Cezos.Kernel.VmSpaces
import Cezos.Kernel.VmPages
import Cezos.Kernel.VmProgress
import Cezos.Kernel.VmContents
import Cezos.Kernel.VmKernel
import Cezos.Kernel.Segments
import Cezos.Console.Terminal
import Cezos.Kernel.PrintedBuild
import Cezos.Kernel.PrintedTest
