import Leoman.Pm
import Leoman.HeapSafety
import Leoman.FrameLaw
import Leoman.StaleTlb
import Leoman.Fifo
import Leoman.Crossing
import Leoman.Resident
import Leoman.Ledger
import Leoman.FailedSend
import Leoman.Reservation
import Leoman.MergeExact
import Leoman.SarRoundTrip
import Leoman.SarRegions
import Leoman.OverRead
import Leoman.Trampoline
import Leoman.Preemption
import Leoman.Keyboard
import Leoman.PrintLock
import Leoman.RealMemory
import Leoman.Terminals
import Leoman.Puts
import Leoman.Directory
import Leoman.KernelProcess
import Leoman.UserWrites
import Leoman.FirstFit
import Leoman.PacketSlots
import Leoman.VgaText
import Leoman.KernelSpace
import Leoman.NameDirectory
import Leoman.MapPages
import Leoman.NoTrace
import Leoman.MapMemory
import Leoman.Elf
import Leoman.FindNext
import Leoman.Pci
import Leoman.IsoLookup
import Leoman.ElfBoot
import Leoman.Shift
import Leoman.SarWalk
import Leoman.Smp
import Leoman.Format
import Leoman.Digits
import Leoman.MapsPages
import Leoman.ProcLoad
import Leoman.Isolation
import Leoman.InitrdLoads
import Leoman.Suspension
import Leoman.KernelStacks
import Leoman.RecvQueues
import Leoman.BootSpace
import Leoman.Awake
import Leoman.StartupStacks
