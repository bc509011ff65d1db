import XorOS.Simulator.CacheTransparency
import XorOS.Simulator.MmioStaleness
import XorOS.Simulator.LrSc
import XorOS.Simulator.Escapes
import XorOS.Simulator.PcAlignment
import XorOS.Simulator.PreciseTraps
import XorOS.Simulator.CacheOperations
import XorOS.Cache.LfuEviction
import XorOS.Cache.IdealCache
import XorOS.Kernel.Vmem
import XorOS.Kernel.ProcessTable
import XorOS.Kernel.BootSafety
import XorOS.Kernel.Preemption
import XorOS.Kernel.InterruptEnable
import XorOS.Simulator.StepSemantics
import XorOS.Cache.LfuInvariants
import XorOS.Kernel.Pipe
import XorOS.Kernel.RoundRobin
import XorOS.Simulator.ByteMap
import XorOS.Simulator.RoundTrip
import XorOS.Kernel.Spinlock
import XorOS.Simulator.IllegalWords
import XorOS.Simulator.TraceText
import XorOS.Kernel.ContextSwitch
import XorOS.Kernel.TrapEntry
import XorOS.Simulator.CacheReplacement
import XorOS.Simulator.CacheLoad
import XorOS.Simulator.PhysicalAddresses
import XorOS.Simulator.LeafPermissions
import XorOS.Simulator.PrivilegeModes
import XorOS.Simulator.MulDivLaws
import XorOS.Simulator.MoveConstructor
import XorOS.Simulator.InitHistory
import XorOS.Kernel.VmemAliasing
import XorOS.Cache.IdealInvariants
import XorOS.Simulator.BuilderRanges
import XorOS.Simulator.MmioRegisters
import XorOS.Simulator.TrapNesting
import XorOS.Kernel.Clint
import XorOS.Simulator.AtomicWidths
import XorOS.Simulator.SignedArithmetic
import XorOS.Kernel.IdentityPaging
import XorOS.Simulator.Programs
import XorOS.Cache.Comparison
import XorOS.Kernel.PipePreemption
import XorOS.Kernel.TrapHandler
import XorOS.Kernel.Kalloc
import XorOS.System.TraceFile
import XorOS.System.BootCode
import XorOS.System.DebugReport
import XorOS.System.DeviceReads
