import Arm64Baremetal.El3SecureEntry
import Arm64Baremetal.El3Isolation
import Arm64Baremetal.El3Resume
import Arm64Baremetal.El3Pstate
import Arm64Baremetal.A64
import Arm64Baremetal.El3FrameLayout
import Arm64Baremetal.El3Psci
import Arm64Baremetal.SeeReplies
import Arm64Baremetal.KernelSched
import Arm64Baremetal.SchedInvariant
import Arm64Baremetal.SchedLoops
import Arm64Baremetal.SchedIntegrity
import Arm64Baremetal.KernelLocks
import Arm64Baremetal.KernelStacks
import Arm64Baremetal.KernelInterrupt
import Arm64Baremetal.FirstFit
import Arm64Baremetal.KernelMmu
import Arm64Baremetal.PageTree
import Arm64Baremetal.KernelMm
import Arm64Baremetal.PageMap
import Arm64Baremetal.Aes
import Arm64Baremetal.SeeCrypto
import Arm64Baremetal.El3Power
import Arm64Baremetal.El3Stack
import Arm64Baremetal.SchedReaper
import Arm64Baremetal.SchedFifo
import Arm64Baremetal.SchedZombies
import Arm64Baremetal.SchedSleep
import Arm64Baremetal.TaskStacks
import Arm64Baremetal.CreateTask
import Arm64Baremetal.KernelIts
import Arm64Baremetal.ByteMem
import Arm64Baremetal.VirtioBlk
import Arm64Baremetal.Stage1
import Arm64Baremetal.El3Mmu
import Arm64Baremetal.SeeMmu
import Arm64Baremetal.TableBudget
import Arm64Baremetal.SharedView
import Arm64Baremetal.StringScan
import Arm64Baremetal.Numerals
import Arm64Baremetal.KernelUart
import Arm64Baremetal.KernelException
import Arm64Baremetal.TablesRunOut
import Arm64Baremetal.RegionCover
import Arm64Baremetal.HeapRam
import Arm64Baremetal.PageScan
import Arm64Baremetal.EarlyLate
import Arm64Baremetal.El3Blocks
import Arm64Baremetal.SeeStale
import Arm64Baremetal.KernelTlb
import Arm64Baremetal.ForeignMemory
import Arm64Baremetal.SeeCommand
import Arm64Baremetal.SeeCmdCalls
import Arm64Baremetal.ItsPositions
import Arm64Baremetal.ItsSlots
import Arm64Baremetal.LastSet
import Arm64Baremetal.LpiConfig
import Arm64Baremetal.VirtioTasks
import Arm64Baremetal.VirtioBoot
import Arm64Baremetal.SystemTime
import Arm64Baremetal.GicBoot
import Arm64Baremetal.GicConfig
import Arm64Baremetal.DriverManager
import Arm64Baremetal.Exclusive
import Arm64Baremetal.KernelSpinlock
import Arm64Baremetal.TaskQueues
import Arm64Baremetal.SmcCalls
import Arm64Baremetal.Commands
import Arm64Baremetal.ReaperTask
import Arm64Baremetal.SchedCode
import Arm64Baremetal.LockedSections
import Arm64Baremetal.SchedSections
import Arm64Baremetal.SpinlockWakeup
import Arm64Baremetal.UartLock
import Arm64Baremetal.SchedFairness
import Arm64Baremetal.AddressSpace
import Arm64Baremetal.MemoryProtection
import Arm64Baremetal.SchedTimer
import Arm64Baremetal.SecondCore
import Arm64Baremetal.SeeCores
