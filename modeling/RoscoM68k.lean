import RoscoM68k.Base.Memory
import RoscoM68k.Base.Linked
import RoscoM68k.Base.Tiers
import RoscoM68k.Base.Sequences
import RoscoM68k.Base.Overlay
import RoscoM68k.Base.Fields
import RoscoM68k.Base.LineRing
import RoscoM68k.Base.Loops
import RoscoM68k.Base.Slices
import RoscoM68k.Base.Blitter
import RoscoM68k.Kernel.List
import RoscoM68k.Kernel.ListRuns
import RoscoM68k.Kernel.ListChain
import RoscoM68k.Kernel.Machine
import RoscoM68k.Kernel.FreeList
import RoscoM68k.Kernel.Pmm
import RoscoM68k.Kernel.PmmRep
import RoscoM68k.Kernel.PmmSpec
import RoscoM68k.Kernel.PmmRuns
import RoscoM68k.Kernel.PmmRequests
import RoscoM68k.Kernel.Bitmap
import RoscoM68k.Kernel.Slots
import RoscoM68k.Kernel.Slab
import RoscoM68k.Kernel.SlabRep
import RoscoM68k.Kernel.SlabSpec
import RoscoM68k.Kernel.SlabAlloc
import RoscoM68k.Kernel.SlabRuns
import RoscoM68k.Kernel.SlabReuse
import RoscoM68k.Kernel.SlabDrain
import RoscoM68k.Kernel.Task
import RoscoM68k.Kernel.Services
import RoscoM68k.Kernel.InterruptLevel
import RoscoM68k.Kernel.TaskQueue
import RoscoM68k.Kernel.TaskFrame
import RoscoM68k.Kernel.TaskSwitch
import RoscoM68k.Kernel.TaskState
import RoscoM68k.Kernel.TaskDispatch
import RoscoM68k.Kernel.TaskRuns
import RoscoM68k.Kernel.TaskSteps
import RoscoM68k.Kernel.TaskCalls
import RoscoM68k.Kernel.TaskExit
import RoscoM68k.Kernel.TaskStart
import RoscoM68k.Kernel.TaskSuspend
import RoscoM68k.Kernel.InterruptFrame
import RoscoM68k.Kernel.Vectors
import RoscoM68k.Kernel.IrqChains
import RoscoM68k.Firmware.Elf
import RoscoM68k.Firmware.ElfLoad
import RoscoM68k.Firmware.ElfImage
import RoscoM68k.Firmware.ElfResult
import RoscoM68k.Firmware.Xansi
import RoscoM68k.Firmware.XansiParser
import RoscoM68k.Firmware.XansiBounds
import RoscoM68k.Firmware.XansiCursor
import RoscoM68k.Firmware.XansiRuns
import RoscoM68k.Firmware.XansiParams
import RoscoM68k.Firmware.XansiMoves
import RoscoM68k.Firmware.XansiErase
import RoscoM68k.Firmware.XansiColors
import RoscoM68k.Firmware.Vdpcon
import RoscoM68k.Firmware.VdpconRuns
import RoscoM68k.Firmware.Divmod
import RoscoM68k.Firmware.Easy68kPrint
import RoscoM68k.Firmware.Menu
import RoscoM68k.Firmware.MenuRuns
import RoscoM68k.Firmware.Bbsd
import RoscoM68k.Firmware.Spi
import RoscoM68k.Firmware.SpiRuns
import RoscoM68k.Firmware.SpiCalls
import RoscoM68k.Firmware.XoseraBlit
import RoscoM68k.Firmware.BootRects
import RoscoM68k.Firmware.XansiScroll
import RoscoM68k.Firmware.Easy68kTrap
import RoscoM68k.Firmware.Easy68kReturns
import RoscoM68k.Firmware.Easy68kTasks
import RoscoM68k.Firmware.XansiOverlay
import RoscoM68k.Firmware.XansiOverlayRuns
import RoscoM68k.Base.ByteStrings
import RoscoM68k.Libs.Compare
import RoscoM68k.Libs.Copy
import RoscoM68k.Libs.Strtol
import RoscoM68k.Libs.StrtolRuns
import RoscoM68k.Libs.Itoa
import RoscoM68k.Libs.Readline
import RoscoM68k.Libs.Shmall
import RoscoM68k.Libs.ShmallRuns
import RoscoM68k.Firmware.Pcx
import RoscoM68k.Firmware.BbsdWrite
import RoscoM68k.Firmware.BbsdRead
import RoscoM68k.Firmware.Ata
import RoscoM68k.Firmware.AtaSectors
import RoscoM68k.Base.Rings
import RoscoM68k.Libs.UartBuffer
import RoscoM68k.Libs.UartBufferRuns
import RoscoM68k.Libs.GdbInput
import RoscoM68k.Base.Words
import RoscoM68k.Software.SdfatMenu
import RoscoM68k.Software.SdfatMenuRuns
import RoscoM68k.Base.Endian
import RoscoM68k.Tools.R68kMemory
import RoscoM68k.Tools.AddressDecoder
import RoscoM68k.Base.History
import RoscoM68k.Base.Faults
import RoscoM68k.Firmware.Lzg
import RoscoM68k.Firmware.LzgEncode
import RoscoM68k.Firmware.LzgTokens
import RoscoM68k.Firmware.LzgDecode
import RoscoM68k.Firmware.LzgSearch
import RoscoM68k.Firmware.LzgRoundTrip
import RoscoM68k.Firmware.LzgMini
import RoscoM68k.Firmware.LzgMiniRuns
import RoscoM68k.Firmware.LzgMiniBounds
import RoscoM68k.Firmware.Decompress
import RoscoM68k.Base.Bursts
import RoscoM68k.Base.Window
import RoscoM68k.Firmware.Kermit
import RoscoM68k.Firmware.KermitRun
import RoscoM68k.Firmware.KermitPackets
import RoscoM68k.Firmware.KermitSend
import RoscoM68k.Firmware.KermitData
import RoscoM68k.Firmware.KermitFields
import RoscoM68k.Firmware.KermitSession
import RoscoM68k.Firmware.KermitTransitions
import RoscoM68k.Firmware.KermitTransfers
import RoscoM68k.Firmware.KermitLine
import RoscoM68k.Firmware.KermitReading
import RoscoM68k.Firmware.KermitSlots
import RoscoM68k.Firmware.KermitLoading
import RoscoM68k.Firmware.KermitAttributes
import RoscoM68k.Firmware.KermitFiles
