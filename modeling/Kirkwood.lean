import Kirkwood.Verified.CInt
import Kirkwood.Verified.Align
import Kirkwood.Verified.ByteMem
import Kirkwood.Verified.Outcome
import Kirkwood.Verified.Interval
import Kirkwood.Verified.Trans
import Kirkwood.Verified.Ring
import Kirkwood.Verified.Table
import Kirkwood.Verified.Cbc
import Kirkwood.Verified.Blocks
import Kirkwood.Verified.Blockwise
import Kirkwood.Verified.Crc
import Kirkwood.Verified.Mask
import Kirkwood.Verified.Alloc
import Kirkwood.Verified.Calendar
import Kirkwood.Verified.Hamming
import Kirkwood.Verified.WriteBack
import Kirkwood.Verified.Hoare
import Kirkwood.Verified.Fields
import Kirkwood.Verified.DayCount
import Kirkwood.Verified.Loop
import Kirkwood.Verified.IntExpr
import Kirkwood.Verified.Unwind
import Kirkwood.Verified.LockOrder
import Kirkwood.Verified.Rounding
import Kirkwood.Verified.Arm
import Kirkwood.Verified.Fpa
import Kirkwood.Verified.FpaRun
import Kirkwood.Verified.FpaRegs
import Kirkwood.Ports.BlockStore
import Kirkwood.Ports.BlockStoreIo
import Kirkwood.Ports.BlockStoreIoSound
import Kirkwood.Ports.PartTable
import Kirkwood.Ports.PartTableNames
import Kirkwood.Ports.PartTableSound
import Kirkwood.Ports.PartTableComplete
import Kirkwood.Ports.PartTableUnique
import Kirkwood.Ports.DiskRegistry
import Kirkwood.Ports.SdioTransfer
import Kirkwood.Ports.SataTags
import Kirkwood.Ports.SataIdentify
import Kirkwood.Ports.SataStart
import Kirkwood.Ports.SataRequest
import Kirkwood.Ports.SataEncode
import Kirkwood.Ports.SataData
import Kirkwood.Ports.SataQueue
import Kirkwood.Ports.SataResponse
import Kirkwood.Ports.SataProcs
import Kirkwood.Ports.SataReturn
import Kirkwood.Ports.CesaWords
import Kirkwood.Ports.AesCbc
import Kirkwood.Ports.CesaAccess
import Kirkwood.Ports.CesaHash
import Kirkwood.Ports.StoreChan
import Kirkwood.Ports.StoreChanStale
import Kirkwood.Ports.StoreChanOpen
import Kirkwood.Ports.EtherTransmit
import Kirkwood.Ports.EtherReceive
import Kirkwood.Ports.Crc32
import Kirkwood.Ports.Trap
import Kirkwood.Ports.TrapDispatch
import Kirkwood.Ports.TrapEntry
import Kirkwood.Ports.XorPorts
import Kirkwood.Ports.XorWaiters
import Kirkwood.Ports.XorIntr
import Kirkwood.Ports.DevRtc
import Kirkwood.Ports.RtcCalendar
import Kirkwood.Ports.RtcHours
import Kirkwood.Ports.KwNand
import Kirkwood.Ports.NandGeometry
import Kirkwood.Ports.DevEfuse
import Kirkwood.Ports.DevEfuseRead
import Kirkwood.Ports.DevEther
import Kirkwood.Ports.EtherCache
import Kirkwood.Ports.EtherIntr
import Kirkwood.Ports.CacheOps
import Kirkwood.Ports.Spl
import Kirkwood.Ports.XorDma
import Kirkwood.Ports.StoreInit
import Kirkwood.Ports.DevBs
import Kirkwood.Ports.DevBsAccess
import Kirkwood.Ports.DevBsInit
import Kirkwood.Ports.DevBsChan
import Kirkwood.Ports.DevBsSafe
import Kirkwood.Ports.DevBsWstat
import Kirkwood.Ports.BootConf
import Kirkwood.Ports.BootOptions
import Kirkwood.Ports.SdAddress
import Kirkwood.Ports.SdInit
import Kirkwood.Ports.SdInitSound
import Kirkwood.Ports.SdResponse
import Kirkwood.Ports.SdBits
import Kirkwood.Ports.DevBsRelock
import Kirkwood.Ports.DevBsBalance
import Kirkwood.Ports.UartKirkwood
import Kirkwood.Ports.UartStream
import Kirkwood.Ports.UartBaud
import Kirkwood.Ports.Mkuimage
import Kirkwood.Ports.PartIndex
import Kirkwood.Ports.FpiArm
import Kirkwood.Ports.FpEmu
import Kirkwood.Ports.FpEmuRun
import Kirkwood.Ports.FpTrap
import Kirkwood.Ports.DesCbc
