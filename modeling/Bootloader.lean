import Bootloader.Lib.Transition
import Bootloader.Lib.Memory
import Bootloader.Lib.TwoWire
import Bootloader.Lib.Loop
import Bootloader.Lib.Layout
import Bootloader.Lib.Rank
import Bootloader.Lib.KeyCache
import Bootloader.Lib.TwoPoint
import Bootloader.FileBuf
import Bootloader.RingInv
import Bootloader.Ring
import Bootloader.Flash
import Bootloader.Image
import Bootloader.Session
import Bootloader.Frame
import Bootloader.Config
import Bootloader.Device
import Bootloader.History
import Bootloader.Branches
import Bootloader.Threads
import Bootloader.Receive
import Bootloader.Payload
import Bootloader.Reply
import Bootloader.HandOver
import Bootloader.EraseRequest
import Bootloader.EraseCoverage
import Bootloader.BootSafety
import Bootloader.Commit
import Bootloader.Download
import Bootloader.Isolation
import Bootloader.DownloadBound
import Bootloader.Discipline
import Bootloader.WithinImage
import Bootloader.Verdict
import Bootloader.Stale
import Bootloader.Commu
import Bootloader.I2cMaster
import Bootloader.I2cTransfer
import Bootloader.I2cAbort
import Bootloader.Eeprom
import Bootloader.EepromChip
import Bootloader.EepromPins
import Bootloader.ConfigRepair
import Bootloader.ConfigBoot
import Bootloader.BootKey
import Bootloader.Identity
import Bootloader.BlockTable
import Bootloader.SerialRing
import Bootloader.SubBoard
import Bootloader.SubSite
import Bootloader.Spi
import Bootloader.Calibration
import Bootloader.CalibrationLimits
import Bootloader.CalibrationCache
import Bootloader.CalibrationFit
import Bootloader.EthTx
import Bootloader.Lib.Words
import Bootloader.Lib.Tiling
import Bootloader.Heap
import Bootloader.HeapChain
import Bootloader.HeapAlloc
import Bootloader.HeapOps
import Bootloader.HeapStore
import Bootloader.Lib.ByteCode
import Bootloader.Lib.Queues
import Bootloader.Lib.Sync
import Bootloader.Finsh
import Bootloader.FinshEval
import Bootloader.FinshCompile
import Bootloader.FinshRun
import Bootloader.Kernel
import Bootloader.KernelLists
import Bootloader.KernelInv
import Bootloader.KernelEffect
import Bootloader.KernelObjects
import Bootloader.KernelInherit
import Bootloader.TimerExact
